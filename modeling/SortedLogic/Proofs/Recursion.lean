import Mathlib
import SortedLogic.Proofs.Patterns

/-!
# Functions defined by equations

A definition by equations becomes one law, whose right side takes the arguments apart. Where datatypes are inductive the law has
a solution if all calls descend at one place (`law_has_solution`). The check that is made asks for a part of the first pattern,
which may be the whole of it: `loop n = S (loop n)` passes, and its law has no solution (`loop_law_has_no_solution`).
-/

namespace SortedLogic
open Kernel
open Checked (bind_eq_ok)
open List
open Term hiding sort
open SortedLogic.Frame
universe u
open Gives
variable {s : Srt} {cases : List (Term × Term)} {last t e a b body law p rhs : Term} {P : Symbol → Prop}
  {v : World} {cs : List Symbol} {args es laws patterns : List Term} {d : Definition} {c' f g : Symbol}
  {N i : Nat} {c : Constructor} {u : Standard.Universe fun _ => Nat} {U α β : Type u} {F G : Frame U}

/-! ## Cases -/

/-- The value of the first case whose condition holds. -/
def Term.firstOf (s : Srt) (cases : List (Term × Term)) (last : Term) : Term :=
  cases.foldr (fun p rest => .app (.ite s) [p.1, p.2, rest]) last

theorem Term.sort_firstOf (sort : last.sort = s) : (firstOf s cases last).sort = s := by
  cases cases with
  | nil => exact sort
  | cons => rfl

theorem Term.Sorted.firstOf (sort : last.sort = s)
    (sorted : last.Sorted true []) (each : ∀ p ∈ cases, (p.1.sort = .bool ∧ p.2.sort = s) ∧
      p.1.Sorted true [] ∧ p.2.Sorted true []) :
    (firstOf s cases last).Sorted true [] := by
  induction cases with
  | nil => exact sorted
  | cons p _ ih =>
    obtain ⟨sorts, condition, value⟩ := each p mem_cons_self
    exact sorted_ite.2 ⟨⟨sorts.1, sorts.2, sort_firstOf sort⟩, condition, value, ih fun q mem => each q (mem_cons_of_mem p mem)⟩

theorem Term.Avoids.firstOf
    (free : ∀ f, P f → f.isFree = true) (avoids : last.Avoids P) (each : ∀ p ∈ cases, p.1.Avoids P ∧ p.2.Avoids P) :
    (firstOf s cases last).Avoids P := by
  induction cases with
  | nil => exact avoids
  | cons p cases ih =>
    have rest := ih fun q mem => each q (mem_cons_of_mem p mem)
    obtain ⟨condition, value⟩ := each p mem_cons_self
    refine avoids_app.2 ⟨fun named => ?_, ?_⟩
    · cases free _ named
    · simpa using ⟨condition, value, rest⟩

theorem Frame.AgreeOutside.eval_firstOf (agree : F.AgreeOutside P G) (eq : F.eval [] last = G.eval [] last)
    (each : ∀ p ∈ cases, F.eval [] p.1 = G.eval [] p.1 ∧ (F.Holds p.1 → F.eval [] p.2 = G.eval [] p.2)) :
    F.eval [] (firstOf s cases last) = G.eval [] (firstOf s cases last) := by
  induction cases with
  | nil => exact eq
  | cons p _ ih =>
    obtain ⟨condition, value⟩ := each p mem_cons_self
    have rest := ih fun q mem => each q (mem_cons_of_mem p mem)
    simp only [firstOf, foldr_cons] at rest ⊢
    rw [eval_ite, eval_ite, rest, ← condition, ← agree.yes]
    by_cases holds : F.eval [] p.1 = F.yes
    · rw [if_pos holds, if_pos holds, value holds]
    · rw [if_neg holds, if_neg holds]

theorem foldlM_cases_gives {step : Term → Case → Session Term}
    (one : ∀ {acc : Term} {p : Term × Term} {w v : World} {t : Term}, acc.sort = s → Gives (step acc (p.1, some p.2)) w t v →
      (p.1.sort = .bool ∧ p.2.sort = s) ∧ t = .app (.ite s) [p.1, p.2, acc] ∧ w = v)
    : ∀ {acc : Term} {w v : World} {t : Term}, acc.sort = s → Gives ((cases.map fun p => (p.1, some p.2)).foldlM step acc) w t v →
      (∀ p ∈ cases, p.1.sort = .bool ∧ p.2.sort = s) ∧
        t = cases.foldl (fun rest p => .app (.ite s) [p.1, p.2, rest]) acc ∧ w = v := by
  induction cases with
  | nil =>
    intro acc w v t _ ok
    cases ok
    exact ⟨by simp, rfl, rfl⟩
  | cons _ _ ih =>
    intro acc w v t sort ok
    obtain ⟨r, w₁, first, rest⟩ := bind_iff.1 ok
    obtain ⟨sorts, rfl, rfl⟩ := one sort first
    obtain ⟨others, rfl, rfl⟩ := ih rfl rest
    exact ⟨by simpa [sorts] using others, rfl, rfl⟩

theorem chain_gives {w : World} (ok : Gives (chain (cases.map fun p => (p.1, some p.2)) none) w t v) :
    ∃ c s, t = firstOf s cases (.app c []) ∧ c.Drawn w.next (w.next + 1) ∧ c.range = s ∧
      (∀ p ∈ cases, p.1.sort = .bool ∧ p.2.sort = s) ∧ v = { w with next := w.next + 1 } := by
  obtain ⟨s, w₁, hit, rest⟩ := bind_iff.1 ok
  have eq : w₁ = w := by
    cases cases with
    | nil => cases hit
    | cons _ cases =>
      simp only [map_cons, chain.findSort] at hit
      split at hit
      · cases hit
      · exact (pure_iff.1 hit).2.symm
  simp only [bind_iff, theWorld_iff, ofChecked_session] at rest
  obtain ⟨_, _, ⟨-, rfl⟩, _, _, ⟨-, rfl⟩, _, _, ⟨-, rfl⟩, rest⟩ := rest
  split at rest
  case isFalse => cases rest
  obtain ⟨last, _, drawn, fold⟩ := bind_iff.1 rest
  obtain ⟨n, made, rfl⟩ := ofFresh_iff.1 drawn
  obtain ⟨-, rfl, rfl⟩ := freshConst_gives.1 made
  subst eq
  rw [← map_reverse] at fold
  obtain ⟨sorts, rfl, rfl⟩ := foldlM_cases_gives (s := s) (fun {acc p w v t} sort ok => by
    by_cases valueSort : p.2.sort = s
    · have ite : Gives (liftM (p.1.ite p.2 acc)) w t v := by simpa [valueSort] using ok
      obtain ⟨made, rfl⟩ := ofChecked_session.1 ite
      obtain ⟨form, rfl⟩ := (ite_of_sort (valueSort.trans sort.symm)).1 made
      exact ⟨⟨form, valueSort⟩, by rw [valueSort], rfl⟩
    · simp [valueSort] at ok) rfl fold
  rw [foldl_reverse]
  exact ⟨_, s, rfl, ⟨_, _, _, le_refl _, Nat.lt_succ_self _, rfl⟩, rfl, by simpa using sorts, rfl⟩

/-! ## Recursion -/

theorem exists_fixpoint [Nonempty β] {r : α → α → Prop} (wf : WellFounded r) (Φ : (α → β) → α → β)
    (below : ∀ φ ψ a, (∀ b, r b a → φ b = ψ b) → Φ φ a = Φ ψ a) : ∃ φ, ∀ a, φ a = Φ φ a := by
  classical
  let step (a : α) (rec' : ∀ b, r b a → β) : β := Φ (fun b => if h : r b a then rec' b h else Classical.arbitrary β) a
  refine ⟨wf.fix step, fun a => ?_⟩
  rw [wf.fix_eq]
  refine below _ _ a fun b smaller => ?_
  rw [dif_pos smaller]

namespace Frame
variable (F : Frame U)

open Classical in
/-- The frame in which `g` does what `φ` says, where that has the right sort. -/
noncomputable def redefine (g : Symbol) (free : g.isFree = true) (φ : List U → U) : Frame U :=
  F.assign
    { value := fun f => if f = g then some fun us => if φ us ∈ F.carrier g.range then φ us else F.fn g us else none
      free := by
        intro f h found
        by_cases same : f = g
        · exact same ▸ free
        · rw [if_neg same] at found
          cases found
      mem := by
        intro f h found us fits
        by_cases same : f = g
        · subst same
          rw [if_pos rfl] at found
          cases found
          by_cases mem : φ us ∈ F.carrier f.range
          · simpa only [if_pos mem] using mem
          · simpa only [if_neg mem] using F.fn_mem f us fits
        · rw [if_neg same] at found
          cases found }

variable {F} {free : g.isFree = true} {φ ψ : List U → U}

theorem redefine_agree : F.AgreeOutside (· = g) (F.redefine g free φ) :=
  (F.assign_agreeOutside _).mono fun _ changed => not_not.1 fun other => changed (if_neg other)

theorem redefine_agree_redefine : (F.redefine g free φ).AgreeOutside (· = g) (F.redefine g free ψ) where
  carrier := rfl
  yes := rfl
  no := rfl
  fn f out := (redefine_agree.fn f out).symm.trans (redefine_agree.fn f out)

theorem redefine_self {us : List U} (mem : φ us ∈ F.carrier g.range) : (F.redefine g free φ).fn g us = φ us := by
  simp [redefine, assign, mem]

theorem redefine_congr {us : List U} (eq : φ us = ψ us) : (F.redefine g free φ).fn g us = (F.redefine g free ψ).fn g us := by
  by_cases mem : φ us ∈ F.carrier g.range
  · rw [redefine_self mem, redefine_self (eq ▸ mem), eq]
  · have mem' : ψ us ∉ F.carrier g.range := eq ▸ mem
    simp [redefine, assign, mem, mem']

theorem AgreeOutside.assign_consts (agree : F.AgreeOutside P G) {pairs : List (Symbol × U)}
    {legal : ∀ p ∈ pairs, p.1.isFree = true ∧ p.2 ∈ F.carrier p.1.range}
    {legal' : ∀ p ∈ pairs, p.1.isFree = true ∧ p.2 ∈ G.carrier p.1.range} :
    (F.assign (.ofConsts F pairs legal)).AgreeOutside P (G.assign (.ofConsts G pairs legal')) where
  carrier := agree.carrier
  yes := agree.yes
  no := agree.no
  fn f out := by
    funext us
    have eq := agree.fn f out
    simp only [assign, Choice.ofConsts]
    cases pairs.find? (·.1 = f) with
    | none => exact congrFun eq us
    | some =>
      cases us with
      | nil => rfl
      | cons u us => exact congrFun eq (u :: us)

/-- A function whose value at any arguments is that of `body`, where the value of `body` depends on the function at
arguments below only. -/
theorem exists_recursive (F : Frame U) (free : g.isFree = true) (consts : ∀ c ∈ cs, c.isFree = true)
    (other : g ∉ cs) (nodup : cs.Nodup) (sorted : body.Sorted true []) (range : body.sort = g.range)
    {r : List U → List U → Prop} (wf : WellFounded r)
    (below : ∀ {us : List U} {H₁ H₂ : Frame U}, F.AgreeOutside (fun f => f = g ∨ f ∈ cs) H₁ → H₁.AgreeOutside (· = g) H₂ →
      (cs.map fun c => H₁.eval [] (.app c [])) = us → (∀ vs, r vs us → H₁.fn g vs = H₂.fn g vs) →
      H₁.eval [] body = H₂.eval [] body) :
    ∃ G : Frame U, F.AgreeOutside (· = g) G ∧ ∀ us, F.Fits us (cs.map Symbol.range) → ∀ legal,
      G.fn g us = (G.assign (.ofConsts G (cs.zip us) legal)).eval [] body := by
  classical
  let at' (φ : List U → U) (us : List U) (fits : F.Fits us (cs.map Symbol.range)) : Frame U :=
    (F.redefine g free φ).assign (.ofConsts (F.redefine g free φ) (cs.zip us) (fits.legal_zip consts))
  have unassigned (φ : List U → U) (us : List U) (fits : F.Fits us (cs.map Symbol.range)) :
      (at' φ us fits).fn g = (F.redefine g free φ).fn g := ((assign_zip_agreeOutside _).fn g other).symm
  have : Nonempty U := ⟨F.yes⟩
  obtain ⟨φ, fixed⟩ := exists_fixpoint wf
    (fun φ us => if fits : F.Fits us (cs.map Symbol.range) then (at' φ us fits).eval [] body else F.fn g us) (by
    intro φ ψ us eq
    by_cases fits : F.Fits us (cs.map Symbol.range)
    · simp only [dif_pos fits]
      refine @below us (at' φ us fits) (at' ψ us fits) (redefine_agree.trans (assign_zip_agreeOutside _))
        redefine_agree_redefine.assign_consts ?_ fun vs smaller => ?_
      · exact map_eval_consts nodup (by simpa using fits.length_eq) _
      · exact (congrFun (unassigned φ us fits) vs).trans
          ((redefine_congr (eq vs smaller)).trans (congrFun (unassigned ψ us fits) vs).symm)
    · simp only [dif_neg fits])
  refine ⟨F.redefine g free φ, redefine_agree, fun us fits legal => ?_⟩
  have value : φ us = (at' φ us fits).eval [] body := by rw [fixed us, dif_pos fits]
  rw [redefine_self, value]
  rw [value, ← range]
  exact (at' φ us fits).eval_mem sorted .nil

end Frame

/-! ## Laws of definitions -/

theorem Term.sorts_of_ranges {ss : List Srt} (ranges : cs.map Symbol.range = ss) : (cs.map (app · [])).map Term.sort = ss := by
  rw [← ranges, map_map]
  rfl

theorem Term.sorted_const {c : Symbol} (free : c.isFree = true) : (app c []).Sorted true [] := by
  refine sorted_app.2 ⟨Symbol.proper_of_isFree free, ?_, by simp⟩
  by_cases h : c.arity = 0 <;> simp_all [placesOf, Symbol.arity]

namespace Kernel
variable {thm : Term}

def valueAt (g : Symbol) (cs : List Symbol) (body : Term) : Term :=
  .app (.eq g.range) [.app g (cs.map (.app · [])), body]

theorem closed_valueAt (g : Symbol) (cs : List Symbol) (closed : body.Closed) : (valueAt g cs body).Closed :=
  closed_app.2 (by simpa [closed] using closed_app.2 (by simp [closed_app]))

theorem definingLaw_gives {n m : Nat} (dom : cs.map Symbol.range = g.domain) (range : body.sort = g.range)
    (ok : Gives (definingLaw g (cs.map (.app · [])) body false) n thm m) : n = m ∧ thm = if cs = [] then valueAt g cs body else
        .bind .forall (cs.map fun c => (c.name, c.range)) (abstract (cs.map (.app · [])) (valueAt g cs body)) := by
  simp only [definingLaw, bind_iff, ofChecked_fresh] at ok
  obtain ⟨lhs, _, ⟨applied, rfl⟩, e, _, ⟨equated, rfl⟩, rest⟩ := ok
  rw [apply_of_sorts (sorts_of_ranges dom)] at applied
  cases applied
  rw [eq_of_sort (show (app g _).sort = body.sort from range.symm)] at equated
  cases equated
  by_cases none : cs = []
  · subst none
    obtain ⟨rfl, rfl⟩ := pure_iff.1 rest
    exact ⟨rfl, rfl⟩
  rw [if_neg (by simpa using none)] at rest
  obtain ⟨quantified, rfl⟩ := ofChecked_fresh.1 rest
  obtain ⟨-, rfl⟩ := quantify_eq_ok.1 quantified
  rw [filterMap_bindingName, if_neg none]
  exact ⟨rfl, rfl⟩

theorem define_gives {name : String} {w : World} (ok : Gives (define name args body) w d v) :
    d.symbol = ⟨name, args.map Term.sort, body.sort, .free⟩ ∧ d.args = args ∧ d.body = body ∧
      Gives (definingLaw d.symbol args body false) w.next d.law.thm v.next := by
  simp only [define, bind_iff, ofChecked_session, ofFresh_iff] at ok
  obtain ⟨name', _, ⟨latin, rfl⟩, thm, _, ⟨n, made, rfl⟩, _, w₃, changed, last⟩ := ok
  obtain ⟨rfl, rfl⟩ := pure_iff.1 last
  have eq : name' = name := by
    unfold Text.checkName at latin
    split at latin
    · exact (Except.ok.inj latin).symm
    · cases latin
  subst eq
  have next : w₃.next = n := by
    obtain rfl : World.define _ _ = w₃ := congrArg Prod.snd changed
    unfold World.define
    split <;> rfl
  exact ⟨rfl, rfl, rfl, next ▸ made⟩

theorem legal_definingLaw {n m : Nat} (dom : cs.map Symbol.range = g.domain) (range : body.sort = g.range)
    (free : g.isFree = true) (consts : ∀ c ∈ cs, c.isFree = true) (legal : body.Legal true n)
    (before : ∀ f ∈ g :: cs, ∀ hint k s, n ≤ k → f ≠ .supply hint k s)
    (ok : Gives (definingLaw g (cs.map (.app · [])) body false) n thm m) : thm.Legal true n := by
  have args : ∀ a ∈ cs.map (app · []), a.Legal true n := by
    intro a mem
    obtain ⟨c, mem', rfl⟩ := mem_map.1 mem
    exact ⟨sorted_const (consts c mem'), before_app.2 ⟨before c (mem_cons_of_mem g mem'), by simp⟩⟩
  have lhs : (app g (cs.map (.app · []))).Legal true n :=
    legal_apply (Symbol.proper_of_isFree free) (before g mem_cons_self) (sorts_of_ranges dom) args
  have eqn : (valueAt g cs body).Legal true n := legal_eq.2 ⟨⟨rfl, range⟩, lhs, legal⟩
  obtain ⟨-, rfl⟩ := definingLaw_gives dom range ok
  by_cases none : cs = []
  · rw [if_pos none]
    exact eqn
  rw [if_neg none]
  refine ⟨⟨?_, .inr (.inl ?_)⟩, fun hint k s le mem' => ?_⟩
  · rw [append_nil]
    exact eqn.sorted.abstract (.inl rfl)
  · rw [abstract, sort_abstractAt]
    rfl
  · exact eqn.before hint k s le (mentions_abstractAt mem')

theorem holds_definingLaw {n m : Nat} (dom : cs.map Symbol.range = g.domain) (range : body.sort = g.range)
    (sorted : body.Sorted true []) (consts : ∀ c ∈ cs, c.isFree = true) (other : g ∉ cs) (nodup : cs.Nodup)
    (ok : Gives (definingLaw g (cs.map (.app · [])) body false) n thm m)
    (value : ∀ us, G.Fits us (cs.map Symbol.range) → ∀ legal,
      G.fn g us = (G.assign (.ofConsts G (cs.zip us) legal)).eval [] body) : G.Holds thm := by
  obtain ⟨-, rfl⟩ := definingLaw_gives dom range ok
  have eqn {us : List U} (fits : G.Fits us (cs.map Symbol.range)) (legal) :
      (G.assign (.ofConsts G (cs.zip us) legal)).Holds (valueAt g cs body) := by
    refine eval_eq.2 ?_
    have vals := map_eval_consts nodup (by simpa using fits.length_eq) legal
    rw [← value us fits legal, eval_app, map_map]
    exact (congrArg _ vals).trans (congrFun ((assign_zip_agreeOutside legal).fn g other).symm us)
  by_cases none : cs = []
  · rw [if_pos none]
    subst none
    have holds := @eqn [] .nil (by simp)
    exact holds
  rw [if_neg none]
  refine eval_forall.2 fun us fits => ?_
  have fits' : G.Fits us (cs.map Symbol.range) := by simpa [Function.comp_def] using fits
  have legal := fits'.legal_zip consts
  have vals := map_eval_consts nodup (by simpa using fits'.length_eq) legal
  have read := eval_abstract_agree (assign_zip_agreeOutside legal) consts
    (fun c mem => ⟨mem, fun u us => (assign_ofConsts_cons c u us).symm⟩) (closed_valueAt g cs sorted.closed)
  rw [vals] at read
  rw [append_nil, read]
  exact eqn fits' legal

end Kernel

/-! ## Definitions by equations -/

namespace Datatype
variable {w : World} {n : Nat} {H H₁ H₂ : Frame U}

/-- What the definition of `g` must not run into: `g`, and constants that the supply makes from `n` on. -/
def Reserved (g : Symbol) (n : Nat) (f : Symbol) : Prop := f = g ∨ ∃ hint k s, n ≤ k ∧ f = .supply hint k s

theorem Reserved.isFree (free : g.isFree = true) (reserved : Reserved g n f) : f.isFree = true := by
  rcases reserved with rfl | ⟨hint, k, s, -, rfl⟩
  · exact free
  · rfl

theorem avoids_reserved : t.Avoids (Reserved g n) ↔ ¬ t.Mentions g ∧ t.Before n := by
  constructor
  · intro avoids
    exact ⟨fun mem => avoids g mem (.inl rfl), fun hint k s le mem => avoids _ mem (.inr ⟨hint, k, s, le, rfl⟩)⟩
  · rintro ⟨apart, before⟩ f mem (rfl | ⟨hint, k, s, le, rfl⟩)
    · exact apart mem
    · exact before hint k s le mem

theorem IsPattern.not_mentions (shape : IsPattern w p) (known : p.Known w) (free : g.role = .free)
    (places : g.arity ≠ 0) : ¬ p.Mentions g := by
  induction shape with
  | construct role _ _ _ _ _ ih =>
    rw [mentions_app]
    rintro (rfl | ⟨a, mem, named⟩)
    · simp [Symbol.isConstructor, free] at role
    · exact ih a mem (known.of_mem mem) named
  | @leaf f =>
    rw [mentions_app]
    rintro (rfl | ⟨a, mem, -⟩)
    · exact places ((known f [] (self_mem_subterms _ _)).arity (by simp [free]))
    · cases mem

theorem isPattern_of_matchAll (declares : w.Declares) {m : Match}
    (ok : matchAll w cases = .ok m) (known : ∀ q ∈ cases, q.2.Known w) : ∀ q ∈ cases, IsPattern w q.2 := by
  have run : ∀ {cases : List (Term × Term)} {m m' : Match}, cases.foldlM (fun m q => do
        let here ← matchPattern w q.1 {} q.2
        return (⟨m.conditions ++ here.conditions, m.values.setAll here.values⟩)) m = (.ok m') →
      (∀ q ∈ cases, q.2.Known w) → ∀ q ∈ cases, IsPattern w q.2 := by
    intro cases
    induction cases with
    | nil => simp
    | cons q _ ih =>
      intro m m' ok known
      obtain ⟨m₁, step, rest⟩ := bind_eq_ok.1 ((foldlM_cons ..).symm.trans ok)
      obtain ⟨here, matched, -⟩ := bind_eq_ok.1 step
      intro r mem
      rcases mem_cons.1 mem with rfl | mem
      · exact isPattern_of_matchPattern declares matched (known r mem_cons_self)
      · exact ih rest (fun q mem => known q (mem_cons_of_mem _ mem)) r mem
  exact run ok known

theorem eval_replaceAll_agree {σ : Substitution} (agree : H₁.AgreeOutside (· = g) H₂) (free : g.isFree = true)
    (vals : ∀ p ∈ σ, ¬ p.2.Mentions g) (apps : ∀ u ∈ t.subterms false, u.isApp = true)
    (calls : ∀ bs, .app g bs ∈ t.subterms false →
      H₁.fn g (bs.map fun b => H₁.eval [] (b.replaceAll σ)) = H₂.fn g (bs.map fun b => H₁.eval [] (b.replaceAll σ))) :
    H₁.eval [] (t.replaceAll σ) = H₂.eval [] (t.replaceAll σ) := by
  induction t with
  | var => cases apps _ (self_mem_subterms _ _)
  | bind => cases apps _ (self_mem_subterms _ _)
  | app f args ih =>
    cases key : lookupLast σ (.app f args) with
    | some =>
      rw [replaceAll_key key]
      refine agree.eval (fun f eq => eq ▸ free) fun f inside eq => vals _ (lookupLast_mem key) ?_
      exact eq ▸ inside
    | none =>
      have eq : args.map (fun a => H₁.eval [] (a.replaceAll σ)) = args.map fun a => H₂.eval [] (a.replaceAll σ) :=
        map_congr_left fun a mem => ih a mem (fun u sub => apps u (mem_subterms_arg mem sub))
          fun bs sub => calls bs (mem_subterms_arg mem sub)
      rw [replaceAll_app key, eval_app, eval_app, map_map, map_map]
      refine Eq.trans ?_ (congrArg (H₂.fn f) eq)
      by_cases called : f = g
      · subst called
        exact calls args (self_mem_subterms _ _)
      · exact congrFun (agree.fn f called) _

/-- The list has at the place `i` a part of what the other list has there. -/
def Below (F : Frame U) (w : World) (i : Nat) (vs us : List U) : Prop :=
  ∃ v u, vs[i]? = some v ∧ us[i]? = some u ∧ Relation.TransGen (F.Part w) v u

theorem wellFounded_below (types : F.Inductive w) : WellFounded (Below F w i) := by
  have wf := types.wellFounded.transGen
  have acc : ∀ u us, us[i]? = some u → Acc (Below F w i) us := by
    intro u
    induction u using wf.induction with
    | _ _ ih =>
      intro us place
      refine ⟨us, ?_⟩
      rintro vs ⟨v, u', first, second, part⟩
      rw [place] at second
      cases second
      exact ih v part vs first
  refine ⟨fun us => ⟨us, ?_⟩⟩
  rintro vs ⟨v, u, first, second, part⟩
  exact acc v vs first

theorem readEquation_eq_ok {c : Term} (legal : e.Legal false n)
    (ok : readEquation w f args e = .ok ((c, t), law)) : ∃ patterns rhs m,
      e = .app (.eq f.range) [.app f patterns, rhs] ∧ rhs.sort = f.range ∧ Kernel.sides? e = some (.app f patterns, rhs) ∧
      matchAll w (args.zip patterns) = .ok m ∧ c = .app .and m.conditions ∧ t = rhs.replaceAll m.values ∧ t.sort = f.range ∧
      ∀ u ∈ rhs.subterms false, u.isApp = true := by
  unfold readEquation at ok
  split at ok
  · cases ok
  rename_i lhs rhs sides
  split at ok
  case h_2 => cases ok
  rename_i h patterns
  by_cases head : h = f
  · subst head
    simp only [ne_eq, not_true_eq_false, if_false] at ok
    simp only [bind_eq_ok] at ok
    obtain ⟨m, matched, law', -, c', condition, t', value, _, checked, last⟩ := ok
    cases last
    obtain ⟨calls, called, -⟩ := bind_eq_ok.1 checked
    obtain ⟨shape, sorts, -, -⟩ := sides?_eq_some legal sides
    obtain ⟨exchanged, rfl⟩ := substitute_eq_ok.1 value
    have apps := (calls_eq_ok called).1
    refine ⟨patterns, rhs, m, shape, sorts.symm, sides, matched, (and_eq_ok.1 condition).2, rfl, ?_, apps⟩
    exact (sort_replaceAll_of_isApp exchanged (apps _ (self_mem_subterms _ _))).trans sorts.symm
  · simp only [ne_eq, head, not_false_eq_true, if_true] at ok
    cases ok

/-- An equation over the datatypes of the world, with plain equality on its left side, whose calls of `g` descend at the place
`i`. -/
structure Equation (w : World) (g : Symbol) (i : Nat) (e : Term) : Prop where
  legal : e.Legal true w.next
  known : e.Known w
  plain : ∀ lhs rhs, Kernel.sides? e = some (lhs, rhs) → ∀ t ∈ lhs.subterms false, w.method? "eq" t.sort = none
  descending : equationDescends w g i e = true

theorem Equation.ready {m : Match} (eqn : Equation w g i e) (declares : w.Declares) (le : w.next ≤ N)
    (free : g.role = .free) (dom : g.domain = f.domain)
    (shape : e = .app (.eq f.range) [.app f patterns, rhs])
    (sides : Kernel.sides? e = some (.app f patterns, rhs)) (len : patterns.length = f.arity)
    (consts : ∀ c ∈ cs, c.isFree = true) (ranges : cs.map Symbol.range = f.domain)
    (apart : ∀ c ∈ cs, (app c []).Avoids (Reserved g N))
    (ok : matchAll w ((cs.map (.app · [])).zip patterns) = .ok m) :
    ∀ q ∈ (cs.map (.app · [])).zip patterns, IsPattern w q.2 ∧ Ready w (Reserved g N) q.1 q.2 := by
  have left {p : Term} (mem : p ∈ patterns) {t : Term} (sub : t ∈ p.subterms false) :
      t ∈ (app f patterns).subterms false := mem_subterms_arg mem sub
  have known {p : Term} (mem : p ∈ patterns) : p.Known w := fun h bs sub =>
    eqn.known h bs (shape ▸ mem_subterms_arg mem_cons_self (left mem sub))
  have shapes := isPattern_of_matchAll declares ok fun q mem => known (of_mem_zip mem).2
  have legal := shape ▸ eqn.legal
  obtain ⟨-, lhs, -⟩ := legal_eq.1 legal
  obtain ⟨-, places, sorted⟩ := sorted_app.1 lhs.sorted
  rw [placesOf, if_pos len.symm, ← ranges] at places
  intro q mem
  obtain ⟨constant, pat⟩ := of_mem_zip mem
  obtain ⟨c, drawn, const⟩ := mem_map.1 constant
  have arity : g.arity ≠ 0 := by
    rw [Symbol.arity, dom]
    intro zero
    rw [Symbol.arity, zero, length_eq_zero_iff] at len
    rw [len] at pat
    cases pat
  refine ⟨shapes q mem, ?_, const ▸ sorted_const (consts c drawn), const ▸ apart c drawn, sorted _ pat, ?_, fun t sub =>
    eqn.plain _ _ sides t (left pat sub)⟩
  · refine (map_eq_map_iff.1 ?_).2 q mem
    rw [places, map_map]
    rfl
  · exact avoids_reserved.2 ⟨(shapes q mem).not_mentions (known pat) free arity,
      ((before_app.1 lhs.before).2 _ pat).mono le⟩

/-- What an equation contributes: a condition, and a value that depends on `g` at arguments below only. -/
structure Contributes (H : Frame U) (w : World) (g : Symbol) (i N : Nat) (cs : List Symbol) (c t : Term) : Prop where
  condition : c.sort = .bool ∧ c.Sorted true [] ∧ c.Avoids (Reserved g N)
  value : t.sort = g.range ∧ t.Sorted true [] ∧ t.Before N
  below : ∀ {H₂ : Frame U}, H.AgreeOutside (· = g) H₂ → H.Holds c →
    (∀ vs, Below H w i vs (cs.map fun c => H.eval [] (.app c [])) → H.fn g vs = H₂.fn g vs) → H.eval [] t = H₂.eval [] t

theorem Equation.contributes {c : Term} (eqn : Equation w g i e) (declares : w.Declares)
    (types : H.Inductive w) (le : w.next ≤ N) (free : g.role = .free) (dom : g.domain = f.domain)
    (range : g.range = f.range) (consts : ∀ c ∈ cs, c.isFree = true) (ranges : cs.map Symbol.range = f.domain)
    (apart : ∀ c ∈ cs, (app c []).Avoids (Reserved g N))
    (ok : readEquation w f (cs.map (.app · [])) e = .ok ((c, t), law)) : Contributes H w g i N cs c t := by
  have isFree : g.isFree = true := by simp [Symbol.isFree, free]
  obtain ⟨patterns, rhs, m, shape, -, sides, matched, rfl, rfl, sort, apps⟩ := readEquation_eq_ok eqn.legal.relax ok
  have descending := eqn.descending
  simp only [equationDescends, sides, Bool.and_eq_true, decide_eq_true_eq, all_eq_true] at descending
  obtain ⟨len, down⟩ := descending
  have ready := eqn.ready declares le free dom shape sides len consts ranges apart matched
  have all := matchAll_matched declares types (fun _ => Reserved.isFree isFree) ready matched
  obtain ⟨-, -, right⟩ := legal_eq.1 (shape ▸ eqn.legal)
  have exchange := all.clean.exchange
  refine ⟨⟨rfl, ?_, ?_⟩, ⟨?_, ?_, ?_⟩, fun {H₂} agree holds eq => ?_⟩
  · exact sorted_and.2 fun c mem => ⟨(all.clean.conditions c mem).1, (all.clean.conditions c mem).2.1⟩
  · refine avoids_app.2 ⟨fun reserved => ?_, fun c mem => (all.clean.conditions c mem).2.2⟩
    cases reserved.isFree isFree
  · rw [sort, range]
  · exact right.sorted.replaceAll exchange fun p mem => (all.clean.values p mem).2.1
  · intro hint k s later mem'
    rcases mentions_replaceAll exchange mem' with old | ⟨p, mem, mem'⟩
    · exact right.before hint k s (le.trans later) old
    · exact (avoids_reserved.1 (all.clean.values p mem).2.2).2 hint k s later mem'
  have true' : m.True H := eval_and.1 holds
  refine eval_replaceAll_agree agree isFree (fun p mem => (avoids_reserved.1 (all.clean.values p mem).2.2).1) apps
    fun bs sub => eq _ ?_
  have call : descends w i patterns (.app g bs) = true := by simpa [Term.head?] using down _ sub
  obtain ⟨b, x, arg, place, part⟩ := descends_part all ready true' call (by
    rw [len, Symbol.arity, ← ranges, length_map, length_map])
  refine ⟨_, _, ?_, ?_, part⟩
  · rw [getElem?_map, arg]
    rfl
  · rw [getElem?_map] at place
    obtain ⟨c, hit, rfl⟩ := Option.map_eq_some_iff.1 place
    simp [hit]

theorem Equation.later (eqn : Equation w g i e) (le : w.next ≤ n) : Equation { w with next := n } g i e where
  legal := eqn.legal.mono le
  known f args sub := ⟨(eqn.known f args sub).arity, (eqn.known f args sub).literal, (eqn.known f args sub).constructor⟩
  plain := eqn.plain
  descending := eqn.descending

/-- Constants for the arguments are drawn up to the number `n`, each equation is read as a case, and a last constant `c` stands
for the value of no case. -/
structure MadeFrom (es : List Term) (w v : World) (d : Definition) (f : Symbol) (cs : List Symbol) (n : Nat)
    (cases : List (Term × Term)) (c : Symbol) : Prop where
  ranges : cs.map Symbol.range = f.domain
  distinct : cs.Nodup
  numbered : ∀ c ∈ cs, c.Drawn w.next n
  le : w.next ≤ n
  nonempty : cases ≠ []
  read : ∀ p ∈ cases, ∃ e ∈ es, ∃ law, readEquation { w with next := n } f (cs.map (.app · [])) e = .ok (p, law)
  last : c.Drawn n (n + 1)
  sorts : ∀ p ∈ cases, p.1.sort = .bool ∧ p.2.sort = c.range
  symbol : d.symbol = ⟨f.name, f.domain, c.range, .free⟩
  law : Gives (Kernel.definingLaw d.symbol (cs.map (.app · [])) (.firstOf c.range cases (.app c [])) false) (n + 1)
    d.law.thm v.next

theorem exists_madeFrom (ok : Gives (defineByEquations es) w (d, laws) v) :
    ∃ f cs n cases c, MadeFrom es w v d f cs n cases c := by
  unfold defineByEquations at ok
  split at ok
  · cases ok
  split at ok
  case h_2 => cases ok
  rename_i f args head
  simp only [bind_iff, theWorld_iff, mapM_ofChecked] at ok
  obtain ⟨vs, _, drawn, _, _, ⟨rfl, rfl⟩, equations, _, ⟨each, rfl⟩, body, w', chained, d', _, defined, last⟩ := ok
  obtain ⟨eq, rfl⟩ := pure_iff.1 last
  cases eq
  obtain ⟨n, made, rfl⟩ := mapM_ofFresh drawn
  obtain ⟨cs, rfl, ranges, nodup, numbered, le⟩ := freshConsts_gives (fun _ => "c") (fun s => s) made
  replace ranges := ranges.trans (map_id' _)
  replace chained : Gives (chain ((equations.map (·.1)).map fun p => (p.1, some p.2)) none) { w with next := n } body w' := by
    rw [map_map]
    exact chained
  obtain ⟨c, s, rfl, last, rfl, sorts, rfl⟩ := chain_gives chained
  obtain ⟨symbol, -, -, law⟩ := define_gives defined
  rw [sorts_of_ranges ranges, sort_firstOf (show (app c []).sort = c.range from rfl)] at symbol
  refine ⟨f, cs, n, _, c, ranges, nodup, numbered, le, ?_, fun p mem => ?_, last, sorts, symbol, law⟩
  · cases each
    simp
  · obtain ⟨b, hit, rfl⟩ := mem_map.1 mem
    obtain ⟨e, mem', read⟩ := Forall₂.exists_of_mem_right each hit
    exact ⟨e, mem', b.2, read⟩

namespace MadeFrom
variable {c : Symbol} (made : MadeFrom es w v d f cs n cases c)
include made

theorem role : d.symbol.role = .free := by rw [made.symbol]

theorem free : d.symbol.isFree = true := by simp [Symbol.isFree, made.role]

theorem places : cs.map Symbol.range = d.symbol.domain := by rw [made.ranges, made.symbol]

theorem body_sort : (firstOf c.range cases (.app c [])).sort = d.symbol.range := by
  rw [made.symbol]
  exact sort_firstOf rfl

theorem consts : ∀ c ∈ cs, c.isFree = true := fun c mem => (made.numbered c mem).isFree

theorem range_eq (legal : ∀ e ∈ es, e.Legal true w.next) : d.symbol.range = f.range := by
  obtain ⟨p, mem⟩ := exists_mem_of_ne_nil cases made.nonempty
  obtain ⟨e, mem', law, ok⟩ := made.read p mem
  obtain ⟨-, -, -, -, -, -, -, -, -, sort, -⟩ := readEquation_eq_ok (legal e mem').relax ok
  rw [made.symbol]
  exact (made.sorts p mem).2.symm.trans sort

theorem apart (drawn : c' ∈ c :: cs) : (app c' []).Avoids (Reserved d.symbol (n + 1)) := by
  have drawn : c'.Drawn w.next (n + 1) := by
    rcases mem_cons.1 drawn with rfl | mem
    · exact made.last.mono made.le le_rfl
    · exact (made.numbered c' mem).mono le_rfl (Nat.le_succ n)
  refine avoids_reserved.2 ⟨fun mem' => ?_, before_supply drawn⟩
  obtain rfl : c' = d.symbol := by simpa [mentions_app] using mem'
  obtain ⟨hint, k, s, -, -, eq⟩ := drawn
  have role := made.role
  rw [eq] at role
  cases role

theorem not_mem : d.symbol ∉ cs := fun mem =>
  made.apart (mem_cons_of_mem c mem) d.symbol (mentions_app.2 (.inl rfl)) (.inl rfl)

section
variable (declares : w.Declares) (equations : ∀ e ∈ es, Equation w d.symbol i e)
include declares equations

theorem contributes (types : H.Inductive { w with next := n }) : ∀ p ∈ cases,
    Contributes H { w with next := n } d.symbol i (n + 1) cs p.1 p.2 := by
  intro p mem
  obtain ⟨e, mem', law, ok⟩ := made.read p mem
  exact ((equations e mem').later made.le).contributes declares types (Nat.le_succ n) made.role
    (made.places.symm.trans made.ranges) (made.range_eq fun e mem' => (equations e mem').legal) made.consts made.ranges
    (fun c' mem => made.apart (mem_cons_of_mem c mem)) ok

variable (types : F.Inductive { w with next := n })
include types

theorem body_legal : (firstOf c.range cases (.app c [])).Legal true (n + 1) := by
  have each := made.contributes declares equations types
  have last := made.apart mem_cons_self
  constructor
  · exact .firstOf rfl (sorted_const made.last.isFree) fun p mem =>
      ⟨made.sorts p mem, (each p mem).condition.2.1, (each p mem).value.2.1⟩
  refine before_iff_avoids.2 (.firstOf ?_ (before_iff_avoids.1 (avoids_reserved.1 last).2) fun p mem =>
    ⟨before_iff_avoids.1 (avoids_reserved.1 (each p mem).condition.2.2).2, before_iff_avoids.1 (each p mem).value.2.2⟩)
  rintro _ ⟨hint, k, s, -, rfl⟩
  rfl

theorem law_legal : d.law.thm.Legal true v.next := by
  obtain ⟨next, -⟩ := definingLaw_gives made.places made.body_sort made.law
  rw [← next]
  refine legal_definingLaw made.places made.body_sort made.free made.consts
    (made.body_legal declares equations types) (fun h mem => ?_) made.law
  rcases mem_cons.1 mem with rfl | mem
  · rintro hint k s - eq
    have role := made.role
    rw [eq] at role
    cases role
  · exact (before_app.1 (avoids_reserved.1 (made.apart (mem_cons_of_mem c mem))).2).1

theorem eval_body {us : List U} (outside : F.AgreeOutside (fun h => h = d.symbol ∨ h ∈ cs) H₁)
    (agree : H₁.AgreeOutside (· = d.symbol) H₂) (vals : (cs.map fun c => H₁.eval [] (.app c [])) = us)
    (eq : ∀ vs, Below F { w with next := n } i vs us → H₁.fn d.symbol vs = H₂.fn d.symbol vs) :
    H₁.eval [] (.firstOf c.range cases (.app c [])) = H₂.eval [] (.firstOf c.range cases (.app c [])) := by
  have changed : ∀ h, h = d.symbol ∨ h ∈ cs → h.isFree = true := by
    rintro h (rfl | mem)
    · exact made.free
    · exact made.consts h mem
  obtain ⟨types₁, part⟩ := outside.inductive changed (w := { w with next := n }) declares types
  have each := made.contributes declares equations types₁
  have unchanged {t : Term} (avoids : t.Avoids (Reserved d.symbol (n + 1))) : H₁.eval [] t = H₂.eval [] t :=
    agree.eval (fun h eq => eq ▸ made.free) fun h inside eq => (avoids_reserved.1 avoids).1 (eq ▸ inside)
  refine agree.eval_firstOf (unchanged (made.apart mem_cons_self)) fun p mem =>
    ⟨unchanged (each p mem).condition.2.2, fun holds => ?_⟩
  refine (each p mem).below agree holds fun vs below => eq vs ?_
  rw [vals, Below, part] at below
  exact below

theorem exists_solution : ∃ G : Frame U, F.AgreeOutside (· = d.symbol) G ∧ G.Holds d.law.thm := by
  have sorted := (made.body_legal declares equations types).sorted
  obtain ⟨G, agree, value⟩ := exists_recursive F made.free made.consts made.not_mem made.distinct sorted made.body_sort
    (wellFounded_below types) (made.eval_body declares equations types)
  refine ⟨G, agree, holds_definingLaw made.places made.body_sort sorted made.consts made.not_mem made.distinct made.law
    fun us fits => ?_⟩
  exact value us (agree.fits ▸ fits)

end
end MadeFrom
end Datatype

namespace Frame

def Full (F : Frame U) : Prop := ∀ ds r (h : List U → U), (∀ us, F.Fits us ds → h us ∈ F.carrier r) → ∃ a, F.Shows ds r h a

theorem Full.of_alike (full : F.Full) (alike : F.Alike G) : G.Full := by
  intro ds r h range
  obtain ⟨a, shows⟩ := full ds r h (alike.fits ▸ alike.carrier ▸ range)
  exact ⟨a, alike.shows (fun _ _ => rfl) ▸ shows⟩

def Full.interpretation (full : F.Full) : Interpretation U where
  toFrame := F
  comprehension sorted fits := full _ _ _ fun _ fitting => F.eval_mem sorted (fitting.push fits)

end Frame

/-! ## The natural numbers -/

namespace Naturals
open Datatype

def naturals : Datatype := .make "Nat" [("Z", []), ("S", [("pred", .datatype "Nat")])]

def world : World := { datatypes := [naturals] }

def zero : Constructor :=
  ⟨⟨"Z", [], naturals.sort, .constructor⟩, [], ⟨"is", [naturals.sort], .bool, .recognizer "Z"⟩⟩

def succ : Constructor :=
  ⟨⟨"S", [naturals.sort], naturals.sort, .constructor⟩, [⟨"pred", [naturals.sort], naturals.sort, .accessor "S" 0⟩],
    ⟨"is", [naturals.sort], .bool, .recognizer "S"⟩⟩

theorem world_declares : world.Declares := by
  intro d mem
  obtain rfl := mem_singleton.1 mem
  exact ⟨_, rfl⟩

theorem mem_world {d : Datatype} (declared : d ∈ world.datatypes) (mem : c ∈ d.constructors) :
    d = naturals ∧ (c = zero ∨ c = succ) := by
  obtain rfl := mem_singleton.1 declared
  exact ⟨rfl, by simpa [naturals, make, sort, zero, succ] using mem⟩

/-! ### Numbers -/

open Standard (numbers numbers_fn)

def value (n : Nat) : Standard.Universe fun _ => Nat := ⟨naturals.sort, n⟩

theorem exists_value (mem : u ∈ numbers.carrier naturals.sort) : ∃ n, u = value n := by
  obtain ⟨s, n⟩ := u
  cases mem
  exact ⟨n, rfl⟩

theorem value_injective {n m : Nat} (eq : value n = value m) : n = m := congrArg Standard.Universe.number eq

theorem truth_eq_yes {n : Nat} : (⟨.bool, Standard.ofNumber n .bool⟩ : Standard.Universe fun _ => Nat) = numbers.yes ↔ n ≠ 0 := by
  cases n with
  | zero => exact iff_of_false Standard.no_ne_yes (by simp)
  | succ n => exact iff_of_true rfl (Nat.succ_ne_zero n)

theorem zero_fn : numbers.fn zero.symbol [] = value 0 := numbers_fn (by simp [zero]) []

theorem succ_fn (n : Nat) : numbers.fn succ.symbol [value n] = value (n + 1) := numbers_fn (by simp [succ]) _

theorem fits_one {us : List (Standard.Universe fun _ => Nat)} (fits : numbers.Fits us succ.symbol.domain) :
    ∃ n, us = [value n] := by
  obtain ⟨u, _, mem, rest, rfl⟩ := forall₂_cons_right_iff.1 fits
  obtain rfl := forall₂_nil_right_iff.1 rest
  obtain ⟨n, rfl⟩ := exists_value mem
  exact ⟨n, rfl⟩

theorem numbers_inductive : numbers.Inductive world := by
  refine ⟨fun d declared c member u mem => ?_, fun d declared c member us fits => ?_, ?_⟩
  · obtain ⟨rfl, rfl | rfl⟩ := mem_world declared member
    · obtain ⟨n, rfl⟩ := exists_value mem
      rw [numbers_fn (by simp [zero])]
      refine truth_eq_yes.trans ⟨fun recognized => ⟨[], .nil, ?_⟩, ?_⟩
      · rw [zero_fn]
        exact congrArg value (Nat.eq_zero_of_not_pos fun pos => recognized (Nat.sub_eq_zero_of_le pos))
      rintro ⟨us, fits, built⟩
      obtain rfl := forall₂_nil_right_iff.1 fits
      obtain rfl := value_injective (built.trans zero_fn)
      decide
    · obtain ⟨n, rfl⟩ := exists_value mem
      rw [numbers_fn (by simp [succ])]
      refine truth_eq_yes.trans ⟨fun recognized => ?_, ?_⟩
      · obtain ⟨m, rfl⟩ : ∃ m, n = m + 1 := Nat.exists_eq_succ_of_ne_zero recognized
        exact ⟨[value m], .cons rfl .nil, (succ_fn m).symm⟩
      rintro ⟨us, fits, built⟩
      obtain ⟨m, rfl⟩ := fits_one fits
      obtain rfl := value_injective (built.trans (succ_fn m))
      exact Nat.succ_ne_zero m
  · obtain ⟨rfl, rfl | rfl⟩ := mem_world declared member
    · obtain rfl := forall₂_nil_right_iff.1 fits
      rfl
    · obtain ⟨n, rfl⟩ := fits_one fits
      rw [succ_fn]
      exact congrArg (fun u => [u]) (numbers_fn (by simp) _)
  · refine Subrelation.wf ?_ (measure Standard.Universe.number).wf
    rintro u v ⟨d, declared, c, member, us, fits, rfl, mem'⟩
    obtain ⟨rfl, rfl | rfl⟩ := mem_world declared member
    · obtain rfl := forall₂_nil_right_iff.1 fits
      cases mem'
    obtain ⟨n, rfl⟩ := fits_one fits
    obtain rfl := mem_singleton.1 mem'
    rw [succ_fn]
    exact Nat.lt_succ_self n

/-! ### A function that descends -/

def bottom : Symbol := ⟨"bottom", [naturals.sort], naturals.sort, .free⟩

def n : Term := .const "n" naturals.sort

def m : Term := .const "m" naturals.sort

/-- As long as there is a predecessor, go to it. The second pattern matches whatever the first one does not. -/
def bottomEquations : List Term :=
  [.app (.eq naturals.sort) [.app bottom [.app succ.symbol [n]], .app bottom [n]], .app (.eq naturals.sort) [.app bottom [m], m]]

theorem known_constructor (mem : c ∈ naturals.constructors) : c.symbol.Known world c.symbol.arity := ⟨fun _ => rfl, by
    obtain ⟨-, rfl | rfl⟩ := mem_world (mem_singleton.2 rfl) mem <;> simp [Symbol.isLiteral, zero, succ],
  fun _ => ⟨naturals, c, by
    obtain ⟨-, rfl | rfl⟩ := mem_world (mem_singleton.2 rfl) mem <;> rfl, mem, rfl⟩⟩

theorem known_free (role : f.role = .free) : f.Known world f.arity :=
  ⟨fun _ => rfl, by simp [Symbol.isLiteral, role], by simp [Symbol.isConstructor, role]⟩

def IsTerm (t : Term) : Prop := t.sort = naturals.sort ∧ t.Legal true 0 ∧ t.Known world

theorem isTerm_app (role : f.role = .free ∨ f.role = .constructor) (range : f.range = naturals.sort)
    (known : f.Known world f.arity) (sorts : f.domain = args.map fun _ => naturals.sort)
    (terms : ∀ a ∈ args, IsTerm a) : IsTerm (.app f args) := by
  have old : ∀ hint k s, 0 ≤ k → f ≠ .supply hint k s := by
    rintro hint k s - rfl
    rcases role with role | role <;> cases role
  have places : args.map Term.sort = f.domain := sorts ▸ map_congr_left fun a mem => (terms a mem).1
  refine ⟨range, legal_apply (Symbol.proper_of_role ?_) old places fun a mem => (terms a mem).2.1, ?_⟩
  · rcases role with role | role <;> simp [role]
  · refine known_app.2 ⟨?_, fun a mem => (terms a mem).2.2⟩
    rw [Symbol.arity, sorts, length_map] at known
    exact known

theorem isTerm_succ (term : IsTerm t) : IsTerm (.app succ.symbol [t]) :=
  isTerm_app (.inr rfl) rfl (known_constructor (by simp [naturals, make, sort, succ])) rfl (by simpa using term)

theorem isTerm_bottom (term : IsTerm t) : IsTerm (.app bottom [t]) :=
  isTerm_app (.inl rfl) rfl (known_free rfl) rfl (by simpa using term)

theorem isTerm_const (name : String) : IsTerm (.const name naturals.sort) :=
  isTerm_app (.inl rfl) rfl (known_free rfl) rfl (by simp)

theorem equation_of_isTerm (ha : IsTerm a) (hb : IsTerm b)
    (descending : equationDescends world g i (.app (.eq naturals.sort) [a, b]) = true) :
    Equation world g i (.app (.eq naturals.sort) [a, b]) where
  legal := legal_eq.2 ⟨⟨ha.1, hb.1⟩, ha.2.1, hb.2.1⟩
  known := known_app.2 ⟨⟨fun role => absurd rfl (role []), nofun, nofun⟩, by simpa using ⟨ha.2.2, hb.2.2⟩⟩
  plain _ _ _ _ _ := rfl
  descending := descending

theorem bottom_equation : ∀ e ∈ bottomEquations, Equation world bottom 0 e := by
  have hn : IsTerm n := isTerm_const "n"
  have hm : IsTerm m := isTerm_const "m"
  simp only [bottomEquations, forall_mem_cons, not_mem_nil, false_imp_iff, implies_true, and_true]
  exact ⟨equation_of_isTerm (isTerm_bottom (isTerm_succ hn)) (isTerm_bottom hn) (by decide),
    equation_of_isTerm (isTerm_bottom hm) hm (by decide)⟩

theorem numbers_full : numbers.Full :=
  fun _ _ _ range => Standard.exists_shows (fun f us => Standard.ofNumber (Standard.count f us) f.range) (fun _ => ⟨0⟩) range

end Naturals

namespace Datatype

/-- The law of a definition by equations whose calls descend has a solution, whatever the other symbols stand for. So adding it
to axioms that do not mention the symbol leads no run of the kernel to a contradiction. -/
theorem law_has_solution {es laws : List Term} {w v : World} {d : Definition} {place : Nat}
    (done : Gives (defineByEquations es) w (d, laws) v) (declares : w.Declares)
    (equations : ∀ e ∈ es, Equation w d.symbol place e) {U : Type u} (F : Frame U) (types : F.Inductive w) :
    (∃ G : Frame U, F.AgreeOutside (· = d.symbol) G ∧ G.Holds d.law.thm) ∧
      (F.Full → ∀ A : Set Term, (∀ a ∈ A, a.Legal true v.next ∧ ¬ a.Mentions d.symbol ∧ F.Holds a) →
        ∀ ps v', Kernel.Reaches (insert d.law.thm A) v ps v' → ∀ p ∈ ps, p.thm ≠ .ff) := by
  obtain ⟨f, cs, n, cases, c, made⟩ := exists_madeFrom done
  have types' : F.Inductive { w with next := n } := ⟨types.recognizes, types.reads, types.wellFounded⟩
  have legal := made.law_legal declares equations types'
  obtain ⟨G, agree, holds⟩ := made.exists_solution declares equations types'
  refine ⟨⟨G, agree, holds⟩, fun full A model ps v' reached p mem false' => ?_⟩
  have free' : ∀ f, f = d.symbol → f.isFree = true := fun f same => same ▸ made.free
  have axioms : ∀ a ∈ insert d.law.thm A, a.Legal true v.next ∧ G.Holds a := by
    rintro a (rfl | mem)
    · exact ⟨legal, holds⟩
    · obtain ⟨legal, apart, holds⟩ := model a mem
      refine ⟨legal, ?_⟩
      rw [Frame.Holds, ← agree.eval free' fun f inside same => apart (same ▸ inside), ← agree.yes]
      exact holds
  obtain ⟨J, -, proved⟩ := reached.exists_extension (fun a mem => (axioms a mem).1)
    (full.of_alike (agree.alike free')).interpretation fun a mem => (axioms a mem).2
  have contradiction := proved p mem
  rw [false', Frame.Holds, ff, eval_app] at contradiction
  exact J.no_ne_yes (J.fn_ff.symm.trans contradiction)

end Datatype

namespace Naturals
open Datatype Standard

theorem bottom_law_has_solution : world.Declares ∧ numbers.Inductive world ∧ ∃ d laws v,
    Gives (defineByEquations bottomEquations) world (d, laws) v ∧ (∀ e ∈ bottomEquations, Equation world d.symbol 0 e) ∧
      (∃ G, numbers.AgreeOutside (· = d.symbol) G ∧ G.Holds d.law.thm) ∧
      ∀ ps v', Kernel.Reaches (insert d.law.thm ∅) v ps v' → ∀ p ∈ ps, p.thm ≠ .ff := by
  have run : ((defineByEquations bottomEquations).run world).1.toOption.map (·.1.symbol) = some bottom := by cbv
  obtain ⟨⟨d, laws⟩, found, symbol⟩ := Option.map_eq_some_iff.1 run
  have done := of_toOption found
  have equations : ∀ e ∈ bottomEquations, Equation world d.symbol 0 e := by
    rw [symbol]
    exact bottom_equation
  have solution := law_has_solution done world_declares equations numbers.toFrame numbers_inductive
  exact ⟨world_declares, numbers_inductive, d, laws, _, done, equations, solution.1, solution.2 numbers_full ∅ (by simp)⟩

/-! ### A call that does not descend -/

def loop : Symbol := ⟨"loop", [naturals.sort], naturals.sort, .free⟩

def loopEquation : Term := .app (.eq naturals.sort) [.app loop [n], .app succ.symbol [.app loop [n]]]

/-- The definition is made, as the call is on the pattern itself. Its law has no solution. -/
theorem loop_law_has_no_solution : ∃ d laws v, Gives (defineByEquations [loopEquation]) world (d, laws) v ∧
    ∀ {U : Type u} (F : Frame U), F.Inductive world → ¬ F.Holds d.law.thm := by
  have run : ((defineByEquations [loopEquation]).run world).1.toOption.map (·.1.law.thm) =
      some (.bind .forall [("c!0", naturals.sort)] (.app (.eq naturals.sort) [.app loop [.var 0 naturals.sort],
        .app (.ite naturals.sort) [.app .and [], .app succ.symbol [.app loop [.var 0 naturals.sort]],
          .app (.supply "unreachable" 1 naturals.sort) []]])) := by cbv
  obtain ⟨⟨d, laws⟩, hit, law⟩ := Option.map_eq_some_iff.1 run
  refine ⟨d, laws, _, of_toOption hit, fun F types holds => ?_⟩
  rw [show d.law.thm = _ from law] at holds
  obtain ⟨u, mem⟩ := F.nonempty naturals.sort
  have eqn := eval_eq.1 (eval_forall.1 holds [u] (.cons mem .nil))
  have call : F.eval ([u].reverse ++ []) (.app loop [.var 0 naturals.sort]) = F.fn loop [u] := by rfl
  rw [eval_ite, if_pos (eval_and.2 (by simp)), eval_app] at eqn
  -- the value is a part of itself
  have fits : F.Fits [F.fn loop [u]] succ.symbol.domain := .cons (F.fn_mem loop [u] (.cons mem .nil)) .nil
  have part : F.Part world (F.fn loop [u]) (F.fn loop [u]) :=
    ⟨naturals, mem_singleton.2 rfl, succ, by simp [naturals, make, sort, succ], _, fits, eqn, mem_singleton.2 rfl⟩
  exact types.wellFounded.asymmetric _ _ part part

end Naturals
end SortedLogic

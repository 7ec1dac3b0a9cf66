import SortedLogic.Proofs.Patterns

/-!
# What quantifiers with conditions say

`forallWhere` puts the conditions of well-formedness of the sorts before the given ones. A formula quantified over drawn
constants is true if it is true whatever values these have (`Interpretation.holds_forallWhere`). What is written of terms says
something of values (`Denotes`).
-/

namespace SortedLogic
open Gives
open Term
open List
open SortedLogic.Frame
open SortedLogic.Symbol (Drawn range)
universe u
variable {t φ body conc : Term} {w v : World} {n m : Nat} {conds hyps vs : List Term} {cs : List Symbol}

/-! ## Quantifying over constants -/

namespace Term

theorem Closed.bind_abstract {k : Binder} (closed : t.Closed) :
    (bind k (cs.map fun c => (c.name, c.range)) (abstract (cs.map (app · [])) t)).Closed := by
  intro i loose
  obtain loose | ⟨p, mem, eq⟩ := loose_abstractAt loose
  · exact closed _ loose
  · have := snd_lt_of_mem_zipIdx mem
    simp at this eq
    omega

end Term

theorem wellFormed_gives : Gives (wellFormed vs) w conds v ↔
      List.Forall₂ (fun t φ => w.wellFormed t = .ok φ) (vs.filter fun t => (w.method? "wf" t.sort).isSome) conds ∧ v = w := by
  unfold wellFormed
  rw [theWorld_bind, mapM_ofChecked, eq_comm]

/-- The interpretations differ in the values of the constants only. -/
structure Interpretation.Varies {U : Type u} (cs : List Symbol) (I J : Interpretation U) : Prop where
  agree : I.AgreeOutside (· ∈ cs) J.toFrame
  same : ∀ f u us, I.fn f (u :: us) = J.fn f (u :: us)

namespace Interpretation
variable {U : Type u} {I J : Interpretation U}

theorem Varies.drawn (varies : I.Varies cs J) (drawn : ∀ c ∈ cs, c.Drawn n m) :
    I.AgreeOutside (Drawn n m) J.toFrame := varies.agree.mono drawn

theorem exists_varies (nodup : cs.Nodup) (free : ∀ c ∈ cs, c.isFree = true) {us : List U}
    (fits : I.Fits us (cs.map range)) : ∃ J : Interpretation U, I.Varies cs J ∧ (cs.map fun c => J.eval [] (.app c [])) = us := by
  obtain ⟨J, agree, eq, vals⟩ := I.exists_assigned nodup free fits
  exact ⟨J, ⟨agree, eq⟩, vals⟩

theorem fits_consts (I : Interpretation U) (cs : List Symbol) : I.Fits (cs.map fun c => I.eval [] (.app c [])) (cs.map range) :=
  I.fits_map.2 fun c _ => I.const_mem c

theorem Varies.fits (varies : I.Varies cs J) : I.Fits (cs.map fun c => J.eval [] (.app c [])) (cs.map range) :=
  varies.agree.fits ▸ J.fits_consts cs

theorem forall_varies (nodup : cs.Nodup) (free : ∀ c ∈ cs, c.isFree = true) {Q : List U → Prop} :
    (∀ us, I.Fits us (cs.map range) → Q us) ↔
      ∀ J : Interpretation U, I.Varies cs J → Q (cs.map fun c => J.eval [] (.app c [])) := by
  constructor
  · exact fun all J varies => all _ varies.fits
  · intro all us fits
    obtain ⟨J, varies, rfl⟩ := exists_varies nodup free fits
    exact all J varies

theorem holds_forall (nodup : cs.Nodup) (free : ∀ c ∈ cs, c.isFree = true) (closed : body.Closed) :
    I.Holds (.bind .forall (cs.map fun c => (c.name, c.range)) (abstract (cs.map (.app · [])) body)) ↔
      ∀ J : Interpretation U, I.Varies cs J → J.Holds body := by
  have value {J : Interpretation U} (varies : I.Varies cs J) :
      I.eval (cs.map fun c => J.eval [] (.app c [])).reverse (abstract (cs.map (.app · [])) body) = J.eval [] body :=
    eval_abstract_agree varies.agree free (fun c mem => ⟨mem, varies.same c⟩) closed
  rw [Holds, eval_forall]
  simp only [map_map, Function.comp_def, append_nil]
  rw [forall_varies nodup free]
  exact forall₂_congr fun J varies => by rw [Holds, value varies, varies.agree.yes]

end Interpretation

/-- The formula `body` says that `conc` follows from the conditions. -/
inductive Guards : List Term → Term → Term → Prop
  | none (conc : Term) : Guards [] conc conc
  | one {h conc body : Term} : h.implies conc = .ok body → Guards [h] conc body
  | many {hs : List Term} {h conc body : Term} : and hs = .ok h → h.implies conc = .ok body → Guards hs conc body

namespace Guards
variable {hs : List Term}

theorem holds (guards : Guards hs conc body) {U : Type u} {F : Frame U} :
    F.Holds body ↔ ((∀ h ∈ hs, F.Holds h) → F.Holds conc) := by
  cases guards with
  | none => simp
  | one built =>
    obtain ⟨-, -, rfl⟩ := implies_eq_ok.1 built
    simp [Holds, eval_implies]
  | many joined built =>
    obtain ⟨-, rfl⟩ := and_eq_ok.1 joined
    obtain ⟨-, -, rfl⟩ := implies_eq_ok.1 built
    simp only [Holds, eval_implies, eval_and]

theorem closed (guards : Guards hs conc body) (conditions : ∀ h ∈ hs, h.Closed) (last : conc.Closed) : body.Closed := by
  cases guards with
  | none => exact last
  | one built =>
    obtain ⟨-, -, rfl⟩ := implies_eq_ok.1 built
    exact closed_app.2 (by simpa using ⟨conditions _ (by simp), last⟩)
  | many joined built =>
    obtain ⟨-, rfl⟩ := and_eq_ok.1 joined
    obtain ⟨-, -, rfl⟩ := implies_eq_ok.1 built
    exact closed_app.2 (by simpa using ⟨closed_app.2 conditions, last⟩)

end Guards

theorem forallWhere_gives (ok : Gives (forallWhere vs (hyps ++ [conc])) w φ v) :
    v = w ∧ ∃ conds body, Gives (wellFormed vs) w conds w ∧ Guards (conds ++ hyps) conc body ∧
      body.quantify .forall vs = .ok φ := by
  unfold forallWhere at ok
  simp only [getLast?_append, getLast?_singleton, Option.some_or, dropLast_concat] at ok
  obtain ⟨conds, w', first, rest⟩ := bind_iff.1 ok
  obtain ⟨-, rfl⟩ := wellFormed_gives.1 first
  suffices built : v = w' ∧ ∃ body, Guards (conds ++ hyps) conc body ∧ body.quantify .forall vs = .ok φ by
    obtain ⟨rfl, body, guards, quantified⟩ := built
    exact ⟨rfl, conds, body, first, guards, quantified⟩
  generalize conds ++ hyps = all at rest
  rcases all with _ | ⟨h, _ | ⟨h', hs⟩⟩
  · obtain ⟨quantified, rfl⟩ := ofChecked_session.1 rest
    exact ⟨rfl, conc, .none conc, quantified⟩
  · obtain ⟨body, built, rest⟩ := checked_bind.1 rest
    obtain ⟨quantified, rfl⟩ := ofChecked_session.1 rest
    exact ⟨rfl, body, .one built, quantified⟩
  obtain ⟨all, joined, rest⟩ := checked_bind.1 rest
  obtain ⟨body, built, rest⟩ := checked_bind.1 rest
  obtain ⟨quantified, rfl⟩ := ofChecked_session.1 rest
  exact ⟨rfl, body, .many joined built, quantified⟩

/-! ## Properties of values -/

/-- What is written of a term says `p` of its value, whatever the values of constants that the supply makes from `n` on. -/
def Denotes {U : Type u} (I : Interpretation U) (n : Nat) (s : Srt) (P : Term → Checked Term) (p : U → Prop) : Prop :=
  ∀ ⦃m : Nat⦄ ⦃t φ : Term⦄, t.Legal true m → t.sort = s → P t = .ok φ →
    φ.Closed ∧ ∀ J : Interpretation U, I.AgreeOutside (Drawn n m) J.toFrame → (J.Holds φ ↔ p (J.eval [] t))

namespace Term
variable {U : Type u} {I : Interpretation U} {s : Srt} {P : Term}

def TrueAt (I : Interpretation U) (s : Srt) (P : Term) (u : U) : Prop :=
  I.fn (.select [s] .bool) [I.eval [] P, u] = I.yes

theorem TrueAt.congr {J : Interpretation U} (legal : P.Legal true n)
    (agree : I.AgreeOutside (Drawn n m) J.toFrame) (u : U) : TrueAt J s P u ↔ TrueAt I s P u := by
  have select : I.fn (.select [s] .bool) = J.fn (.select [s] .bool) := agree.fn _ fun drawn => by cases drawn.isFree
  rw [TrueAt, TrueAt, select, agree.yes, legal.before.eval agree]

theorem select_of_sorts {r : Srt} (array : P.sort = .array [s] r) (eq : t.sort = s) :
    P.select [t] = .ok (.app (.select [s] r) [P, t]) := by
  unfold select
  rw [array]
  show (castAll [s] [t] >>= fun is => op (.builtin "select" [.array [s] r, s] r) (P :: is)) = _
  rw [castAll, castTo_of_sort eq]
  exact if_pos (by simp [array, eq, Symbol.builtin])

theorem denotes_select (legal : P.Legal true n) (array : P.sort = .array [s] .bool) :
    Denotes I n s (fun t => P.select [t]) (TrueAt I s P) := by
  intro m t φ legalT eq ok
  cases ((select_of_sorts array eq).symm.trans ok)
  refine ⟨closed_app.2 (by simpa using ⟨legal.sorted.closed, legalT.sorted.closed⟩), fun J agree => ?_⟩
  rw [← TrueAt.congr legal agree]
  rfl

theorem eval_call (legal : P.Legal true n) (array : P.sort = .array [s] .bool) (legalT : t.Legal true m)
    (eq : t.sort = s) (ok : callPredicate P [t] = .ok φ) :
    φ.Closed ∧ ∀ J : Interpretation U, J.eval [] φ = J.fn (.select [s] .bool) [J.eval [] P, J.eval [] t] := by
  cases P with
  | var i => exact absurd rfl (legal.sorted.closed i)
  | app =>
    cases ((select_of_sorts array eq).symm.trans ok)
    exact ⟨closed_app.2 (by simpa using ⟨legal.sorted.closed, legalT.sorted.closed⟩), fun J => by rw [eval_app]; rfl⟩
  | bind k vars body =>
    obtain rfl : k = .lambda := by cases k <;> first | rfl | cases array
    obtain ⟨domains, range⟩ := Srt.array.inj array
    obtain ⟨v, rfl, rfl⟩ : ∃ v, vars = [v] ∧ v.2 = s := by
      obtain ⟨v, rest, rfl, one, none⟩ := map_eq_cons_iff.1 domains
      exact ⟨v, by rw [map_eq_nil_iff.1 none], one⟩
    have inner : body.Sorted true ([] ++ binding .lambda [v]) := by simpa using legal.sorted.1
    have sorts : [t].map sort = (binding .lambda [v]).map (·.2) := by simpa [binding] using eq
    have applied : callPredicate (bind .lambda [v] body) [t] = .ok (instantiate [t] body) := by
      simp [callPredicate, callBinder, applyBody, eq]
    cases (applied.symm.trans ok)
    refine ⟨(inner.instantiateAt sorts (by simpa using legalT.sorted)).closed, fun J => ?_⟩
    have fits : J.Fits [J.eval [] t] [v.2] := .cons (eq ▸ J.eval_mem legalT.sorted .nil) .nil
    have shown := J.comprehension legal.sorted.1 .nil
    calc J.eval [] (instantiate [t] body) = J.eval [J.eval [] t] body := J.eval_instantiateAt sorts inner rfl
      _ = J.fn (.select [v.2] body.sort) [J.lam [v.2] body.sort fun us => J.eval (us.reverse ++ []) body, J.eval [] t] :=
        (J.select_lam shown fits).symm
      _ = _ := by rw [Frame.eval, range]; rfl

theorem denotes_call (legal : P.Legal true n) (array : P.sort = .array [s] .bool) :
    Denotes I n s (fun t => callPredicate P [t]) (TrueAt I s P) := by
  intro m t φ legalT eq ok
  obtain ⟨closed, value⟩ := eval_call legal array legalT eq ok
  refine ⟨closed, fun J agree => ?_⟩
  rw [← TrueAt.congr legal agree, Holds, value, TrueAt]

end Term

theorem denotes_apply {U : Type u} {I : Interpretation U} {s : Srt} {f : Symbol}
    (old : ∀ hint k r, n ≤ k → f ≠ .supply hint k r) (dom : f.domain = [s]) :
    Denotes I n s (fun t => f.apply [t]) (fun u => I.fn f [u] = I.yes) := by
  intro m t φ legal eq ok
  have sorts : [t].map sort = f.domain := by simp [dom, eq]
  cases ((Kernel.apply_of_sorts sorts).symm.trans ok)
  refine ⟨closed_app.2 (by simpa using legal.sorted.closed), fun J agree => ?_⟩
  have fixed : I.fn f = J.fn f := agree.fn f <| by
    rintro ⟨hint, k, r, above, -, eq⟩
    exact old hint k r above eq
  rw [fixed, agree.yes]
  rfl

/-! ## Conditions of well-formedness -/

/-- Of each sort the well-formed values are those of which its condition says so, or all if it has none. -/
structure World.Restricts {U : Type u} (w : World) (I : Interpretation U) (n : Nat) (W : Srt → U → Prop) : Prop where
  denotes : ∀ s, (w.method? "wf" s).isSome → Denotes I n s w.wellFormed (W s)
  all : ∀ s, w.method? "wf" s = none → ∀ u, W s u

theorem World.wellFormedFrom_next (w : World) (n : Nat) :
    ∀ (fuel : Nat) (t : Term), World.wellFormedFrom { w with next := n } fuel t = w.wellFormedFrom fuel t
  | 0, _ => rfl
  | fuel + 1, t => by
    simp only [World.wellFormedFrom, World.wellFormedFrom_next w n fuel]
    rfl

theorem World.Restricts.next {U : Type u} {I : Interpretation U} {W : Srt → U → Prop}
    (restricts : w.Restricts I n W) (m : Nat) : World.Restricts { w with next := m } I n W where
  denotes s registered := by
    have eq : World.wellFormed { w with next := m } = w.wellFormed := funext (w.wellFormedFrom_next m _)
    rw [eq]
    exact restricts.denotes s registered
  all := restricts.all

theorem Symbol.Drawn.legal {c : Symbol} (drawn : c.Drawn n m) : (app c []).Legal true m := by
  refine ⟨sorted_app.2 ⟨Symbol.proper_of_isFree drawn.isFree, ?_, by simp⟩, before_supply drawn⟩
  obtain ⟨_, _, _, -, -, rfl⟩ := drawn
  rfl

/-- True if the conditions entail the formula, whatever well-formed values the drawn constants have. -/
theorem Interpretation.holds_forallWhere {U : Type u} {I J : Interpretation U} {W : Srt → U → Prop}
    (ok : Gives (forallWhere (cs.map (.app · [])) (hyps ++ [conc])) w φ v) (restricts : w.Restricts I n W)
    (agree : I.AgreeOutside (Drawn n m) J.toFrame) (nodup : cs.Nodup)
    (drawn : ∀ c ∈ cs, c.Drawn n m) (closed : ∀ t ∈ hyps ++ [conc], t.Closed) :
    v = w ∧ φ.Closed ∧ (J.Holds φ ↔ ∀ J' : Interpretation U, J.Varies cs J' →
      (∀ c ∈ cs, W c.range (J'.eval [] (.app c []))) → (∀ h ∈ hyps, J'.Holds h) → J'.Holds conc) := by
  obtain ⟨rfl, conds, body, restricted, guards, quantified⟩ := forallWhere_gives ok
  obtain ⟨each, -⟩ := wellFormed_gives.1 restricted
  obtain ⟨-, rfl⟩ := quantify_eq_ok.1 quantified
  have closedConds : ∀ h ∈ conds, h.Closed := by
    intro h mem
    obtain ⟨t, mem', built⟩ := Forall₂.exists_of_mem_right each mem
    obtain ⟨image, registered⟩ := mem_filter.1 mem'
    obtain ⟨c, there, rfl⟩ := mem_map.1 image
    exact (restricts.denotes _ registered (drawn c there).legal rfl built).1
  have closedBody : body.Closed := by
    refine guards.closed (fun h mem => ?_) (closed conc (by simp))
    exact (mem_append.1 mem).elim (closedConds h) fun m => closed h (by simp [m])
  have admitted {J' : Interpretation U} (varies : J.Varies cs J') :
      (∀ h ∈ conds, J'.Holds h) ↔ ∀ c ∈ cs, W c.range (J'.eval [] (.app c [])) := by
    have agree' : I.AgreeOutside (Drawn n m) J'.toFrame :=
      (agree.trans (varies.drawn drawn)).mono fun _ either => either.elim id id
    constructor
    · intro holds c there
      by_cases registered : (v.method? "wf" c.range).isSome
      · obtain ⟨h, mem, built⟩ := Forall₂.exists_of_mem_left each (mem_filter.2 ⟨mem_map.2 ⟨c, there, rfl⟩, registered⟩)
        exact ((restricts.denotes _ registered (drawn c there).legal rfl built).2 J' agree').1 (holds h mem)
      · exact restricts.all _ (by simpa using registered) _
    · intro admits h mem
      obtain ⟨t, mem', built⟩ := Forall₂.exists_of_mem_right each mem
      obtain ⟨image, registered⟩ := mem_filter.1 mem'
      obtain ⟨c, there, rfl⟩ := mem_map.1 image
      exact ((restricts.denotes _ registered (drawn c there).legal rfl built).2 J' agree').2 (admits c there)
  rw [filterMap_bindingName, holds_forall nodup (fun c there => (drawn c there).isFree) closedBody]
  refine ⟨rfl, closedBody.bind_abstract, forall₂_congr fun J' varies => ?_⟩
  rw [guards.holds, ← admitted varies]
  simp only [mem_append, or_imp, forall_and, and_imp]

end SortedLogic

import SortedLogic.Proofs.TacticSteps
import SortedLogic.Proofs.Unfolding

/-!
# Steps that use theorems

The steps that rewrite with a theorem or apply it match it against a goal; the instance that they note, or the hypothesis that
they use, has the value of the match (`Opens`, `Matched`). A proof without quantifier is not noted (`Source.unnoted`).
-/

namespace SortedLogic
open List
open Term hiding bind
open Kernel (sides?)
open SortedLogic.Frame
open Checked (bind_eq_ok)
universe u
open Gives (bind_iff pure_iff)
variable {thm t x body goal c conc d inner l new old pattern rhs t' target y : Term} {by' : List Proof}
  {pf : Proof} {n m k k' n' n₁ : Nat} {ar : Symbol → Nat} {cs : List Symbol} {σ : Substitution}
  {g : Tactic.Goal} {at' : Option Int} {rest : List Tactic.Goal} {source : Tactic.Source}
  {rule : Rewrite.HornRule} {α β : Type} {w v : World} {a b : Tactic.Attempt} {r : α}
  {s : World × Tactic.Attempt} {os hyps ts vs : List Term} {U : Type u} {I J : Interpretation U} {range : Srt}
  {vars : Vars} {may : Symbol → Nat → Prop}
  {overloads : Srt → Bool} {o : Tactic.Help}

/-! ## Asking the prover -/

/-- Asking the prover gives no number of the supply back. -/
def World.Steady (w : World) : Prop := ∀ ds hyps goal n b m, Gives (w.entails ds hyps goal) n b m → n ≤ m

/-- The computation changes nothing of the world but the supply, which goes on. -/
def Session.Draws {α : Type} (x : Session α) : Prop := ∀ w v r, Gives x w r v → ∃ m, w.next ≤ m ∧ v = { w with next := m }

/-- Asking the solver that is named gives no number of the supply back. -/
def Kernel.Options.Steady (o : Kernel.Options) : Prop :=
  ∀ solver, o.solver = some solver → ∀ ds hyps goal n b m, Gives (solver ds hyps goal) n b m → n ≤ m

theorem Kernel.Options.steady_default : Kernel.Options.Steady {} := by
  intro solver none
  cases none

namespace Tactic

/-- Nor does finding the proofs that help. -/
structure Help.Steady (o : Help) : Prop where
  solver : o.toOptions.Steady
  instances : ∀ here, o.instances = some here → ∀ vs, (here vs).Draws

theorem Help.steady_default : Help.Steady {} := ⟨Kernel.Options.steady_default, by simp⟩

theorem Help.plain_eq_ok {o : Help} {o' : Kernel.Options} (ok : o.plain = .ok o') : o' = o.toOptions := by
  unfold Help.plain at ok
  split at ok
  · cases ok
  · exact (Except.ok.inj ok).symm

theorem asked {o : Kernel.Options} (ok : Gives (Kernel.prove thm by' o) w pf v) : pf.thm = thm ∧ (v = w ∨
    ∃ b m, Gives (o.solver.getD w.entails w.datatypes (by'.map Proof.thm) thm) w.next b m ∧ v = { w with next := m }) := by
  unfold Kernel.prove at ok
  split at ok
  · replace ok := Gives.theWorld_bind.1 ok
    split at ok
    · cases ok
      exact ⟨rfl, .inl rfl⟩
    · cases ok
  simp only [bind_iff, Gives.ofChecked_session, Gives.theWorld_iff, Gives.ofFresh_iff] at ok
  obtain ⟨_, _, ⟨-, rfl⟩, _, _, ⟨rfl, rfl⟩, _, _, ⟨m, answered, rfl⟩, last⟩ := ok
  split at last
  · cases last
    exact ⟨rfl, .inr ⟨_, m, answered, rfl⟩⟩
  · cases last

theorem proved {o : Kernel.Options} (steady : w.Steady) (fine : o.Steady) (ok : Gives (Kernel.prove thm by' o) w pf v) :
    pf.thm = thm ∧ ∃ m, w.next ≤ m ∧ v = { w with next := m } := by
  obtain ⟨eq, rfl | ⟨b, m, answered, rfl⟩⟩ := asked ok
  · exact ⟨eq, v.next, le_rfl, rfl⟩
  refine ⟨eq, m, ?_, rfl⟩
  cases named : o.solver with
  | none =>
    rw [named] at answered
    exact steady _ _ _ _ _ _ answered
  | some solver =>
    rw [named] at answered
    exact fine solver named _ _ _ _ _ _ answered

theorem of_tryCatch {x : Session α} {h : Fault → Session α} (ok : Gives (tryCatch x h) w r v) :
    Gives x w r v ∨ ∃ e w', x.run w = (.error e, w') ∧ Gives (h e) w' r v := by
  replace ok : (ExceptT.tryCatch x h).run w = (.ok r, v) := ok
  simp only [ExceptT.tryCatch, ExceptT.run, ExceptT.mk, bind, StateT.bind] at ok
  rcases run : x.run w with ⟨e | y, w'⟩
  · rw [show x w = _ from run] at ok
    exact .inr ⟨e, w', rfl, ok⟩
  · rw [show x w = _ from run] at ok
    exact .inl (run.trans ok)

theorem unfoldTimes_gives {k : Nat} {q : Term × List Proof} (ok : Gives (unfoldTimes k t) w q v) : v = w := by
  induction k generalizing t q with
  | zero =>
    cases ok
    rfl
  | succ k ih =>
    replace ok := Gives.theWorld_bind.1 ok
    obtain ⟨u, -, ok⟩ := Gives.checked_bind.1 ok
    obtain ⟨_, w', below, last⟩ := bind_iff.1 ok
    cases last
    exact ih below

theorem withUnfolding_gives {k : Nat} {ps : List Proof} (steady : w.Steady) (ok : Gives (withUnfolding thm by' k) w ps v) :
    ∃ m, w.next ≤ m ∧ v = { w with next := m } := by
  obtain ⟨⟨u, laws⟩, w', below, rest⟩ := bind_iff.1 ok
  obtain rfl := unfoldTimes_gives below
  dsimp only at rest
  split at rest
  · cases rest
    exact ⟨v.next, le_rfl, rfl⟩
  obtain ⟨e, w'', equated, ending⟩ := bind_iff.1 rest
  obtain ⟨rfl, -⟩ := Kernel.equate_gives equated
  obtain ⟨pf, v', found, last⟩ := bind_iff.1 ending
  cases last
  exact (proved steady Kernel.Options.steady_default found).2

theorem proveUnfolding_asks {k : Nat} {o : Kernel.Options} (ok : Gives (proveUnfolding thm by' o k) w pf v) :
    ∃ ps w₁, Gives (withUnfolding thm by' k) w ps w₁ ∧ Gives (Kernel.prove thm ps o) w₁ pf v := by
  obtain ⟨ps, w₁, first, rest⟩ := bind_iff.1 ok
  obtain found | ⟨e, w', -, err⟩ := of_tryCatch rest
  · exact ⟨ps, w₁, first, found⟩
  -- a theorem that only holds without its quantifiers is refused too
  split at err
  · split at err
    · obtain ⟨_, _, _, last⟩ := bind_iff.1 err
      obtain ⟨_, _, last, -⟩ := bind_iff.1 last
      cases last
    · cases err
  · cases err

theorem proveUnfolding_gives {k : Nat} {o : Kernel.Options} (steady : w.Steady) (fine : o.Steady)
    (ok : Gives (proveUnfolding thm by' o k) w pf v) : ∃ m, w.next ≤ m ∧ v = { w with next := m } := by
  obtain ⟨ps, w₁, first, found⟩ := proveUnfolding_asks ok
  obtain ⟨m, le, rfl⟩ := withUnfolding_gives steady first
  obtain ⟨-, m', le', rfl⟩ := proved (w := { w with next := m }) steady fine found
  exact ⟨m', le.trans le', rfl⟩

/-- What is proved is the theorem asked for, at once or, with proofs that need its variables, for new constants. -/
theorem prove_cases {o : Help} (ok : Gives (prove thm by' o) w pf v) : pf.thm = thm ∧
    (Gives (proveUnfolding thm by' o.toOptions (o.unfold.getD 0)) w pf v ∨
      ∃ here vs m hs w₁ body p, o.instances = some here ∧ w.next ≤ m ∧ Gives (here vs) { w with next := m } hs w₁ ∧
        Gives (proveUnfolding body (by' ++ hs) o.toOptions (o.unfold.getD 0)) w₁ p v) := by
  unfold prove at ok
  split at ok
  · obtain ⟨ps, w₁, -, found⟩ := proveUnfolding_asks ok
    exact ⟨(asked found).1, .inl ok⟩
  rename_i here named
  unfold forallIntro at ok
  split at ok
  swap
  · cases ok
  obtain ⟨⟨vs, ab⟩, w₁, made, rest⟩ := bind_iff.1 ok
  obtain ⟨m, herb, rfl⟩ := Gives.ofFresh_iff.1 made
  obtain ⟨vars, body, vs', -, drawn, -, shape⟩ := Kernel.herb_gives herb
  obtain ⟨-, -, -, -, -, le⟩ := freshConsts_gives (fun v : String × Srt => Text.stem v.1) (·.2) drawn
  dsimp only at rest shape
  rw [shape] at rest
  obtain ⟨p, w₂, inner, last⟩ := bind_iff.1 rest
  obtain ⟨hs, w₃, helped, inner⟩ := bind_iff.1 inner
  obtain ⟨ended, rfl⟩ := Gives.ofChecked_session.1 last
  obtain ⟨f, -, shape'⟩ := Kernel.modus_eq_ok ended
  have parts := (Term.app.inj (shape.symm.trans shape')).2
  simp only [List.cons.injEq, and_true] at parts
  exact ⟨parts.2.symm, .inr ⟨here, vs, m, hs, w₃, _, p, named, le, helped, inner⟩⟩

theorem proved_helped {o : Help} (steady : w.Steady) (fine : o.Steady) (ok : Gives (prove thm by' o) w pf v) :
    pf.thm = thm ∧ ∃ m, w.next ≤ m ∧ v = { w with next := m } := by
  obtain ⟨eq, found | ⟨here, vs, m, hs, w₁, body, p, named, le, helped, found⟩⟩ := prove_cases ok
  · exact ⟨eq, proveUnfolding_gives steady fine.solver found⟩
  obtain ⟨m₁, le₁, rfl⟩ := fine.instances here named vs _ _ _ helped
  obtain ⟨m₂, le₂, rfl⟩ := proveUnfolding_gives (w := { w with next := m₁ }) steady fine.solver found
  exact ⟨eq, m₂, le.trans (le₁.trans le₂), rfl⟩

theorem sides_formula (form : t.Formula n) (hit : sides? t = some (x, y)) :
    t = .app (.eq x.sort) [x, y] ∧ x.sort = y.sort ∧ x.Regular n ∧ y.Regular n := by
  unfold sides? at hit
  split at hit
  swap
  · cases hit
  split at hit
  · rename_i op
    cases hit
    obtain ⟨s, rfl⟩ := form.proper.eq_eq op
    obtain ⟨⟨rfl, eq⟩, -⟩ := legal_eq.1 form.legal
    exact ⟨rfl, eq.symm, form.arg (by simp), form.arg (by simp)⟩
  · cases hit

theorem Attempt.exists_top {q : Term × Term} (hit : sides? a.top.goal = some q) : ∃ g rest, a.goals = g :: rest ∧ a.top = g := by
  cases goals : a.goals with
  | nil =>
    rw [Attempt.top, goals] at hit
    cases hit
  | cons g rest => exact ⟨g, rest, rfl, Attempt.top_eq goals⟩

section
variable {r : Unit} (reg : a.Regular w.next)
include reg

theorem symm_refines (ok : Gives symm (w, a) r s) : Refines.{u} os w s.1 a s.2 := by
  replace ok := topGoal_bind.1 ok
  split at ok
  swap
  · cases ok
  rename_i x y hit
  obtain ⟨g, rest, goals, top'⟩ := Attempt.exists_top hit
  rw [top'] at hit ok
  have top := reg g (by simp [goals])
  obtain ⟨shape, eq, left, right⟩ := sides_formula top.goal hit
  obtain ⟨c, built, ok⟩ := checked_bind.1 ok
  cases ((eq_of_sort eq.symm).symm.trans built)
  obtain rfl := replaceTop_of ok goals
  refine .replace [] goals reg le_rfl rfl (by simp) rfl ⟨top.hyps, formula_eq eq.symm right left⟩ fun I _ _ given new => ?_
  rw [shape, Frame.Holds, eval_eq]
  exact (eval_eq.1 (new given)).symm

omit reg in
theorem underHyps_holds (built : underHyps hyps c = .ok d) :
    c.sort = .bool ∧ ∀ {U : Type u} (I : Interpretation U), I.Holds d ↔ ((∀ h ∈ hyps, I.Holds h) → I.Holds c) := by
  obtain ⟨x, first, second⟩ := bind_eq_ok.1 built
  obtain ⟨-, rfl⟩ := and_eq_ok.1 first
  obtain ⟨-, bool, rfl⟩ := implies_eq_ok.1 second
  refine ⟨bool, fun I => ?_⟩
  rw [Frame.Holds, eval_implies, eval_and]
  rfl

theorem eqTo_refines (steady : w.Steady) (arg : rhs.Regular w.next)
    (fits : ∀ x y, sides? a.top.goal = some (x, y) → y.sort = rhs.sort)
    (plain : w.method? "eq" rhs.sort = none) (fine : o.Steady) (ok : Gives (eqTo rhs by' o) (w, a) r s) :
    Refines.{u} os w s.1 a s.2 := by
  replace ok := topGoal_bind.1 ok
  split at ok
  swap
  · cases ok
  rename_i x y hit
  have same' := fits x y hit
  obtain ⟨g, rest, goals, top'⟩ := Attempt.exists_top hit
  rw [top'] at hit ok
  have top := reg g (by simp [goals])
  obtain ⟨shape, same, left, right⟩ := sides_formula top.goal hit
  obtain ⟨e, _, equated, ok⟩ := session_bind.1 ok
  obtain ⟨rfl, -, read⟩ := equate_formula same' (by rwa [same']) right arg equated
  obtain ⟨thm, under, ok⟩ := checked_bind.1 ok
  obtain ⟨o', plain', ok⟩ := checked_bind.1 ok
  obtain rfl := Help.plain_eq_ok plain'
  obtain ⟨pf, _, asked, ok⟩ := session_bind.1 ok
  obtain ⟨thm', m, le, rfl⟩ := proved steady fine.solver asked
  obtain ⟨c, built, ok⟩ := checked_bind.1 (addLemmas_bind.1 ok)
  cases ((eq_of_sort (same.trans same')).symm.trans built)
  obtain rfl := replaceTop_of ok goals
  refine .replace [pf] goals reg le rfl rfl rfl ⟨(top.mono le).hyps,
    formula_eq (same.trans same') (left.mono le) (arg.mono le)⟩ fun I hold _ given new => ?_
  have equal := (read I).1 (((underHyps_holds under).2 I).1 (thm' ▸ hold pf (by simp)) given)
  rw [shape, Frame.Holds, eval_eq]
  exact (eval_eq.1 (new given)).trans equal.symm

theorem auto_refines (steady : w.Steady) (fine : o.Steady) (ok : Gives (auto by' o) (w, a) r s) : Refines.{u} os w s.1 a s.2 := by
  obtain ⟨g, rest, goals, ok⟩ := currentGoal_bind.1 ok
  obtain ⟨thm, under, ok⟩ := checked_bind.1 ok
  obtain ⟨pf, _, asked, ok⟩ := session_bind.1 ok
  obtain ⟨thm', m, le, rfl⟩ := proved_helped steady fine asked
  obtain ⟨_, _, goals', ok⟩ := take_bind.1 (addLemmas_bind.1 ok)
  obtain ⟨rfl, rfl⟩ := cons.inj (goals.symm.trans goals')
  cases ok
  refine .of_top [] [pf] goals reg le rfl rfl rfl (by simp) fun I _ hold _ _ => ?_
  exact ((underHyps_holds under).2 I).1 (thm' ▸ hold pf (by simp))

theorem newGoal_refines (steady : w.Steady) (arg : new.Formula w.next) (fine : o.Steady)
    (ok : Gives (newGoal new by' o) (w, a) r s) : Refines.{u} os w s.1 a s.2 := by
  replace ok := topGoal_bind.1 ok
  obtain ⟨thm, under, ok⟩ := checked_bind.1 ok
  obtain ⟨pf, _, asked, ok⟩ := session_bind.1 ok
  obtain ⟨thm', m, le, rfl⟩ := proved_helped steady fine asked
  obtain ⟨g, rest, goals, ok⟩ := take_bind.1 (addLemmas_bind.1 ok)
  have goals : a.goals = g :: rest := goals
  rw [Attempt.top_eq goals] at under ok
  have top := reg g (by simp [goals])
  obtain rfl := put_iff.1 ok
  refine .replace [pf] goals reg le rfl rfl rfl ⟨(top.mono le).hyps, arg.mono le⟩ fun I hold _ given holds => ?_
  refine ((underHyps_holds under).2 I).1 (thm' ▸ hold pf (by simp)) fun h mem => ?_
  obtain mem | mem := mem_append.1 mem
  · exact given h mem
  · exact mem_singleton.1 mem ▸ holds given

theorem have_refines (steady : w.Steady) (arg : conc.Formula w.next) (fine : o.Steady)
    (ok : Gives (have' conc by' o) (w, a) r s) : Refines.{u} os w s.1 a s.2 := by
  obtain ⟨g, rest, goals, ok⟩ := take_bind.1 ok
  have top := reg g (by simp [goals])
  obtain ⟨thm, under, ok⟩ := checked_bind.1 ok
  obtain ⟨o', plain', ok⟩ := checked_bind.1 ok
  obtain rfl := Help.plain_eq_ok plain'
  obtain ⟨pf, _, asked, ok⟩ := session_bind.1 ok
  obtain ⟨thm', m, le, rfl⟩ := proved steady fine.solver asked
  obtain rfl := put_iff.1 ok
  refine .replace [pf] goals reg le rfl rfl rfl ((top.mono le).assume (arg.mono le) (top.mono le).goal)
    fun I hold _ given holds => ?_
  exact holds.assume rfl rfl given (((underHyps_holds under).2 I).1 (thm' ▸ hold pf (by simp)) given)

theorem assumption_refines (ok : Gives assumption (w, a) r s) : Refines.{u} os w s.1 a s.2 := by
  obtain ⟨g, rest, goals, ok⟩ := take_bind.1 ok
  split at ok
  · rename_i there
    cases ok
    refine .of_top [] [] goals reg le_rfl rfl (by simp) rfl (by simp) fun I _ _ _ _ given => ?_
    exact given _ (contains_iff_mem.1 there)
  · cases ok

theorem generalize_refines (ok : Gives (generalize vs) (w, a) r s) : Refines.{u} os w s.1 a s.2 := by
  obtain ⟨g, rest, goals, ok⟩ := take_bind.1 ok
  have top := reg g (by simp [goals])
  obtain ⟨t, closed, ok⟩ := checked_bind.1 ok
  obtain ⟨pf, -, ok⟩ := checked_bind.1 ok
  obtain rfl := put_iff.1 (addLemmas_bind.1 ok)
  obtain ⟨⟨-, bindable, -⟩, rfl⟩ := quantify_eq_ok.1 closed
  have consts : ∀ v ∈ vs, ∃ c, v = .app c [] := by
    intro v mem
    have := bindable v mem
    unfold isBindable at this
    split at this
    · exact ⟨_, rfl⟩
    · cases this
  have apps : ∀ v ∈ vs, v.isApp = true := fun v mem => by
    obtain ⟨c, rfl⟩ := consts v mem
    rfl
  have goal := top.goal
  have form : (Term.bind .forall (vs.filterMap bindingName?) (abstract vs g.goal)).Formula w.next := by
    refine ⟨⟨⟨⟨by simpa using goal.legal.sorted.abstract_apps (.inl rfl) apps, .inr (.inl ?_)⟩, ?_⟩, ?_⟩, rfl⟩
    · rw [abstract, sort_abstractAt, goal.sort]
    · exact .of_mentions [] (fun c _ mem' => .inl (mentions_abstractAt mem')) goal.legal.before (by simp)
    · exact uses_bind.2 goal.uses.abstractAt
  refine .replace [pf] goals reg le_rfl rfl rfl rfl ⟨top.hyps, form⟩ fun I _ _ given new => ?_
  have fits : I.Fits (vs.map (I.eval [])) ((vs.filterMap bindingName?).map (·.2)) := by
    rw [sorts_bindingName apps]
    refine I.fits_map.2 fun v mem => ?_
    obtain ⟨c, rfl⟩ := consts v mem
    exact I.const_mem c
  have value := eval_forall.1 (new given) _ fits
  rw [append_nil, eval_abstract_terms goal.legal.sorted.closed] at value
  · exact value
  · intro v mem
    obtain ⟨c, rfl⟩ := consts v mem
    exact closed_app.2 (by simp)

omit reg in
theorem without_fewer (c i : Nat) (gs : List Goal) :
    List.Forall₂ (fun g g' => g'.goal = g.goal ∧ ∀ h ∈ g'.hyps, h ∈ g.hyps) gs (gs.map (·.without c i)) := by
  rw [forall₂_map_right_iff, forall₂_same]
  intro g _
  unfold Goal.without
  split
  · exact ⟨rfl, fun h mem => mem_of_mem_eraseIdx mem⟩
  · exact ⟨rfl, fun h mem => mem⟩

theorem clear_refines {n : Int} (ok : Gives (clear n) (w, a) r s) : Refines.{u} os w s.1 a s.2 := by
  obtain ⟨g, rest, goals, ok⟩ := currentGoal_bind.1 ok
  obtain ⟨_, -, ok⟩ := checked_bind.1 ok
  obtain rfl := changeAttempt_iff.1 ok
  have fewer := without_fewer g.context.number (place g.hyps.length n).toNat a.goals
  refine ⟨⟨w.next, le_rfl, rfl⟩, rfl, fun p mem => mem, fun g'' mem => ?_, fun I _ _ _ holds g' mem given => ?_⟩
  · obtain ⟨g', mem', eq, less⟩ := Forall₂.exists_of_mem_right fewer mem
    exact ⟨fun h there => (reg g' mem').hyps h (less h there), eq ▸ (reg g' mem').goal⟩
  · obtain ⟨g'', there, eq, less⟩ := Forall₂.exists_of_mem_left fewer mem
    exact eq ▸ holds g'' there fun h mem' => given h (less h mem')

end

theorem select_one {domains : List Srt} (array : l.sort = .array domains range) (ok : l.select [x] = .ok t) :
    ∃ d, domains = [d] := by
  unfold select at ok
  rw [array] at ok
  dsimp only at ok
  split at ok
  · cases ok
  · rename_i len
    exact length_eq_one_iff.1 (not_not.1 len).symm

theorem regular_select {d : Srt} (array : l.sort = .array [d] range) (sort : x.sort = d) (left : l.Regular n)
    (right : x.Regular n) : (app (.select [d] range) [l, x]).Regular n :=
  regular_apply (Symbol.Logical.select _ _).proper (before_of_not_free rfl) (by simp [array, sort]; rfl)
    (by simpa using ⟨left, right⟩)

theorem regular_supply {hint : String} {s : Srt} : (app (.supply hint n s) []).Regular (n + 1) := by
  refine regular_app.2 ⟨⟨Symbol.proper_of_isFree rfl, ?_, .inr rfl⟩, rfl, by simp⟩
  exact (before_app.1 (before_supply ⟨hint, n, s, le_rfl, Nat.lt_succ_self _, rfl⟩)).1

theorem ext_refines (reg : a.Regular w.next) (steady : w.Steady) (plain : w.method? "eq" .bool = none)
    (place : ∀ l r d e, sides? a.top.goal = some (l, r) → l.sort = .array [d] e → w.method? "eq" d = none)
    (ok : Gives ext (w, a) vs s) : Refines.{u} s.2.top.hyps.getLast?.toList w s.1 a s.2 := by
  replace ok := topGoal_bind.1 ok
  split at ok
  · cases ok
  rename_i l r' hit
  obtain ⟨g, rest, goals, top'⟩ := Attempt.exists_top hit
  rw [top'] at hit ok place
  have top := reg g (by simp [goals])
  obtain ⟨shape, same, left, right⟩ := sides_formula top.goal hit
  split at ok
  swap
  · cases ok
  rename_i domains range array
  replace ok := take_of ok goals
  obtain ⟨x, m, drawn, ok⟩ := fresh_bind.1 ok
  obtain ⟨-, new, rfl⟩ := freshConst_gives.1 drawn
  have const : x.Regular (w.next + 1) := new ▸ regular_supply
  have sort : x.sort = domains.headD .int := by rw [new]; rfl
  obtain ⟨c, built, ok⟩ := checked_bind.1 ok
  obtain ⟨t, selected, built⟩ := bind_eq_ok.1 built
  obtain ⟨t', selected', built⟩ := bind_eq_ok.1 built
  obtain ⟨d, rfl⟩ := select_one array selected
  have array' : r'.sort = .array [d] range := same ▸ array
  have le : w.next ≤ w.next + 1 := Nat.le_succ _
  cases ((select_of_sorts array sort).symm.trans selected)
  cases ((select_of_sorts array' sort).symm.trans selected')
  cases ((eq_of_sort (a := .app (.select [d] range) [l, x]) (b := .app (.select [d] range) [r', x]) rfl).symm.trans built)
  have compared : (app (.eq range) [.app (.select [d] range) [l, x], .app (.select [d] range) [r', x]]).Formula (w.next + 1) :=
    formula_eq (a := .app (.select [d] range) [l, x]) rfl
      (regular_select array sort (left.mono le) const) (regular_select array' sort (right.mono le) const)
  have difference : (app (.builtin "array-ext" [l.sort, l.sort] ([d].headD .int)) [l, r']).Regular (w.next + 1) :=
    regular_apply (Symbol.proper_builtin (by decide) _ _) (before_of_not_free rfl) (by simp [Symbol.builtin, same])
      (by simpa using ⟨left.mono le, right.mono le⟩)
  obtain ⟨here, _, equated, ok⟩ := session_bind.1 ok
  obtain ⟨rfl, hypothesis, -⟩ := equate_formula.{u} sort (by exact sort ▸ place l r' d range hit array) const difference equated
  obtain ⟨both, _, equated', ok⟩ := session_bind.1 ok
  obtain ⟨rfl, -, read⟩ := equate_formula top.goal.sort (by exact top.goal.sort ▸ plain)
    (top.goal.mono le).toRegular compared.toRegular equated'
  obtain ⟨e, implied, ok⟩ := checked_bind.1 ok
  obtain ⟨-, -, rfl⟩ := implies_eq_ok.1 implied
  obtain ⟨pf, _, asked, ok⟩ := session_bind.1 ok
  obtain ⟨thm', m, le', rfl⟩ := proved (w := { w with next := w.next + 1 }) steady Kernel.Options.steady_default asked
  cases ok
  refine .replace [pf] goals reg (le.trans le') rfl rfl rfl
    ((top.mono (le.trans le')).assume (hypothesis.mono le') (compared.mono le'))
    fun I hold omitted given holds => ?_
  have named : I.Holds here := omitted here (by simp [Attempt.top, Goal.hyps])
  have lemma' : I.Holds (.app .implies [here, both]) := thm' ▸ hold pf (by simp)
  have equal := (read I).1 (eval_implies.1 lemma' named)
  rw [Frame.Holds, equal]
  exact holds.assume rfl rfl given named

end Tactic

/-! ## Rules -/

/-- Each symbol stands before one number of arguments in both terms. -/
def Term.Aligned (t u : Term) : Prop := ∃ ar, Arities ar ∧ t.AtArity ar ∧ u.AtArity ar

theorem Term.uses_takes (arities : Arities ar) (exact' : t.AtArity ar) : t.Uses Symbol.Takes := by
  intro f args mem
  by_cases variadic : f.Variadic
  · exact .inl variadic
  · refine .inr ((exact' f args mem).trans (arities f fun name mem' => ?_))
    exact Bool.eq_false_iff.2 fun op => variadic ⟨name, mem', op⟩

theorem Term.Regular.replaceAll {pairs : List (Term × Term)} (reg : t.Regular n) (ex : Exchange pairs)
    (new : ∀ q ∈ pairs, q.2.Regular n) : (t.replaceAll pairs).Regular n :=
  ⟨reg.legal.replaceAll ex fun q mem => (new q mem).legal, reg.uses.replaceAll ex fun q mem => (new q mem).uses⟩

theorem Matching.Found.exchange (hit : ∀ q ∈ σ, Found ar cs n [] q) : Term.Exchange σ := by
  intro q mem
  obtain ⟨c, -, key⟩ := (hit q mem).key
  exact ⟨key ▸ closed_app.2 (by simp), (hit q mem).legal.sorted.closed, (hit q mem).sort⟩

namespace Matching

theorem step_nil {p p' : Problem} (ok : Gives (step overloads [] pattern t p) n (some p') n') : p'.found = p.found := by
  have parts {f : Symbol} {args : List Term} (ok : Gives (step.decompose t p f args) n (some p') n') : p'.found = p.found := by
    unfold step.decompose at ok
    split at ok
    · split at ok
      · obtain ⟨pairs, k, -, last⟩ := bind_iff.1 ok
        obtain ⟨eq, -⟩ := pure_iff.1 last
        cases eq
        rfl
      · simp at ok
    · simp at ok
  unfold step at ok
  rw [if_neg (by simp)] at ok
  cases pattern with
  | var => simp at ok
  | app _ args =>
    cases args with
    | nil => exact parts ok
    | cons =>
      simp only [contains_nil, Bool.false_eq_true, and_false, if_false] at ok
      exact parts ok
  | bind k =>
    cases t with
    | var => simp at ok
    | app => simp at ok
    | bind =>
      simp only at ok
      split at ok
      · obtain ⟨q, k, -, last⟩ := bind_iff.1 ok
        obtain ⟨eq, -⟩ := pure_iff.1 last
        cases eq
        rfl
      · simp at ok

theorem solve_nil : ∀ {fuel n n' : Nat} {p : Problem}, Gives (solve overloads [] fuel p) n (some σ) n' → p.found = σ
  | _, n, n', ⟨[], hit, opened⟩, ok => by
    rw [solve] at ok
    simpa using (pure_iff.1 ok).1
  | 0, n, n', ⟨q :: rest, hit, opened⟩, ok => by simp [solve] at ok
  | fuel + 1, n, n', ⟨q :: rest, hit, opened⟩, ok => by
    rw [solve, bind_iff] at ok
    obtain ⟨r, k, stepped, ok⟩ := ok
    cases r with
    | none => simp at ok
    | some => exact (step_nil stepped).symm.trans (solve_nil ok)

end Matching

namespace Tactic

/-- `body` is `thm`, or what its universal quantifier is about, with the new constants `cs` for the variables. -/
structure Opens (n m : Nat) (thm body : Term) (cs : List Symbol) : Prop where
  le : n ≤ m
  distinct : cs.Nodup
  drawn : ∀ c ∈ cs, c.Drawn n m
  rule : thm.Formula n
  formula : body.Formula m
  shape : (cs = [] ∧ body = thm ∧ thm.isForall = false) ∨ ∃ vars inner, thm = .bind .forall vars inner ∧
    body = openWith (cs.map (.app · [])) inner ∧
    cs.map Symbol.range = vars.map (·.2) ∧ inner.Sorted true (binding .forall vars)

namespace Opens

theorem refl (form : thm.Formula n) (other : thm.isForall = false) : Opens n n thm thm [] :=
  ⟨Nat.le_refl n, nodup_nil, by simp, form, form, .inl ⟨rfl, rfl, other⟩⟩

theorem of_openFresh {r : List Term × Term} (form : (Term.bind .forall vars body).Formula n)
    (ok : Gives (Term.bind .forall vars body).openFresh n r m) :
    ∃ cs, r.1 = cs.map (.app · []) ∧ Opens n m (.bind .forall vars body) r.2 cs := by
  obtain ⟨cs, rfl, ranges, nodup, drawn, le⟩ := openFresh_gives ok
  have sorted : body.Sorted true (binding .forall vars) := by simpa using form.legal.sorted.1
  have bool : body.sort = .bool := by
    rcases form.legal.sorted.2 with h | bool | ⟨h, -⟩
    · cases h
    · exact bool
    · cases h
  refine ⟨cs, rfl, le, nodup, drawn, form, ⟨form.openWith le ranges drawn, ?_⟩, .inr ⟨vars, body, rfl, rfl, ranges, sorted⟩⟩
  exact (sort_openWith sorted ranges).trans bool

variable (opens : Opens n m thm body cs)
include opens

theorem isFree : ∀ c ∈ cs, c.isFree = true := fun c mem => (opens.drawn c mem).isFree

theorem avoids (before : t.Before n) : t.Avoids (· ∈ cs) :=
  fun f mentioned mem => before.not_drawn mentioned (opens.drawn f mem)

theorem isForall : cs = [] ∨ thm.isForall = true := by
  obtain ⟨none, -⟩ | ⟨vars, inner, rfl, -⟩ := opens.shape
  · exact .inl none
  · exact .inr rfl

theorem arity (arities : Arities ar) (exact' : thm.AtArity ar) : body.AtArity ar := by
  obtain ⟨-, rfl, -⟩ | ⟨vars, inner, rfl, rfl, -⟩ := opens.shape
  · exact exact'
  · exact (uses_bind.1 exact').openWith fun c mem => (arities.drawn (opens.drawn c mem)).symm

omit opens in
theorem eval_inner (opens : Opens n m (.bind .forall vars inner) (openWith (cs.map (.app · [])) inner) cs)
    (ranges : cs.map Symbol.range = vars.map (·.2)) (sorted : inner.Sorted true (binding .forall vars))
    (agree : I.AgreeOutside (· ∈ cs) J.toFrame) :
    J.Holds (openWith (cs.map (.app · [])) inner) ↔ I.eval (cs.map fun c => J.eval [] (.app c [])).reverse inner = I.yes := by
  rw [Frame.Holds, eval_openWith sorted ranges, agree.yes, agree.eval opens.isFree]
  exact opens.avoids opens.rule.legal.before

theorem holds (agree : I.AgreeOutside (· ∈ cs) J.toFrame) (true' : I.Holds thm) : J.Holds body := by
  obtain ⟨rfl, rfl, -⟩ | ⟨vars, inner, rfl, rfl, ranges, sorted⟩ := opens.shape
  · rw [Frame.Holds, ← agree.yes, ← agree.eval (by simp) (by simp)]
    exact true'
  rw [opens.eval_inner ranges sorted agree]
  have fits : I.Fits (cs.map fun c => J.eval [] (.app c [])) (vars.map (·.2)) := by
    rw [← ranges, agree.fits]
    exact J.fits_consts cs
  simpa using eval_forall.1 true' _ fits

theorem holds_of_instan (some : cs ≠ []) (agree : I.AgreeOutside (· ∈ cs) J.toFrame) {p : Proof} (is : p.thm = thm)
    (ok : Kernel.instan ts p = .ok pf)
    (vals : List.Forall₂ (fun c t => J.eval [] (.app c []) = I.eval [] t ∧ c.range = t.sort) cs ts)
    (true' : I.Holds pf.thm) : J.Holds body := by
  obtain ⟨none, -⟩ | ⟨vars, inner, rfl, rfl, ranges, sorted⟩ := opens.shape
  · exact absurd none some
  unfold Kernel.instan at ok
  rw [is] at ok
  obtain ⟨_, -, rest⟩ := bind_eq_ok.1 ok
  obtain ⟨inst, applied, last⟩ := bind_eq_ok.1 rest
  cases last
  have sorts : vars.map (·.2) = ts.map sort := by
    rw [← ranges]
    exact Forall₂.map_eq vals fun c _ t eq => eq.2
  cases ((if_pos sorts).symm.trans applied)
  rw [opens.eval_inner ranges sorted agree]
  have eq : (cs.map fun c => J.eval [] (.app c [])) = ts.map (I.eval []) := Forall₂.map_eq vals fun c _ t eq => eq.1
  have terms : ts.reverse.map sort = (binding .forall vars).map (·.2) := by
    simp [binding, map_reverse, ← sorts, Function.comp_def]
  have value := I.eval_instantiateAt (Γ := []) (ρ := []) terms (by simpa using sorted) rfl
  rw [eq, ← map_reverse]
  exact value.symm.trans true'

end Opens

/-- Terms of the sorts of the variables `cs`, and for each interpretation values of these for which the pattern is the term and
the terms take the place of the variables. -/
structure Matched (cs : List Symbol) (n : Nat) (pattern t : Term) (σ : Substitution) : Prop where
  exchange : Term.Exchange σ
  regular : ∀ q ∈ σ, q.2.Regular n
  values : ∀ {U : Type u} (I : Interpretation U), ∃ J : Interpretation U, I.AgreeOutside (· ∈ cs) J.toFrame ∧
    (∀ c ∈ cs, ∀ u, σ.get? (.app c []) = some u → J.eval [] (.app c []) = I.eval [] u ∧ c.range = u.sort) ∧
    J.eval [] pattern = I.eval [] t ∧ ∀ u : Term, I.eval [] (u.replaceAll σ) = J.eval [] u

theorem Opens.matched (opens : Opens n m thm body cs) (le : m ≤ k) (legal : pattern.Legal true k)
    (legal' : t.Legal true n) (aligned : pattern.Aligned t) (all : ∀ c ∈ cs, ∃ u, σ.get? (.app c []) = some u)
    (ok : Gives (pmatch (cs.map (.app · [])) pattern t overloads) k (some σ) k') : Matched.{u} cs k' pattern t σ := by
  obtain ⟨ar, arities, arity⟩ := aligned
  have apart := opens.avoids legal'.before
  have drawn : ∀ c ∈ cs, c.Drawn 0 m := fun c mem => (opens.drawn c mem).mono (Nat.zero_le n) (Nat.le_refl m)
  obtain ⟨hit, keys, eval⟩ := pmatch_gives arities drawn le legal (legal'.mono (opens.le.trans le)) arity apart ok
  refine ⟨Matching.Found.exchange hit, fun q mem => ⟨(hit q mem).legal, uses_takes arities (hit q mem).arity⟩, fun I => ?_⟩
  obtain ⟨J, agree, satisfied, replaced⟩ := I.exists_satisfying hit keys opens.distinct opens.isFree all
  refine ⟨J, agree, fun c mem u known => ?_, (eval J satisfied).trans (agree.eval opens.isFree apart).symm, replaced⟩
  have here := hit _ (Substitution.mem_of_get? known)
  refine ⟨(satisfied _ (Substitution.mem_of_get? known)).trans ?_, here.sort⟩
  exact (agree.eval opens.isFree fun f mentioned mem' => here.apart f mentioned (.inl mem')).symm

theorem Matched.refl (ok : Gives (pmatch [] t t overloads) n (some σ) k) : Matched.{u} [] k t t σ := by
  have empty : σ = [] := by
    unfold pmatch at ok
    rw [if_pos rfl] at ok
    exact (Matching.solve_nil ok).symm
  subst empty
  have exchange : Term.Exchange [] := by simp [Term.Exchange]
  exact ⟨exchange, by simp, fun I => ⟨I, agreeOutside_refl _, by simp, rfl, fun u => eval_replaceAll exchange (by simp)⟩⟩

theorem get?_of_values (ok : values σ (cs.map (.app · [])) = .ok ts) :
    List.Forall₂ (fun c t => σ.get? (.app c []) = some t) cs ts := by
  have each := Checked.mapM_eq_ok.1 ok
  rw [forall₂_map_left_iff] at each
  refine each.imp fun c t hit => ?_
  split at hit
  · rename_i u known
    cases hit
    exact known
  · cases hit

theorem opened_bind {F : List Term × Term → TacticM β} {r : β} (form : thm.Formula w.next) (ok : Gives (match thm with
      | .bind .forall .. => (liftM (liftM (thm.openFresh : Fresh _) : Session (List Term × Term)) : TacticM _) >>= F
      | _ => pure ([], thm) >>= F) (w, a) r s) : ∃ cs m body, Opens w.next m thm body cs ∧
      Gives (F (cs.map (.app · []), body)) ({ w with next := m }, a) r s := by
  cases thm with
  | bind k =>
    cases k with
    | «forall» =>
      obtain ⟨q, m, opened, ok⟩ := fresh_bind.1 ok
      obtain ⟨cs, shape, opens⟩ := Opens.of_openFresh form opened
      exact ⟨cs, m, q.2, opens, by rw [← shape]; exact ok⟩
    | _ => exact ⟨[], w.next, _, .refl form rfl, ok⟩
  | _ => exact ⟨[], w.next, _, .refl form rfl, ok⟩

/-- The formula that is worked on: the goal, or a hypothesis. -/
def Targets (g : Goal) : Option Int → Term → Prop
  | none, t => t = g.goal
  | some i, t => item g.hyps i = .ok t

theorem target_bind {g : Goal} {F : Term → TacticM β} {r : β} (ok : Gives (match at' with
      | none => pure g.goal >>= F
      | some i => (liftM (liftM (item g.hyps i) : Session Term) : TacticM _) >>= F) (w, a) r s) :
    ∃ target, Targets g at' target ∧ Gives (F target) (w, a) r s := by
  cases at' with
  | none => exact ⟨g.goal, rfl, ok⟩
  | some =>
    obtain ⟨target, hit, ok⟩ := checked_bind.1 ok
    exact ⟨target, hit, ok⟩

/-- The goal with another formula in the place of the one that is worked on. -/
def Exchanged (g : Goal) (t : Term) : Option Int → Goal → Prop
  | none, g' => g' = { g with goal := t }
  | some _, g' => ∃ k i, g' = { g with context := ⟨k, splice g.hyps i [t]⟩ }

theorem Goal.Regular.formula (reg : g.Regular n) (targets : Targets g at' t) : t.Formula n := by
  cases at' with
  | none =>
    exact targets ▸ reg.goal
  | some => exact reg.hyps t (item_mem targets)

theorem Refines.exchange {g' : Goal} (ls : List Proof) (goals : a.goals = g :: rest)
    (reg : a.Regular w.next) (targets : Targets g at' t) (exchanged : Exchanged g t' at' g')
    (le : w.next ≤ m) (form : t'.Formula m) (thm : b.thm = a.thm) (lemmas : b.lemmas = a.lemmas ++ ls)
    (open' : b.goals = g' :: rest)
    (eq : ∀ {U : Type u} (I : Interpretation U), (∀ p ∈ ls, I.Holds p.thm) → (∀ o ∈ os, I.Holds o) → (∀ h ∈ g.hyps, I.Holds h) →
      (I.Holds t' ↔ I.Holds t)) : Refines.{u} os w { w with next := m } a b := by
  have top := (reg g (by simp [goals])).mono le
  cases at' with
  | none =>
    obtain rfl : t = g.goal := targets
    obtain rfl : g' = { g with goal := t' } := exchanged
    refine .replace ls goals reg le thm lemmas open' ⟨top.hyps, form⟩ fun I hold omitted given new => ?_
    exact (eq I hold omitted given).1 (new given)
  | some =>
    obtain ⟨k, j, rfl⟩ := exchanged
    refine .replace ls goals reg le thm lemmas open' (top.splice (by simpa using form)) fun I hold omitted given new => ?_
    exact new.splice rfl rfl given (forall_mem_singleton.2 ((eq I hold omitted given).2 (given t (item_mem targets))))

theorem exchange_gives {g : Goal} {f : Int → Int} {r : Unit} (ok : Gives (match at' with
      | none => put { g with goal := t }
      | some i => do put (← withHyps g (splice g.hyps (f i) [t]))) (w, a) r s) :
    ∃ g' k, s = (w, { a with goals := g' :: a.goals, next := k }) ∧ Exchanged g t at' g' := by
  cases at' with
  | none => exact ⟨_, a.next, put_iff.1 ok, rfl⟩
  | some i =>
    exact ⟨_, a.next + 1, put_iff.1 ok, a.next, f i, rfl⟩

theorem noting_bind {source : Source} {F : Unit → TacticM β} {r : β} (ok : Gives (match source with
      | .proof p => addLemmas [p] >>= F
      | .hyp _ => F ()) (w, a) r s) :
    ∃ ls, (∀ p, source = .proof p → p ∈ ls) ∧ Gives (F ()) (w, { a with lemmas := a.lemmas ++ ls }) r s := by
  cases source with
  | proof p => exact ⟨[p], by simp, ok⟩
  | hyp => exact ⟨[], by simp, by simpa using ok⟩

theorem Source.holds {ls : List Proof} (hit : source.thm g = .ok thm)
    (noted : ∀ p, source = .proof p → p ∈ ls) (hold : ∀ p ∈ ls, I.Holds p.thm)
    (given : ∀ h ∈ g.hyps, I.Holds h) : I.Holds thm := by
  cases source with
  | proof p =>
    cases hit
    exact hold p (noted p rfl)
  | hyp => exact given thm (item_mem hit)

/-- The rule is a formula: a hypothesis is one in any case. -/
def Source.Regular (n : Nat) : Source → Prop
  | .proof p => p.thm.Formula n
  | .hyp _ => True

theorem Source.Regular.formula (rule : source.Regular n) (reg : g.Regular n)
    (hit : source.thm g = .ok thm) : thm.Formula n := by
  cases source with
  | proof =>
    cases hit
    exact rule
  | hyp => exact reg.hyps thm (item_mem hit)

/-- Wherever the theorem is true, a subterm that matches the pattern `x` has the value of the other side `y`. -/
theorem Refines.of_match {g' : Goal} (ls : List Proof) (goals : a.goals = g :: rest)
    (reg : a.Regular w.next) (hit : source.thm g = .ok thm) (opens : Opens w.next m thm body cs)
    (left : x.Regular m) (right : y.Regular m) (aligned : x.Aligned target)
    (equal : ∀ {U : Type u} (I : Interpretation U), I.Holds body → I.eval [] x = I.eval [] y)
    (targets : Targets g at' target) (sub : old ∈ target.subterms false) (le₁ : m ≤ n₁)
    (matched : Gives (pmatch (cs.map (.app · [])) x old overloads) n₁ (some σ) k)
    (sort : old.sort = (y.replaceAll σ).sort) (all : ∀ c ∈ cs, ∃ u, σ.get? (.app c []) = some u)
    (noted : ∀ p, source = .proof p → p ∈ ls)
    (exchanged : Exchanged g (target.replaceAll [(old, y.replaceAll σ)]) at' g') (thm' : b.thm = a.thm)
    (lemmas : b.lemmas = a.lemmas ++ ls) (open' : b.goals = g' :: rest) : Refines.{u} os w { w with next := k } a b := by
  have form := (reg g (by simp [goals])).formula targets
  have legal := form.legal.of_subterm sub
  have hit' := opens.matched le₁ (left.legal.mono le₁) legal
      (aligned.imp fun ar exact' => ⟨exact'.1, exact'.2.1, exact'.2.2.of_subterm sub⟩)
    all matched
  have le' := le₁.trans (pmatch_le matched)
  have le := opens.le.trans le'
  have reg' := (right.mono le').replaceAll hit'.exchange hit'.regular
  have exchange : Term.Exchange [(old, y.replaceAll σ)] := by
    simpa [Term.Exchange] using ⟨legal.sorted.closed, reg'.legal.sorted.closed, sort⟩
  refine .exchange ls goals reg targets exchanged le ⟨?_, ?_⟩ thm' lemmas open' fun I hold _ given => ?_
  · exact (form.mono le).replaceAll exchange (by simpa using reg')
  · exact (sort_replaceAll exchange _).trans form.sort
  obtain ⟨J, agree, -, pattern, replaced⟩ := hit'.values I
  have holds := opens.holds agree (Source.holds hit noted hold given)
  have eq : I.eval [] old = I.eval [] (y.replaceAll σ) := by rw [replaced, ← pattern, equal J holds]
  rw [Frame.Holds, eval_replaceAll exchange (by simpa using eq)]
  rfl

theorem rewrite_refines {source : Source} {reversed : Bool} {r : Unit} (reg : a.Regular w.next) (rule : source.Regular w.next)
    (aligned : ∀ thm target, source.thm a.top = .ok thm → Targets a.top at' target → thm.Aligned target)
    (ok : Gives (rewrite source at' reversed) (w, a) r s) : Refines.{u} os w s.1 a s.2 := by
  obtain ⟨g, rest, goals, ok⟩ := currentGoal_bind.1 ok
  have top := reg g (by simp [goals])
  rw [Attempt.top_eq goals] at aligned
  obtain ⟨thm, hit, ok⟩ := checked_bind.1 ok
  obtain ⟨cs, m, body, opens, ok⟩ := opened_bind (rule.formula top hit) ok
  dsimp only at ok
  split at ok
  · cases ok
  rename_i l r' sides
  -- the side that is matched and the one that takes its place
  generalize chosen : (if reversed = true then (r', l) else (l, r')) = q at ok
  obtain ⟨x, y⟩ := q
  obtain ⟨target, targets, ok⟩ := target_bind ok
  obtain ⟨ar, arities, exact', exact''⟩ := aligned thm target hit targets
  obtain ⟨left, right, arity, equal⟩ : x.Regular m ∧ y.Regular m ∧ x.AtArity ar ∧
      ∀ {U : Type u} (I : Interpretation U), I.Holds body → I.eval [] x = I.eval [] y := by
    obtain ⟨shape, -, hl, hr⟩ := sides_formula opens.formula sides
    have parts := opens.arity arities exact'
    rw [shape] at parts
    have arity := (uses_app.1 parts).2
    split at chosen
    · cases chosen
      exact ⟨hr, hl, arity _ (by simp), fun I holds => (eval_eq.1 (shape ▸ holds)).symm⟩
    · cases chosen
      exact ⟨hl, hr, arity _ (by simp), fun I holds => eval_eq.1 (shape ▸ holds)⟩
  obtain ⟨q, k, matched, ok⟩ := fresh_bind.1 ok
  split at ok
  · cases ok
  rename_i old σ
  unfold exchange at ok
  dsimp only at ok
  replace ok := take_of ok goals
  obtain ⟨new, replaced, ok⟩ := checked_bind.1 ok
  obtain ⟨-, rfl⟩ := substitute_eq_ok.1 replaced
  obtain ⟨target', replaced', ok⟩ := checked_bind.1 ok
  obtain ⟨sorts, rfl⟩ := substitute_eq_ok.1 replaced'
  obtain ⟨sub, n₁, le₁, matched⟩ := pmatchAmong_gives (show ∀ u ∈ [target],
    u ∈ target.subterms false by simp [self_mem_subterms]) matched
  split at ok
  · obtain ⟨ts, given', ok⟩ := checked_bind.1 ok
    obtain ⟨pf, -, ok⟩ := checked_bind.1 ok
    obtain ⟨ls, noted, ok⟩ := noting_bind (addLemmas_bind.1 ok)
    obtain ⟨g', j, rfl, exchanged⟩ := exchange_gives ok
    have all : ∀ c ∈ cs, ∃ u, σ.get? (.app c []) = some u := fun c mem => by
      obtain ⟨u, -, hit⟩ := Forall₂.exists_of_mem_left (get?_of_values given') mem
      exact ⟨u, hit⟩
    exact .of_match (pf :: ls) goals reg hit opens left right ⟨ar, arities, arity, exact''⟩ equal targets sub le₁ matched
      (sorts (old, _) (by simp)) all (fun p is => mem_cons_of_mem _ (noted p is)) exchanged rfl (by simp) rfl
  · rename_i other
    obtain ⟨ls, noted, ok⟩ := noting_bind ok
    obtain ⟨g', j, rfl, exchanged⟩ := exchange_gives ok
    exact .of_match ls goals reg hit opens left right ⟨ar, arities, arity, exact''⟩ equal targets sub le₁ matched
      (sorts (old, _) (by simp)) (by simp [opens.isForall.resolve_right other]) noted exchanged rfl rfl rfl

/-! ## Rules read backwards -/

open Rewrite (HornRule)

/-- What a formula concludes: of an implication the second part. -/
def conclusion : Term → Term
  | .app f [h, c] => if f.isOp "=>" then c else .app f [h, c]
  | t => t

/-- The theorem can be applied to the goal: what it concludes is the goal, or they have each symbol before one number of arguments. -/
def Concludes : Term → Term → Prop
  | .bind .forall _ inner, goal => (conclusion inner).Aligned goal
  | thm, goal => conclusion thm = goal ∨ (conclusion thm).Aligned goal

/-- The rule that is read off a theorem has its conclusion wherever it has the theorem and its hypothesis. -/
structure Reads (n m : Nat) (thm body : Term) (cs : List Symbol) (rule : HornRule) : Prop where
  opens : Opens n m thm body cs
  vars : rule.vars = cs.map (.app · [])
  hyp : rule.hyp.Formula m
  conc : rule.conc.Formula m
  shape : rule.conc = conclusion body
  holds : ∀ {U : Type u} (I : Interpretation U), I.Holds body → I.Holds rule.hyp → I.Holds rule.conc

theorem opened_fresh {F : List Term × Term → Fresh β} {r : β} (form : thm.Formula n)
    (ok : Gives (match thm with | .bind .forall .. => thm.openFresh >>= F | _ => pure ([], thm) >>= F) n r m) :
    ∃ cs k body, Opens n k thm body cs ∧ Gives (F (cs.map (.app · []), body)) k r m := by
  cases thm with
  | bind k =>
    cases k with
    | «forall» =>
      obtain ⟨q, k, opened, ok⟩ := bind_iff.1 ok
      obtain ⟨cs, shape, opens⟩ := Opens.of_openFresh form opened
      exact ⟨cs, k, q.2, opens, by rw [← shape]; exact ok⟩
    | _ => exact ⟨[], n, _, .refl form rfl, ok⟩
  | _ => exact ⟨[], n, _, .refl form rfl, ok⟩

theorem horn_gives (form : thm.Formula n) (ok : Gives (HornRule.ofTerm thm none) n rule m) :
    ∃ body cs, Reads.{u} n m thm body cs rule := by
  obtain ⟨cs, k, body, opens, ok⟩ := opened_fresh form ok
  dsimp only at ok
  have atom (atomic : body = conclusion body) (ok : Gives
      (HornRule.ofTerm.atom none (cs.map (.app · [])) body) k rule m) : Reads n m thm body cs rule := by
    unfold HornRule.ofTerm.atom at ok
    split at ok
    · cases ok
      exact ⟨opens, rfl, formula_tt, opens.formula, atomic, fun I holds _ => holds⟩
    · cases ok
  split at ok
  · rename_i f h c
    split at ok
    · rename_i op
      cases ok
      obtain rfl := opens.formula.proper.eq_implies op
      obtain ⟨left, right⟩ := formula_implies.1 opens.formula
      exact ⟨_, cs, opens, rfl, left, right, rfl, fun I => eval_implies.1⟩
    · rename_i other
      exact ⟨_, cs, atom (if_neg other).symm ok⟩
  · rename_i other
    refine ⟨_, cs, atom ?_ ok⟩
    unfold conclusion
    split
    · exact absurd rfl (other _ _ _)
    · rfl

theorem conclusion_uses (uses : t.Uses may) : (conclusion t).Uses may := by
  unfold conclusion
  split
  · split
    · exact (uses_app.1 uses).2 _ (by simp)
    · exact uses
  · exact uses

theorem conclusion_openWith (consts : ∀ c ∈ cs, may c 0) (uses : (conclusion t).Uses may) :
    (conclusion (openWith (cs.map (.app · [])) t)).Uses may := by
  unfold conclusion at uses
  split at uses
  · rename_i f h c
    have opened : openWith (cs.map (.app · [])) (.app f [h, c]) =
        .app f [openWith (cs.map (.app · [])) h, openWith (cs.map (.app · [])) c] := rfl
    rw [opened, conclusion]
    split at uses
    · rename_i op
      rw [if_pos op]
      exact uses.openWith consts
    · rename_i other
      rw [if_neg other]
      exact uses.openWith consts
  · exact conclusion_uses (uses.openWith consts)

theorem Concludes.of_not_forall (other : thm.isForall = false) (concludes : Concludes thm goal) :
    conclusion thm = goal ∨ (conclusion thm).Aligned goal := by
  unfold Concludes at concludes
  split at concludes
  · cases other
  · exact concludes

theorem Reads.matched (reads : Reads.{u} n m thm body cs rule) (legal : goal.Legal true n) (concludes : Concludes thm goal)
    (all : ∀ c ∈ cs, ∃ u, σ.get? (.app c []) = some u)
    (ok : Gives (pmatch (cs.map (.app · [])) rule.conc goal overloads) m (some σ) k) : Matched.{u} cs k rule.conc goal σ := by
  have aligned (aligned : rule.conc.Aligned goal) : Matched cs k rule.conc goal σ :=
    reads.opens.matched (Nat.le_refl m) reads.conc.legal legal aligned all ok
  obtain ⟨rfl, rfl, other⟩ | ⟨vars, inner, rfl, rfl, -⟩ := reads.opens.shape
  · obtain eq | eq := concludes.of_not_forall other
    · have shape : rule.conc = goal := reads.shape.trans eq
      rw [shape] at ok ⊢
      exact .refl ok
    · exact aligned (reads.shape ▸ eq)
  · obtain ⟨ar, arities, exact', exact''⟩ := concludes
    refine aligned ⟨ar, arities, ?_, exact''⟩
    rw [reads.shape]
    exact conclusion_openWith (fun c mem => (arities.drawn (reads.opens.drawn c mem)).symm) exact'

/-- The theorem that an applied proof without variables rests on, which is not noted. -/
def Source.unnoted : Source → List Term
  | .hyp _ => []
  | .proof p =>
    match p.thm with
    | .bind .forall (_ :: _) _ => []
    | thm => [thm]

theorem eq_of_mem_unnoted {p : Proof} (mem : t ∈ (Source.proof p).unnoted) : t = p.thm := by
  change t ∈ (match p.thm with | .bind .forall (_ :: _) _ => [] | thm => [thm]) at mem
  split at mem
  · cases mem
  · exact mem_singleton.1 mem

theorem backward_gives (ok : Gives (rule.backward goal overloads) n (some (σ, new)) m) :
    Gives (pmatch rule.vars rule.conc goal overloads) n (some σ) m ∧ new = rule.hyp.replaceAll σ := by
  obtain ⟨q, k, matched, ok⟩ := bind_iff.1 ok
  cases q with
  | none => simp at ok
  | some =>
    obtain ⟨t, k', step, last⟩ := bind_iff.1 ok
    obtain ⟨replaced, rfl⟩ := Gives.ofChecked_fresh.1 step
    obtain ⟨-, rfl⟩ := substitute_eq_ok.1 replaced
    obtain ⟨⟨rfl, rfl⟩, rfl⟩ := last
    exact ⟨matched, rfl⟩

/-- Wherever the opened theorem is true for the values of the terms that were found, the goal follows from the hypothesis of the
rule. -/
theorem Refines.of_horn
    (ls : List Proof) (goals : a.goals = g :: rest) (reg : a.Regular w.next) (reads : Reads.{u} w.next m thm body cs rule)
    (concludes : Concludes thm g.goal) (matched : Gives (pmatch (cs.map (.app · [])) rule.conc g.goal overloads) m (some σ) k)
    (all : ∀ c ∈ cs, ∃ u, σ.get? (.app c []) = some u) (thm' : b.thm = a.thm) (lemmas : b.lemmas = a.lemmas ++ ls)
    (open' : b.goals = { g with goal := rule.hyp.replaceAll σ } :: rest)
    (true' : ∀ {U : Type u} {I J : Interpretation U}, (∀ p ∈ ls, I.Holds p.thm) → (∀ o ∈ os, I.Holds o) →
      (∀ h ∈ g.hyps, I.Holds h) →
      I.AgreeOutside (· ∈ cs) J.toFrame → (∀ c ∈ cs, ∀ u, σ.get? (.app c []) = some u →
        J.eval [] (.app c []) = I.eval [] u ∧ c.range = u.sort) →
      J.Holds body) : Refines.{u} os w { w with next := k } a b := by
  have top := reg g (by simp [goals])
  have hit := reads.matched top.goal.legal concludes all matched
  have le' := pmatch_le matched
  have le := reads.opens.le.trans le'
  refine .replace ls goals reg le thm' lemmas open' ⟨(top.mono le).hyps, ?_⟩ fun I hold omitted given new => ?_
  · exact ⟨(reads.hyp.mono le').replaceAll hit.exchange hit.regular, (sort_replaceAll hit.exchange _).trans reads.hyp.sort⟩
  obtain ⟨J, agree, vals, pattern, replaced⟩ := hit.values I
  have hyp : J.Holds rule.hyp := by
    rw [Frame.Holds, ← replaced, ← agree.yes]
    exact new given
  have conc := reads.holds J (true' hold omitted given agree vals) hyp
  rw [Frame.Holds, pattern, ← agree.yes] at conc
  exact conc

theorem unnoted_of_nil (opens : Opens n m thm body [])
    (hit : source.thm g = .ok thm) : thm ∈ source.unnoted ∨ thm ∈ g.hyps := by
  cases source with
  | hyp => exact .inr (item_mem hit)
  | proof =>
    cases hit
    refine .inl ?_
    simp only [Source.unnoted]
    split
    · rename_i v vars inner shape
      obtain ⟨-, -, other⟩ | ⟨vars', inner', shape', -, ranges, -⟩ := opens.shape
      · rw [shape] at other
        cases other
      · rw [shape] at shape'
        cases shape'
        cases ranges
    · exact mem_singleton.2 rfl

theorem apply_refines {r : Unit} (reg : a.Regular w.next) (rule : source.Regular w.next)
    (concludes : ∀ thm, source.thm a.top = .ok thm → Concludes thm a.top.goal)
    (ok : Gives (apply source) (w, a) r s) : Refines.{u} source.unnoted w s.1 a s.2 := by
  replace ok := topGoal_bind.1 ok
  obtain ⟨thm, hit, ok⟩ := checked_bind.1 ok
  obtain ⟨horn, m, read, ok⟩ := fresh_bind.1 ok
  obtain ⟨body, cs, reads⟩ := horn_gives (rule.formula reg.top hit) read
  obtain ⟨q, k, matched, ok⟩ := fresh_bind.1 (theWorld_bind.1 ok)
  split at ok
  · cases ok
  rename_i σ new
  obtain ⟨matched', rfl⟩ := backward_gives matched
  rw [reads.vars] at matched' ok
  split at ok
  · rename_i nonempty
    obtain ⟨ts, given', ok⟩ := checked_bind.1 ok
    have all : ∀ c ∈ cs, ∃ u, σ.get? (.app c []) = some u := fun c mem => by
      obtain ⟨u, -, hit⟩ := Forall₂.exists_of_mem_left (get?_of_values given') mem
      exact ⟨u, hit⟩
    have nonempty : cs ≠ [] := by simpa using nonempty
    have finish (pf : Proof) (ok : Gives (addLemmas [pf] >>=
        fun _ => replaceTop { a.top with goal := horn.hyp.replaceAll σ }) ({ w with next := k }, a) r s)
        (true' : ∀ {U : Type u} {I J : Interpretation U}, I.Holds pf.thm → (∀ h ∈ a.top.hyps, I.Holds h) →
          I.AgreeOutside (· ∈ cs) J.toFrame →
          List.Forall₂ (fun c t => J.eval [] (.app c []) = I.eval [] t ∧ c.range = t.sort) cs ts → J.Holds body) :
        Refines source.unnoted w s.1 a s.2 := by
      obtain ⟨g, rest, goals, ok⟩ := take_bind.1 (addLemmas_bind.1 ok)
      have goals : a.goals = g :: rest := goals
      rw [Attempt.top_eq goals] at hit concludes matched' true'
      rw [Attempt.top_eq goals] at ok
      obtain rfl := put_iff.1 ok
      refine .of_horn [pf] goals reg reads (concludes thm hit) matched' all rfl rfl rfl fun {U I J} hold _ given agree vals => ?_
      refine true' (hold pf (by simp)) given agree ?_
      have both := (forall₂_and_left cs ts).2 ⟨fun c mem => mem, get?_of_values given'⟩
      refine both.imp fun c t hit => ?_
      exact vals c hit.1 t hit.2
    cases source with
    | proof =>
      obtain ⟨pf, made, ok⟩ := checked_bind.1 ok
      refine finish pf ok fun {U I J} holds given agree vals => ?_
      exact reads.opens.holds_of_instan nonempty agree (Except.ok.inj hit) made vals holds
    | hyp =>
      obtain ⟨pf, made, ok⟩ := checked_bind.1 ok
      refine finish pf ok fun {U I J} holds given agree vals => ?_
      exact reads.opens.holds agree (given thm (item_mem hit))
  · rename_i none
    obtain rfl : cs = [] := by simpa using none
    obtain ⟨g, rest, goals, ok⟩ := take_bind.1 ok
    rw [Attempt.top_eq goals] at hit concludes matched' ok
    obtain rfl := put_iff.1 ok
    refine .of_horn [] goals reg reads (concludes thm hit) matched' (by simp) rfl (by simp) rfl
      fun {U I J} _ omitted given agree _ => ?_
    exact reads.opens.holds agree ((unnoted_of_nil reads.opens hit).elim (omitted thm) (given thm))

end Tactic
end SortedLogic

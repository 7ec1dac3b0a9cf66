import SortedLogic.Proofs.StructuralInduction
import SortedLogic.Proofs.TacticRules

/-!
# Runs of a proof attempt

Every run of calls refines the attempt (`Run.refines`): the theorem follows from the open goals, the lemmas, and what calls use
without noting it (`Run.theorem_follows`). These last formulas are needed (`apply_notes_nothing`).
-/

namespace SortedLogic
open Term
open List
open Rewrite (onlyOf)
universe u
open Gives
variable {t x u P c e thm : Term} {m n : Nat} {only : Option (List Symbol)} {α β : Type} {w v : World}
  {a b : Tactic.Attempt} {r : α} {s : World × Tactic.Attempt} {os : List Term} {cs fs : List Symbol}
  {laws ls : List Proof} {f : α → Session β} {simplify : Term → Term}

/-! ## Steps that only draw from the supply -/

namespace Session.Draws

theorem pure (a : α) : Draws (Pure.pure a) := by
  intro w v r ok
  cases ok
  exact ⟨w.next, le_rfl, rfl⟩

theorem throw (e : Fault) : Draws (MonadExcept.throw e : Session α) := fun _ _ _ ok => (throw_iff.1 ok).elim

theorem checked (x : Checked α) : Draws (liftM x) := by
  intro w v r ok
  obtain ⟨-, rfl⟩ := ofChecked_session.1 ok
  exact ⟨w.next, le_rfl, rfl⟩

theorem freshConst (hint : String) (s : Srt) : Draws (liftM (SortedLogic.freshConst hint s)) := by
  intro w v r ok
  obtain ⟨n, drawn, rfl⟩ := ofFresh_iff.1 ok
  obtain ⟨-, -, rfl⟩ := freshConst_gives.1 drawn
  exact ⟨w.next + 1, Nat.le_succ _, rfl⟩

theorem bind {x : Session α} (first : Draws x) (rest : ∀ a, Draws (f a)) : Draws (x >>= f) := by
  intro w v r ok
  obtain ⟨a, u, one, two⟩ := bind_iff.1 ok
  obtain ⟨m, le, rfl⟩ := first _ _ _ one
  obtain ⟨k, le', rfl⟩ := rest a _ _ _ two
  exact ⟨k, le.trans le', rfl⟩

theorem mapM (each : ∀ a, Draws (f a)) : ∀ as : List α, Draws (as.mapM f)
  | [] => by
    rw [mapM_nil]
    exact pure []
  | a :: as => by
    rw [mapM_cons]
    exact (each a).bind fun b => (mapM each as).bind fun bs => pure _

theorem wellFormed (vs : List Term) : Draws (SortedLogic.wellFormed vs) := by
  intro w v r ok
  obtain ⟨-, rfl⟩ := wellFormed_gives.1 ok
  exact ⟨v.next, le_rfl, rfl⟩

theorem forallWhere (vs ts : List Term) : Draws (SortedLogic.forallWhere vs ts) := by
  unfold SortedLogic.forallWhere
  split
  · exact throw _
  refine (wellFormed vs).bind fun conds => ?_
  split
  · exact checked _
  · exact (checked _).bind fun _ => checked _
  · exact (checked _).bind fun _ => (checked _).bind fun _ => checked _

theorem caseOf (x : Term) (P : Term → Checked Term) (c : Constructor) : Draws (Kernel.caseOf x P c) := by
  refine (mapM (fun _ => freshConst _ _) _).bind fun args => (checked _).bind fun t => (checked _).bind fun head =>
    (mapM (fun _ => checked _) _).bind fun body => ?_
  split
  · exact pure _
  · exact forallWhere _ _

end Session.Draws

namespace Kernel
variable {pf : Proof}

theorem inductDatatype_gives (ok : Gives (inductDatatype x P) w pf v) :
    (∃ m, w.next ≤ m ∧ v = { w with next := m }) ∧ ∃ h c, callPredicate P [x] = .ok c ∧ pf.thm = .app .implies [h, c] := by
  have rest := theWorld_bind.1 ok
  split at rest
  · cases rest
  obtain ⟨hyps, w₃, cases', rest⟩ := bind_iff.1 rest
  obtain ⟨m, le, rfl⟩ := Session.Draws.mapM (.caseOf x _) _ _ _ _ cases'
  simp only [↓checked_bind] at rest
  obtain ⟨c, called, h, -, e, built, last⟩ := rest
  cases last
  obtain ⟨-, -, rfl⟩ := implies_eq_ok.1 built
  exact ⟨⟨m, le, rfl⟩, h, c, called, rfl⟩

theorem bothWays_gives {P Q : Induction.Predicate} (ok : Gives (Induction.bothWays x P Q) w t v) :
    (∃ m, w.next ≤ m ∧ v = { w with next := m }) ∧ ∃ h c, P x = .ok c ∧ t = .app .implies [h, c] := by
  simp only [Induction.bothWays, ↓checked_bind, bind_iff, ofChecked_session] at ok
  obtain ⟨n, w₁, drawn, _, -, _, -, _, -, down, w₂, below, _, -, _, -, _, -, _, -, up, w₃, above, h, -, c, called, built, rfl⟩ :=
    ok
  obtain ⟨m₁, le₁, rfl⟩ := Session.Draws.freshConst _ _ _ _ _ drawn
  obtain ⟨m₂, le₂, rfl⟩ := Session.Draws.forallWhere _ _ _ _ _ below
  obtain ⟨m₃, le₃, rfl⟩ := Session.Draws.forallWhere _ _ _ _ _ above
  obtain ⟨-, -, rfl⟩ := implies_eq_ok.1 built
  exact ⟨⟨m₃, le₁.trans (le₂.trans le₃), rfl⟩, h, c, called, rfl⟩

theorem induct_gives (ok : Gives (induct x P) w pf v) :
    (∃ m, w.next ≤ m ∧ v = { w with next := m }) ∧ ∃ h c, callPredicate P [x] = .ok c ∧ pf.thm = .app .implies [h, c] := by
  have rest := theWorld_bind.1 ok
  split at rest
  · exact inductDatatype_gives rest
  · obtain ⟨t, w₃, both, last⟩ := bind_iff.1 rest
    cases last
    exact bothWays_gives both
  · cases rest

end Kernel

namespace Term

theorem instantiateAt_abstractAt (closed : x.Closed) : ∀ {d : Nat}, (∀ i, t.Loose i → i < d) →
    (t.abstractAt [(x, 0)] d).instantiateAt [x] d = t := by
  have back (d : Nat) (s : Srt) : (var (d + 0) s).instantiateAt [x] d = x := by simp [instantiateAt, closed.lift]
  induction t with
  | var i s =>
    intro d below
    have other : x ≠ var i s := fun eq => closed i (eq ▸ rfl)
    rw [abstractAt]
    simp [other, instantiateAt, below i rfl]
  | app f args ih =>
    intro d below
    rw [abstractAt]
    by_cases eq : x = app f args
    · simpa [eq] using (back d f.range).trans eq
    simp only [find?_cons, eq, decide_false, find?_nil]
    rw [abstractsAt_eq_map, instantiateAt, instantiatesAt_eq_map, map_map]
    congr 1
    refine (map_congr_left fun a mem => ?_).trans (map_id args)
    exact ih a mem fun i loose => below i (loose_app.2 ⟨a, mem, loose⟩)
  | bind k vars body ih =>
    intro d below
    rw [abstractAt]
    by_cases eq : x = bind k vars body
    · simpa [eq] using (back d (bind k vars body).sort).trans eq
    · simp only [find?_cons, eq, decide_false, find?_nil]
      rw [instantiateAt, ih (loose_bound below)]

end Term

namespace Tactic

theorem Refines.trans {os' : List Term} {u : World} {c : Attempt} (first : Refines.{u} os w v a b)
    (second : Refines.{u} os' v u b c) :
    Refines.{u} (os ++ os') w u a c := by
  obtain ⟨m, le, rfl⟩ := first.world
  obtain ⟨k, le', rfl⟩ := second.world
  refine ⟨⟨k, le.trans le', rfl⟩, second.thm.trans first.thm, fun p mem => second.lemmas p (first.lemmas p mem), second.regular,
    fun I covers hold omitted holds => ?_⟩
  refine first.holds I covers (fun p mem => hold p (second.lemmas p mem)) (fun o mem => omitted o (mem_append_left _ mem)) ?_
  exact second.holds I covers hold (fun o mem => omitted o (mem_append_right _ mem)) holds

theorem Refines.refl (reg : a.Regular w.next) : Refines.{u} [] w w a a :=
  ⟨⟨w.next, le_rfl, rfl⟩, rfl, fun _ mem => mem, reg, fun _ _ _ _ holds => holds⟩

theorem Refines.note (ls : List Proof) (reg : a.Regular w.next) (le : w.next ≤ m) :
    Refines.{u} [] w { w with next := m } a { a with lemmas := a.lemmas ++ ls } where
  world := ⟨m, le, rfl⟩
  thm := rfl
  lemmas _ mem := mem_append_left ls mem
  regular g mem := (reg g mem).mono le
  holds _ _ _ _ holds := holds

theorem Refines.noted (refines : Refines.{u} os w v a b) (noted : ∀ o ∈ os, ∃ p ∈ a.lemmas, p.thm = o) :
    Refines.{u} [] w v a b where
  world := refines.world
  thm := refines.thm
  lemmas := refines.lemmas
  regular := refines.regular
  holds I covers hold _ := refines.holds I covers hold fun o mem => by
    obtain ⟨p, mem', rfl⟩ := noted o mem
    exact hold p (refines.lemmas p mem')

theorem callPredicate_lambda (made : t.lambda [x] = .ok P) (called : callPredicate P [x] = .ok c)
    (closed : x.Closed) (closed' : t.Closed) : c = t := by
  obtain ⟨⟨-, apps⟩, rfl⟩ := lambda_eq_ok.1 made
  have sorts := sorts_bindingName apps
  have len : ([x].filterMap bindingName?).length = [x].length := by simpa using congrArg List.length sorts
  simp only [callPredicate, callBinder, if_pos len, applyBody, if_pos sorts] at called
  cases called
  exact instantiateAt_abstractAt closed fun i loose => absurd loose (closed' i)

/-- What the scheme proves of the goal as a property of `x` is a formula that concludes with the goal, found with no change of
the world but for the supply. -/
def Schematic (w : World) (goal x : Term) (scheme : Term → Term → Session Proof) : Prop :=
  ∀ P pf v, goal.lambda [x] = .ok P → Gives (scheme x P) w pf v →
    (∃ m, w.next ≤ m ∧ v = { w with next := m }) ∧ pf.thm.Formula v.next ∧ Concludes pf.thm goal

/-- The scheme of the sort of `x` has to be shown to be a formula only. -/
theorem schematic_induct (form : t.Formula w.next) (closed : x.Closed)
    (formulas : ∀ P pf v, t.lambda [x] = .ok P → Gives (Kernel.induct x P) w pf v → pf.thm.Formula v.next) :
    Schematic w t x Kernel.induct := by
  intro P pf v made found
  obtain ⟨grown, h, c, called, thm⟩ := Kernel.induct_gives found
  obtain rfl := callPredicate_lambda made called closed form.legal.sorted.closed
  refine ⟨grown, formulas P pf v made found, ?_⟩
  rw [thm]
  exact .inl rfl

theorem induct_refines {r : Unit} {scheme : Option (Term → Term → Session Proof)} (reg : a.Regular w.next)
    (schematic : Schematic w a.top.goal x (scheme.getD Kernel.induct)) (ok : Gives (induct x scheme) (w, a) r s) :
    Refines.{u} [] w s.1 a s.2 := by
  replace ok := topGoal_bind.1 ok
  obtain ⟨P, made, ok⟩ := checked_bind.1 ok
  obtain ⟨pf, v, found, ok⟩ := session_bind.1 ok
  obtain ⟨⟨m, le, rfl⟩, form, concludes⟩ := schematic P pf v made found
  obtain ⟨_, ⟨v, b⟩, applied, ok⟩ := bind_iff.1 (addLemmas_bind.1 ok)
  have note := Refines.note [pf] reg le
  have step : Refines [] { w with next := m } v { a with lemmas := a.lemmas ++ [pf] } b := by
    have rule : (Source.proof pf).Regular m := form
    refine (apply_refines note.regular rule (fun thm' hit => ?_) applied).noted fun o mem => ?_
    · cases hit
      exact concludes
    · exact ⟨pf, by simp, (eq_of_mem_unnoted mem).symm⟩
  refine (note.trans step).trans ?_
  replace ok := topGoal_bind.1 ok
  split at ok
  · rename_i f args shape
    split at ok
    · rename_i op
      obtain ⟨g, rest, goals, ok⟩ := take_bind.1 ok
      rw [Attempt.top_eq goals] at shape
      have goal := (step.regular g (by simp [goals])).goal
      rw [shape] at goal
      obtain rfl := goal.proper.eq_and op
      exact conjuncts_refines step.regular goals shape ok
    · cases ok
      exact .refl step.regular
  · cases ok
    exact .refl step.regular

end Tactic

/-! ## Unfolding and simplifying -/

theorem Definition.Lawful.mono {f : Symbol} {d : Definition} (lawful : Definition.Lawful.{u} n f cs d)
    (le : n ≤ m) : Definition.Lawful.{u} m f cs d := { lawful with legal := lawful.legal.mono le }

/-- Datatypes have their symbols, definitions their laws, and asking the prover gives no number of the supply back. -/
structure World.Sound (w : World) : Prop where
  declares : w.Declares
  lawful : ∀ {f d}, w.definition? f = some d → ∃ cs, Definition.Lawful.{u} w.next f cs d
  bodies : ∀ {f d}, w.definition? f = some d → d.body.Uses Symbol.Takes
  fixed : ∀ {f d}, w.definition? f = some d → ¬ f.Variadic
  steady : w.Steady

theorem World.Sound.mono (sound : World.Sound.{u} w) (le : w.next ≤ m) : World.Sound.{u} { w with next := m } where
  declares := sound.declares
  lawful found := by
    obtain ⟨cs, lawful⟩ := sound.lawful found
    exact ⟨cs, lawful.mono le⟩
  bodies := sound.bodies
  fixed := sound.fixed
  steady := sound.steady

theorem Rewrite.onlyOf_eq_some {defs : Symbol → Option Definition} {f : Symbol} {d : Definition}
    (hit : onlyOf defs only f = some d) : defs f = some d := by
  unfold onlyOf at hit
  split at hit
  · exact hit
  · split at hit
    · exact hit
    · cases hit

theorem World.Sound.unfoldable (sound : World.Sound.{u} w) (only : Option (List Symbol)) :
    Rewrite.Unfoldable.{u} w.next Symbol.Takes (onlyOf w.definition? only) where
  lawful found := sound.lawful (Rewrite.onlyOf_eq_some found)
  bodies found := sound.bodies (Rewrite.onlyOf_eq_some found)
  arity found takes := takes.resolve_left (sound.fixed (Rewrite.onlyOf_eq_some found))
  constants c _ none := .inr (by rw [Symbol.arity, none]; rfl)

namespace Tactic

theorem unfolded_bind {F : Term → TacticM β} {r : β} (ok : Gives (unfolded only t >>= F) (w, a) r s) :
    ∃ u laws, Gives (Rewrite.unfold (onlyOf w.definition? only) true t) [] u laws ∧
      Gives (F u) (w, { a with lemmas := a.lemmas ++ laws }) r s := by
  unfold unfolded at ok
  rw [bind_assoc] at ok
  replace ok := theWorld_bind.1 ok
  generalize hit : (Rewrite.unfold (onlyOf w.definition? only) true t).outcome = q at ok
  obtain ⟨result, laws⟩ := q
  rw [bind_assoc] at ok
  replace ok := addLemmas_bind.1 ok
  obtain ⟨u, rfl, ok⟩ := checked_bind.1 ok
  exact ⟨u, laws, of_outcome hit, ok⟩

theorem unfold_formula {defs : Symbol → Option Definition} (able : Rewrite.Unfoldable.{u} n Symbol.Takes defs)
    (form : t.Formula n)
    (hygienic : t.Hygienic (Rewrite.InLaws defs)) (ok : Gives (Rewrite.unfold defs true t) [] u laws) :
    u.Formula n ∧ ∀ {U : Type u} (I : Interpretation U), (∀ p ∈ laws, I.Holds p.thm) → I.eval [] u = I.eval [] t := by
  have unfolds := Rewrite.unfold_gives able (fun _ inside => inside) form.legal form.uses hygienic ok
  exact ⟨⟨⟨unfolds.legal, unfolds.uses⟩, unfolds.sort.trans form.sort⟩,
    fun I hold => unfolds.eval I fun f d _ mem => hold d.law mem⟩

variable {r : Unit} (reg : a.Regular w.next)
include reg

theorem exchangeGoal_refines (le : w.next ≤ m) (form : u.Formula m)
    (eq : ∀ {U : Type u} (I : Interpretation U), (∀ p ∈ laws, I.Holds p.thm) → (I.Holds u ↔ I.Holds a.top.goal))
    (ok : Gives (replaceTop { a.top with goal := u }) ({ w with next := m }, { a with lemmas := a.lemmas ++ laws }) r s) :
    Refines.{u} os w s.1 a s.2 := by
  obtain ⟨g, rest, goals, ok⟩ := take_bind.1 ok
  have goals : a.goals = g :: rest := goals
  rw [Attempt.top_eq goals] at ok eq
  obtain rfl := put_iff.1 ok
  have targets : Targets g none g.goal := rfl
  have exchanged : Exchanged g u none { g with goal := u } := rfl
  exact .exchange laws goals reg targets exchanged le form rfl rfl rfl fun I hold _ _ => eq I hold

theorem unfoldGoal_refines (sound : World.Sound.{u} w)
    (hygienic : a.top.goal.Hygienic (Rewrite.InLaws (onlyOf w.definition? (if fs.isEmpty then none else some fs))))
    (ok : Gives (unfoldGoal fs) (w, a) r s) : Refines.{u} os w s.1 a s.2 := by
  obtain ⟨u, laws, unfolds, ok⟩ := unfolded_bind (topGoal_bind.1 ok)
  obtain ⟨form, eq⟩ := unfold_formula (sound.unfoldable _) reg.top.goal hygienic unfolds
  refine exchangeGoal_refines reg le_rfl form (fun I hold => ?_) ok
  rw [Frame.Holds, eq I hold]
  rfl

theorem unfoldAt_refines {i : Int} (sound : World.Sound.{u} w)
    (hygienic : ∀ h, item a.top.hyps i = .ok h → h.Hygienic (Rewrite.InLaws (onlyOf w.definition? (some fs))))
    (ok : Gives (unfoldAt fs i) (w, a) r s) : Refines.{u} os w s.1 a s.2 := by
  obtain ⟨h, hit, ok⟩ := checked_bind.1 (topGoal_bind.1 ok)
  obtain ⟨u, laws, unfolds, ok⟩ := unfolded_bind ok
  obtain ⟨form, eq⟩ := unfold_formula (sound.unfoldable _) (reg.top.hyps h (item_mem hit)) (hygienic h hit) unfolds
  obtain ⟨g, rest, goals, ok⟩ := take_bind.1 ok
  have goals : a.goals = g :: rest := goals
  rw [Attempt.top_eq goals] at ok hit
  obtain rfl := put_iff.1 ok
  have targets : Targets g (some i) h := hit
  have exchanged (j : Int) : Exchanged g u (some i) { g with context := ⟨a.next, splice g.hyps j [u]⟩ } := ⟨_, _, rfl⟩
  refine .exchange laws goals reg targets (exchanged _) le_rfl form rfl rfl rfl fun I hold _ _ => ?_
  rw [Frame.Holds, eq I hold]
  rfl

omit reg in
theorem equated_proof {pf : Proof} {w₁ w₂ : World} (plain : w.method? "eq" .bool = none) (steady : w.Steady)
    (form : t.Formula w.next) (form' : u.Formula w.next) (equated : Gives (equate t u) w e w₁)
    (asked : Gives (Kernel.prove e []) w₁ pf w₂) :
    (∃ m, w.next ≤ m ∧ w₂ = { w with next := m }) ∧ ∀ {U : Type u} (I : Interpretation U), I.Holds pf.thm →
      (I.Holds u ↔ I.Holds t) := by
  obtain ⟨rfl, -, read⟩ := equate_formula (form.sort.trans form'.sort.symm) (by rwa [form.sort]) form.toRegular
    form'.toRegular equated
  obtain ⟨thm, grown⟩ := proved steady Kernel.Options.steady_default asked
  refine ⟨grown, fun I holds => ?_⟩
  have same := (read I).1 (thm ▸ holds)
  rw [Frame.Holds, Frame.Holds, same]

theorem simpGoal_refines (plain : w.method? "eq" .bool = none) (steady : w.Steady)
    (simplified : (w.simplify a.top.goal).Formula w.next) (ok : Gives (simpGoal false) (w, a) r s) :
    Refines.{u} os w s.1 a s.2 := by
  replace ok := theWorld_bind.1 (topGoal_bind.1 ok)
  obtain ⟨e, w₁, equated, ok⟩ := session_bind.1 ok
  obtain ⟨pf, w₂, asked, ok⟩ := session_bind.1 ok
  obtain ⟨⟨m, le, rfl⟩, same⟩ := equated_proof plain steady reg.top.goal simplified equated asked
  exact exchangeGoal_refines reg le (simplified.mono le) (fun I hold => same I (hold pf (by simp))) (addLemmas_bind.1 ok)

theorem simpAt_refines {i : Int} (plain : w.method? "eq" .bool = none) (steady : w.Steady)
    (simplified : ∀ h, item a.top.hyps i = .ok h → (w.simplify h).Formula w.next) (ok : Gives (simpAt i) (w, a) r s) :
    Refines.{u} os w s.1 a s.2 := by
  obtain ⟨h, hit, ok⟩ := checked_bind.1 (topGoal_bind.1 ok)
  replace ok := theWorld_bind.1 ok
  dsimp only at ok
  split at ok
  · rw [bind_iff] at ok
    obtain ⟨_, _, err, -⟩ := ok
    cases err
  obtain ⟨e, w₁, equated, ok⟩ := session_bind.1 ok
  obtain ⟨pf, w₂, asked, ok⟩ := session_bind.1 ok
  obtain ⟨⟨m, le, rfl⟩, same⟩ := equated_proof plain steady (reg.top.hyps h (item_mem hit)) (simplified h hit) equated asked
  obtain ⟨g, rest, goals, ok⟩ := take_bind.1 (withHyps_bind.1 (addLemmas_bind.1 ok))
  have goals : a.goals = g :: rest := goals
  rw [Attempt.top_eq goals] at ok hit simplified
  obtain rfl := put_iff.1 ok
  have targets : Targets g (some i) h := hit
  have exchanged : Exchanged g (w.simplify h) (some i) { g with context := ⟨a.next, splice g.hyps i [w.simplify h]⟩ } :=
    ⟨_, _, rfl⟩
  exact .exchange [pf] goals reg targets exchanged le ((simplified h hit).mono le) rfl rfl rfl
    fun I hold _ _ => same I (hold pf (by simp))

/-- In so many rounds of unfolding and simplifying no name is met twice, and the simplifier makes formulas of formulas. -/
def Simplifies (defs : Symbol → Option Definition) (simplify : Term → Term) (n : Nat) : Nat → Term → Prop
  | 0, _ => True
  | rounds + 1, t => t.Hygienic (Rewrite.InLaws defs) ∧ ∀ u laws, Gives (Rewrite.unfold defs true t) [] u laws →
      (simplify u).Formula n ∧ Simplifies defs simplify n rounds (simplify u)

end Tactic

namespace Rewrite

theorem shortest_cases (best t u : Term) : shorter (shorter best t) u = best ∨ shorter
    (shorter best t) u = t ∨ shorter (shorter best t) u = u := by
  have either (a b : Term) : shorter a b = a ∨ shorter a b = b := by
    unfold shorter
    split
    · exact .inr rfl
    · exact .inl rfl
  obtain eq | eq := either (shorter best t) u
  · rw [eq]
    exact (either best t).imp_right .inl
  · exact .inr (.inr eq)

theorem simpFrom_gives {defs : Symbol → Option Definition} (able : Unfoldable.{u} n Symbol.Takes defs) :
    ∀ {rounds : Nat} {t best : Term} {trace : List Proof} {w v : World}, w.Steady → n ≤ w.next → t.Formula n → best.Formula n →
      Tactic.Simplifies defs simplify n rounds t → Gives (simpFrom defs simplify true rounds t best trace) w (.ok u, ls) v →
      (∃ m, w.next ≤ m ∧ v = { w with next := m }) ∧ (∀ p ∈ trace, p ∈ ls) ∧ u.Formula n ∧
        ∀ {U : Type u} (I : Interpretation U), (∀ p ∈ ls, I.Holds p.thm) → I.eval [] best = I.eval [] t →
          I.eval [] u = I.eval [] t := by
  intro rounds
  induction rounds with
  | zero =>
    intro t best trace w v steady le form form' _ done
    rw [simpFrom, pure_iff] at done
    obtain ⟨eq, rfl⟩ := done
    cases eq
    exact ⟨⟨w.next, le_rfl, rfl⟩, fun p mem => mem, form', fun I _ eq => eq⟩
  | succ _ ih =>
    intro t best trace w v steady le form form' simplifies done
    rw [simpFrom] at done
    generalize hit : (unfold defs true t).outcome = q at done
    obtain ⟨result, laws⟩ := q
    cases result with
    | error => simp at done
    | ok t' =>
      obtain ⟨unfolded, eq'⟩ := Tactic.unfold_formula able form simplifies.1 (of_outcome hit)
      obtain ⟨simple, rest⟩ := simplifies.2 t' laws (of_outcome hit)
      obtain ⟨best', shortest, formulaB, evalB⟩ : ∃ best', shorter (shorter best t') (simplify t') = best' ∧ best'.Formula n ∧
          ∀ {U : Type u} (I : Interpretation U) x, I.eval [] best = x → I.eval [] t' = x → I.eval [] (simplify t') = x →
            I.eval [] best' = x := by
        obtain eq | eq | eq := shortest_cases best t' (simplify t')
        · exact ⟨best, eq, form', fun I x one _ _ => one⟩
        · exact ⟨t', eq, unfolded, fun I x _ two _ => two⟩
        · exact ⟨_, eq, simple, fun I x _ _ three => three⟩
      have evalT {U : Type u} (I : Interpretation U) (hold : ∀ p ∈ trace ++ laws, I.Holds p.thm) : I.eval [] t' = I.eval [] t :=
        eq' I fun p mem => hold p (mem_append_right _ mem)
      dsimp only at done
      rw [shortest] at done
      split at done
      · rename_i settled
        obtain ⟨eq, rfl⟩ := pure_iff.1 done
        cases eq
        refine ⟨⟨w.next, le_rfl, rfl⟩, fun p mem => mem_append_left _ mem, formulaB, fun I hold eq => ?_⟩
        exact evalB I _ eq (evalT I hold) (by rw [settled, evalT I hold])
      · rw [if_pos rfl] at done
        obtain ⟨equal, w₁, tried, done⟩ := bind_iff.1 done
        obtain tried | ⟨f, w', -, err⟩ := Tactic.of_tryCatch tried
        · obtain ⟨e, built, tried⟩ := checked_bind.1 tried
          cases ((eq_of_sort (unfolded.sort.trans simple.sort.symm)).symm.trans built)
          obtain ⟨pf, w₂, asked, last⟩ := bind_iff.1 tried
          obtain ⟨thm, m, le', rfl⟩ := Tactic.proved steady Kernel.Options.steady_default asked
          cases last
          obtain ⟨⟨k, le'', rfl⟩, traced, formulaU, evalU⟩ := ih (w := { w with next := m }) steady
            (le.trans le') simple formulaB rest done
          refine ⟨⟨k, le'.trans le'', rfl⟩, fun p mem => traced p (by simp [mem]), formulaU, fun I hold eq => ?_⟩
          have first := evalT I fun p mem => hold p (traced p (mem_append_left _ mem))
          have second : I.eval [] t' = I.eval [] (simplify t') := Frame.eval_eq.1 (thm ▸ hold pf (traced pf (by simp)))
          have third := second.symm.trans first
          exact (evalU I hold ((evalB I _ eq first third).trans third.symm)).trans third
        · cases err
          simp at done

end Rewrite

namespace Tactic

theorem simpGoal_unfolding_refines {r : Unit} (reg : a.Regular w.next) (sound : World.Sound.{u} w)
    (simplifies : Simplifies w.definition? w.simplify w.next 3 a.top.goal) (ok : Gives (simpGoal true) (w, a) r s) :
    Refines.{u} os w s.1 a s.2 := by
  obtain ⟨⟨result, laws⟩, w₁, simplified, ok⟩ := session_bind.1 ok
  obtain ⟨t, rfl, ok⟩ := checked_bind.1 (addLemmas_bind.1 ok)
  have rounds := Gives.theWorld_bind.1 simplified
  obtain ⟨⟨m, le, rfl⟩, -, form, eq⟩ := Rewrite.simpFrom_gives (sound.unfoldable none) sound.steady le_rfl reg.top.goal
    reg.top.goal simplifies rounds
  refine exchangeGoal_refines reg le (form.mono le) (fun I hold => ?_) ok
  rw [Frame.Holds, eq I hold rfl]
  rfl

/-! ## Calls of tactics -/

inductive Call where
  | fixes | fix | intros
  | simp (at' : Option Int) (unfolding : Bool)
  | cases (t : Term)
  | auto (by' : List Proof) (o : Help)
  | einstan (n : Int)
  | instan (n : Int) (ts : List Term)
  | ext
  | split (at' : Option Int)
  | left (n : Int)
  | right
  | provide (ts : List Term)
  | rewrite (source : Source) (at' : Option Int) (reversed : Bool)
  | symm
  | eqTo (rhs : Term) (by' : List Proof) (o : Help)
  | newGoal (goal : Term) (by' : List Proof) (o : Help)
  | unfold (fs : List Symbol) (at' : Option Int)
  | apply (source : Source)
  | induct (x : Term) (scheme : Option (Term → Term → Session Proof))
  | clear (n : Int)
  | generalize (vs : List Term)
  | assumption
  | have' (conc : Term) (by' : List Proof) (o : Help)

namespace Call

def run : Call → TacticM Unit
  | .fixes => discard Tactic.fixes
  | .fix => discard Tactic.fix
  | .intros => discard Tactic.intros
  | .simp (some i) _ => simpAt i
  | .simp none unfolding => simpGoal unfolding
  | .cases t => Tactic.cases t
  | .auto by' o => Tactic.auto by' o
  | .einstan n => discard (Tactic.einstan n)
  | .instan n ts => Tactic.instan n ts
  | .ext => discard Tactic.ext
  | .split (some i) => splitAt i
  | .split none => Tactic.split
  | .left n => Tactic.left n
  | .right => Tactic.right
  | .provide ts => Tactic.provide ts
  | .rewrite source at' reversed => Tactic.rewrite source at' reversed
  | .symm => Tactic.symm
  | .eqTo rhs by' o => Tactic.eqTo rhs by' o
  | .newGoal goal by' o => Tactic.newGoal goal by' o
  | .unfold fs (some i) => unfoldAt fs i
  | .unfold fs none => unfoldGoal fs
  | .apply source => Tactic.apply source
  | .induct x scheme => Tactic.induct x scheme
  | .clear n => Tactic.clear n
  | .generalize vs => Tactic.generalize vs
  | .assumption => Tactic.assumption
  | .have' conc by' o => Tactic.have' conc by' o

/-- Terms are regular and of the sorts asked for, equated sorts have no equality of their own, rules match with each symbol
before one number of arguments, unfolding meets no name twice, the simplifier makes formulas of formulas, a scheme that is
given concludes with the goal, and a solver that is named gives no number of the supply back. -/
def Suits (w : World) (a : Attempt) : Call → Prop
  | .simp (some i) _ => w.method? "eq" .bool = none ∧ ∀ h, item a.top.hyps i = .ok h → (w.simplify h).Formula w.next
  | .simp none false => w.method? "eq" .bool = none ∧ (w.simplify a.top.goal).Formula w.next
  | .simp none true => Simplifies w.definition? w.simplify w.next 3 a.top.goal
  | .auto _ o => o.Steady
  | .cases t => w.method? "eq" .bool = none ∧ t.Regular w.next
  | .instan n ts => ∀ h, item a.top.hyps n = .ok h → Instances w.next ts h
  | .ext => w.method? "eq" .bool = none ∧
      ∀ l r d e, Kernel.sides? a.top.goal = some (l, r) → l.sort = .array [d] e → w.method? "eq" d = none
  | .split none => ∀ ss args, a.top.goal = .app (.distinct ss) args → ∀ x ∈ args, ∀ y ∈ args, x.sort = y.sort
  | .provide ts => Instances w.next ts a.top.goal
  | .rewrite source at' _ => source.Regular w.next ∧
      ∀ thm target, source.thm a.top = .ok thm → Targets a.top at' target → thm.Aligned target
  | .eqTo rhs _ o => rhs.Regular w.next ∧ (∀ x y, Kernel.sides? a.top.goal = some (x, y) → y.sort = rhs.sort) ∧
      w.method? "eq" rhs.sort = none ∧ o.Steady
  | .newGoal goal _ o => goal.Formula w.next ∧ o.Steady
  | .unfold fs (some i) => ∀ h, item a.top.hyps i = .ok h → h.Hygienic (Rewrite.InLaws (onlyOf w.definition? (some fs)))
  | .unfold fs none => a.top.goal.Hygienic (Rewrite.InLaws (onlyOf w.definition? (if fs.isEmpty then none else some fs)))
  | .apply source => source.Regular w.next ∧ ∀ thm, source.thm a.top = .ok thm → Concludes thm a.top.goal
  | .induct x none => x.Closed ∧
      ∀ P pf v, a.top.goal.lambda [x] = .ok P → Gives (Kernel.induct x P) w pf v → pf.thm.Formula v.next
  | .induct x (some scheme) => Schematic w a.top.goal x scheme
  | .have' conc _ o => conc.Formula w.next ∧ o.Steady
  | _ => True

/-- What the call uses but does not note, given the attempt it leads to. -/
def unnoted (b : Attempt) : Call → List Term
  | .ext => b.top.hyps.getLast?.toList
  | .apply source => source.unnoted
  | _ => []

variable {r : Unit}

theorem of_discard {x : TacticM α} (ok : Gives (discard x) (w, a) r s) : ∃ y, Gives x (w, a) y s := by
  obtain ⟨y, s', first, last⟩ := bind_iff.1 ok
  cases last
  exact ⟨y, first⟩

theorem refines (c : Call) (sound : World.Sound.{u} w) (reg : a.Regular w.next) (suits : c.Suits w a)
    (ok : Gives c.run (w, a) r s) : Refines.{u} (c.unnoted s.2) w s.1 a s.2 := by
  cases c with
  | fixes =>
    obtain ⟨vs, ok⟩ := of_discard ok
    exact fixes_refines reg ok
  | fix =>
    obtain ⟨vs, ok⟩ := of_discard ok
    exact fix_refines reg ok
  | intros =>
    obtain ⟨vs, ok⟩ := of_discard ok
    exact intros_refines reg ok
  | simp at' unfolding =>
    cases at' with
    | some => exact simpAt_refines reg suits.1 sound.steady suits.2 ok
    | none =>
      cases unfolding with
      | false => exact simpGoal_refines reg suits.1 sound.steady suits.2 ok
      | true => exact simpGoal_unfolding_refines reg sound suits ok
  | cases => exact cases_refines reg suits.2 suits.1 sound.declares ok
  | auto => exact auto_refines reg sound.steady suits ok
  | einstan =>
    obtain ⟨vs, ok⟩ := of_discard ok
    exact einstan_refines reg ok
  | instan => exact instan_refines reg suits ok
  | ext =>
    obtain ⟨vs, ok⟩ := of_discard ok
    exact ext_refines reg sound.steady suits.1 suits.2 ok
  | split at' =>
    cases at' with
    | some => exact splitAt_refines reg ok
    | none => exact split_refines reg suits ok
  | left => exact left_refines reg ok
  | right => exact right_refines reg ok
  | provide => exact provide_refines reg suits ok
  | rewrite => exact rewrite_refines reg suits.1 suits.2 ok
  | symm => exact symm_refines reg ok
  | eqTo => exact eqTo_refines reg sound.steady suits.1 suits.2.1 suits.2.2.1 suits.2.2.2 ok
  | newGoal => exact newGoal_refines reg sound.steady suits.1 suits.2 ok
  | unfold _ at' =>
    cases at' with
    | some => exact unfoldAt_refines reg sound suits ok
    | none => exact unfoldGoal_refines reg sound suits ok
  | apply => exact apply_refines reg suits.1 suits.2 ok
  | induct _ scheme =>
    cases scheme with
    | some scheme => exact induct_refines reg (show Schematic w a.top.goal _ ((some scheme).getD _) from suits) ok
    | none => exact induct_refines reg (schematic_induct reg.top.goal suits.1 suits.2) ok
  | clear => exact clear_refines reg ok
  | generalize => exact generalize_refines reg ok
  | assumption => exact assumption_refines reg ok
  | have' => exact have_refines reg sound.steady suits.1 suits.2 ok

end Call

/-! ## Runs -/

/-- Calls that succeed one after the other, each with arguments that fit, and what they use but do not note. -/
inductive Run : World → Attempt → List Call → List Term → World → Attempt → Prop
  | nil (w : World) (a : Attempt) : Run w a [] [] w a
  | step {w v u : World} {a b d : Attempt} {c : Call} {cs : List Call} {os : List Term} : c.Suits w a →
      Gives c.run (w, a) () (v, b) → Run v b cs os u d → Run w a (c :: cs) (c.unnoted b ++ os) u d

theorem Run.refines {a b : Attempt} {cs : List Call} (run : Run w a cs os v b) :
    World.Sound.{u} w → a.Regular w.next → Refines.{u} os w v a b := by
  induction run with
  | nil => exact fun _ reg => .refl reg
  | step suits ok _ ih =>
    intro sound reg
    have first := Call.refines _ sound reg suits ok
    obtain ⟨m, le, rfl⟩ := first.world
    exact first.trans (ih (sound.mono le) first.regular)

/-- Does the call note all that it uses? -/
def Call.Notes : Call → Prop
  | .ext => False
  | .apply source => source.unnoted = []
  | _ => True

theorem Call.unnoted_of_notes {c : Call} (notes : c.Notes) (b : Attempt) : c.unnoted b = [] := by
  cases c with
  | ext => exact notes.elim
  | apply => exact notes
  | _ => rfl

theorem Run.unnoted_of_notes {a b : Attempt} {cs : List Call} (run : Run w a cs os v b)
    (notes : ∀ c ∈ cs, c.Notes) : os = [] := by
  induction run with
  | nil => rfl
  | step _ _ _ ih =>
    rw [Call.unnoted_of_notes (notes _ mem_cons_self), ih fun c mem => notes c (mem_cons_of_mem _ mem)]
    rfl

theorem Attempt.start_regular (form : thm.Formula n) : (Attempt.start thm).Regular n := by
  intro g mem
  obtain rfl := mem_singleton.1 mem
  exact ⟨by simp [Goal.hyps], form⟩

/-- A theorem follows from the open goals of each attempt that the calls lead to, with its lemmas and what calls use but do not
note; so if no goal is left, what is asked to end the attempt is valid. Only extensionality and the application of a proof that
is not quantified use something unnoted. -/
theorem Run.theorem_follows {w v : World} {thm : Term} {b : Attempt} {cs : List Call} {os : List Term} (sound : World.Sound.{u} w)
    (formula : thm.Formula w.next) (run : Run w (Attempt.start thm) cs os v b) :
    (∀ {U : Type u} (I : Interpretation U), Covers w I → (∀ p ∈ b.lemmas, I.Holds p.thm) → (∀ o ∈ os, I.Holds o) →
      (∀ g ∈ b.goals, g.Holds I) → I.Holds thm) ∧
    (b.goals = [] → b.thm = thm ∧ ∀ (by' : List Proof) {U : Type u} (I : Interpretation U), Covers w I →
      (∀ p ∈ by' ++ b.lemmas, I.Holds p.thm) → (∀ o ∈ os, I.Holds o) → I.Holds thm) ∧
    ((∀ c ∈ cs, c.Notes) → os = []) := by
  have refines := run.refines sound (Attempt.start_regular formula)
  have follows : ∀ {U : Type u} (I : Interpretation U), Covers w I → (∀ p ∈ b.lemmas, I.Holds p.thm) → (∀ o ∈ os, I.Holds o) →
      (∀ g ∈ b.goals, g.Holds I) → I.Holds thm := by
    intro U I covers lemmas used goals
    exact refines.holds I covers lemmas used goals _ (mem_singleton_self _) (by simp [Goal.hyps])
  refine ⟨follows, fun none => ⟨refines.thm, ?_⟩, run.unnoted_of_notes⟩
  intro by' U I covers holds used
  exact follows I covers (fun p mem => holds p (mem_append_right _ mem)) used (by simp [none])

def trusting : World := { entails := fun _ _ _ => pure true }

theorem trusting_sound : World.Sound.{u} trusting where
  declares d mem := by cases mem
  lawful hit := by cases hit
  bodies hit := by cases hit
  fixed hit := by cases hit
  steady _ _ _ _ _ _ gives := by
    cases gives
    exact le_rfl

/-- `p ⇒ p ∧ p`. -/
def pairing : Term := .app .implies [.const "p" .bool, .app .and [.const "p" .bool, .const "p" .bool]]

theorem pairing_formula (n : Nat) : pairing.Formula n :=
  formula_implies.2 ⟨⟨regular_const, rfl⟩, formula_variadic (.inl rfl) (by simpa using ⟨regular_const, rfl⟩)⟩

/-- The calls that show it from one lemma. -/
theorem Run.pairing_follows : ∃ os b, Run trusting (.start pairing) [.intros, .split none, .assumption,
    .auto [] {}] os trusting b ∧
    b.goals = [] ∧ b.lemmas.length = 1 ∧ ∀ {U : Type} (I : Interpretation U), (∀ p ∈ b.lemmas, I.Holds p.thm) →
      I.Holds pairing := by
  have no_distinct (ss : List Srt) (args : List Term) (t : List Term) : .app .and t ≠ app (.distinct ss) args := fun same =>
    absurd (show "and" = "distinct" from congrArg Symbol.name (app.inj same).1) (by decide)
  have run := Run.step (w := trusting) (a := .start pairing) (c := .intros) trivial rfl <|
    .step (c := .split none) (fun _ _ same => absurd same (no_distinct _ _ _)) rfl <| .step (c := .assumption) trivial rfl <|
    .step (c := .auto [] {}) Help.steady_default rfl (.nil ..)
  have ⟨_, closed, noted⟩ := run.theorem_follows trusting_sound (pairing_formula _)
  refine ⟨_, _, run, rfl, rfl, fun I lemmas => (closed rfl).2 [] I (by simp [Covers, trusting]) lemmas ?_⟩
  rw [noted (by simp [Call.Notes])]
  simp

/-- Applying `p ⇒ q` to the goal `q` leaves `p`, and where a proof of `p` ends the attempt, no lemma knows of `q`. -/
theorem apply_notes_nothing : ∃ b, Gives (do
      Tactic.apply (.proof (.byAxiom (.app .implies [.const "p" .bool, .const "q" .bool]) []))
      Tactic.auto [Proof.byAxiom (.const "p" .bool) []]) (trusting, .start (.const "q" .bool)) () (trusting, b) ∧
    b.goals = [] ∧ ∃ I : Interpretation (Standard.Universe fun _ => Unit), (∀ p ∈ b.lemmas, I.Holds p.thm) ∧
      ¬ I.Holds (.const "q" .bool) := by
  refine ⟨_, rfl, rfl, ?_⟩
  let J : Interpretation _ := Standard.allTrue
  obtain ⟨I, varies, values⟩ := J.exists_varies (show ([.const "p" .bool, .const "q" .bool] :
    List Symbol).Nodup by decide) (by decide)
    (.cons J.yes_mem (.cons J.no_mem .nil))
  obtain ⟨yes, no⟩ : I.eval [] (.const "p" .bool) = J.yes ∧ I.eval [] (.const "q" .bool) = J.no := by
    injection values with first rest
    injection rest with second
    exact ⟨first, second⟩
  refine ⟨I, fun l mem => ?_, fun holds => ?_⟩
  · obtain rfl := mem_singleton.1 mem
    exact Frame.eval_implies.2 fun _ => yes.trans varies.agree.yes
  · exact J.no_ne_yes (no.symm.trans (holds.trans varies.agree.yes.symm))

end Tactic
end SortedLogic

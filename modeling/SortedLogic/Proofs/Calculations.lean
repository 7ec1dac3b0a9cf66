import SortedLogic.Proofs.TacticRules

/-!
# What a calculation has shown

A calculation holds a theorem: for all values of its variables, the assumptions entail that the left side is related to the
current term (`Closes`), by the relation of the last step that succeeded. A step that fails may leave the relation that it asked
for (`failed_relation_kept`).
-/

namespace SortedLogic.Tactic.Calculation
open Gives
universe u
variable {vars assumptions : List Term} {lhs rhs p thm : Term} {c c' : Calculation} {r : Option Relation} {R : Relation}
  {w w' v : World} {by' : List Proof} {o : Help}
  {refused : Option Fault}

/-- For all values of the variables for which the assumptions hold, the formula does. -/
def Closes (vars assumptions : List Term) (p thm : Term) : Prop :=
  ∃ body, Guards assumptions p body ∧ (vars = [] ∧ thm = body ∨ body.quantify .forall vars = .ok thm)

theorem closes_of_close (ok : close vars assumptions p = .ok thm) : Closes vars assumptions p thm := by
  have closed {body : Term} (ok : (if vars.isEmpty = true then pure body else body.quantify .forall vars) = .ok thm) :
      vars = [] ∧ thm = body ∨ body.quantify .forall vars = .ok thm := by
    cases vars with
    | nil => exact .inl ⟨rfl, (Except.ok.inj ok).symm⟩
    | cons => exact .inr ok
  rcases assumptions with _ | ⟨a, _ | ⟨b, as⟩⟩
  · exact ⟨p, .none p, closed ok⟩
  · obtain ⟨body, implied, ok⟩ := Checked.bind_eq_ok.1 ok
    exact ⟨body, .one implied, closed ok⟩
  · obtain ⟨all, joined, ok⟩ := Checked.bind_eq_ok.1 ok
    obtain ⟨body, implied, ok⟩ := Checked.bind_eq_ok.1 ok
    exact ⟨body, .many joined implied, closed ok⟩

theorem Closes.holds {U : Type u} {I : Interpretation U} {cs : List Symbol}
    (closes : Closes (cs.map (.app · [])) assumptions p thm) (nodup : cs.Nodup)
    (closed : ∀ t ∈ p :: assumptions, t.Closed) :
    I.Holds thm ↔ ∀ J : Interpretation U, I.Varies cs J → (∀ a ∈ assumptions, J.Holds a) → J.Holds p := by
  obtain ⟨body, guards, shape⟩ := closes
  simp only [← guards.holds]
  rcases shape with ⟨none, rfl⟩ | quantified
  · obtain rfl := List.map_eq_nil_iff.1 none
    refine ⟨fun holds J varies => ?_, fun all => all I ⟨Frame.agreeOutside_refl _, fun _ _ _ => rfl⟩⟩
    rw [Frame.Holds, ← varies.agree.eval (by simp) (by simp), ← varies.agree.yes]
    exact holds
  obtain ⟨⟨-, bindable, -⟩, rfl⟩ := Term.quantify_eq_ok.1 quantified
  rw [Term.filterMap_bindingName]
  refine Interpretation.holds_forall nodup (fun c mem => bindable _ (List.mem_map_of_mem mem)) ?_
  exact guards.closed (fun h mem => closed h (List.mem_cons_of_mem _ mem)) (closed p List.mem_cons_self)

theorem mayFollow_trans {q r s : Relation} : mayFollow q r = true → mayFollow r s = true → mayFollow q s = true := by
  cases q <;> cases r <;> cases s <;> decide

theorem advance_gives (ok : Gives (c.advance rhs by' o) w c' w') : ∃ p pf, w.relate c.relation c.lhs rhs = .ok p ∧
    close c.vars c.assumptions p = .ok pf.thm ∧ c' = { c with current := rhs, proof := pf } := by
  simp only [advance, ↓Gives.checked_bind, bind_iff, theWorld_iff] at ok
  obtain ⟨_, _, ⟨rfl, rfl⟩, _, -, _, -, _, -, here, _, -, p, related, thm, closed, pf, _, found, rest⟩ := ok
  cases rest
  exact ⟨p, pf, related, (prove_cases found).1 ▸ closed, rfl⟩

theorem step_cases (ok : Gives (c.step r rhs by' o) w (c', refused) w') :
    (refused = none ∧ ∃ p pf, w.relate c'.relation c.lhs rhs = .ok p ∧ close c.vars c.assumptions p = .ok pf.thm ∧
        c' = { c with current := rhs, relation := r.getD c.relation, proof := pf }) ∨
      refused ≠ none ∧ (c' = c ∨ ∃ s, r = some s ∧ mayFollow c.relation s = true ∧ c' = { c with relation := s }) := by
  have tried {c₁ : Calculation} (turned : r.elim (.ok c) c.setRelation = .ok c₁) :
      (refused = none ∧ ∃ p pf, w.relate c₁.relation c₁.lhs rhs = .ok p ∧ close c₁.vars c₁.assumptions p = .ok pf.thm ∧
        c' = { c₁ with current := rhs, proof := pf }) ∨ refused ≠ none ∧ c' = c₁ := by
    rw [step, turned] at ok
    obtain given | ⟨f, v, -, given⟩ := of_tryCatch ok
    · obtain ⟨c₂, v, advanced, last⟩ := bind_iff.1 given
      cases (pure_iff.1 last).1
      exact .inl ⟨rfl, advance_gives advanced⟩
    · cases (pure_iff.1 given).1
      exact .inr ⟨nofun, rfl⟩
  cases r with
  | none =>
    obtain ⟨succeeds, p, pf, related, closed, rfl⟩ | ⟨failed, rfl⟩ := tried rfl
    · exact .inl ⟨succeeds, p, pf, related, closed, rfl⟩
    · exact .inr ⟨failed, .inl rfl⟩
  | some s =>
    by_cases may : mayFollow c.relation s = true
    · obtain ⟨succeeds, p, pf, related, closed, rfl⟩ | ⟨failed, rfl⟩ := tried (if_pos may)
      · exact .inl ⟨succeeds, p, pf, related, closed, rfl⟩
      · exact .inr ⟨failed, .inr ⟨s, rfl, may, rfl⟩⟩
    have stopped : (some s).elim (.ok c) c.setRelation = .error .unprovable := if_neg may
    rw [step, stopped] at ok
    cases (pure_iff.1 ok).1
    exact .inr ⟨nofun, .inl rfl⟩

/-! ## Runs -/

/-- Steps from a start, each in any world. The world and the relation are those of the last step that succeeded. -/
inductive Reaches (vars : List Term) (lhs : Term) (assumptions : List Term) : World → Relation → Calculation → Prop
  | start {w w' : World} {c : Calculation} : Gives (start vars lhs assumptions) w c w' → Reaches vars lhs assumptions w .eq c
  | step {v w w' : World} {R : Relation} {c c' : Calculation} {r : Option Relation} {rhs : Term} {by' : List Proof}
      {o : Help} : Reaches vars lhs assumptions v R c → Gives (c.step r rhs by' o) w (c', none) w' →
        Reaches vars lhs assumptions w c'.relation c'
  | failed {v w w' : World} {R : Relation} {c c' : Calculation} {r : Option Relation} {rhs : Term} {by' : List Proof}
      {o : Help} {f : Fault} : Reaches vars lhs assumptions v R c → Gives (c.step r rhs by' o) w (c', some f) w' →
      Reaches vars lhs assumptions v R c'

/-- The left side and the current term stand in the relation of the last step that succeeded (the plain equation at the start),
which is that of the calculation or one that this may follow. A step that fails changes at most the relation, to one that it
names and that may follow. -/
theorem Reaches.states (reached : Reaches vars lhs assumptions v R c) :
    (c.vars = vars ∧ c.lhs = lhs ∧ c.assumptions = assumptions ∧ mayFollow R c.relation = true) ∧
    (∃ p, (v.relate R lhs c.current = .ok p ∨ R = .eq ∧ c.current = lhs ∧ lhs.eq lhs = .ok p) ∧
      Closes vars assumptions p c.proof.thm ∧
      ∀ cs : List Symbol, vars = cs.map (.app · []) → cs.Nodup → (∀ t ∈ p :: assumptions, t.Closed) →
        ∀ {U : Type u} (I : Interpretation U), I.Holds c.proof.thm ↔
          ∀ J : Interpretation U, I.Varies cs J → (∀ a ∈ assumptions, J.Holds a) → J.Holds p) ∧
    ∀ r rhs by' o w c' f w', Gives (c.step r rhs by' o) w (c', some f) w' →
      c' = c ∨ ∃ s, r = some s ∧ mayFollow c.relation s = true ∧ c' = { c with relation := s } := by
  have failed {c c' : Calculation} {r : Option Relation} {rhs : Term} {by' : List Proof} {o : Help} {f : Fault} {w w' : World}
      (done : Gives (c.step r rhs by' o) w (c', some f) w') :
      c' = c ∨ ∃ s, r = some s ∧ mayFollow c.relation s = true ∧ c' = { c with relation := s } :=
    ((step_cases done).resolve_left fun h => nomatch h.1).2
  suffices invariant : (c.vars = vars ∧ c.lhs = lhs ∧ c.assumptions = assumptions ∧ mayFollow R c.relation = true) ∧
      ∃ p, (v.relate R lhs c.current = .ok p ∨ R = .eq ∧ c.current = lhs ∧ lhs.eq lhs = .ok p) ∧
        Closes vars assumptions p c.proof.thm by
    obtain ⟨kept, p, related, closes⟩ := invariant
    refine ⟨kept, ⟨p, related, closes, fun cs same distinct closed U I => ?_⟩, fun _ _ _ _ _ _ _ _ => failed⟩
    subst same
    exact closes.holds distinct closed
  induction reached with
  | start done =>
    obtain ⟨p, equal, rest⟩ := Gives.checked_bind.1 done
    obtain ⟨thm, closed, rest⟩ := Gives.checked_bind.1 rest
    obtain ⟨pf, w', proved, rest⟩ := bind_iff.1 rest
    cases rest
    exact ⟨⟨rfl, rfl, rfl, rfl⟩, p, .inr ⟨rfl, rfl, equal⟩, closes_of_close ((asked proved).1 ▸ closed)⟩
  | step _ done ih =>
    obtain ⟨⟨rfl, rfl, rfl, -⟩, -⟩ := ih
    obtain ⟨-, p, pf, related, closed, rfl⟩ := (step_cases done).resolve_right fun h => h.1 rfl
    exact ⟨⟨rfl, rfl, rfl, by simp [mayFollow]⟩, p, .inl related, closes_of_close closed⟩
  | failed _ done ih =>
    obtain ⟨⟨rfl, rfl, rfl, may⟩, stated⟩ := ih
    obtain rfl | ⟨s, -, follows, rfl⟩ := failed done
    · exact ⟨⟨rfl, rfl, rfl, may⟩, stated⟩
    · exact ⟨⟨rfl, rfl, rfl, mayFollow_trans may follows⟩, stated⟩

namespace Sample

def before : Calculation := ⟨[], .int 9, .int 9, [], .eq, .byProofs (.app (.eq .int) [.int 9, .int 9]) []⟩

theorem before_given : Gives (start [] (.int 9) []) {} before ((start [] (.int 9) []).run {}).2 := of_toOption (by cbv)

theorem less_states : ∃ v c, Reaches [] (.int 9) [] v .lt c ∧ c.relation = .lt ∧ c.current = .int 10 ∧
    ∃ p, World.relate v .lt (.int 9) (.int 10) = .ok p ∧ Closes [] [] p c.proof.thm := by
  have done : Gives (before.step (some .lt) (.int 10) []) {} (_, none) _ := of_toOption (by cbv)
  have reached := (Reaches.start before_given).step done
  obtain ⟨-, ⟨p, related | ⟨h, -⟩, closes, -⟩, -⟩ := Reaches.states.{0} reached
  · exact ⟨_, _, reached, rfl, rfl, p, related, closes⟩
  · cases h

/-- A step that cannot be proved leaves another relation than that of the theorem. -/
theorem failed_relation_kept : ∃ c w', Gives (before.step (some .lt) (.int 8) []) {} (c, some .unprovable) w' ∧
    before.relation = .eq ∧ c.relation = .lt ∧
      ¬ ∃ p, World.relate {} c.relation c.lhs c.current = .ok p ∧ Closes c.vars c.assumptions p c.proof.thm := by
  refine ⟨{ before with relation := .lt }, _, of_toOption (by cbv), rfl, rfl, ?_⟩
  rintro ⟨p, related, body, guards, shape⟩
  cases related
  rcases shape with ⟨-, same⟩ | quantified
  · cases guards with
    | none => exact absurd same (by decide)
    | many joined implied =>
      obtain ⟨-, -, rfl⟩ := Term.implies_eq_ok.1 implied
      injection same with head
      exact absurd head (by decide)
  · cases quantified

end Sample
end SortedLogic.Tactic.Calculation

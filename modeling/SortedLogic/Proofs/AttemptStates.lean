import SortedLogic.Proofs.TacticRuns

/-!
# What tactics leave of an attempt

Whether a tactic is carried out or refused, the theorem, the saved states, the lemmas noted before and the goals below the one
on top stay (`Kept`). A refused tactic may have lost its goal, unless it asks all its questions first (`Call.Careful`). `pop`
brings back what `push` saved; only `clear` reaches saved states.
-/

namespace SortedLogic.Tactic
variable {α β : Type} {w : World} {a b : Attempt} {s : World × Attempt} {p q r : Bool}

/-- What stays of `a` in `b`. -/
structure Kept (a b : Attempt) : Prop where
  thm : b.thm = a.thm
  saved : b.saved = a.saved
  lemmas : a.lemmas <+: b.lemmas
  goals : a.goals.tail <:+ b.goals

/-- As much of `a` stays in `b`, and if `top` is set even without the goal on top of `b`. -/
def Keeps (top : Bool) (a b : Attempt) : Prop := Kept a (if top then { b with goals := b.goals.tail } else b)

theorem Keeps.refl (a : Attempt) : Keeps true a a := ⟨rfl, rfl, List.prefix_rfl, List.suffix_rfl⟩

theorem Keeps.kept (keeps : Keeps p a b) : Kept a b := by
  cases p with
  | false => exact keeps
  | true => exact ⟨keeps.thm, keeps.saved, keeps.lemmas, keeps.goals.trans b.goals.tail_suffix⟩

/-- A step from an attempt that can spare its goal on top, if `p` is set, to one that can, if `q` is. -/
structure Step (p q : Bool) (x : TacticM α) : Prop where
  frame : ∀ w a b, Keeps p a b → Kept a (x.run (w, b)).2.2 ∧ ∀ y s, Gives x (w, b) y s → Keeps q a s.2

namespace Step

theorem bind {x : TacticM α} {f : α → TacticM β} (first : Step p q x) (rest : ∀ y, Step q r (f y)) : Step p r (x >>= f) := by
  refine ⟨fun w a b keeps => ?_⟩
  obtain ⟨kept, given⟩ := first.frame w a b keeps
  have unfolded : (x >>= f).run (w, b) = (ExceptT.bindCont f (x.run (w, b)).1).run (x.run (w, b)).2 := rfl
  rw [unfolded]
  refine ⟨?_, fun z s ok => ?_⟩
  · rcases ok : x.run (w, b) with ⟨e | y, t⟩
    · rw [ok] at kept
      exact kept
    · exact ((rest y).frame t.1 a t.2 (given y t ok)).1
  · obtain ⟨y, t, ok, last⟩ := Gives.bind_iff.1 ok
    exact ((rest y).frame t.1 a t.2 (given y t ok)).2 z s last

theorem throw {e : Fault} : Step p q (throw e : TacticM α) := ⟨fun _ _ _ keeps => ⟨keeps.kept, fun _ _ done => by cases done⟩⟩

theorem pure {y : α} : Step p p (pure y : TacticM α) :=
  ⟨fun _ _ _ keeps => ⟨keeps.kept, fun _ _ done => by cases done; exact keeps⟩⟩

theorem done {y : α} : Step p false (Pure.pure y : TacticM α) :=
  ⟨fun _ _ _ keeps => ⟨keeps.kept, fun _ _ done => by cases done; exact keeps.kept⟩⟩

theorem quiet {x : TacticM α} (eq : ∀ w b, ∃ ls k, (x.run (w, b)).2.2 = { b with lemmas := b.lemmas ++ ls, next := k }) :
    Step p p x := by
  refine ⟨fun w a b keeps => ?_⟩
  obtain ⟨ls, k, eq⟩ := eq w b
  have lemmas := keeps.kept.lemmas.trans (List.prefix_append b.lemmas ls)
  have keeps : Keeps p a (x.run (w, b)).2.2 := by
    rw [eq]
    cases p with
    | _ => exact ⟨keeps.thm, keeps.saved, lemmas, keeps.goals⟩
  refine ⟨keeps.kept, fun y s ok => ?_⟩
  rw [ok] at keeps
  exact keeps

theorem session {x : Session α} : Step p p (liftM x : TacticM α) := quiet fun _ b => ⟨[], b.next, by simp; rfl⟩

theorem topGoal : Step p p topGoal := quiet fun _ b => ⟨[], b.next, by simp; rfl⟩

theorem currentGoal : Step p p currentGoal := quiet fun _ b => ⟨[], b.next, by rcases b with ⟨_, _ | _, _⟩ <;> simp <;> rfl⟩

theorem addLemmas {ls : List Proof} : Step p p (addLemmas ls) := quiet fun _ b => ⟨ls, b.next, rfl⟩

theorem withHyps {g : Goal} {hyps : List Term} : Step p p (withHyps g hyps) := quiet fun _ b => ⟨[], b.next + 1, by simp; rfl⟩

theorem take : Step true false take := by
  refine ⟨fun w a b keeps => ?_⟩
  obtain ⟨thm, _ | ⟨g, rest⟩, lemmas, saved, next⟩ := b
  · exact ⟨keeps.kept, fun _ _ ok => by cases ok⟩
  · exact ⟨keeps, fun _ _ ok => by cases ok; exact keeps⟩

theorem put {g : Goal} : Step p q (put g) := by
  refine ⟨fun w a b keeps => ?_⟩
  have keeps : Keeps true a { b with goals := g :: b.goals } := keeps.kept
  refine ⟨keeps.kept, fun _ _ ok => ?_⟩
  cases ok
  cases q with
  | false => exact keeps.kept
  | true => exact keeps

theorem replaceTop {g : Goal} : Step true q (replaceTop g) := take.bind fun _ => put

theorem forM {x : β → TacticM Unit} (each : ∀ y, Step false false (x y)) (ys : List β) : Step false false (ys.forM x) := by
  induction ys with
  | nil => exact pure
  | cons y _ ih => exact (each y).bind fun _ => ih

theorem discard {x : TacticM α} (h : Step p q x) : Step p q (discard x) := h.bind fun _ => pure

end Step

theorem apply_step (source : Source) : Step true q (apply source) := by
  simp only [apply, refuse]
  repeat' with_reducible first
    | exact .session | exact .topGoal | exact .addLemmas | exact .throw | exact .replaceTop | apply Step.bind | intro _ | split

/-- Every call but `clear` works on the goal on top alone: each of its commands has its rule, `bind` puts them together. -/
theorem Call.step (c : Call) (other : ∀ n, c ≠ .clear n) : Step true false c.run := by
  cases c
  case clear n => exact absurd rfl (other n)
  case' simp at' _ => cases at'
  case' split at' => cases at'
  case' unfold _ at' => cases at'
  all_goals
    simp only [run, refuse, Tactic.fixes, Tactic.fix, Tactic.intros, intros.disjunction, simpAt, simpGoal, Tactic.cases,
      Tactic.auto, Tactic.einstan, Tactic.instan, Tactic.ext, Tactic.split, splitAt, Tactic.left, Tactic.right, choose,
      Tactic.provide, Tactic.rewrite, exchange, Tactic.symm, Tactic.eqTo, Tactic.newGoal, unfoldAt, unfoldGoal, unfolded,
      Tactic.induct, Tactic.generalize, Tactic.assumption, Tactic.have']
    -- what follows a refusal may rely on a goal on top: the first rule for `throw` says so
    repeat' with_reducible first
      | exact .session | exact .topGoal | exact .currentGoal | exact .addLemmas | exact .withHyps | exact .take
      | exact .throw (q := true) | exact .throw | exact .pure | exact .done | exact .put (q := false) | exact .replaceTop
      | exact apply_step (q := true) _ | exact apply_step _ | apply Step.discard | apply Step.forM | apply Step.bind
      | intro _ | split

theorem Call.kept (c : Call) (other : ∀ n, c ≠ .clear n) (s : World × Attempt) : Kept s.2 (c.run.run s).2.2 :=
  ((c.step other).frame s.1 s.2 s.2 (.refl _)).1

/-! ## Refusals -/

/-- If the step is refused the attempt is left as it was. -/
def Exact (a : Attempt) (x : TacticM α) : Prop := ∀ w e s, x.run (w, a) = (.error e, s) → s.2 = a

namespace Exact

theorem throw {e : Fault} : Exact a (throw e : TacticM α) := fun _ _ _ err => by cases err; rfl

theorem passes {x : TacticM α} {y : World → α} {f : World → World × Attempt} (given : ∀ w, Gives x (w, a) (y w) (f w)) :
    Exact a x := by
  intro w e s err
  cases (given w).symm.trans err

theorem session {x : Session β} {f : β → TacticM α} (rest : ∀ {w y v}, Gives x w y v → Exact a (f y)) :
    Exact a (liftM x >>= f) := by
  intro w e s err
  have unfolded : ((liftM x) >>= f).run (w, a) = (ExceptT.bindCont f (x.run w).1).run ((x.run w).2, a) := rfl
  rw [unfolded] at err
  rcases ok : x.run w with ⟨_ | y, v⟩
  · rw [ok] at err
    cases err
    rfl
  · rw [ok] at err
    exact rest ok v e s err

theorem topGoal {f : Goal → TacticM α} (rest : Exact a (f a.top)) : Exact a (topGoal >>= f) := rest

theorem currentGoal {f : Goal → TacticM α} (rest : a.goals ≠ [] → Exact a (f a.top)) : Exact a (currentGoal >>= f) := by
  obtain ⟨thm, _ | ⟨g, gs⟩, lemmas, saved, next⟩ := a
  · exact fun _ _ _ err => by cases err; rfl
  · exact rest (List.cons_ne_nil _ _)

theorem clear (n : Int) : Exact a (clear n) := .currentGoal fun _ => .session fun _ => .passes fun _ => rfl

end Exact

theorem forM_passes {x : β → TacticM Unit} (each : ∀ y s, ∃ t, Gives (x y) s () t) (ys : List β) (s : World × Attempt) :
    ∃ t, Gives (ys.forM x) s () t := by
  induction ys generalizing s with
  | nil => exact ⟨s, rfl⟩
  | cons y _ ih =>
    obtain ⟨t, first⟩ := each y s
    obtain ⟨t', rest⟩ := ih t
    exact ⟨t', first.bind rest⟩

/-- The calls that ask all their questions before they touch the attempt. -/
def Call.Careful : Call → Prop
  | .simp at' unfolding => at'.isSome ∨ unfolding = false
  | .split at' => at'.isSome
  | .auto _ _ | .instan _ _ | .left _ | .right | .provide _ | .symm | .newGoal _ _ _ | .apply _ | .clear _ => True
  | _ => False

theorem Call.exact (c : Call) (careful : c.Careful) (some : a.goals ≠ []) : Exact a c.run := by
  obtain ⟨thm, _ | ⟨g, rest⟩, lemmas, saved, next⟩ := a
  · exact absurd rfl some
  cases c with
  | clear n => exact .clear n
  | auto => exact .currentGoal fun _ => .session fun _ => .session fun _ => .passes fun _ => rfl
  | newGoal => exact .topGoal (.session fun _ => .session fun _ => .passes fun _ => rfl)
  | symm =>
    refine .topGoal ?_
    split
    · exact .session fun _ => .passes fun _ => rfl
    · exact .throw
  | simp at' unfolding =>
    cases at' with
    | some =>
      refine .topGoal (.session fun _ => .session fun _ => ?_)
      dsimp only
      split
      · exact .throw
      · exact .session fun _ => .session fun _ => .passes fun _ => rfl
    | none =>
      obtain rfl : unfolding = false := careful.resolve_left (by simp)
      exact .topGoal (.session fun _ => .session fun _ => .session fun _ => .passes fun _ => rfl)
  | left | right =>
    refine .currentGoal fun _ => ?_
    split
    · split
      · exact .session fun _ => .passes fun _ => rfl
      · exact .throw
    · exact .throw
  | apply source =>
    refine .topGoal (.session fun _ => .session fun _ => .session fun _ => .session fun _ => ?_)
    split
    · exact .throw
    split
    · refine .session fun _ => ?_
      cases source with
      | _ => exact .session fun _ => .passes fun _ => rfl
    · exact .passes fun _ => rfl
  | instan =>
    refine .currentGoal fun _ => .session fun _ => ?_
    split
    · exact .throw
    refine .session fun made => ?_
    obtain ⟨_, _, _, -, -, -, -, shape⟩ := Kernel.instan2_eq_ok (Gives.ofChecked_session.1 made).1
    simp only [shape]
    exact .passes fun _ => rfl
  | provide =>
    refine .currentGoal fun _ => ?_
    split
    · exact .throw
    refine .session fun made => ?_
    obtain ⟨_, _, _, -, -, -, -, shape⟩ := Kernel.forget2_eq_ok (Gives.ofChecked_session.1 made).1
    simp only [shape]
    exact .passes fun _ => rfl
  | split at' =>
    cases at' with
    | none => cases careful
    | some =>
      refine .currentGoal fun _ => .session fun _ => ?_
      split
      · split
        · exact .passes fun w => (forM_passes (fun _ _ => ⟨_, rfl⟩) _ _).choose_spec
        · split
          · exact .passes fun _ => rfl
          · exact .throw
      · exact .throw
  | _ => cases careful

inductive Instruction
  | call (c : Call)
  | push | pop

namespace Instruction

def run : Instruction → TacticM Unit
  | .call c => c.run
  | .push => Tactic.push
  | .pop => Tactic.pop

/-- The context and the place of the hypothesis that the instruction removes. -/
def cleared (s : World × Attempt) : Instruction → List (Nat × Nat)
  | .call (.clear n) =>
    match (Tactic.clear n).run s with
    | (.ok _, _) => [(s.2.top.context.number, (place s.2.top.hyps.length n).toNat)]
    | (.error _, _) => []
  | _ => []

end Instruction

def after (is : List Instruction) (s : World × Attempt) : World × Attempt := is.foldl (fun s i => (i.run.run s).2) s

def cleared : List Instruction → World × Attempt → List (Nat × Nat)
  | [], _ => []
  | i :: is, s => i.cleared s ++ cleared is (i.run.run s).2

inductive Balanced : List Instruction → Prop
  | nil : Balanced []
  | call (c : Call) {is : List Instruction} : Balanced is → Balanced (.call c :: is)
  | block {is js : List Instruction} : Balanced is → Balanced js → Balanced (.push :: (is ++ .pop :: js))

def Goal.withoutAll (cs : List (Nat × Nat)) (g : Goal) : Goal := cs.foldl (fun g c => g.without c.1 c.2) g

def Snapshot.withoutAll (cs : List (Nat × Nat)) (s : Snapshot) : Snapshot := { s with goals := s.goals.map (·.withoutAll cs) }

variable {is js : List Instruction}

@[simp] theorem Snapshot.withoutAll_nil (s : Snapshot) : s.withoutAll [] = s := by simp [withoutAll, Goal.withoutAll]

theorem Snapshot.withoutAll_append (cs ds : List (Nat × Nat)) (ss : List Snapshot) :
    ss.map (·.withoutAll (cs ++ ds)) = (ss.map (·.withoutAll cs)).map (·.withoutAll ds) := by
  simp [withoutAll, Goal.withoutAll, Function.comp_def]

theorem cleared_append (s : World × Attempt) : cleared (is ++ js) s = cleared is s ++ cleared js (after is s) := by
  induction is generalizing s with
  | nil => rfl
  | cons _ _ ih => simp [cleared, after, ih]

theorem Instruction.cleared_eq_nil {i : Instruction} (other : ∀ n, i ≠ .call (.clear n)) : i.cleared s = [] := by
  unfold cleared
  split
  · exact absurd rfl (other _)
  · rfl

theorem cleared_eq_nil (none : ∀ n, .call (.clear n) ∉ is) (s : World × Attempt) : cleared is s = [] := by
  induction is generalizing s with
  | nil => rfl
  | cons _ _ ih =>
    rw [cleared, Instruction.cleared_eq_nil fun n eq => none n (eq ▸ List.mem_cons_self),
      ih fun n mem => none n (List.mem_cons_of_mem _ mem)]
    rfl

theorem Call.saved (c : Call) (s : World × Attempt) : (c.run.run s).2.2.thm = s.2.thm ∧
    (c.run.run s).2.2.saved = s.2.saved.map (·.withoutAll ((Instruction.call c).cleared s)) := by
  by_cases clear : ∃ n, c = .clear n
  · obtain ⟨n, rfl⟩ := clear
    obtain ⟨w, a⟩ := s
    rcases ok : (Tactic.clear n).run (w, a) with ⟨e | u, t⟩
    · rw [show ExceptT.run (Call.clear n).run _ = _ from ok]
      simp [Exact.clear n w e t ok, Instruction.cleared, ok]
    rw [show ExceptT.run (Call.clear n).run _ = _ from ok]
    obtain ⟨g, rest, goals, last⟩ := currentGoal_bind.1 ok
    obtain ⟨_, -, last⟩ := checked_bind.1 last
    obtain rfl := changeAttempt_iff.1 last
    simp [Instruction.cleared, ok, Attempt.top_eq goals, Snapshot.withoutAll, Goal.withoutAll, Attempt.clearShared]
  · have other (n : Int) (eq : c = .clear n) : False := clear ⟨n, eq⟩
    have kept := c.kept other s
    rw [Instruction.cleared_eq_nil fun n eq => other n (Instruction.call.inj eq)]
    exact ⟨kept.thm, by simpa using kept.saved⟩

theorem pop_run {first : Snapshot} {rest : List Snapshot} (saved : s.2.saved = first :: rest) :
    (pop.run s).2 = (s.1, { s.2 with goals := first.goals, lemmas := first.lemmas, saved := rest }) := by
  obtain ⟨w, thm, goals, lemmas, _, next⟩ := s
  cases saved
  rfl

theorem Balanced.saved (balanced : Balanced is) : ∀ s : World × Attempt, (after is s).2.thm = s.2.thm ∧
    (after is s).2.saved = s.2.saved.map (·.withoutAll (cleared is s)) := by
  induction balanced with
  | nil => exact fun s => ⟨rfl, by simp [after, cleared]⟩
  | call c _ ih =>
    intro s
    obtain ⟨thm, saved⟩ := c.saved s
    obtain ⟨thm', saved'⟩ := ih (c.run.run s).2
    rw [cleared, Snapshot.withoutAll_append, ← saved]
    exact ⟨thm'.trans thm, saved'⟩
  | @block is js _ _ ih ih' =>
    intro s
    obtain ⟨thm, saved⟩ := ih (push.run s).2
    obtain ⟨thm', saved'⟩ := ih' (pop.run (after is (push.run s).2)).2
    have run : after (.push :: (is ++ .pop :: js)) s = after js (pop.run (after is (push.run s).2)).2 := by
      simp [after, Instruction.run]
    have removed : cleared (.push :: (is ++ .pop :: js)) s =
        cleared is (push.run s).2 ++ cleared js (pop.run (after is (push.run s).2)).2 := by
      rw [cleared, cleared_append]
      rfl
    rw [pop_run (saved.trans (List.map_cons ..))] at run removed thm' saved'
    rw [run, removed, Snapshot.withoutAll_append]
    exact ⟨thm'.trans thm, saved'⟩

/-- `pop` brings back the goals and lemmas of its `push`, but for hypotheses that `clear` removed from a context in between. -/
theorem Balanced.pop_restores (balanced : Balanced is) (s t : World × Attempt) (run : after (.push :: (is ++ [.pop])) s = t) :
    t.2.thm = s.2.thm ∧ t.2.lemmas = s.2.lemmas ∧ t.2.goals = s.2.goals.map (·.withoutAll (cleared is (push.run s).2)) ∧
    t.2.saved = s.2.saved.map (·.withoutAll (cleared is (push.run s).2)) ∧
    ((∀ n, .call (.clear n) ∉ is) → t.2.goals = s.2.goals ∧ t.2.saved = s.2.saved) := by
  obtain ⟨thm, saved⟩ := balanced.saved (push.run s).2
  have last : after (.push :: (is ++ [.pop])) s = (pop.run (after is (push.run s).2)).2 := by simp [after, Instruction.run]
  rw [← run, last, pop_run (saved.trans (List.map_cons ..))]
  refine ⟨thm, rfl, rfl, rfl, fun none => ?_⟩
  rw [cleared_eq_nil none]
  simp

theorem pop_restores_split : Balanced [.call (.split none), .push, .call .assumption, .pop] ∧
    (after [.push, .call (.split none), .push, .call .assumption, .pop, .pop] (trusting, .start pairing)).2.goals =
      (Attempt.start pairing).goals := by
  have balanced : Balanced [.call (.split none), .push, .call .assumption, .pop] := .call _ (.block (.call _ .nil) .nil)
  exact ⟨balanced, ((balanced.pop_restores (trusting, .start pairing) _ rfl).2.2.2.2 (by simp)).1⟩

/-- After `pop` a hypothesis that `clear` removed is still gone. -/
theorem clear_reaches_saved : (after [.call .intros, .push, .call (.clear 0), .pop] (trusting, .start pairing)).2.goals ≠
    (after [.call .intros] (trusting, .start pairing)).2.goals := by
  decide

end SortedLogic.Tactic

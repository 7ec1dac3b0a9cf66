import SortedLogic.Proofs.Matching
import SortedLogic.Proofs.Quantification
import SortedLogic.Tactic.Steps

/-!
# Steps of a proof attempt

A tactic replaces the goal on top by goals from which it follows, given the lemmas that it adds (`Refines`). Each run of a
tactic is first opened with one lemma for each of its commands (`take_bind`, `put_iff`, …).
-/

namespace SortedLogic
open Kernel
open Term
open SortedLogic.Frame
open List
universe u
open Gives
variable {ts vs args hyps sig xs : List Term} {t thm c body d e h u y : Term} {n m : Nat} {g g' : Tactic.Goal}
  {rest : List Tactic.Goal} {i : Int} {α β : Type} {w v : World} {a b : Tactic.Attempt} {r : α}
  {s : World × Tactic.Attempt} {os : List Term} {k : Binder} {vars : Vars} {U : Type u}
  {q : List Term × Proof} {pf : Proof}

/-! ## Formulas -/

namespace Symbol

/-- May the symbol stand before any number of arguments? -/
def Variadic (f : Symbol) : Prop := ∃ name ∈ ["and", "or", "+", "*"], f.isOp name = true

def Takes (f : Symbol) (k : Nat) : Prop := f.Variadic ∨ k = f.arity

end Symbol

namespace Term

/-- A closed term whose sorts fit, with as many arguments as symbols take, without constants that the supply makes from `n` on.
-/
structure Regular (n : Nat) (t : Term) : Prop where
  legal : t.Legal true n
  uses : t.Uses Symbol.Takes

structure Formula (n : Nat) (t : Term) : Prop extends Regular n t where
  sort : t.sort = .bool

variable {a b : Term} {f : Symbol}

theorem Regular.mono (reg : t.Regular n) (le : n ≤ m) : t.Regular m := ⟨reg.legal.mono le, reg.uses⟩

theorem Formula.mono (form : t.Formula n) (le : n ≤ m) : t.Formula m := ⟨form.toRegular.mono le, form.sort⟩

theorem regular_app : (app f args).Regular n ↔ (f.Proper ∧ (∀ hint k s, n ≤ k → f ≠ .supply hint k s) ∧ f.Takes args.length) ∧
    args.map Term.sort = placesOf f args.length ∧ ∀ a ∈ args, a.Regular n := by
  constructor
  · rintro ⟨⟨sorted, before⟩, uses⟩
    obtain ⟨proper, places, sorted⟩ := sorted_app.1 sorted
    obtain ⟨old, before⟩ := before_app.1 before
    obtain ⟨here, below⟩ := uses_app.1 uses
    exact ⟨⟨proper, old, here⟩, places, fun a mem => ⟨⟨sorted a mem, before a mem⟩, below a mem⟩⟩
  · rintro ⟨⟨proper, old, here⟩, places, each⟩
    exact ⟨⟨sorted_app.2 ⟨proper, places, fun a mem => (each a mem).legal.sorted⟩,
      before_app.2 ⟨old, fun a mem => (each a mem).legal.before⟩⟩, uses_app.2 ⟨here, fun a mem => (each a mem).uses⟩⟩

theorem regular_apply (proper : f.Proper) (old : ∀ hint k s, n ≤ k → f ≠ .supply hint k s)
    (sorts : args.map Term.sort = f.domain) (reg : ∀ a ∈ args, a.Regular n) : (app f args).Regular n := by
  have len : args.length = f.arity := by rw [Symbol.arity, ← sorts, length_map]
  exact regular_app.2 ⟨⟨proper, old, .inr len⟩, by rw [placesOf, if_pos len.symm, sorts], reg⟩

theorem Regular.arg (reg : (app f args).Regular n) (mem : a ∈ args) : a.Regular n := (regular_app.1 reg).2.2 a mem

theorem Regular.proper (reg : (app f args).Regular n) : f.Proper := (regular_app.1 reg).1.1

theorem Formula.part (form : (app f args).Formula n) (connective : ∀ s ∈ f.domain, s = .bool)
    (mem : a ∈ args) : a.Formula n := by
  have bool := (regular_app.1 form.toRegular).2.1.trans (placesOf_connective connective _)
  exact ⟨form.arg mem, eq_of_mem_replicate (bool ▸ mem_map_of_mem mem)⟩

theorem formula_variadic (op : f = .and ∨ f = .or) (formulas : ∀ a ∈ args, a.Formula n) : (app f args).Formula n := by
  have bool : args.map Term.sort = List.replicate args.length .bool := by
    rw [eq_replicate_iff]
    simpa using fun a mem => (formulas a mem).sort
  have places := placesOf_connective (f := f) (by obtain rfl | rfl := op <;> decide) args.length
  refine ⟨regular_app.2 ⟨⟨?_, ?_, .inl ?_⟩, bool.trans places.symm, fun a mem => (formulas a mem).toRegular⟩, ?_⟩
  · obtain rfl | rfl := op
    · exact Symbol.Logical.and.proper
    · exact Symbol.Logical.or.proper
  · exact before_of_not_free (by obtain rfl | rfl := op <;> rfl)
  · obtain rfl | rfl := op
    · exact ⟨"and", by simp, rfl⟩
    · exact ⟨"or", by simp, rfl⟩
  · obtain rfl | rfl := op <;> rfl

theorem formula_implies : (app .implies [a, b]).Formula n ↔ a.Formula n ∧ b.Formula n := by
  constructor
  · intro form
    obtain ⟨sorts, -⟩ := legal_implies.1 form.legal
    exact ⟨⟨form.arg (by simp), sorts.1⟩, ⟨form.arg (by simp), sorts.2⟩⟩
  · rintro ⟨ha, hb⟩
    refine ⟨⟨legal_implies.2 ⟨⟨ha.sort, hb.sort⟩, ha.legal, hb.legal⟩, uses_app.2 ⟨.inr rfl, ?_⟩⟩, rfl⟩
    simpa using ⟨ha.uses, hb.uses⟩

theorem formula_eq (eq : a.sort = b.sort) (ha : a.Regular n) (hb : b.Regular n) : (app (.eq a.sort) [a, b]).Formula n := by
  refine ⟨⟨legal_eq.2 ⟨⟨rfl, eq.symm⟩, ha.legal, hb.legal⟩, uses_app.2 ⟨.inr rfl, ?_⟩⟩, rfl⟩
  simpa using ⟨ha.uses, hb.uses⟩

theorem formula_tt : tt.Formula n :=
  ⟨regular_app.2 ⟨⟨Symbol.Logical.tt.proper, before_of_not_free rfl, .inr rfl⟩, rfl, by simp⟩, rfl⟩

theorem regular_const {x : String} {s : Srt} : (const x s).Regular n := by
  refine regular_app.2 ⟨⟨Symbol.proper_of_isFree rfl, fun hint k s _ eq => ?_, .inr rfl⟩, rfl, by simp⟩
  cases congrArg Symbol.role eq

theorem formula_ff : ff.Formula n :=
  ⟨regular_app.2 ⟨⟨Symbol.Logical.ff.proper, before_of_not_free rfl, .inr rfl⟩, rfl, by simp⟩, rfl⟩

theorem Regular.openWith {cs : List Symbol} (reg : (bind k vars body).Regular n) (le : n ≤ m)
    (sorts : cs.map Symbol.range = vars.map (·.2)) (drawn : ∀ c ∈ cs, c.Drawn n m) :
    (openWith (cs.map (app · [])) body).Regular m := by
  refine ⟨reg.legal.openWith le sorts drawn, (uses_bind.1 reg.uses).openWith fun c mem => ?_⟩
  obtain ⟨hint, i, s, -, -, rfl⟩ := drawn c mem
  exact .inr rfl

theorem Formula.instantiate (form : (bind k vars body).Formula n) (terms : ∀ t ∈ ts, t.Regular n)
    (sorts : vars.map (·.2) = ts.map Term.sort) :
    applyBody vars body ts = .ok (instantiate ts.reverse body) ∧ (instantiate ts.reverse body).Formula n := by
  have inner : body.Sorted true ([] ++ binding k vars) := by simpa using form.legal.sorted.1
  have sorts' : ts.reverse.map Term.sort = (binding k vars).map (·.2) := by
    simp [binding, map_reverse, ← sorts, Function.comp_def]
  have bool : body.sort = .bool := by
    rcases form.legal.sorted.2 with rfl | bool | ⟨h, -⟩
    · cases form.sort
    · exact bool
    · cases h
  refine ⟨if_pos sorts, ⟨⟨?_, ?_⟩, ?_⟩, ?_⟩
  · exact inner.instantiateAt (Γ := []) sorts' fun t mem => (terms t (mem_reverse.1 mem)).legal.sorted
  · exact .of_mentions ts (fun _ _ => mentions_instantiateAt_reverse) form.legal.before fun u mem => (terms u mem).legal.before
  · exact (uses_bind.1 form.uses).instantiateAt fun u mem => (terms u (mem_reverse.1 mem)).uses
  · exact (sort_instantiateAt (Γ := []) sorts' inner).trans bool

end Term

theorem Term.Formula.eval_mem (form : t.Formula n) (I : Interpretation U) : I.eval [] t ∈ I.carrier .bool :=
  form.sort ▸ I.eval_mem form.legal.sorted .nil

theorem Interpretation.not_holds_ff (I : Interpretation U) : ¬ I.Holds .ff := by
  rw [Frame.Holds, ff, eval_app, map_nil, I.fn_ff]
  exact I.no_ne_yes

namespace Tactic

/-! ## Runs of tactics -/

theorem session_bind {x : Session β} {f : β → TacticM α} :
    Gives ((liftM x : TacticM β) >>= f) (w, a) r s ↔ ∃ y v, Gives x w y v ∧ Gives (f y) (v, a) r s := by
  have lift {y : β} {s : World × Attempt} : Gives (liftM x) (w, a) y s ↔ Gives x w y s.1 ∧ s.2 = a := by
    show ((x.run w).1, ((x.run w).2, a)) = (.ok y, s) ↔ x.run w = (.ok y, s.1) ∧ s.2 = a
    rcases x.run w with ⟨e, v⟩
    constructor
    · intro eq
      cases eq
      exact ⟨rfl, rfl⟩
    · rintro ⟨eq, rfl⟩
      cases eq
      rfl
  rw [bind_iff]
  constructor
  · rintro ⟨y, ⟨v, _⟩, lifted, rest⟩
    obtain ⟨first, rfl⟩ := lift.1 lifted
    exact ⟨y, v, first, rest⟩
  · rintro ⟨y, v, first, rest⟩
    exact ⟨y, (v, a), lift.2 ⟨first, rfl⟩, rest⟩

theorem checked_bind {x : Checked β} {f : β → TacticM α} :
    Gives ((liftM (liftM x : Session β) : TacticM β) >>= f) (w, a) r s ↔ ∃ y, x = .ok y ∧ Gives (f y) (w, a) r s := by
  rw [session_bind]
  constructor
  · rintro ⟨y, _, first, rest⟩
    obtain ⟨ok, rfl⟩ := ofChecked_session.1 first
    exact ⟨y, ok, rest⟩
  · rintro ⟨y, ok, rest⟩
    exact ⟨y, w, ofChecked_session.2 ⟨ok, rfl⟩, rest⟩

theorem fresh_bind {x : Fresh β} {f : β → TacticM α} : Gives ((liftM (liftM x : Session β) : TacticM β) >>= f) (w, a) r s ↔
      ∃ y n, Gives x w.next y n ∧ Gives (f y) ({ w with next := n }, a) r s := by
  rw [session_bind]
  constructor
  · rintro ⟨y, _, first, rest⟩
    obtain ⟨n, ok, rfl⟩ := ofFresh_iff.1 first
    exact ⟨y, n, ok, rest⟩
  · rintro ⟨y, n, ok, rest⟩
    exact ⟨y, _, ofFresh_iff.2 ⟨n, ok, rfl⟩, rest⟩

theorem theWorld_bind {f : World → TacticM α} :
    Gives ((liftM (theWorld : Session World) : TacticM World) >>= f) (w, a) r s ↔ Gives (f w) (w, a) r s := Iff.rfl

theorem theAttempt_bind {f : Attempt → TacticM α} : Gives (theAttempt >>= f) (w, a) r s ↔ Gives (f a) (w, a) r s := Iff.rfl

theorem changeAttempt_iff {f : Attempt → Attempt} {r : Unit} : Gives (changeAttempt f) (w, a) r s ↔ s = (w, f a) := by
  show (.ok (), (w, f a)) = (Except.ok r, s) ↔ _
  simp [eq_comm]

theorem changeAttempt_bind {g : Attempt → Attempt} {f : Unit → TacticM α} :
    Gives (changeAttempt g >>= f) (w, a) r s ↔ Gives (f ()) (w, g a) r s := Iff.rfl

theorem addLemmas_bind {ps : List Proof} {f : Unit → TacticM α} :
    Gives (addLemmas ps >>= f) (w, a) r s ↔ Gives (f ()) (w, { a with lemmas := a.lemmas ++ ps }) r s := Iff.rfl

variable {f : Goal → TacticM α}

theorem topGoal_bind : Gives (topGoal >>= f) (w, a) r s ↔ Gives (f a.top) (w, a) r s := Iff.rfl

theorem currentGoal_bind : Gives (currentGoal >>= f) (w, a) r s ↔ ∃ g rest, a.goals = g :: rest ∧ Gives (f g) (w, a) r s := by
  cases goals : a.goals with
  | nil =>
    have empty : Gives (currentGoal >>= f) (w, a) r s ↔ Gives ((throw .outOfRange) >>= f) (w, a) r s := by
      unfold currentGoal
      rw [bind_assoc, theAttempt_bind, goals]
    rw [empty]
    simp
  | cons g =>
    have there : Gives (currentGoal >>= f) (w, a) r s ↔ Gives (f g) (w, a) r s := by
      unfold currentGoal
      rw [bind_assoc, theAttempt_bind, goals]
      rfl
    rw [there]
    simp

theorem take_bind :
    Gives (take >>= f) (w, a) r s ↔ ∃ g rest, a.goals = g :: rest ∧ Gives (f g) (w, { a with goals := rest }) r s := by
  unfold take
  rw [bind_assoc, currentGoal_bind]
  refine exists₂_congr fun g rest => and_congr_right fun goals => ?_
  rw [bind_assoc, changeAttempt_bind, goals]
  rfl

theorem take_of (ok : Gives (take >>= f) (w, a) r s)
    (goals : a.goals = g :: rest) : Gives (f g) (w, { a with goals := rest }) r s := by
  obtain ⟨g', rest', goals', ok⟩ := take_bind.1 ok
  obtain ⟨rfl, rfl⟩ := List.cons.inj (goals.symm.trans goals')
  exact ok

theorem put_iff {r : Unit} : Gives (put g) (w, a) r s ↔ s = (w, { a with goals := g :: a.goals }) := changeAttempt_iff

theorem put_bind {f : Unit → TacticM α} :
    Gives (put g >>= f) (w, a) r s ↔ Gives (f ()) (w, { a with goals := g :: a.goals }) r s := Iff.rfl

theorem replaceTop_of {r : Unit} (ok : Gives (replaceTop g) (w, a) r s)
    (goals : a.goals = g' :: rest) : s = (w, { a with goals := g :: rest }) :=
  put_iff.1 (take_of (f := fun _ => put g) ok goals)

theorem withHyps_bind : Gives (withHyps g hyps >>= f) (w, a) r s ↔
      Gives (f { g with context := ⟨a.next, hyps⟩ }) (w, { a with next := a.next + 1 }) r s := Iff.rfl

/-! ## What a step does -/

def Goal.Holds (I : Interpretation U) (g : Goal) : Prop := (∀ h ∈ g.hyps, I.Holds h) → I.Holds g.goal

structure Goal.Regular (n : Nat) (g : Goal) : Prop where
  hyps : ∀ h ∈ g.hyps, h.Formula n
  goal : g.goal.Formula n

def Attempt.Regular (n : Nat) (a : Attempt) : Prop := ∀ g ∈ a.goals, g.Regular n

theorem Goal.Regular.mono (reg : g.Regular n) (le : n ≤ m) : g.Regular m :=
  ⟨fun h mem => (reg.hyps h mem).mono le, reg.goal.mono le⟩

theorem Attempt.done_regular (n : Nat) : Attempt.done.Regular n := by
  refine ⟨by simp [Attempt.done, Goal.hyps], formula_variadic (.inr rfl) fun t mem => ?_⟩
  obtain rfl | rfl : t = .tt ∨ t = .const "KNUCKLEDRAGGER_EMPTYGOAL" .bool := by simpa using mem
  · exact formula_tt
  · exact ⟨regular_const, rfl⟩

theorem Attempt.Regular.top (reg : a.Regular n) : a.top.Regular n := by
  cases goals : a.goals with
  | nil =>
    rw [Attempt.top, goals]
    exact Attempt.done_regular n
  | cons g =>
    rw [Attempt.top, goals]
    exact reg g (by simp [goals])

/-- Every value of a declared datatype is recognized as made by one of its constructors. -/
def Covers (w : World) (I : Interpretation U) : Prop :=
  ∀ d ∈ w.datatypes, ∀ u ∈ I.carrier d.sort, ∃ c ∈ d.constructors, I.fn c.recognizer [u] = I.yes

/-- The goals of `a` follow from those of `b`, the lemmas, and the formulas `os` that the step uses but does not note. -/
structure Refines (os : List Term) (w v : World) (a b : Attempt) : Prop where
  world : ∃ m, w.next ≤ m ∧ v = { w with next := m }
  thm : b.thm = a.thm
  lemmas : ∀ p ∈ a.lemmas, p ∈ b.lemmas
  regular : b.Regular v.next
  holds : ∀ {U : Type u} (I : Interpretation U), Covers w I → (∀ p ∈ b.lemmas, I.Holds p.thm) → (∀ o ∈ os, I.Holds o) →
    (∀ g ∈ b.goals, g.Holds I) → ∀ g ∈ a.goals, g.Holds I

theorem Refines.of_top (gs : List Goal) (ls : List Proof) (goals : a.goals = g :: rest)
    (reg : a.Regular w.next) (le : w.next ≤ m) (thm : b.thm = a.thm) (lemmas : b.lemmas = a.lemmas ++ ls)
    (open' : b.goals = gs ++ rest) (new : ∀ g' ∈ gs, g'.Regular m)
    (sound : ∀ {U : Type u} (I : Interpretation U), Covers w I → (∀ p ∈ ls, I.Holds p.thm) → (∀ o ∈ os, I.Holds o) →
      (∀ g' ∈ gs, g'.Holds I) → g.Holds I) : Refines.{u} os w { w with next := m } a b where
  world := ⟨m, le, rfl⟩
  thm := thm
  lemmas p mem := lemmas ▸ mem_append_left ls mem
  regular g' mem := by
    rw [open', mem_append] at mem
    exact mem.elim (new g') fun mem' => (reg g' (by simp [goals, mem'])).mono le
  holds I covers hold omitted all g' mem := by
    rw [goals] at mem
    obtain rfl | mem' := mem_cons.1 mem
    · exact sound I covers (fun p there => hold p (lemmas ▸ mem_append_right a.lemmas there)) omitted
        fun g' there => all g' (open' ▸ mem_append_left rest there)
    · exact all g' (open' ▸ mem_append_right gs mem')

theorem Refines.replace (ls : List Proof) (goals : a.goals = g :: rest) (reg : a.Regular w.next)
    (le : w.next ≤ m) (thm : b.thm = a.thm) (lemmas : b.lemmas = a.lemmas ++ ls)
    (open' : b.goals = g' :: rest) (new : g'.Regular m)
    (sound : ∀ {U : Type u} (I : Interpretation U), (∀ p ∈ ls, I.Holds p.thm) → (∀ o ∈ os, I.Holds o) →
      (∀ h ∈ g.hyps, I.Holds h) → g'.Holds I → I.Holds g.goal) : Refines.{u} os w { w with next := m } a b :=
  .of_top [g'] ls goals reg le thm lemmas open' (by simpa using new)
    fun I _ hold omitted holds given => sound I hold omitted given (holds g' (by simp))

theorem Attempt.top_eq (goals : a.goals = g :: rest) : a.top = g := by
  rw [Attempt.top, goals]
  rfl

/-! ## Binders and connectives -/

theorem herb_eq (form : thm.Formula n) (ok : Gives (Kernel.herb thm) n q m) :
    n ≤ m ∧ ∃ body, q.2.thm = .app .implies [body, thm] ∧ body.Formula m := by
  obtain ⟨vars, body, vs, rfl, drawn, bool, shape⟩ := herb_gives ok
  obtain ⟨cs, rfl, sorts, -, drawn, le⟩ := freshConsts_gives (fun v : String × Srt => Text.stem v.1) (·.2) drawn
  exact ⟨le, _, shape, form.openWith le sorts drawn, bool⟩

theorem einstan_eq (form : thm.Formula n) (ok : Gives (Kernel.einstan thm) n q m) :
    n ≤ m ∧ ∃ body, q.2.thm = .app .implies [thm, body] ∧ body.Formula m := by
  obtain ⟨vars, body, vs, rfl, drawn, bool, shape⟩ := einstan_gives ok
  obtain ⟨cs, rfl, sorts, -, drawn, le⟩ := freshConsts_gives (fun v : String × Srt => Text.stem v.1) (·.2) drawn
  exact ⟨le, _, shape, form.openWith le sorts drawn, bool⟩

theorem Goal.Holds.assume {I : Interpretation U} (holds : g'.Holds I) (hyps : g'.hyps = g.hyps ++ [h])
    (goal : g'.goal = c) (given : ∀ h ∈ g.hyps, I.Holds h) (true' : I.Holds h) : I.Holds c := by
  rw [← goal]
  refine holds fun h' mem => ?_
  rw [hyps, mem_append, mem_singleton] at mem
  exact mem.elim (given h') fun eq => eq ▸ true'

theorem Goal.Regular.assume {k : Nat} (reg : g.Regular n) (form : h.Formula n) (goal : c.Formula n) :
    Goal.Regular n { g with context := ⟨k, g.hyps ++ [h]⟩, goal := c } := by
  refine ⟨fun h' mem => ?_, goal⟩
  have mem : h' ∈ g.hyps ++ [h] := mem
  rw [mem_append, mem_singleton] at mem
  exact mem.elim (reg.hyps h') fun eq => eq ▸ form

theorem item_mem (ok : item xs i = .ok t) : t ∈ xs := by
  unfold item at ok
  dsimp only at ok
  split at ok
  · rename_i hit
    cases ok
    exact mem_of_getElem? (Option.ite_none_left_eq_some.1 hit).2
  · cases ok

theorem mem_splice (mem : t ∈ splice xs i ts) : t ∈ xs ∨ t ∈ ts := by
  unfold splice before fromPlace at mem
  simp only [mem_append] at mem
  obtain (mem | mem) | mem := mem
  · exact .inl (mem_of_mem_take mem)
  · exact .inr mem
  · exact .inl (mem_of_mem_drop mem)

theorem Goal.Holds.splice {I : Interpretation U} (holds : g'.Holds I)
    (hyps : g'.hyps = splice g.hyps i ts) (goal : g'.goal = c) (given : ∀ h ∈ g.hyps, I.Holds h)
    (new : ∀ t ∈ ts, I.Holds t) : I.Holds c := by
  rw [← goal]
  refine holds fun h mem => ?_
  rw [hyps] at mem
  exact (mem_splice mem).elim (given h) (new h)

theorem Goal.Regular.splice {k : Nat} (reg : g.Regular n) (formulas : ∀ t ∈ ts, t.Formula n) :
    Goal.Regular n { g with sig := sig, context := ⟨k, Tactic.splice g.hyps i ts⟩ } :=
  ⟨fun h mem => (mem_splice mem).elim (reg.hyps h) (formulas h), reg.goal⟩

/-- The terms have the sorts of the variables of the binder. -/
def Instances (n : Nat) (ts : List Term) : Term → Prop
  | .bind _ vars _ => vars.map (·.2) = ts.map Term.sort ∧ ∀ t ∈ ts, t.Regular n
  | _ => False

theorem Instances.formula (instances : Instances n ts (.bind k vars body)) (form : (bind k vars body).Formula n)
    (applied : applyBody vars body ts = .ok t) : t.Formula n := by
  obtain ⟨applied', form'⟩ := form.instantiate instances.2 instances.1
  exact Except.ok.inj (applied'.symm.trans applied) ▸ form'

theorem forM_gives {R : β → Goal → Prop} {x : β → TacticM Unit} {bs : List β}
    (each : ∀ b ∈ bs, ∀ {a : Attempt} {r : Unit} {s : World × Attempt}, Gives (x b) (w, a) r s →
      ∃ g k, s = (w, { a with goals := g :: a.goals, next := k }) ∧ R b g) :
    ∀ {a : Attempt} {r : Unit} {s : World × Attempt}, Gives (bs.forM x) (w, a) r s →
      ∃ gs k, s = (w, { a with goals := gs ++ a.goals, next := k }) ∧ (∀ b ∈ bs, ∃ g ∈ gs, R b g) ∧
        ∀ g ∈ gs, ∃ b ∈ bs, R b g := by
  induction bs with
  | nil =>
    intro a r s ok
    cases ok
    exact ⟨[], a.next, rfl, by simp, by simp⟩
  | cons b _ ih =>
    intro a r s ok
    obtain ⟨_, t, first, rest⟩ := bind_iff.1 ok
    obtain ⟨g, k, rfl, related⟩ := each b (by simp) first
    obtain ⟨gs, k', rfl, made, only⟩ := ih (fun b mem => each b (by simp [mem])) rest
    refine ⟨gs ++ [g], k', by simp, ?_, ?_⟩
    · intro b' mem
      obtain rfl | mem := mem_cons.1 mem
      · exact ⟨g, by simp, related⟩
      · obtain ⟨g', mem', related⟩ := made b' mem
        exact ⟨g', by simp [mem'], related⟩
    · intro g' mem
      obtain mem | mem := mem_append.1 mem
      · obtain ⟨b', mem', related⟩ := only g' mem
        exact ⟨b', by simp [mem'], related⟩
      · obtain rfl := mem_singleton.1 mem
        exact ⟨b, by simp, related⟩

theorem mem_earlierPairs {i j : Nat} (lt : i < j) (first : ts[i]? = some t) (second : ts[j]? = some u) :
    (t, u) ∈ earlierPairs ts := by
  refine mem_flatMap.2 ⟨(u, j), ?_, mem_map.2 ⟨t, ?_, rfl⟩⟩
  · exact mem_zipIdx_iff_getElem?.2 second
  · refine mem_iff_getElem?.2 ⟨i, ?_⟩
    rw [getElem?_take_of_lt lt]
    exact first

theorem mem_of_mem_earlierPairs {q : Term × Term} (mem : q ∈ earlierPairs ts) : q.1 ∈ ts ∧ q.2 ∈ ts := by
  obtain ⟨⟨t, i⟩, mem', there⟩ := mem_flatMap.1 mem
  obtain ⟨u, before, rfl⟩ := mem_map.1 there
  exact ⟨mem_of_mem_take before, fst_mem_of_mem_zipIdx mem'⟩

theorem equate_formula {x : Term} (same : x.sort = y.sort) (plain : w.method? "eq" x.sort = none)
    (left : x.Regular n) (right : y.Regular n) (ok : Gives (equate x y) w e v) :
    w = v ∧ e.Formula n ∧ ∀ {U : Type u} (I : Interpretation U), I.Holds e ↔ I.eval [] x = I.eval [] y := by
  obtain ⟨rfl, built⟩ := equate_gives ok
  rcases equate_of_sort same plain with shape | shape
  · cases (shape.symm.trans built)
    exact ⟨rfl, formula_eq same left right, fun I => eval_eq⟩
  cases (shape.symm.trans built)
  refine ⟨rfl, ?_, fun I => eval_eq.trans eq_comm⟩
  rw [same]
  exact formula_eq same.symm right left

variable (reg : a.Regular w.next)
include reg

theorem current_of (ok : Gives (currentGoal >>= f) (w, a) r s) :
    ∃ g rest, a.goals = g :: rest ∧ g.Regular w.next ∧ Gives (f g) (w, a) r s := by
  obtain ⟨g, rest, goals, ok⟩ := currentGoal_bind.1 ok
  exact ⟨g, rest, goals, reg g (by simp [goals]), ok⟩

variable {r : Unit}

theorem fixes_refines (ok : Gives fixes (w, a) vs s) : Refines.{u} os w s.1 a s.2 := by
  obtain ⟨g, rest, goals, top, ok⟩ := current_of reg ok
  split at ok
  swap
  · cases ok
  replace ok := take_of ok goals
  obtain ⟨⟨vs', pf⟩, m, drawn, ok⟩ := fresh_bind.1 ok
  obtain ⟨le, body, thm, form⟩ := herb_eq top.goal drawn
  simp only [thm] at ok
  obtain ⟨rfl, rfl⟩ := ok
  refine .replace [pf] goals reg le rfl rfl rfl ⟨(top.mono le).hyps, form⟩ fun I hold _ given new => ?_
  have lemma' : I.Holds (.app .implies [body, g.goal]) := thm ▸ hold pf (by simp)
  exact eval_implies.1 lemma' (new given)

theorem fix_refines (ok : Gives fix (w, a) vs s) : Refines.{u} os w s.1 a s.2 := by
  obtain ⟨vs', t, first, rest⟩ := bind_iff.1 ok
  split at rest
  · rw [bind_iff] at rest
    obtain ⟨_, _, err, -⟩ := rest
    cases err
  · cases rest
    exact fixes_refines reg first

theorem disjunction_refines (goals : a.goals = g :: rest)
    (ok : Gives (intros.disjunction g) (w, { a with goals := rest }) r s) : Refines.{u} os w s.1 a s.2 := by
  have top := reg g (by simp [goals])
  unfold intros.disjunction at ok
  split at ok
  · rename_i f n h cs shape
    split at ok
    swap
    · cases ok
    rename_i ops
    obtain ⟨or', not'⟩ : f.isOp "or" = true ∧ n.isOp "not" = true := by simpa using ops
    have goal := top.goal
    rw [shape] at goal
    obtain rfl := goal.proper.eq_or or'
    have negation : (app n [h]).Formula w.next := goal.part (by decide) (by simp)
    obtain rfl := negation.proper.eq_not not'
    have parts : ∀ c ∈ cs, c.Formula w.next := fun c mem => goal.part (by decide) (by simp [mem])
    obtain ⟨c, form, read, ok⟩ : ∃ c, c.Formula w.next ∧
      (∀ {U : Type u} (I : Interpretation U), I.Holds c ↔ ∃ d ∈ cs, I.Holds d) ∧
        Gives (withHyps g (g.hyps ++ [h]) >>= fun g => put { g with goal := c }) (w, { a with goals := rest }) r s := by
      split at ok
      · rename_i c
        exact ⟨c, parts c (by simp), fun I => by simp, ok⟩
      · obtain ⟨c, built, ok⟩ := checked_bind.1 ok
        obtain ⟨-, rfl⟩ := or_eq_ok.1 built
        exact ⟨_, formula_variadic (.inr rfl) parts, fun I => eval_or, ok⟩
    obtain rfl := put_iff.1 ok
    refine .replace [] goals reg le_rfl rfl (by simp) rfl (top.assume (negation.part (by decide) (by simp)) form)
      fun I _ _ given new => ?_
    rw [shape, Frame.Holds, eval_or]
    by_cases true' : I.Holds h
    · obtain ⟨d, mem, holds⟩ := (read I).1 (new.assume rfl rfl given true')
      exact ⟨d, by simp [mem], holds⟩
    · exact ⟨_, by simp, eval_not.2 true'⟩
  · split at ok <;> cases ok
  · cases ok

theorem intros_refines (ok : Gives intros (w, a) vs s) : Refines.{u} os w s.1 a s.2 := by
  replace ok := topGoal_bind.1 ok
  split at ok
  · exact fixes_refines reg ok
  obtain ⟨g, rest, goals, ok⟩ := take_bind.1 ok
  have top := reg g (by simp [goals])
  have other {r : List Term} (ok : Gives (intros.disjunction g >>= fun _ => pure []) (w, { a with goals := rest }) r s) :
      Refines os w s.1 a s.2 := by
    obtain ⟨r, _, step, last⟩ := bind_iff.1 ok
    cases last
    exact disjunction_refines reg goals step
  have goal := top.goal
  split at ok
  · rename_i f h c shape
    split at ok
    · rename_i op
      cases ok
      rw [shape] at goal
      obtain rfl := goal.proper.eq_implies op
      obtain ⟨form, form'⟩ := formula_implies.1 goal
      refine .replace [] goals reg le_rfl rfl (by simp) rfl (top.assume form form') fun I _ _ given new => ?_
      rw [shape, Frame.Holds, eval_implies]
      exact new.assume rfl rfl given
    · exact other ok
  · rename_i f h shape
    split at ok
    · rename_i op
      cases ok
      rw [shape] at goal
      obtain rfl := goal.proper.eq_not op
      refine .replace [] goals reg le_rfl rfl (by simp) rfl
        (top.assume (goal.part (by decide) (by simp)) formula_ff) fun I _ _ given new => ?_
      rw [shape, Frame.Holds, eval_not]
      exact fun true' => I.not_holds_ff (new.assume rfl rfl given true')
    · exact other ok
  · exact other ok

theorem einstan_refines {n : Int} (ok : Gives (einstan n) (w, a) vs s) : Refines.{u} os w s.1 a s.2 := by
  obtain ⟨g, rest, goals, top, ok⟩ := current_of reg ok
  obtain ⟨h, hit, ok⟩ := checked_bind.1 ok
  have form := top.hyps h (item_mem hit)
  split at ok
  swap
  · cases ok
  replace ok := take_of ok goals
  obtain ⟨⟨vs', pf⟩, m, drawn, ok⟩ := fresh_bind.1 ok
  obtain ⟨le, body, thm, form'⟩ := einstan_eq form drawn
  simp only [thm] at ok
  cases ok
  refine .replace [pf] goals reg le rfl rfl rfl ((top.mono le).splice (by simpa using form')) fun I hold _ given new => ?_
  have lemma' := eval_implies.1 (thm ▸ hold pf (by simp))
  exact new.splice rfl rfl given (forall_mem_singleton.2 (lemma' (given _ (item_mem hit))))

theorem instan_refines {n : Int}
    (instances : ∀ h, item a.top.hyps n = .ok h → Instances w.next ts h) (ok : Gives (instan n ts) (w, a) r s) :
    Refines.{u} os w s.1 a s.2 := by
  obtain ⟨g, rest, goals, top, ok⟩ := current_of reg ok
  obtain ⟨h, hit, ok⟩ := checked_bind.1 ok
  have form := top.hyps h (item_mem hit)
  split at ok
  · cases ok
  obtain ⟨pf, made, ok⟩ := checked_bind.1 ok
  have fits := instances h (by rwa [Attempt.top_eq goals])
  obtain ⟨vars, _, body, shape, -, applied, -, thm⟩ := instan2_eq_ok made
  rw [shape] at fits
  have form' := fits.formula (shape ▸ form) applied
  simp only [thm] at ok
  obtain rfl := replaceTop_of ok goals
  refine .replace [pf] goals reg le_rfl rfl rfl rfl (top.assume form' top.goal) fun I hold _ given new => ?_
  have lemma' := eval_implies.1 (thm ▸ hold pf (by simp))
  exact new.assume rfl rfl given (lemma' (given _ (item_mem hit)))

theorem provide_refines (instances : Instances w.next ts a.top.goal)
    (ok : Gives (provide ts) (w, a) r s) : Refines.{u} os w s.1 a s.2 := by
  obtain ⟨g, rest, goals, top, ok⟩ := current_of reg ok
  split at ok
  · rw [bind_iff] at ok
    obtain ⟨_, _, err, -⟩ := ok
    cases err
  obtain ⟨pf, made, ok⟩ := checked_bind.1 ok
  obtain ⟨vars, _, body, shape, -, applied, -, thm⟩ := forget2_eq_ok made
  rw [Attempt.top_eq goals, shape] at instances
  have form := instances.formula (shape ▸ top.goal) applied
  simp only [thm] at ok
  obtain rfl := replaceTop_of ok goals
  refine .replace [pf] goals reg le_rfl rfl rfl rfl ⟨top.hyps, form⟩ fun I hold _ given new => ?_
  exact eval_implies.1 (thm ▸ hold pf (by simp)) (new given)

theorem conjuncts_refines (goals : a.goals = g :: rest) (shape : g.goal = .app .and args)
    (ok : Gives (args.reverse.forM fun c => put { g with goal := c }) (w, { a with goals := rest }) r s) :
    Refines.{u} os w s.1 a s.2 := by
  have top := reg g (by simp [goals])
  obtain ⟨gs, k, rfl, made, only⟩ := forM_gives (fun c _ a r s ok => ⟨_, a.next, put_iff.1 ok, rfl⟩) ok
  refine .of_top gs [] goals reg le_rfl rfl (by simp) rfl ?_ fun I _ _ _ holds given => ?_
  · intro g' mem
    obtain ⟨c, mem', rfl⟩ := only g' mem
    exact ⟨top.hyps, (shape ▸ top.goal).part (by decide) (mem_reverse.1 mem')⟩
  rw [shape, Frame.Holds, eval_and]
  intro c mem
  obtain ⟨_, mem', rfl⟩ := made c (mem_reverse.2 mem)
  exact holds _ mem' given

theorem split_equation {e : Srt} {x : Term} (goals : a.goals = g :: rest)
    (shape : g.goal = .app (.eq e) [x, y]) (built : x.implies y = .ok c) (built' : y.implies x = .ok d)
    (thm : b.thm = a.thm) (lemmas : b.lemmas = a.lemmas)
    (open' : b.goals = { g with goal := d } :: { g with goal := c } :: rest) : Refines.{u} os w w a b := by
  have top := reg g (by simp [goals])
  have goal := top.goal
  rw [shape] at goal
  obtain ⟨bool, bool', rfl⟩ := implies_eq_ok.1 built
  obtain ⟨-, -, rfl⟩ := implies_eq_ok.1 built'
  have left : x.Formula w.next := ⟨goal.arg (by simp), bool⟩
  have right : y.Formula w.next := ⟨goal.arg (by simp), bool'⟩
  refine .of_top [{ g with goal := .app .implies [y, x] }, { g with goal := .app .implies [x, y] }] [] goals reg le_rfl
    thm (by simp [lemmas]) open' ?_ fun I _ _ _ holds given => ?_
  · simpa using ⟨⟨top.hyps, formula_implies.2 ⟨right, left⟩⟩, ⟨top.hyps, formula_implies.2 ⟨left, right⟩⟩⟩
  rw [shape, Frame.Holds, eval_eq, I.eq_iff_of_bool (left.eval_mem I) (right.eval_mem I)]
  obtain ⟨back, forth⟩ : Goal.Holds I { g with goal := .app .implies [y, x] } ∧
    Goal.Holds I { g with goal := .app .implies [x, y] } := by
    simpa using holds
  exact ⟨eval_implies.1 (forth given), eval_implies.1 (back given)⟩

theorem split_distinct {ss : List Srt} (goals : a.goals = g :: rest)
    (shape : g.goal = .app (.distinct ss) args) (uniform : ∀ x ∈ args, ∀ y ∈ args, x.sort = y.sort)
    (ok : Gives ((earlierPairs args).forM fun q => (do
      put { ← withHyps g (g.hyps ++ [← (liftM (q.1.eq q.2) : Session Term)]) with goal := .ff } : TacticM Unit))
      (w, { a with goals := rest }) r s) :
    Refines.{u} os w s.1 a s.2 := by
  have top := reg g (by simp [goals])
  have goal := top.goal
  rw [shape] at goal
  have sorts : ∀ q ∈ earlierPairs args, q.1.sort = q.2.sort := fun q mem =>
    uniform _ (mem_of_mem_earlierPairs mem).1 _ (mem_of_mem_earlierPairs mem).2
  have each : ∀ q ∈ earlierPairs args, ∀ {a : Attempt} {r : Unit} {s : World × Attempt}, Gives (do
      put { ← withHyps g (g.hyps ++ [← (liftM (q.1.eq q.2))]) with goal := .ff } : TacticM Unit) (w, a) r s →
      ∃ g' k, s = (w, { a with goals := g' :: a.goals, next := k }) ∧
        ∃ j, g' = { g with context := ⟨j, g.hyps ++ [.app (.eq q.1.sort) [q.1, q.2]]⟩, goal := .ff } := by
    intro q mem a r s ok
    obtain ⟨c, built, ok⟩ := checked_bind.1 ok
    cases ((eq_of_sort (sorts q mem)).symm.trans built)
    exact ⟨_, a.next + 1, put_iff.1 ok, a.next, rfl⟩
  obtain ⟨gs, k, rfl, made, only⟩ := forM_gives each ok
  refine .of_top gs [] goals reg le_rfl rfl (by simp) rfl ?_ fun I _ _ _ holds given => ?_
  · intro g' mem
    obtain ⟨q, mem', j, rfl⟩ := only g' mem
    obtain ⟨first, second⟩ := mem_of_mem_earlierPairs mem'
    exact top.assume (formula_eq (sorts q mem') (goal.arg first) (goal.arg second)) formula_ff
  rw [shape, Frame.Holds, eval_app, I.fn_distinct, List.Nodup, pairwise_map, pairwise_iff_getElem]
  intro i j first second lt eq
  have pair := mem_earlierPairs lt (getElem?_eq_getElem first) (getElem?_eq_getElem second)
  obtain ⟨_, mem', k, rfl⟩ := made _ pair
  exact I.not_holds_ff ((holds _ mem').assume rfl rfl given (eval_eq.2 eq))

theorem split_refines (uniform : ∀ ss args, a.top.goal = .app (.distinct ss) args → ∀ x ∈ args, ∀ y ∈ args, x.sort = y.sort)
    (ok : Gives split (w, a) r s) : Refines.{u} os w s.1 a s.2 := by
  obtain ⟨g, rest, goals, top, ok⟩ := current_of reg ok
  have goal := top.goal
  split at ok
  swap
  · cases ok
  rename_i f args shape
  rw [shape] at goal
  split at ok
  · rename_i op
    obtain rfl := goal.proper.eq_and op
    exact conjuncts_refines reg goals shape (take_of ok goals)
  split at ok
  · rename_i op
    obtain ⟨e, rfl⟩ := goal.proper.eq_eq op
    replace ok := take_of ok goals
    split at ok
    · obtain ⟨c, built, ok⟩ := checked_bind.1 ok
      obtain ⟨d, built', ok⟩ := checked_bind.1 (put_bind.1 ok)
      obtain rfl := put_iff.1 ok
      exact split_equation reg goals shape built built' rfl rfl rfl
    · cases ok
  · split at ok
    · rename_i op
      obtain ⟨ss, rfl⟩ := goal.proper.eq_distinct op
      replace ok := take_of ok goals
      exact split_distinct reg goals shape (uniform ss args (by rw [Attempt.top_eq goals, shape])) ok
    · cases ok

/-! ## Cases -/

theorem splitAt_refines (ok : Gives (splitAt i) (w, a) r s) : Refines.{u} os w s.1 a s.2 := by
  obtain ⟨g, rest, goals, top, ok⟩ := current_of reg ok
  obtain ⟨h, hit, ok⟩ := checked_bind.1 ok
  have form := top.hyps h (item_mem hit)
  split at ok
  swap
  · cases ok
  rename_i f args
  split at ok
  · rename_i op
    obtain rfl := form.proper.eq_or op
    replace ok := take_of ok goals
    obtain ⟨gs, k, rfl, made, only⟩ := forM_gives
      (R := fun c g' => ∃ j, g' = { g with context := ⟨j, splice g.hyps (place g.hyps.length i) [c]⟩ })
      (fun c _ a r s ok => ⟨_, a.next + 1, put_iff.1 (withHyps_bind.1 ok), a.next, rfl⟩) ok
    refine .of_top gs [] goals reg le_rfl rfl (by simp) rfl ?_ fun I _ _ _ holds given => ?_
    · intro g' mem
      obtain ⟨c, mem', j, rfl⟩ := only g' mem
      exact top.splice (by simpa using form.part (by decide) mem')
    · obtain ⟨c, mem, true'⟩ := eval_or.1 (given _ (item_mem hit))
      obtain ⟨_, mem', j, rfl⟩ := made c mem
      exact (holds _ mem').splice rfl rfl given (forall_mem_singleton.2 true')
  · split at ok
    · rename_i op
      obtain rfl := form.proper.eq_and op
      replace ok := withHyps_bind.1 (take_of ok goals)
      obtain rfl := put_iff.1 ok
      refine .replace [] goals reg le_rfl rfl (by simp) rfl (top.splice fun c mem' => form.part (by decide) mem')
        fun I _ _ given new => ?_
      exact new.splice rfl rfl given (eval_and.1 (given _ (item_mem hit)))
    · cases ok

theorem choose_refines {name : String} {part : List Term → Checked Term}
    (among : ∀ args t, part args = .ok t → t ∈ args) (ok : Gives (choose name part) (w, a) r s) :
    Refines.{u} os w s.1 a s.2 := by
  obtain ⟨g, rest, goals, top, ok⟩ := current_of reg ok
  have goal := top.goal
  split at ok
  swap
  · cases ok
  rename_i f args shape
  rw [shape] at goal
  split at ok
  swap
  · cases ok
  rename_i op
  obtain rfl := goal.proper.eq_or op
  obtain ⟨c, chosen, ok⟩ := checked_bind.1 ok
  obtain rfl := replaceTop_of ok goals
  have mem := among args c chosen
  refine .replace [] goals reg le_rfl rfl (by simp) rfl ⟨top.hyps, goal.part (by decide) mem⟩ fun I _ _ given new => ?_
  rw [shape, Frame.Holds, eval_or]
  exact ⟨c, mem, new given⟩

theorem left_refines {n : Int} (ok : Gives (left n) (w, a) r s) : Refines.{u} os w s.1 a s.2 := by
  refine choose_refines reg (fun args t chosen => ?_) ok
  split at chosen
  · rename_i hit
    cases chosen
    exact mem_of_getElem? (Option.ite_none_left_eq_some.1 hit).2
  · cases chosen

theorem right_refines (ok : Gives right (w, a) r s) : Refines.{u} os w s.1 a s.2 := by
  refine choose_refines reg (fun args t chosen => ?_) ok
  split at chosen
  · rename_i hit
    cases chosen
    exact mem_of_getLast? hit
  · cases chosen

theorem cases_formula (goals : a.goals = g :: rest)
    (form : t.Formula w.next) (plain : w.method? "eq" .bool = none) (ok : Gives (do
      put (← withHyps g (g.hyps ++ [← (equate t .tt : Session Term)]))
      put (← withHyps g (g.hyps ++ [← (equate t .ff : Session Term)])) : TacticM Unit) (w, { a with goals := rest }) r s) :
    Refines.{u} os w s.1 a s.2 := by
  have top := reg g (by simp [goals])
  have plain' : w.method? "eq" t.sort = none := by rwa [form.sort]
  obtain ⟨e, _, built, ok⟩ := session_bind.1 ok
  obtain ⟨rfl, positive, yes⟩ := equate_formula form.sort plain' form.toRegular formula_tt.toRegular built
  obtain ⟨e', _, built', ok⟩ := session_bind.1 (put_bind.1 (withHyps_bind.1 ok))
  obtain ⟨rfl, negative, no⟩ := equate_formula form.sort plain' form.toRegular formula_ff.toRegular built'
  obtain rfl := put_iff.1 ok
  refine .of_top [_, _] [] goals reg le_rfl rfl (by simp) rfl ?_ fun I _ _ _ holds given => ?_
  · simpa using ⟨top.assume negative top.goal, top.assume positive top.goal⟩
  by_cases true' : I.Holds t
  · refine (holds { g with context := ⟨a.next, g.hyps ++ [e]⟩ } (by simp)).assume rfl rfl given ((yes I).2 ?_)
    rw [true', tt, eval_app, map_nil, I.fn_tt]
  · refine (holds { g with context := ⟨a.next + 1, g.hyps ++ [e']⟩ } (by simp)).assume rfl rfl given ((no I).2 ?_)
    rw [ff, eval_app, map_nil, I.fn_ff]
    exact (I.carrier_bool ▸ form.eval_mem I).resolve_left true'

theorem cases_datatype {d : Datatype} (goals : a.goals = g :: rest)
    (arg : t.Regular w.next) (plain : w.method? "eq" .bool = none) (declares : w.Declares)
    (hit : w.datatype? t.sort = some d) (ok : Gives (d.constructors.reverse.forM fun c => (do
        let is ← (liftM (c.recognizer.apply [t]) : Session Term)
        put (← withHyps g (g.hyps ++ [← (equate is .tt : Session Term)])) : TacticM Unit)) (w, { a with goals := rest }) r s) :
    Refines.{u} os w s.1 a s.2 := by
  have top := reg g (by simp [goals])
  obtain ⟨mem, sort⟩ := Datatype.datatype?_eq_some hit
  have each : ∀ c ∈ d.constructors.reverse, ∀ {a : Attempt} {r : Unit} {s : World × Attempt}, Gives (do
        let is ← (liftM (c.recognizer.apply [t]))
        put (← withHyps g (g.hyps ++ [← (equate is .tt)])) : TacticM Unit) (w, a) r s →
      ∃ g' k, s = (w, { a with goals := g' :: a.goals, next := k }) ∧ ∃ e j, g' = { g with context := ⟨j, g.hyps ++ [e]⟩ } ∧
        e.Formula w.next ∧ ∀ {U : Type u} (I : Interpretation U), I.Holds e ↔ I.fn c.recognizer [I.eval [] t] = I.yes := by
    intro c mem' a r s ok
    obtain ⟨dom, range, name, role⟩ := (Datatype.made (declares d mem) (mem_reverse.1 mem')).recognizer
    have sorts : [t].map Term.sort = c.recognizer.domain := by rw [dom, sort]; rfl
    have reg : (app c.recognizer [t]).Regular w.next :=
      regular_apply (Symbol.proper_of_role (by simp [role])) (before_of_not_free (by simp [Symbol.isFree, role]))
        sorts (by simpa using arg)
    obtain ⟨is, built, ok⟩ := checked_bind.1 ok
    cases ((apply_of_sorts sorts).symm.trans built)
    obtain ⟨e, _, built, ok⟩ := session_bind.1 ok
    obtain ⟨rfl, form, read⟩ := equate_formula (x := .app c.recognizer [t]) (y := .tt) range
      (by rwa [Term.sort, range]) reg formula_tt.toRegular built
    refine ⟨_, a.next + 1, put_iff.1 ok, e, a.next, rfl, form, fun I => ?_⟩
    rw [read, tt, eval_app, eval_app, map_nil, I.fn_tt]
    rfl
  obtain ⟨gs, k, rfl, made, only⟩ := forM_gives each ok
  refine .of_top gs [] goals reg le_rfl rfl (by simp) rfl ?_ fun I covers _ _ holds given => ?_
  · intro g' mem
    obtain ⟨c, mem', e, j, rfl, form, -⟩ := only g' mem
    exact top.assume form top.goal
  have value : I.eval [] t ∈ I.carrier d.sort := sort ▸ I.eval_mem arg.legal.sorted .nil
  obtain ⟨c, mem', recognized⟩ := covers d mem _ value
  obtain ⟨_, there, e, j, rfl, -, read⟩ := made c (mem_reverse.2 mem')
  exact (holds _ there).assume rfl rfl given ((read I).2 recognized)

theorem cases_refines (arg : t.Regular w.next) (plain : w.method? "eq" .bool = none)
    (declares : w.Declares) (ok : Gives (cases t) (w, a) r s) : Refines.{u} os w s.1 a s.2 := by
  replace ok := topGoal_bind.1 ok
  split at ok
  · rename_i bool
    obtain ⟨g, rest, goals, ok⟩ := take_bind.1 ok
    exact cases_formula reg goals ⟨arg, bool⟩ plain ok
  replace ok := theWorld_bind.1 ok
  split at ok
  · rename_i d hit
    obtain ⟨g, rest, goals, ok⟩ := take_bind.1 ok
    rw [Attempt.top_eq goals] at ok
    exact cases_datatype reg goals arg plain declares hit ok
  · cases ok

end Tactic
end SortedLogic

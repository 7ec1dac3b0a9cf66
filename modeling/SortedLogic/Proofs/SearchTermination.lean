import SortedLogic.Proofs.Countermodels
import Mathlib.Data.List.Chain

/-!
# The search ends

`Visit.Calls` lists the calls that the rules allow. Every call lowers the `rank` of the sequent, a number that is quadratic in
its weight: a call that keeps the weight settles a hypothesis or goes on to the next phase. The calls of a search form a tree of
falling chains (`Visit.Unfolds`).
-/

namespace SortedLogic.Intuitionistic
open Formula
open List

namespace Visit

/-- The phase, carried out at the sequent. -/
def attempt : Visit → Attempt
  | .right settled pending goal => Intuitionistic.right settled pending goal
  | .left settled pending goal => Intuitionistic.left settled pending goal
  | .search settled goal => Intuitionistic.search settled goal

def Plain : Visit → Prop
  | .right settled pending goal | .left settled pending goal =>
    (∀ f ∈ settled, f.Plain) ∧ (∀ f ∈ pending, f.Plain) ∧ goal.Plain
  | .search settled goal => (∀ f ∈ settled, f.Plain) ∧ goal.Plain

inductive Calls : Visit → Visit → Prop
  -- the goal is taken apart
  | conjunct {S P gs g} : g ∈ gs → Calls (.right S P (.and gs)) (.right S P g)
  | assume {S P a b} : Calls (.right S P (.imp a b)) (.right S (a :: P) b)
  | negation {S P a} : Calls (.right S P (.not a)) (.right S P (.imp a .ff))
  | turn {S P g} : g.Irreducible → Calls (.right S P g) (.left S P g)
  -- the next hypothesis is taken apart
  | parts {S P fs g} : Calls (.left S (.and fs :: P) g) (.left S (fs.reverse ++ P) g)
  | case {S P fs f g} : f ∈ fs → Calls (.left S (.or fs :: P) g) (.left S (f :: P) g)
  | vacuous {S P b g} : Calls (.left S (.imp .ff b :: P) g) (.left S P g)
  | release {S P b g} : Calls (.left S (.imp .tt b :: P) g) (.left S (b :: P) g)
  | curried {S P fs b g} : Calls (.left S (.imp (.and fs) b :: P) g) (.left S (curry fs b :: P) g)
  | distributed {S P fs b g} : Calls (.left S (.imp (.or fs) b :: P) g) (.left S ((fs.map fun f => .imp f b).reverse ++ P) g)
  | negated {S P a g} : Calls (.left S (.not a :: P) g) (.left S (.imp a .ff :: P) g)
  | settle {S P c g} : c.Settled → Calls (.left S (c :: P) g) (.left (S ++ [c]) P g)
  | choose {S g} : Calls (.left S [] g) (.search S g)
  -- a choice is made
  | disjunct {S gs g} : g ∈ gs → Calls (.search S (.or gs)) (.right S [] g)
  | conclusion {before after a b g} : Calls (.search (before ++ .imp a b :: after) g) (.left (before ++ after) [b] g)
  | premise {before after x y b g} :
      Calls (.search (before ++ .imp (.imp x y) b :: after) g) (.right (before ++ after) [x, .imp y b] y)
  | premiseNot {before after x b g} :
      Calls (.search (before ++ .imp (.not x) b :: after) g) (.right (before ++ after) [x, .imp .ff b] .ff)

/-! ## Ranks -/

def weight : Visit → Nat
  | .right settled pending goal | .left settled pending goal => weights settled + weights pending + goal.goalWeight
  | .search settled goal => weights settled + goal.goalWeight

/-- The calls that can follow at the same weight. -/
def slack : Visit → Nat
  | .right _ pending _ => pending.length + 2
  | .left _ pending _ => pending.length + 1
  | .search _ _ => 0

/-- How deep the calls from a sequent can be nested. -/
def rank (v : Visit) : Nat := v.weight * (v.weight + 3) + v.slack

theorem length_le_weights (fs : List Formula) : fs.length ≤ weights fs := by
  induction fs with
  | nil => simp
  | cons f =>
    have := weight_pos f
    simp only [length_cons, weights]
    omega

theorem slack_le (v : Visit) : v.slack ≤ v.weight + 1 := by
  cases v with
  | right S P g | left S P g =>
    have := length_le_weights P
    have := goalWeight_pos g
    simp only [slack, weight]
    omega
  | search => simp [slack]

theorem rank_lt_of_weight {v w : Visit} (h : w.weight < v.weight) : w.rank < v.rank := by
  have slack := w.slack_le
  have le : (w.weight + 1) * (w.weight + 4) ≤ v.weight * (v.weight + 3) := Nat.mul_le_mul h (by omega)
  have square : (w.weight + 1) * (w.weight + 4) = w.weight * (w.weight + 3) + (2 * w.weight + 4) := by
    simp only [Nat.add_mul, Nat.mul_add]
    omega
  unfold rank
  omega

theorem rank_lt_of_slack {v w : Visit} (e : w.weight = v.weight) (h : w.slack < v.slack) : w.rank < v.rank := by
  unfold rank
  rw [e]
  omega

theorem goalWeight_le_of_mem {g : Formula} {gs : List Formula} (m : g ∈ gs) : g.goalWeight ≤ goalWeights gs := by
  induction gs with
  | nil => cases m
  | cons _ _ ih =>
    rw [goalWeights]
    rcases mem_cons.1 m with rfl | m
    · omega
    · have := ih m
      omega

theorem weight_le_of_mem {f : Formula} {fs : List Formula} (m : f ∈ fs) : f.weight ≤ weights fs := by
  induction fs with
  | nil => cases m
  | cons _ _ ih =>
    rw [weights]
    rcases mem_cons.1 m with rfl | m
    · omega
    · have := ih m
      omega

theorem Calls.rank_lt {v w : Visit} (h : v.Calls w) : w.rank < v.rank := by
  cases h with
  | conjunct m =>
    have := goalWeight_le_of_mem m
    exact rank_lt_of_weight (by simp only [weight, goalWeight]; omega)
  | assume => exact rank_lt_of_weight (by simp only [weight, weights, goalWeight]; omega)
  | negation => exact rank_lt_of_weight (by simp only [weight, goalWeight]; omega)
  | turn => exact rank_lt_of_slack rfl (by simp [slack])
  | parts =>
    exact rank_lt_of_weight (by simp only [weight, weights_append, weights_reverse, weights, Formula.weight]; omega)
  | case m =>
    have := weight_le_of_mem m
    exact rank_lt_of_weight (by simp only [weight, weights, Formula.weight]; omega)
  | @vacuous _ _ b =>
    have := weight_pos (.imp .ff b)
    exact rank_lt_of_weight (by simp only [weight, weights]; omega)
  | @release _ _ b =>
    have := weight_lt_imp .tt b
    exact rank_lt_of_weight (by simp only [weight, weights]; omega)
  | @curried _ _ fs b =>
    have := weight_curry_lt fs b
    exact rank_lt_of_weight (by simp only [weight, weights]; omega)
  | @distributed _ _ fs b =>
    have := weights_cases_lt fs b
    exact rank_lt_of_weight (by simp only [weight, weights_append, weights_reverse, weights]; omega)
  | negated => exact rank_lt_of_weight (by simp only [weight, weights, Formula.weight]; omega)
  | settle => exact rank_lt_of_slack (by simp only [weight, weights_append, weights]; omega) (by simp [slack])
  | choose => exact rank_lt_of_slack (by simp [weight, weights]) (by simp [slack])
  | disjunct m =>
    have := goalWeight_le_of_mem m
    exact rank_lt_of_weight (by simp only [weight, weights, goalWeight]; omega)
  | @conclusion _ _ a b =>
    have := weight_lt_imp a b
    exact rank_lt_of_weight (by simp only [weight, weights_append, weights]; omega)
  | @premise _ _ x y b =>
    have := weight_imp_imp x y b
    exact rank_lt_of_weight (by simp only [weight, weights_append, weights]; omega)
  | @premiseNot _ _ x b =>
    have := weight_imp_not x b
    exact rank_lt_of_weight (by simp only [weight, weights_append, weights]; omega)

theorem length_le_rank {v : Visit} {vs : List Visit} (chain : List.IsChain Calls (v :: vs)) : vs.length ≤ v.rank := by
  induction vs generalizing v with
  | nil => simp
  | cons _ _ ih =>
    obtain ⟨call, chain⟩ := isChain_cons_cons.1 chain
    have := ih chain
    have := call.rank_lt
    simp only [length_cons]
    omega

/-! ## The tree of calls -/

mutual
/-- The sequents that a call comes to, in order: its own, then those of the calls that it makes. -/
inductive Unfolds : Visit → List Visit → Prop
  | call {v trace} : Within v trace → Unfolds v (v :: trace)

/-- The sequents that calls made at `v` come to. -/
inductive Within : Visit → List Visit → Prop
  | none {v} : Within v []
  | next {v w first rest} : Calls v w → Unfolds w first → Within v rest → Within v (first ++ rest)
end

theorem Within.append {v : Visit} : ∀ {ts us : List Visit}, Within v ts → Within v us → Within v (ts ++ us)
  | _, _, .none, h => h
  | _, _, .next call first rest, h => by
    rw [append_assoc]
    exact .next call first (rest.append h)

/-- The attempt answers, after calls made at `v` alone. -/
def Makes (v : Visit) (a : Attempt) : Prop := (∃ b, a.result = .ok b) ∧ Within v a.trace

/-- The attempt answers, and the sequents that it comes to are those of a call at `v`. -/
def Ends (v : Visit) (a : Attempt) : Prop := (∃ b, a.result = .ok b) ∧ Unfolds v a.trace

variable {v w : Visit} {a : Attempt} {b : Unit → Attempt}

theorem makes_done (r : Bool) : v.Makes (.done r) := ⟨⟨r, rfl⟩, .none⟩

theorem Makes.visit (h : v.Makes a) : v.Ends (.visit v a) := ⟨h.1, .call h.2⟩

theorem Ends.within (h : w.Ends a) (call : v.Calls w) : v.Makes a := ⟨h.1, by simpa using Within.next call h.2 .none⟩

theorem Makes.both (h : v.Makes a) (k : v.Makes (b ())) : v.Makes (.both a b) := by
  obtain ⟨⟨r, e⟩, trace⟩ := h
  cases r with
  | true => simpa [Makes, Attempt.both, e] using And.intro k.1 (trace.append k.2)
  | false => simpa [Makes, Attempt.both, e] using trace

theorem Makes.either (h : v.Makes a) (k : v.Makes (b ())) : v.Makes (.either a b) := by
  obtain ⟨⟨r, e⟩, trace⟩ := h
  cases r with
  | true => simpa [Makes, Attempt.either, e] using trace
  | false => simpa [Makes, Attempt.either, e] using And.intro k.1 (trace.append k.2)

end Visit

open Visit

/-- Each phase ends, and calls only what the rules allow; lists of subgoals and cases, and the scan, are parts of the phase `v`
that goes through them. -/
theorem phases_make : (∀ S P g, (Visit.right S P g).Plain → (Visit.right S P g).Ends (right S P g)) ∧
    (∀ S P g, (Visit.left S P g).Plain → (Visit.left S P g).Ends (left S P g)) ∧
    (∀ S P g cs (v : Visit), (∀ c ∈ cs, (Visit.left S (c :: P) g).Plain ∧ v.Calls (.left S (c :: P) g)) →
      v.Makes (leftAll S P g cs)) ∧
    (∀ S g, (Visit.search S g).Plain → (Visit.search S g).Ends (search S g)) ∧
    (∀ S before after g, S = before ++ after → (Visit.search S g).Plain → (Visit.search S g).Makes (scan S before after g)) ∧
    (∀ S gs (v : Visit), (∀ g ∈ gs, (Visit.right S [] g).Plain ∧ v.Calls (.right S [] g)) → v.Makes (rightAny S gs)) ∧
    (∀ S P gs (v : Visit), (∀ g ∈ gs, (Visit.right S P g).Plain ∧ v.Calls (.right S P g)) → v.Makes (rightAll S P gs)) := by
  apply right.mutual_induct
  · intro S P g ih plain
    obtain ⟨hS, hP, hg⟩ := plain
    rw [right.eq_def]
    apply Makes.visit
    cases g with
    | tt => exact makes_done true
    | and gs =>
      have hgs := (plain_and gs).1 hg
      exact ih _ fun g m => ⟨⟨hS, hP, hgs g m⟩, .conjunct m⟩
    | imp => exact (ih ⟨hS, forall_mem_cons.2 ⟨hg.1, hP⟩, hg.2⟩).within .assume
    | not => exact (ih ⟨hS, hP, hg, trivial⟩).within .negation
    | ff | or gs | atom f => exact (ih ⟨hS, hP, hg⟩).within (.turn trivial)
    | other => exact hg.elim
  · intro S P g ih plain
    obtain ⟨hS, hP, hg⟩ := plain
    rw [left.eq_def]
    apply Makes.visit
    cases P with
    | nil => exact (ih ⟨hS, hg⟩).within .choose
    | cons c =>
      obtain ⟨hc, hrest⟩ := forall_mem_cons.1 hP
      have settle : ∀ f ∈ S ++ [c], f.Plain := by simpa [or_imp, forall_and] using ⟨hS, hc⟩
      cases c with
      | ff => exact makes_done true
      | and fs =>
        have hfs := (plain_and fs).1 hc
        exact (ih ⟨hS, by simpa [or_imp, forall_and] using ⟨hfs, hrest⟩, hg⟩).within .parts
      | or fs =>
        have hfs := (plain_or fs).1 hc
        exact ih _ fun c m => ⟨⟨hS, forall_mem_cons.2 ⟨hfs c m, hrest⟩, hg⟩, .case m⟩
      | tt | atom f => exact (ih ⟨settle, hrest, hg⟩).within (.settle trivial)
      | not => exact (ih ⟨hS, forall_mem_cons.2 ⟨⟨hc, trivial⟩, hrest⟩, hg⟩).within .negated
      | other => exact hc.elim
      | imp a b =>
        cases a with
        | ff => exact (ih ⟨hS, hrest, hg⟩).within .vacuous
        | tt => exact (ih ⟨hS, forall_mem_cons.2 ⟨hc.2, hrest⟩, hg⟩).within .release
        | and fs =>
          have hfs := plain_curry ((plain_and fs).1 hc.1) hc.2
          exact (ih ⟨hS, forall_mem_cons.2 ⟨hfs, hrest⟩, hg⟩).within .curried
        | or fs =>
          have hfs : ∀ f ∈ fs, (imp f b).Plain := fun f m => ⟨(plain_or fs).1 hc.1 f m, hc.2⟩
          exact (ih ⟨hS, by simpa [or_imp, forall_and] using ⟨hfs, hrest⟩, hg⟩).within .distributed
        | imp x y | not x | atom f => exact (ih ⟨settle, hrest, hg⟩).within (.settle trivial)
        | other => exact hc.1.elim
  · intro S P g v _
    rw [leftAll]
    exact makes_done true
  · intro S P g c cs ihc ihs v calls
    rw [leftAll]
    obtain ⟨⟨plain, call⟩, calls⟩ := forall_mem_cons.1 calls
    exact ((ihc plain).within call).both (ihs v calls)
  · intro S g ih plain
    obtain ⟨hS, hg⟩ := plain
    rw [search.eq_def]
    apply Makes.visit
    split
    · exact makes_done true
    cases g with
    | or gs =>
      have hgs := (plain_or gs).1 hg
      exact (ih.1 _ fun g m => ⟨⟨hS, by simp, hgs g m⟩, .disjunct m⟩).either (ih.2 rfl ⟨hS, hg⟩)
    | _ => exact ih rfl ⟨hS, hg⟩
  · intro S before g _ _
    rw [scan]
    exact makes_done false
  · intro S before after g a b rest ihl ihn e plain
    obtain ⟨hS, hg⟩ := plain
    obtain ⟨ha, hb⟩ : (imp a b).Plain := hS _ (by simp [e])
    have hrest : ∀ f ∈ rest, f.Plain := fun f m => hS f (by
      rw [e]
      exact mem_append.2 ((mem_append.1 m).imp_right (mem_cons_of_mem _)))
    have use : (Visit.search S g).Makes (left rest [b] g) := (ihl ⟨hrest, by simpa using hb, hg⟩).within (e ▸ .conclusion)
    rw [scan.eq_def]
    refine Makes.either ?_ ?_
    · split
      · exact use
      · exact makes_done false
    cases a with
    | imp x y =>
      have plain : ∀ f ∈ [x, imp y b], f.Plain := by simpa using ⟨ha.1, ha.2, hb⟩
      exact ((ihn.1 ⟨hrest, plain, ha.2⟩).within (e ▸ .premise)).both use
    | not x =>
      have plain : ∀ f ∈ [x, imp ff b], f.Plain := by simpa using ⟨ha, trivial, hb⟩
      exact ((ihn.1 ⟨hrest, plain, trivial⟩).within (e ▸ .premiseNot)).both use
    | _ => exact ihn (by simpa using e) ⟨hS, hg⟩
  · intro S before after g c hc ih e plain
    rw [scan.eq_def]
    cases c with
    | imp a b => exact absurd rfl (hc a b)
    | _ => exact ih (by simpa using e) plain
  · intro S v _
    rw [rightAny]
    exact makes_done false
  · intro S g gs ihg ihs v calls
    rw [rightAny]
    obtain ⟨⟨plain, call⟩, calls⟩ := forall_mem_cons.1 calls
    exact ((ihg plain).within call).either (ihs v calls)
  · intro S P v _
    rw [rightAll]
    exact makes_done true
  · intro S P g gs ihg ihs v calls
    rw [rightAll]
    obtain ⟨⟨plain, call⟩, calls⟩ := forall_mem_cons.1 calls
    exact ((ihg plain).within call).both (ihs v calls)

/-- On propositional formulas each phase ends with an answer: its calls are nested no deeper than the rank of the sequent, and
the sequents that it comes to are those of a tree of such calls. -/
theorem search_ends (v : Visit) (plain : v.Plain) : (∃ b, v.attempt.result = .ok b) ∧ v.Unfolds v.attempt.trace ∧
      ∀ vs, List.IsChain Visit.Calls (v :: vs) → vs.length ≤ v.rank := by
  obtain ⟨right, left, -, search, -⟩ := phases_make
  have ends : v.Ends v.attempt := by
    cases v with
    | right S P g => exact right S P g plain
    | left S P g => exact left S P g plain
    | search S g => exact search S g plain
  exact ⟨ends.1, ends.2, fun _ => length_le_rank⟩

/-- An implication from an implication of a negation: the rules for both are tried. -/
theorem search_ends_at_nested :
    let p := atom (.const "p" .bool)
    let v := Visit.right [.imp (.imp (.not p) .ff) p] [.or [p, .and []]] (.not (.not p))
    v.Plain ∧ (∃ b, v.attempt.result = .ok b) ∧ v.Unfolds v.attempt.trace ∧
      ∀ vs, List.IsChain Visit.Calls (v :: vs) → vs.length ≤ v.rank := by
  intro p v
  have plain : v.Plain := by simp [v, p, Visit.Plain, Formula.Plain, AllPlain]
  exact ⟨plain, search_ends v plain⟩

end SortedLogic.Intuitionistic

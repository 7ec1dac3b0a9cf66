import SortedLogic.Fault
import SortedLogic.Term

/-!
# Propositional formulas

The weights say what a formula can still cost a search: as a hypothesis (`weight`), in front of an implication among the
hypotheses (`premiseWeight`), and as a goal (`goalWeight`).
-/

namespace SortedLogic.Intuitionistic

inductive Formula where
  | atom (f : Symbol)
  | tt | ff
  | and (fs : List Formula)
  | or (fs : List Formula)
  | imp (a b : Formula)
  | not (a : Formula)
  | other (t : Term)

namespace Formula

def ofTerm : Term → Formula
  | .app f args =>
    match f.role, f.name, args.map ofTerm with
    | .builtin _, "and", fs => .and fs
    | .builtin _, "or", fs => .or fs
    | .builtin _, "=>", [a, b] => .imp a b
    | .builtin _, "not", [a] => .not a
    | .builtin _, "true", [] => .tt
    | .builtin _, "false", [] => .ff
    | _, _, [] => .atom f
    | _, _, _ => .other (.app f args)
  | t => .other t

def toTerm : Formula → Term
  | .atom f => .app f []
  | .tt => .tt
  | .ff => .ff
  | .and fs => .app .and (fs.map toTerm)
  | .or fs => .app .or (fs.map toTerm)
  | .imp a b => .app .implies [toTerm a, toTerm b]
  | .not a => .app .not [toTerm a]
  | .other t => t

mutual
def decEq : (a b : Formula) → Decidable (a = b)
  | .atom f, .atom g => if h : f = g then .isTrue (by rw [h]) else .isFalse (by simp [h])
  | .tt, .tt | .ff, .ff => .isTrue rfl
  | .and as, .and bs | .or as, .or bs =>
    match decEqs as bs with
    | .isTrue h => .isTrue (by rw [h])
    | .isFalse h => .isFalse (by simp [h])
  | .imp a b, .imp c d =>
    match decEq a c, decEq b d with
    | .isTrue h, .isTrue k => .isTrue (by rw [h, k])
    | .isFalse h, _ => .isFalse (by simp [h])
    | _, .isFalse k => .isFalse (by simp [k])
  | .not a, .not b =>
    match decEq a b with
    | .isTrue h => .isTrue (by rw [h])
    | .isFalse h => .isFalse (by simp [h])
  | .other t, .other u => if h : t = u then .isTrue (by rw [h]) else .isFalse (by simp [h])
  | .atom _, .tt | .atom _, .ff | .atom _, .and _ | .atom _, .or _ | .atom _, .imp _ _ | .atom _, .not _
  | .atom _, .other _ | .tt, .atom _ | .tt, .ff | .tt, .and _ | .tt, .or _ | .tt, .imp _ _ | .tt, .not _
  | .tt, .other _ | .ff, .atom _ | .ff, .tt | .ff, .and _ | .ff, .or _ | .ff, .imp _ _ | .ff, .not _
  | .ff, .other _ | .and _, .atom _ | .and _, .tt | .and _, .ff | .and _, .or _ | .and _, .imp _ _
  | .and _, .not _ | .and _, .other _ | .or _, .atom _ | .or _, .tt | .or _, .ff | .or _, .and _
  | .or _, .imp _ _ | .or _, .not _ | .or _, .other _ | .imp _ _, .atom _ | .imp _ _, .tt | .imp _ _, .ff
  | .imp _ _, .and _ | .imp _ _, .or _ | .imp _ _, .not _ | .imp _ _, .other _ | .not _, .atom _ | .not _, .tt
  | .not _, .ff | .not _, .and _ | .not _, .or _ | .not _, .imp _ _ | .not _, .other _ | .other _, .atom _
  | .other _, .tt | .other _, .ff | .other _, .and _ | .other _, .or _ | .other _, .imp _ _ | .other _, .not _ =>
    .isFalse (by simp)

def decEqs : (as bs : List Formula) → Decidable (as = bs)
  | [], [] => .isTrue rfl
  | [], _ :: _ | _ :: _, [] => .isFalse (by simp)
  | a :: as, b :: bs =>
    match decEq a b, decEqs as bs with
    | .isTrue h, .isTrue k => .isTrue (by rw [h, k])
    | .isFalse h, _ => .isFalse (by simp [h])
    | _, .isFalse k => .isFalse (by simp [k])
end

instance : DecidableEq Formula := decEq

mutual
def weight : Formula → Nat
  | .atom _ | .tt | .ff | .other _ => 1
  | .and fs | .or fs => weights fs + 1
  | .imp a b => premiseWeight a * weight b
  | .not a => premiseWeight a + 1

def premiseWeight : Formula → Nat
  | .atom _ | .tt | .ff | .other _ => 2
  | .and fs => premiseProduct fs + 1
  | .or fs => premiseSum fs + 2
  | .imp a b => premiseWeight b + weight a + goalWeight b + 2
  | .not a => weight a + 5

def goalWeight : Formula → Nat
  | .atom _ | .tt | .ff | .other _ => 1
  | .and fs | .or fs => goalWeights fs + 1
  | .imp a b => weight a + goalWeight b + 1
  | .not a => weight a + 3

def weights : List Formula → Nat
  | [] => 0
  | f :: fs => weight f + weights fs

def premiseSum : List Formula → Nat
  | [] => 0
  | f :: fs => premiseWeight f + premiseSum fs

def premiseProduct : List Formula → Nat
  | [] => 1
  | f :: fs => premiseWeight f * premiseProduct fs

def goalWeights : List Formula → Nat
  | [] => 0
  | f :: fs => goalWeight f + goalWeights fs
end

def curry (fs : List Formula) (conc : Formula) : Formula := fs.foldl (fun c x => .imp x c) conc

/-! ## Weights of formulas -/

theorem two_le_premiseWeight : ∀ a : Formula, 2 ≤ a.premiseWeight
  | .atom _ | .tt | .ff | .other _ => by simp [premiseWeight]
  | .and fs => by
    have := product_pos fs
    simp [premiseWeight]; omega
  | .or _ | .imp _ _ | .not _ => by simp [premiseWeight]; try omega
where
  product_pos : ∀ fs : List Formula, 0 < premiseProduct fs
    | [] => by simp [premiseProduct]
    | f :: fs => by
      have h := two_le_premiseWeight f
      simp only [premiseProduct]
      exact Nat.mul_pos (by omega) (product_pos fs)

theorem weight_pos : ∀ a : Formula, 0 < a.weight
  | .atom _ | .tt | .ff | .other _ | .and _ | .or _ | .not _ => by simp [weight]
  | .imp a b => by
    simp only [weight]
    exact Nat.mul_pos (by have := two_le_premiseWeight a; omega) (weight_pos b)

theorem goalWeight_pos (a : Formula) : 0 < a.goalWeight := by
  cases a <;> simp [goalWeight]

@[simp] theorem weights_append (fs gs : List Formula) : weights (fs ++ gs) = weights fs + weights gs := by
  induction fs with
  | nil => simp [weights]
  | cons f fs ih => simp [weights, ih]; omega

@[simp] theorem weights_reverse (fs : List Formula) : weights fs.reverse = weights fs := by
  induction fs with
  | nil => rfl
  | cons f fs ih => simp [weights, ih]; omega

theorem weight_curry (fs : List Formula) (c : Formula) : (curry fs c).weight = premiseProduct fs * c.weight := by
  induction fs generalizing c with
  | nil => simp [curry, premiseProduct]
  | cons f fs ih =>
    show (curry fs (.imp f c)).weight = _
    rw [ih]
    simp only [weight, premiseProduct]
    rw [Nat.mul_comm f.premiseWeight (premiseProduct fs), Nat.mul_assoc]

theorem weight_lt_imp (a c : Formula) : c.weight < (imp a c).weight := by
  have h := two_le_premiseWeight a
  have p := weight_pos c
  simp only [weight]
  calc c.weight < 2 * c.weight := by omega
    _ ≤ a.premiseWeight * c.weight := Nat.mul_le_mul_right _ h

theorem weight_curry_lt (fs : List Formula) (c : Formula) : (curry fs c).weight < (imp (.and fs) c).weight := by
  have p := weight_pos c
  rw [weight_curry]
  simp only [weight, premiseWeight, Nat.add_mul, Nat.one_mul]
  omega

theorem weights_cases_lt (fs : List Formula) (c : Formula) : weights (fs.map fun f => imp f c) < (imp (.or fs) c).weight := by
  have p := weight_pos c
  have h : weights (fs.map fun f => imp f c) = premiseSum fs * c.weight := by
    induction fs with
    | nil => simp [weights, premiseSum]
    | cons f fs ih => simp [weights, premiseSum, weight, ih, Nat.add_mul]
  rw [h]
  simp only [weight, premiseWeight, Nat.add_mul]
  omega

theorem weight_imp_imp (a b c : Formula) : (imp b c).weight + a.weight + b.goalWeight < (imp (imp a b) c).weight := by
  have p := weight_pos c
  simp only [weight, premiseWeight, Nat.add_mul]
  have h1 : a.weight ≤ a.weight * c.weight := Nat.le_mul_of_pos_right _ p
  have h2 : b.goalWeight ≤ b.goalWeight * c.weight := Nat.le_mul_of_pos_right _ p
  omega

theorem weight_imp_not (a c : Formula) : (imp .ff c).weight + a.weight + (ff).goalWeight < (imp (.not a) c).weight := by
  have p := weight_pos c
  simp only [weight, premiseWeight, goalWeight, Nat.add_mul]
  have h1 : a.weight ≤ a.weight * c.weight := Nat.le_mul_of_pos_right _ p
  omega

end Formula

/-! ## Proof search without contraction -/

open Formula

/-- Settled hypotheses, hypotheses to look at (the next one first), and the goal. -/
inductive Visit where
  | right (settled pending : List Formula) (goal : Formula)
  | left (settled pending : List Formula) (goal : Formula)
  | search (settled : List Formula) (goal : Formula)

structure Attempt where
  result : Checked Bool
  trace : List Visit

namespace Attempt

def done (b : Bool) : Attempt := ⟨.ok b, []⟩
def refuse (f : Fault) : Attempt := ⟨.error f, []⟩

def visit (v : Visit) (a : Attempt) : Attempt := ⟨a.result, v :: a.trace⟩

def both (a : Attempt) (b : Unit → Attempt) : Attempt :=
  match a.result with
  | .ok true => let b := b (); ⟨b.result, a.trace ++ b.trace⟩
  | _ => a

def either (a : Attempt) (b : Unit → Attempt) : Attempt :=
  match a.result with
  | .ok false => let b := b (); ⟨b.result, a.trace ++ b.trace⟩
  | _ => a

end Attempt

mutual
def right (settled pending : List Formula) (goal : Formula) : Attempt :=
  .visit (.right settled pending goal) <|
    match goal with
    | .tt => .done true
    | .and gs => rightAll settled pending gs
    | .imp a b => right settled (a :: pending) b
    | .not a => right settled pending (.imp a .ff)
    | .ff => left settled pending .ff
    | .or gs => left settled pending (.or gs)
    | .atom f => left settled pending (.atom f)
    | .other _ => .refuse (.failed (some "Unexpected formula in right_inv"))
termination_by (weights settled + weights pending + goal.goalWeight, 3, 0)
decreasing_by
  · exact .left _ _ (by simp only [goalWeight]; omega)
  · exact .left _ _ (by simp only [weights, goalWeight]; omega)
  · exact .left _ _ (by simp only [goalWeight]; omega)
  iterate 3 exact .right _ (.left _ _ (by omega))

def rightAll (settled pending : List Formula) : List Formula → Attempt
  | [] => .done true
  | g :: gs => .both (right settled pending g) fun _ => rightAll settled pending gs
termination_by gs => (weights settled + weights pending + goalWeights gs, 4, 0)
decreasing_by
  · exact .right' _ (by simp only [goalWeights]; omega) (.left _ _ (by omega))
  · have := goalWeight_pos g
    exact .left _ _ (by simp only [goalWeights]; omega)

def rightAny (settled : List Formula) : List Formula → Attempt
  | [] => .done false
  | g :: gs => .either (right settled [] g) fun _ => rightAny settled gs
termination_by gs => (weights settled + goalWeights gs, 4, 0)
decreasing_by
  · exact .right' _ (by simp only [goalWeights, weights]; omega) (.left _ _ (by omega))
  · have := goalWeight_pos g
    exact .left _ _ (by simp only [goalWeights]; omega)

def left (settled pending : List Formula) (goal : Formula) : Attempt :=
  .visit (.left settled pending goal) <|
    match pending with
    | [] => search settled goal
    | c :: rest =>
      match c with
      | .ff => .done true
      | .and fs => left settled (fs.reverse ++ rest) goal
      | .or fs => leftAll settled rest goal fs
      | .imp a b =>
        match a with
        | .ff => left settled rest goal
        | .tt => left settled (b :: rest) goal
        | .and fs => left settled (curry fs b :: rest) goal
        | .or fs => left settled ((fs.map fun f => .imp f b).reverse ++ rest) goal
        | .imp x y => left (settled ++ [.imp (.imp x y) b]) rest goal
        | .atom f => left (settled ++ [.imp (.atom f) b]) rest goal
        | .not x => left (settled ++ [.imp (.not x) b]) rest goal
        | .other _ => .refuse (.failed (some "Unexpected implication in left_inv"))
      | .tt => left (settled ++ [.tt]) rest goal
      | .atom f => left (settled ++ [.atom f]) rest goal
      | .not a => left settled (.imp a .ff :: rest) goal
      | .other _ => .refuse (.failed (some "Unexpected formula in left_inv"))
termination_by (weights settled + weights pending + goal.goalWeight, 2, pending.length)
decreasing_by
  · exact .right _ (.left _ _ (by omega))
  · exact .left _ _ (by simp only [weights_append, weights_reverse, weights, weight]; omega)
  · exact .left _ _ (by simp only [weights, weight]; omega)
  · have := weight_pos (.imp .ff b)
    exact .left _ _ (by simp only [weights]; omega)
  · have := weight_lt_imp .tt b
    exact .left _ _ (by simp only [weights]; omega)
  · have := weight_curry_lt fs b
    exact .left _ _ (by simp only [weights]; omega)
  · have := weights_cases_lt fs b
    exact .left _ _ (by simp only [weights_append, weights_reverse, weights]; omega)
  iterate 5 exact .right' _ (by simp only [weights_append, weights]; omega) (.right _ (by simp))
  · exact .left _ _ (by simp only [weights, weight]; omega)

def leftAll (settled pending : List Formula) (goal : Formula) : List Formula → Attempt
  | [] => .done true
  | c :: cs => .both (left settled (c :: pending) goal) fun _ => leftAll settled pending goal cs
termination_by cs => (weights settled + weights pending + goal.goalWeight + weights cs, 3, 0)
decreasing_by
  · exact .right' _ (by simp only [weights]; omega) (.left _ _ (by omega))
  · have := weight_pos c
    exact .left _ _ (by simp only [weights]; omega)

def search (settled : List Formula) (goal : Formula) : Attempt :=
  .visit (.search settled goal) <| if settled.contains goal then .done true
    else
      match goal with
      | .or gs => .either (rightAny settled gs) fun _ => scan settled [] settled (.or gs)
      | g => scan settled [] settled g
termination_by (weights settled + goal.goalWeight, 1, 0)
decreasing_by
  · exact .left _ _ (by simp only [goalWeight]; omega)
  iterate 2 exact .right' _ (by simp only [weights]; omega) (.left _ _ (by omega))

/-- Looks for an implication among the hypotheses `after` that can be used; those `before` were looked at. -/
def scan (settled before : List Formula) : List Formula → Formula → Attempt
  | [], _ => .done false
  | c :: after, goal =>
    match c with
    | .imp a b =>
      let rest := before ++ after
      .either (if settled.contains a then left rest [b] goal else .done false) fun _ =>
        match a with
        | .imp x y => .both (right rest [x, .imp y b] y) fun _ => left rest [b] goal
        | .not x => .both (right rest [x, .imp .ff b] .ff) fun _ => left rest [b] goal
        | a => scan settled (before ++ [.imp a b]) after goal
    | c => scan settled (before ++ [c]) after goal
termination_by after goal => (weights before + weights after + goal.goalWeight, 0, after.length)
decreasing_by
  · have := weight_lt_imp a b
    exact .left _ _ (by simp only [weights_append, weights]; omega)
  · have := weight_imp_imp x y b
    exact .left _ _ (by simp only [weights_append, weights]; omega)
  · have := weight_lt_imp (.imp x y) b
    exact .left _ _ (by simp only [weights_append, weights]; omega)
  · have := weight_imp_not x b
    exact .left _ _ (by simp only [weights_append, weights]; omega)
  · have := weight_lt_imp (.not x) b
    exact .left _ _ (by simp only [weights_append, weights]; omega)
  iterate 2 exact .right' _ (by simp only [weights_append, weights]; omega) (.right _ (by simp))
end

def prove (goal : Formula) : Attempt := right [] [] goal

end SortedLogic.Intuitionistic

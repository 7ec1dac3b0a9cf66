import SortedLogic.Symbol

/-!
# Terms

A bound variable, given by the number of binders between it and its own, an application, or a binder over a body. Binders keep
the names they were written with. Applications too are kept as written: the number of arguments of `and`, `or`, `+` and `*` is
free.
-/

namespace SortedLogic

inductive Binder where
  | forall | exists | lambda
  deriving DecidableEq

inductive Term where
  /-- The variable bound by the binder `index` steps outward, counting single variables. -/
  | var (index : Nat) (sort : Srt)
  | app (head : Symbol) (args : List Term)
  | bind (binder : Binder) (vars : Vars) (body : Term)
  deriving Inhabited

namespace Term

mutual
def decEq : (a b : Term) → Decidable (a = b)
  | .var i s, .var j r =>
    if h : i = j ∧ s = r then .isTrue (by rw [h.1, h.2]) else .isFalse (by simpa using h)
  | .app f as, .app g bs =>
    if h : f = g then
      match decEqs as bs with
      | .isTrue hs => .isTrue (by rw [h, hs])
      | .isFalse hs => .isFalse (by simp [hs])
    else .isFalse (by simp [h])
  | .bind k vs a, .bind l ws b =>
    if h : k = l ∧ vs = ws then
      match decEq a b with
      | .isTrue hb => .isTrue (by rw [h.1, h.2, hb])
      | .isFalse hb => .isFalse (by simp [hb])
    else .isFalse (by
      simp only [bind.injEq]
      exact fun hh => h ⟨hh.1, hh.2.1⟩)
  | .var .., .app .. | .var .., .bind .. | .app .., .var .. | .app .., .bind .. | .bind .., .var ..
  | .bind .., .app .. => .isFalse (by simp)

def decEqs : (as bs : List Term) → Decidable (as = bs)
  | [], [] => .isTrue rfl
  | [], _ :: _ | _ :: _, [] => .isFalse (by simp)
  | a :: as, b :: bs =>
    match decEq a b with
    | .isTrue h =>
      match decEqs as bs with
      | .isTrue hs => .isTrue (by rw [h, hs])
      | .isFalse hs => .isFalse (by simp [hs])
    | .isFalse h => .isFalse (by simp [h])
end

instance : DecidableEq Term := decEq

/-- The sort of a term. A lambda is an array from the sorts of its variables. -/
def sort : Term → Srt
  | .var _ s => s
  | .app f _ => f.range
  | .bind .lambda vars body => .array (vars.map (·.2)) body.sort
  | .bind _ _ _ => .bool

def children : Term → List Term
  | .var .. => []
  | .app _ args => args
  | .bind _ _ body => [body]

mutual
def size : Term → Nat
  | .var .. => 1
  | .app _ args => 1 + sizes args
  | .bind _ _ body => 1 + body.size

def sizes : List Term → Nat
  | [] => 0
  | t :: ts => t.size + sizes ts
end

theorem size_pos : ∀ t : Term, 0 < t.size
  | .var .. => by simp [size]
  | .app .. => by rw [size]; omega
  | .bind .. => by rw [size]; omega

theorem size_le_sizes {t : Term} : ∀ {ts : List Term}, t ∈ ts → t.size ≤ sizes ts
  | u :: us, h => by
    rcases List.mem_cons.1 h with rfl | h
    · simp [sizes]
    · have := size_le_sizes h
      simp [sizes]; omega

def const (name : String) (s : Srt) : Term := .app (.const name s) []

def isApp : Term → Bool
  | .app .. => true
  | _ => false

def isVar : Term → Bool
  | .var .. => true
  | _ => false

def isBind : Term → Bool
  | .bind .. => true
  | _ => false

def isConst : Term → Bool
  | .app _ [] => true
  | _ => false

def head? : Term → Option Symbol
  | .app f _ => some f
  | _ => none

def isOp (name : String) : Term → Bool
  | .app f _ => f.isOp name
  | _ => false

def isImplies : Term → Bool := isOp "=>"

def isConstructor : Term → Bool
  | .app f _ => f.isConstructor
  | _ => false

def isForall : Term → Bool
  | .bind .forall .. => true
  | _ => false

def isExists : Term → Bool
  | .bind .exists .. => true
  | _ => false

def isLambda : Term → Bool
  | .bind .lambda .. => true
  | _ => false

def int (v : Int) : Term := .app (.int v) []
def rat (v : Rat) : Term := .app (.rat v) []
def bits (v : Int) (width : Nat) : Term := .app (.bits v width) []
def text (s : String) : Term := .app (.text s) []
def tt : Term := .app .tt []
def ff : Term := .app .ff []
def bool (b : Bool) : Term := if b then tt else ff

def int? : Term → Option Int
  | .app ⟨_, _, _, .int v⟩ _ => some v
  | _ => none

def rat? : Term → Option Rat
  | .app ⟨_, _, _, .rat v⟩ _ => some v
  | _ => none

def bits? : Term → Option (Nat × Nat)
  | .app ⟨_, _, .bitvec w, .bits v⟩ _ => some (v, w)
  | _ => none

def bool? (t : Term) : Option Bool :=
  if t = tt then some true else if t = ff then some false else none

end Term
end SortedLogic

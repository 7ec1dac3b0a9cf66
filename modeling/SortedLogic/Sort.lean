/-!
# Sorts

Array sorts hold a list of domains, so equality is decided by recursion on the nested list; `eq_of_beq` and `beq_refl` make it
the real equality.
-/

namespace SortedLogic

inductive Srt where
  | bool | int | real | string | char | roundingMode
  | bitvec (width : Nat)
  | float (exponent significand : Nat)
  | array (domains : List Srt) (range : Srt)
  | seq (element : Srt)
  | regex (base : Srt)
  | datatype (name : String)
  | uninterpreted (name : String)
  deriving Inhabited

namespace Srt

mutual
def beq : Srt → Srt → Bool
  | .bool, .bool | .int, .int | .real, .real | .string, .string | .char, .char
  | .roundingMode, .roundingMode => true
  | .bitvec w, .bitvec w' => w == w'
  | .float e s, .float e' s' => e == e' && s == s'
  | .array d r, .array d' r' => beqs d d' && beq r r'
  | .seq s, .seq s' | .regex s, .regex s' => beq s s'
  | .datatype n, .datatype n' | .uninterpreted n, .uninterpreted n' => n == n'
  | _, _ => false

def beqs : List Srt → List Srt → Bool
  | [], [] => true
  | a :: as, b :: bs => beq a b && beqs as bs
  | _, _ => false
end

instance : BEq Srt := ⟨beq⟩

mutual
theorem beq_refl : ∀ a : Srt, beq a a = true
  | .bool | .int | .real | .string | .char | .roundingMode => rfl
  | .bitvec _ | .float _ _ | .datatype _ | .uninterpreted _ => by simp [beq]
  | .array d r => by simp [beq, beqs_refl d, beq_refl r]
  | .seq s | .regex s => by simp [beq, beq_refl s]

theorem beqs_refl : ∀ as : List Srt, beqs as as = true
  | [] => rfl
  | a :: as => by simp [beqs, beq_refl a, beqs_refl as]
end

mutual
theorem eq_of_beq : ∀ {a b : Srt}, beq a b = true → a = b
  | .array _ _, b, h => by
    cases b <;> simp_all [beq]
    exact ⟨eq_of_beqs h.1, eq_of_beq h.2⟩
  | .seq _, b, h | .regex _, b, h => by
    cases b <;> simp_all [beq]
    exact eq_of_beq h
  | .bool, b, h | .int, b, h | .real, b, h | .string, b, h | .char, b, h | .roundingMode, b, h
  | .bitvec _, b, h | .float _ _, b, h | .datatype _, b, h | .uninterpreted _, b, h => by
    cases b <;> simp_all [beq]

theorem eq_of_beqs : ∀ {as bs : List Srt}, beqs as bs = true → as = bs
  | [], [], _ => rfl
  | [], _ :: _, h | _ :: _, [], h => by simp [beqs] at h
  | a :: as, b :: bs, h => by
    simp only [beqs, Bool.and_eq_true] at h
    rw [eq_of_beq h.1, eq_of_beqs h.2]
end

instance : ReflBEq Srt := ⟨beq_refl _⟩
instance : LawfulBEq Srt := ⟨eq_of_beq⟩
instance : DecidableEq Srt := instDecidableEqOfLawfulBEq

def isArith : Srt → Bool
  | .int | .real => true
  | _ => false

def isDatatype : Srt → Bool
  | .datatype _ => true
  | _ => false

/-- Text and sequences share their operations. -/
def isSeq : Srt → Bool
  | .seq _ | .string => true
  | _ => false

def element? : Srt → Option Srt
  | .seq s => some s
  | .string => some .char
  | _ => none

/-! ## Names -/

def name : Srt → String
  | .bool => "Bool"
  | .int => "Int"
  | .real => "Real"
  | .string => "String"
  | .char => "Unicode"
  | .roundingMode => "RoundingMode"
  | .bitvec _ => "bv"
  | .float _ _ => "FloatingPoint"
  | .array _ _ => "Array"
  | .seq _ => "Seq"
  | .regex _ => "RegEx"
  | .datatype n | .uninterpreted n => n

def render : Srt → String
  | .bitvec w => "BitVec(" ++ toString w ++ ")"
  | .float e s => "FPSort(" ++ toString e ++ ", " ++ toString s ++ ")"
  | .array (d :: _) r => "Array(" ++ render d ++ ", " ++ render r ++ ")"
  | .seq s => "Seq(" ++ render s ++ ")"
  | .regex s => "ReSort(" ++ render s ++ ")"
  | .char => "Char"
  | s => s.name

def isFinite : Srt → Bool
  | .bool | .bitvec _ => true
  | _ => false

end Srt

abbrev Vars := List (String × Srt)

end SortedLogic

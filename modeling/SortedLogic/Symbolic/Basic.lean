/-!
# Symbolic expressions

Expressions of elementary algebra and a total order on their shapes.
-/

namespace SortedLogic

inductive Symbolic where
  | number (q : Rat)
  | symbol (name : String)
  | sum (terms : List Symbolic)
  | product (factors : List Symbolic)
  | power (base exponent : Symbolic)
  | apply (function : String) (args : List Symbolic)
  | lambda (vars : List String) (body : Symbolic)
  | equation (left right : Symbolic)
  | comparison (sign : String) (left right : Symbolic)
  | truth (b : Bool)
  | euler
  | circleRatio | imaginaryUnit | infinity | negativeInfinity
  | unsignedInfinity | undefined

namespace Symbolic

def zero : Symbolic := .number 0
def one : Symbolic := .number 1
def integer (n : Int) : Symbolic := .number n

/-! ## Order of shapes -/

def rank : Symbolic → Nat
  | .number _ => 0
  | .symbol _ => 1
  | .sum _ => 2
  | .product _ => 3
  | .power .. => 4
  | .apply .. => 5
  | .lambda .. => 6
  | .equation .. => 7
  | .comparison .. => 8
  | .truth _ => 9
  | .euler => 10
  | .circleRatio => 11
  | .imaginaryUnit => 12
  | .infinity => 13
  | .negativeInfinity => 14
  | .unsignedInfinity => 15
  | .undefined => 16

def compareRats (p q : Rat) : Ordering := if p < q then .lt else if p = q then .eq else .gt

def compareTexts (s t : String) : Ordering := if s < t then .lt else if s = t then .eq else .gt

def compareNames : List String → List String → Ordering
  | [], [] => .eq
  | [], _ :: _ => .lt
  | _ :: _, [] => .gt
  | x :: xs, y :: ys => (compareTexts x y).then (compareNames xs ys)

mutual
/-- A total order; expressions that compare as equal have the same shape. -/
def compare : Symbolic → Symbolic → Ordering
  | .number p, .number q => compareRats p q
  | .symbol x, .symbol y => compareTexts x y
  | .sum xs, .sum ys => compareAll xs ys
  | .product xs, .product ys => compareAll xs ys
  | .power a b, .power c d => (compare a c).then (compare b d)
  | .apply f xs, .apply g ys => (compareTexts f g).then (compareAll xs ys)
  | .lambda vs a, .lambda ws b => (compareNames vs ws).then (compare a b)
  | .equation a b, .equation c d => (compare a c).then (compare b d)
  | .comparison s a b, .comparison t c d => ((compareTexts s t).then (compare a c)).then (compare b d)
  | .truth a, .truth b => if a = b then .eq else if a then .gt else .lt
  | a, b => Ord.compare a.rank b.rank

def compareAll : List Symbolic → List Symbolic → Ordering
  | [], [] => .eq
  | [], _ :: _ => .lt
  | _ :: _, [] => .gt
  | x :: xs, y :: ys => (compare x y).then (compareAll xs ys)
end

instance : BEq Symbolic := ⟨fun a b => a.compare b == .eq⟩

def sorted (es : List Symbolic) : List Symbolic := es.mergeSort fun a b => a.compare b != .gt

/-! ## Parts -/

mutual
def size : Symbolic → Nat
  | .sum xs | .product xs | .apply _ xs => sizeAll xs + 1
  | .power a b | .equation a b | .comparison _ a b => a.size + b.size + 1
  | .lambda _ b => b.size + 1
  | _ => 1

def sizeAll : List Symbolic → Nat
  | [] => 0
  | x :: xs => x.size + sizeAll xs
end

mutual
def symbols : Symbolic → List String
  | .symbol x => [x]
  | .sum xs | .product xs | .apply _ xs => symbolsOfAll xs
  | .power a b | .equation a b | .comparison _ a b => (a.symbols ++ b.symbols).eraseDups
  | .lambda vs b => b.symbols.filter fun x => !vs.contains x
  | _ => []

def symbolsOfAll : List Symbolic → List String
  | [] => []
  | x :: xs => (x.symbols ++ symbolsOfAll xs).eraseDups
end

def has (e : Symbolic) (x : String) : Bool := e.symbols.contains x

def elementary : List String := ["sin", "cos", "tan", "exp", "log", "asin", "acos", "atan"]

mutual
def isNumeric : Symbolic → Bool
  | .number _ | .euler | .circleRatio | .imaginaryUnit => true
  | .sum xs | .product xs => areNumeric xs
  | .power a b => a.isNumeric && b.isNumeric
  | .apply f xs => elementary.contains f && areNumeric xs
  | _ => false

def areNumeric : List Symbolic → Bool
  | [] => true
  | x :: xs => x.isNumeric && areNumeric xs
end

def terms : Symbolic → List Symbolic
  | .sum ts => ts
  | e => [e]

def factors : Symbolic → Rat × List Symbolic
  | .number q => (q, [])
  | .product (.number q :: fs) => (q, fs)
  | .product fs => (1, fs)
  | e => (1, [e])

def coefficient (e : Symbolic) : Rat := e.factors.1

def isNegative (e : Symbolic) : Bool := e.coefficient < 0

def isNumber : Symbolic → Bool
  | .number _ => true
  | _ => false

def isSum : Symbolic → Bool
  | .sum _ => true
  | _ => false

def isZero : Symbolic → Bool
  | .number q => q = 0
  | _ => false

def isOne : Symbolic → Bool
  | .number q => q = 1
  | _ => false

def integer? : Symbolic → Option Int
  | .number q => if q.den = 1 then some q.num else none
  | _ => none

end Symbolic
end SortedLogic

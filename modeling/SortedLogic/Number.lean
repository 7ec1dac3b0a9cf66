/-!
# Numbers of 64 bits

A finite number is an integer times a power of two.
-/

namespace SortedLogic.Binary64
open Nat (pow)

structure Parts where
  negative : Bool
  mantissa : Nat
  exponent : Int

def decode (x : Float) : Parts :=
  let bits := x.toBits.toNat
  let fraction := bits % pow 2 52
  let e : Nat := bits / pow 2 52 % pow 2 11
  let negative := bits / pow 2 63 = 1
  if e = 0 then ⟨negative, fraction, -1074⟩ else ⟨negative, pow 2 52 + fraction, (e : Int) - 1075⟩

def ofNat? (n : Nat) : Option Float :=
  if n < pow 2 53 then some (Float.ofNat n)
  else
    let s := n.log2 - 52
    let q := n / pow 2 s
    let r := n % pow 2 s
    let half := pow 2 (s - 1)
    let q := if half < r || (r = half && q % 2 = 1) then q + 1 else q
    if q * pow 2 s < pow 2 1024 then some ((Float.ofNat q).scaleB s) else none

def ofInt? (n : Int) : Option Float :=
  if n < 0 then (ofNat? n.natAbs).map (- ·) else ofNat? n.natAbs

/-- The nearest number of the format, if it is finite. A tie goes to the even mantissa, which is shorter below the least normal
number. -/
def ofRat? (q : Rat) : Option Float :=
  let n := q.num.natAbs
  if n = 0 then some 0
  else
    let scaled (e : Int) : Nat × Nat :=
      if 0 ≤ e then (n, q.den * pow 2 e.toNat) else (n * pow 2 (-e).toNat, q.den)
    let e := max ((n.log2 : Int) - q.den.log2 - 53) (-1074)
    let e := if pow 2 53 ≤ (scaled e).1 / (scaled e).2 then e + 1 else e
    let (a, b) := scaled e
    let m := a / b
    let r := a % b
    let m := if b < 2 * r || (2 * r = b && m % 2 = 1) then m + 1 else m
    let x := (Float.ofNat m).scaleB e
    if x.isInf then none else some (if q.num < 0 then -x else x)

def trunc? (x : Float) : Option Int :=
  if x.isNaN || x.isInf then none
  else
    let p := decode x
    let n := if 0 ≤ p.exponent then p.mantissa * pow 2 p.exponent.toNat
      else p.mantissa / pow 2 (-p.exponent).toNat
    some (if p.negative then -(n : Int) else n)

def toRat (x : Float) : Rat :=
  let p := decode x
  let q : Rat := if 0 ≤ p.exponent then ((p.mantissa * pow 2 p.exponent.toNat : Nat) : Rat)
    else mkRat p.mantissa (pow 2 (-p.exponent).toNat)
  if p.negative then -q else q

/-! ## The shortest decimal that reads back -/

def tenTo (e : Int) : Rat := if 0 ≤ e then (pow 10 e.toNat : Rat) else mkRat 1 (pow 10 (-e).toNat)

def twoTo (e : Int) : Rat := if 0 ≤ e then (pow 2 e.toNat : Rat) else mkRat 1 (pow 2 (-e).toNat)

structure Basin where
  low : Rat
  high : Rat
  closed : Bool

def basin (p : Parts) : Basin :=
  let ulp := twoTo p.exponent
  let v : Rat := (p.mantissa : Rat) * ulp
  let below := if p.mantissa = pow 2 52 ∧ -1074 < p.exponent then ulp / 4 else ulp / 2
  ⟨v - below, v + ulp / 2, p.mantissa % 2 = 0⟩

def Basin.contains (b : Basin) (q : Rat) : Bool :=
  if b.closed then b.low ≤ q && q ≤ b.high else b.low < q && q < b.high

def decimalExponent (v : Rat) : Nat → Int → Int
  | 0, e => e
  | fuel + 1, e => if v < tenTo e then e else decimalExponent v fuel (e + 1)

def nearestOnGrid (b : Basin) (v unit : Rat) : Option Nat :=
  let k := (v / unit).floor.toNat
  let lower : Rat := (k : Rat) * unit
  let upper : Rat := ((k + 1 : Nat) : Rat) * unit
  match b.contains lower, b.contains upper with
  | true, true =>
    if v - lower < upper - v then some k
    else if upper - v < v - lower then some (k + 1)
    else some (if k % 2 = 0 then k else k + 1)
  | true, false => some k
  | false, true => some (k + 1)
  | false, false => none

def digitsFrom (b : Basin) (v : Rat) (e : Int) : Nat → Nat → Nat × Int
  | 0, n => ((v / tenTo (e - n)).floor.toNat, e - n)
  | fuel + 1, n =>
    match nearestOnGrid b v (tenTo (e - n)) with
    | some k => (k, e - n)
    | none => digitsFrom b v e fuel (n + 1)

def dropZeros : Nat → Nat × Int → Nat × Int
  | 0, r => r
  | fuel + 1, (k, e) => if k ≠ 0 ∧ k % 10 = 0 then dropZeros fuel (k / 10, e + 1) else (k, e)

def digits (p : Parts) : Nat × Int :=
  let v : Rat := (p.mantissa : Rat) * twoTo p.exponent
  let guess : Int := ((p.mantissa.log2 : Int) + p.exponent) * 30103 / 100000 - 1
  let e := decimalExponent v 10 guess
  dropZeros 20 (digitsFrom (basin p) v e 17 1)

/-- The point stands after at most 16 digits and before at most four zeros. -/
def positional (point : Int) : Bool := -4 < point && point ≤ 16

def withPoint (ds : List Char) (point : Int) : List Char :=
  if point ≤ 0 then '0' :: '.' :: List.replicate (-point).toNat '0' ++ ds
  else
    let n := point.toNat
    if ds.length ≤ n then ds ++ List.replicate (n - ds.length) '0' ++ ['.', '0']
    else ds.take n ++ '.' :: ds.drop n

def withExponent (ds : List Char) (point : Int) : List Char :=
  let e := point - 1
  let body := match ds with
    | [d] => [d]
    | d :: rest => d :: '.' :: rest
    | [] => ['0']
  let es := (toString e.natAbs).toList
  body ++ ['e', if e < 0 then '-' else '+'] ++ (if es.length < 2 then '0' :: es else es)

def text (x : Float) : String :=
  if x.isNaN then "nan"
  else if x.isInf then (if x < 0 then "-inf" else "inf")
  else
    let p := decode x
    let sign := if p.negative then ['-'] else []
    if p.mantissa = 0 then String.ofList (sign ++ ['0', '.', '0'])
    else
      let (k, e) := digits p
      let ds := (toString k).toList
      let point := (ds.length : Int) + e
      String.ofList (sign ++ if positional point then withPoint ds point else withExponent ds point)

end SortedLogic.Binary64

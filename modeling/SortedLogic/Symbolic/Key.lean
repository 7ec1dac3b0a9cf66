import SortedLogic.Symbolic.Arithmetic

/-!
# The order in which terms and factors are written

Factors are written by their keys, terms of a sum by the exponents of their bases, highest first.
-/

namespace SortedLogic.Symbolic

inductive Key where
  | number (q : Rat)
  | text (s : String)
  | row (ks : List Key)

mutual
def Key.compare : Key → Key → Ordering
  | .number p, .number q => compareRats p q
  | .number _, _ => .lt
  | .text _, .number _ => .gt
  | .text s, .text t => compareTexts s t
  | .text _, .row _ => .lt
  | .row xs, .row ys => Key.compareRows xs ys
  | .row _, _ => .gt

def Key.compareRows : List Key → List Key → Ordering
  | [], [] => .eq
  | [], _ :: _ => .lt
  | _ :: _, [] => .gt
  | x :: xs, y :: ys => (Key.compare x y).then (Key.compareRows xs ys)
end

def kindKey (place within : Nat) (name : String) : Key :=
  .row [.number (place : Rat), .number (within : Rat), .text name]

def functionPlace : String → Nat
  | "exp" => 10
  | "log" => 11
  | "sin" => 20
  | "cos" => 21
  | "tan" => 22
  | "asin" | "acos" | "atan" => 10000
  | _ => 0

def kindOf : Symbolic → Key
  | .number _ | .infinity | .negativeInfinity | .undefined => kindKey 1 0 ""
  | .unsignedInfinity => kindKey 2 0 ""
  | .euler => kindKey 2 1 ""
  | .imaginaryUnit => kindKey 2 2 ""
  | .circleRatio => kindKey 2 3 ""
  | .symbol _ => kindKey 2 4 ""
  | .product _ => kindKey 3 0 ""
  | .sum _ => kindKey 3 1 ""
  | .power .. => kindKey 3 2 ""
  | .apply "Derivative" _ => kindKey 5 0 ""
  | .apply f _ => kindKey 4 (functionPlace f) f
  | .lambda .. => kindKey 5 1 ""
  | .equation .. => kindKey 5 2 ""
  | .comparison s _ _ => kindKey 5 3 s
  | .truth _ => kindKey 5 4 ""

def ratText (q : Rat) : String :=
  if q.den = 1 then toString q.num else toString q.num ++ "/" ++ toString q.den

def atomText : Symbolic → String
  | .number q => ratText q
  | .symbol x => x
  | .circleRatio => "pi"
  | .euler => "E"
  | .imaginaryUnit => "I"
  | .infinity => "oo"
  | .negativeInfinity => "-oo"
  | .unsignedInfinity => "zoo"
  | .undefined => "nan"
  | .truth b => if b then "True" else "False"
  | _ => ""

def numberKey (q : Rat) : Key :=
  .row [kindKey 1 0 "", .row [.number 0, .row []], .row [], .number q]

def approximate : Symbolic → Float
  | .number q => Float.ofInt q.num / Float.ofNat q.den
  | .euler => Float.exp 1
  | .circleRatio => 3.141592653589793
  | .sum xs => (xs.map (·.approximate)).foldl (· + ·) 0
  | .product xs => (xs.map (·.approximate)).foldl (· * ·) 1
  | .power a b => Float.pow a.approximate b.approximate
  | .apply f xs =>
    let x := (xs.map (·.approximate)).headD 0
    match f with
    | "sin" => Float.sin x
    | "cos" => Float.cos x
    | "tan" => Float.tan x
    | "exp" => Float.exp x
    | "log" => Float.log x
    | "asin" => Float.asin x
    | "acos" => Float.acos x
    | "atan" => Float.atan x
    | _ => 0
  | _ => 0

variable (e : Symbolic)

def wholePower : Symbolic × Int :=
  let (b, x) := e.baseAndExponent
  match x with
  | .number q =>
    if q.den = 1 then (b, q.num) else (powerOf b (.number (mkRat 1 q.den)), q.num)
  | x =>
    let (c, tail) := x.factors
    if c = 1 then (e, 1)
    else (powerOf b (scale (mkRat 1 c.den) (withFactors 1 tail)), c.num)

structure Monomial where
  term : Symbolic
  weight : Float
  powers : List (Symbolic × Int)

def monomialOf (t : Symbolic) : Monomial :=
  let (c, fs) := t.factors
  let numeric := fs.filter isNumeric
  { term := t
    weight := numeric.foldl (fun w f => w * f.approximate) (Symbolic.number c).approximate
    powers := (fs.filter fun f => !f.isNumeric).map wholePower }

def compareExponents : List Int → List Int → Ordering
  | m :: ms, n :: ns => if n < m then .lt else if m < n then .gt else compareExponents ms ns
  | _, _ => .eq

def exponentsAt (bases : List Symbolic) (m : Monomial) : List Int :=
  bases.map fun b => ((m.powers.find? (·.1 == b)).map (·.2)).getD 0

/-- A sum of a positive number and one term with a negative number in front is written in that order. -/
def numberFirst? (ts : List Symbolic) : Option (List Symbolic) :=
  match ts.filter isNumber, ts.filter fun t => !t.isNumber with
  | [.number q], [.product [.number c, f]] =>
    if 0 < q && c < 0 then some [.number q, .product [.number c, f]] else none
  | _, _ => none

mutual
def keyAt : Nat → Symbolic → Key
  | 0, _ => .row []
  | n + 1, e =>
    match e with
    | .number q => numberKey q
    | .infinity => numberKey (Rat.pow 10 100)
    | .negativeInfinity => numberKey (-Rat.pow 10 100)
    | e =>
      let (c, fs) := e.factors
      let (b, x) := match withFactors 1 fs with
        | .power b x => (b, x)
        | b => (b, one)
      let args := match b with
        | .sum ts => (termsAt n ts).map (keyAt n)
        | .product fs => (factorsAt n fs).map (keyAt n)
        | .apply _ xs => xs.map (keyAt n)
        | .power a d => [keyAt n a, keyAt n d]
        | b => [.text b.atomText]
      .row [kindOf b, .row [.number (args.length : Rat), .row args], keyAt n x, .number c]

def factorsAt : Nat → List Symbolic → List Symbolic
  | 0, fs => fs
  | n + 1, fs =>
    ((fs.map fun f => (keyAt n f, f)).mergeSort fun a b => a.1.compare b.1 != .gt).map (·.2)

def termsAt : Nat → List Symbolic → List Symbolic
  | 0, ts => ts
  | n + 1, ts =>
    match numberFirst? ts with
    | some ts => ts
    | none =>
      let monomials := ts.map monomialOf
      let bases := (monomials.flatMap fun m => m.powers.map (·.1)).foldl
        (fun acc b => if acc.any (· == b) then acc else acc ++ [b]) []
      let bases := factorsAt n bases
      let keyed := monomials.map fun m => (exponentsAt bases m, m)
      (keyed.mergeSort fun (a, m) (b, k) =>
        match compareExponents a b with
        | .lt => true
        | .gt => false
        | .eq => m.weight <= k.weight).map (·.2.term)
end

def depth : Nat := 2 * e.size + 4

def orderedFactors : List Symbolic := factorsAt e.depth e.factors.2

def key : Key := keyAt e.depth e

end SortedLogic.Symbolic

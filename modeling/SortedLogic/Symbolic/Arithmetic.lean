import SortedLogic.Symbolic.Basic

/-!
# Arithmetic of symbolic expressions

Sums, products and powers in canonical form: with one number in front, and terms or bases that differ in more than a number.
-/

namespace SortedLogic.Symbolic

/-! ## Sums -/

/-- A product of factors that are in canonical form and belong to different powers, with the number in front. -/
def withFactors (c : Rat) (fs : List Symbolic) : Symbolic :=
  if c = 0 then zero
  else match fs with
    | [] => .number c
    | [f] => if c = 1 then f else .product [.number c, f]
    | fs => .product (if c = 1 then fs else .number c :: fs)

def collect (acc : List (List Symbolic × Rat)) (fs : List Symbolic) (c : Rat) : List (List Symbolic × Rat) :=
  if acc.any fun (gs, _) => compareAll fs gs == .eq then
    acc.map fun (gs, d) => if compareAll fs gs == .eq then (gs, c + d) else (gs, d)
  else acc ++ [(fs, c)]

def infiniteSum? (ts : List Symbolic) : Option Symbolic :=
  let up := ts.any fun t => t == .infinity
  let down := ts.any fun t => t == .negativeInfinity
  if ts.any (· == .undefined) then some .undefined
  else if ts.any (· == .unsignedInfinity) then some (if up || down then .undefined else .unsignedInfinity)
  else if up && down then some .undefined
  else if up then some .infinity
  else if down then some .negativeInfinity
  else none

def sumOf (ts : List Symbolic) : Symbolic :=
  let ts := ts.flatMap terms
  match infiniteSum? ts with
  | some e => e
  | none =>
    let groups := ts.foldl (fun acc t => let (c, fs) := t.factors; collect acc fs c) []
    let ts := (groups.filter (·.2 ≠ 0)).map fun (fs, c) => withFactors c fs
    match sorted ts with
    | [] => zero
    | [t] => t
    | ts => .sum ts

def add (a b : Symbolic) : Symbolic := sumOf [a, b]

def scale (c : Rat) (e : Symbolic) : Symbolic :=
  let one (t : Symbolic) : Symbolic := let (d, fs) := t.factors; withFactors (c * d) fs
  match e with
  | .sum ts => if c = 0 then zero else if c = 1 then e else sumOf (ts.map one)
  | .infinity => if c = 0 then .undefined else if c < 0 then .negativeInfinity else .infinity
  | .negativeInfinity => if c = 0 then .undefined else if c < 0 then .infinity else .negativeInfinity
  | .unsignedInfinity => if c = 0 then .undefined else .unsignedInfinity
  | .undefined => .undefined
  | e => one e

def neg (e : Symbolic) : Symbolic := scale (-1) e

def sub (a b : Symbolic) : Symbolic := add a (neg b)

/-! ## Powers -/

def takeSquares : Nat → Nat → Nat → Nat → Nat × Nat
  | 0, k, r, _ => (k, r)
  | fuel + 1, k, r, d =>
    if r < d * d then (k, r)
    else if r % (d * d) = 0 then takeSquares fuel (k * d) (r / (d * d)) d
    else takeSquares fuel k r (d + 1)

def squareRoot (n : Nat) : Nat × Nat := takeSquares 100000 1 n 2

def rootFactors (p : Rat) : Rat × List Symbolic :=
  let (k, r) := squareRoot (p.num.natAbs * p.den)
  let root := if r = 1 then [] else [.power (.number (r : Rat)) (.number (mkRat 1 2))]
  (mkRat k p.den, if p < 0 then .imaginaryUnit :: root else root)

def rootOf (p q : Rat) : Symbolic :=
  if q.den = 2 then
    let (c, fs) := rootFactors p
    withFactors (Rat.zpow p ((q.num - 1) / 2) * c) fs
  else .power (.number p) (.number q)

def exponential (e : Symbolic) : Symbolic :=
  match e with
  | .number q => if q = 0 then one else if q = 1 then .euler else .apply "exp" [e]
  | .infinity => .infinity
  | .negativeInfinity => zero
  | .apply "log" [a] => a
  | e => .apply "exp" [e]

def unitPower (n : Int) : Symbolic :=
  match n % 4 with
  | 0 => one
  | 1 => .imaginaryUnit
  | 2 => .number (-1)
  | _ => .product [.number (-1), .imaginaryUnit]

def powerOf : Symbolic → Symbolic → Symbolic
  | b, .number q =>
    if q = 0 then one
    else if q = 1 then b
    else match b with
      | .number p =>
        if p = 1 then one
        else if p = 0 then (if 0 < q then zero else .unsignedInfinity)
        else if q.den = 1 then .number (Rat.zpow p q.num)
        else rootOf p q
      | .euler => exponential (.number q)
      | .apply "exp" [x] => if q.den = 1 then exponential (scale q x) else .power b (.number q)
      | .power b' e => if q.den = 1 then powerOf b' (scale q e) else .power b (.number q)
      | .imaginaryUnit => if q.den = 1 then unitPower q.num else .power b (.number q)
      | .infinity => if 0 < q then .infinity else zero
      | .negativeInfinity =>
        if q < 0 then zero else if q.den = 1 then (if q.num % 2 = 0 then .infinity else .negativeInfinity)
        else .unsignedInfinity
      | .unsignedInfinity => if 0 < q then .unsignedInfinity else zero
      | .undefined => .undefined
      | b => .power b (.number q)
  | .euler, e => exponential e
  | .number p, e => if p = 1 then one else .power (.number p) e
  | b, e => .power b e

/-! ## Products -/

def baseAndExponent : Symbolic → Symbolic × Symbolic
  | .power b e => (b, e)
  | .apply "exp" [x] => (.euler, x)
  | e => (e, one)

def root? : Symbolic → Option Rat
  | .power (.number p) (.number q) => if q = mkRat 1 2 then some p else none
  | _ => none

def joinRoots (fs : List Symbolic) : Rat × List Symbolic :=
  match fs.filterMap root? with
  | p :: q :: rest =>
    let (c, root) := rootFactors ((p :: q :: rest).foldl (· * ·) 1)
    (c, root ++ fs.filter fun f => (root? f).isNone)
  | _ => (1, fs)

def isInfinite : Symbolic → Bool
  | .infinity | .negativeInfinity | .unsignedInfinity | .undefined => true
  | _ => false

def infiniteProduct? (c : Rat) (fs : List Symbolic) : Option Symbolic :=
  let infinite := fs.filter isInfinite
  if infinite.isEmpty then none
  else if infinite.any (· == .undefined) || c = 0 then some .undefined
  else if fs.any fun f => !f.isInfinite then none
  else if infinite.any (· == .unsignedInfinity) then some .unsignedInfinity
  else
    let down := infinite.filter (· == .negativeInfinity)
    some (if (down.length % 2 = 0) = (0 < c) then .infinity else .negativeInfinity)

def productOf (es : List Symbolic) : Symbolic :=
  let parts := es.map factors
  let c := parts.foldl (fun c p => c * p.1) 1
  let fs := parts.flatMap (·.2)
  match infiniteProduct? c fs with
  | some e => e
  | none =>
    let groups := fs.foldl (fun acc f =>
      let (b, e) := f.baseAndExponent
      let (k, tail) := e.factors
      collect acc (b :: tail) k) []
    let powers := groups.map fun (key, k) =>
      match key with
      | b :: tail => powerOf b (scale k (withFactors 1 tail))
      | [] => one
    let parts := powers.map factors
    let (r, fs) := joinRoots (parts.flatMap (·.2))
    match parts.foldl (fun c p => c * p.1) (c * r), fs with
    | c, [.sum ts] => scale c (.sum ts)
    | c, fs => withFactors c (sorted fs)

def mul (a b : Symbolic) : Symbolic := productOf [a, b]

/-- A power in canonical form: whole powers of a product are spread over its factors. -/
def pow (b e : Symbolic) : Symbolic :=
  match b, e.integer? with
  | .product fs, some _ => productOf (fs.map (powerOf · e))
  | b, _ => powerOf b e

def inverse (e : Symbolic) : Symbolic := pow e (.number (-1))

def div (a b : Symbolic) : Symbolic := mul a (inverse b)

/-! ## Functions -/

def takesSign : Symbolic → Bool
  | .sum ts =>
    let negative := (ts.filter isNegative).length
    ts.length < 2 * negative
  | e => e.isNegative

def arcCosine? (q : Rat) : Option Rat :=
  if q = 0 then some (mkRat 1 2)
  else if q = 1 then some 0
  else if q = -1 then some 1
  else if q = mkRat 1 2 then some (mkRat 1 3)
  else if q = mkRat (-1) 2 then some (mkRat 2 3)
  else none

def applyFunction (f : String) (x : Symbolic) : Symbolic :=
  match f with
  | "exp" => exponential x
  | "sin" =>
    if x.isZero then zero else if x.takesSign then neg (.apply "sin" [neg x]) else .apply "sin" [x]
  | "cos" => if x.isZero then one else if x.takesSign then .apply "cos" [neg x] else .apply "cos" [x]
  | "tan" =>
    if x.isZero then zero else if x.takesSign then neg (.apply "tan" [neg x]) else .apply "tan" [x]
  | "asin" =>
    if x.isZero then zero else if x.takesSign then neg (.apply "asin" [neg x]) else
    match x with
    | .number q =>
      match arcCosine? q with
      | some r => withFactors (mkRat 1 2 - r) [.circleRatio]
      | none => .apply "asin" [x]
    | x => .apply "asin" [x]
  | "acos" =>
    match x with
    | .number q =>
      match arcCosine? q with
      | some r => withFactors r [.circleRatio]
      | none => .apply "acos" [x]
    | x => .apply "acos" [x]
  | "atan" =>
    if x.isZero then zero else if x.takesSign then neg (.apply "atan" [neg x])
    else if x.isOne then withFactors (mkRat 1 4) [.circleRatio] else .apply "atan" [x]
  | "log" =>
    match x with
    | .number q => if q = 1 then zero else if q = 0 then .unsignedInfinity else .apply "log" [x]
    | .euler => one
    | .infinity => .infinity
    | x => .apply "log" [x]
  | f => .apply f [x]

def applyAll (f : String) (xs : List Symbolic) : Symbolic :=
  match xs with
  | [x] => applyFunction f x
  | xs => .apply f xs

mutual
def substitute (σ : List (String × Symbolic)) : Symbolic → Symbolic
  | .symbol x => ((σ.find? (·.1 = x)).map (·.2)).getD (.symbol x)
  | .sum ts => sumOf (substituteAll σ ts)
  | .product fs => productOf (substituteAll σ fs)
  | .power b e => pow (substitute σ b) (substitute σ e)
  | .apply f xs => applyAll f (substituteAll σ xs)
  | .lambda vs b => .lambda vs (substitute (σ.filter fun (x, _) => !vs.contains x) b)
  | .equation a b => .equation (substitute σ a) (substitute σ b)
  | .comparison s a b => .comparison s (substitute σ a) (substitute σ b)
  | e => e

def substituteAll (σ : List (String × Symbolic)) : List Symbolic → List Symbolic
  | [] => []
  | x :: xs => substitute σ x :: substituteAll σ xs
end
end SortedLogic.Symbolic

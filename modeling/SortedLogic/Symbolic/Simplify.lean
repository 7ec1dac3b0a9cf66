import SortedLogic.Symbolic.Calculus

/-!
# Simple forms

Of several forms of an expression the one with the fewest operations is taken.
-/

namespace SortedLogic.Symbolic

/-! ## Counting operations -/

def addCounts (counts : List Nat) : Nat := counts.foldl (· + ·) 0

def belowLine (fs : List Symbolic) : List Symbolic × List Symbolic :=
  let isBelow (f : Symbolic) : Bool := match f with
    | .power _ e => e.isNegative
    | _ => false
  (fs.filter fun f => !isBelow f, fs.filter isBelow)

def operationsAt : Nat → Symbolic → Nat
  | 0, _ => 0
  | n + 1, e =>
    match e with
    | .number q => (if q < 0 then 1 else 0) + (if q.den = 1 then 0 else 1)
    | .sum ts =>
      let negative := (ts.filter isNegative).length
      let inner := addCounts (ts.map fun t => operationsAt n (if t.isNegative then neg t else t))
      inner + (ts.length - 1) + (if negative = ts.length then 1 else 0)
    | .product fs =>
      let (c, gs) := (Symbolic.product fs).factors
      let sign := if c < 0 then 1 else 0
      let c := if c < 0 then -c else c
      let (above, below) := belowLine gs
      let above := withFactors (c.num : Rat) above
      let below := productOf (.number (c.den : Rat) :: below.map inverse)
      if below.isOne then
        match above with
        | .product hs => sign + (hs.length - 1) + addCounts (hs.map (operationsAt n))
        | a => sign + operationsAt n a
      else sign + 1 + (if above.isNumber then 0 else operationsAt n above) + (if below.isNumber then 0 else operationsAt n below)
    | .power b (.number q) =>
      if q = -1 then 1 + operationsAt n b else 1 + operationsAt n b + operationsAt n (.number q)
    | .power b e => 1 + operationsAt n b + operationsAt n e
    | .euler => 1
    | .apply _ xs => 1 + addCounts (xs.map (operationsAt n))
    | .lambda _ b => 1 + operationsAt n b
    | .equation a b => 1 + operationsAt n a + operationsAt n b
    | .comparison _ a b => 1 + operationsAt n a + operationsAt n b
    | _ => 0

variable (e : Symbolic)

def operations : Nat := operationsAt e.depth e

def shortest (es : List Symbolic) : Symbolic :=
  es.foldl (fun best e => if e.operations < best.operations then e else best) e

/-! ## Forms -/

def joinExponentials (fs : List Symbolic) : Symbolic :=
  let exponents := fs.filterMap fun
    | .apply "exp" [u] => some u
    | .euler => some one
    | _ => none
  let others := fs.filter fun
    | .apply "exp" _ => false
    | .euler => false
    | _ => true
  if exponents.length < 2 then productOf fs else productOf (exponential (sumOf exponents) :: others)

def joinPowers : Symbolic → Symbolic
  | .sum ts => sumOf (ts.map joinPowers)
  | .product fs => joinExponentials (fs.map joinPowers)
  | .power b e => pow (joinPowers b) (joinPowers e)
  | .apply f xs => applyAll f (xs.map joinPowers)
  | e => e

def commonFactor (ts : List Symbolic) : List Symbolic :=
  match ts.map fun t => t.factors.2.map wholePower with
  | [] => []
  | first :: rest =>
    first.filterMap fun (b, k) =>
      let ks := rest.map fun ps => ((ps.find? (·.1 == b)).map (·.2)).getD 0
      let least := ks.foldl min k
      if 0 < least then some (pow b (.number (least : Rat))) else none

def takeCommon : Symbolic :=
  match e with
  | .sum ts =>
    match commonFactor ts with
    | [] => e
    | common =>
      let n := ts.foldl (fun (g : Nat) t => Nat.gcd g t.coefficient.num.natAbs) 0
      let d := ts.foldl (fun (l : Nat) t => Nat.lcm l t.coefficient.den) 1
      let m := productOf (.number (mkRat n d) :: common)
      productOf (.number (mkRat n d) :: common ++ [sumOf (ts.map fun t => div t m)])
  | e => e

def angles : Symbolic → List Symbolic
  | .apply "sin" [u] | .apply "cos" [u] | .apply "tan" [u] => [u]
  | .sum xs | .product xs | .apply _ xs => xs.flatMap angles
  | .power a b => angles a ++ angles b
  | _ => []

def replaceSquares (f g : Symbolic) (e : Symbolic) : Symbolic :=
  expand (sumOf ((expand e).terms.map fun t =>
    let (c, fs) := t.factors
    productOf (.number c :: fs.map fun h =>
      match wholePower h with
      | (b, k) =>
        if b == f && 2 ≤ k then
          mul (pow (sub one (pow g (.number 2))) (.number ((k / 2 : Int) : Rat))) (pow f (.number ((k % 2 : Int) : Rat)))
        else h)))

def doubleAngle (u e : Symbolic) : List Symbolic :=
  let s := Symbolic.apply "sin" [u]
  let c := Symbolic.apply "cos" [u]
  let double := scale 2 u
  let bySine := match e with
    | .product fs =>
      if fs.any (· == s) && fs.any (· == c) then
        [productOf (.number (mkRat 1 2) :: applyFunction "sin" double :: fs.filter fun f => !(f == s || f == c))]
      else []
    | _ => []
  let cosine := applyFunction "cos" double
  let byCosine := [(sub (scale 2 (pow c (.number 2))) one), (sub one (scale 2 (pow s (.number 2))))].flatMap fun form =>
    if form == e then [cosine] else if neg form == e then [neg cosine] else []
  let byTangent := match e with
    | .product fs =>
      let inverted := pow c (.number (-1))
      if fs.any (· == s) && fs.any (· == inverted) then
        [productOf (applyFunction "tan" u :: fs.filter fun f => !(f == s || f == inverted))]
      else []
    | _ => []
  bySine ++ byCosine ++ byTangent

def joinWaves : Symbolic :=
  let us := (angles e).foldl (fun acc u => if acc.any (· == u) then acc else acc ++ [u]) []
  us.foldl (fun e u =>
    let s := Symbolic.apply "sin" [u]
    let c := Symbolic.apply "cos" [u]
    let forms := [replaceSquares s c e, replaceSquares c s e]
    let all := e :: forms
    shortest e (forms ++ all.flatMap (doubleAngle u))) e

def simplifyExpression : Symbolic :=
  let start := joinPowers (carryOut e)
  let cancelled := cancel start
  let e1 := shortest cancelled [cancel (expand cancelled)]
  let e2 := if start.isPolynomial then shortest start [e1] else shortest e1 [start]
  let e3 := takeCommon e2
  let e4 := if (angles e3).isEmpty then e3 else joinWaves e3
  let e5 := shortest (joinPowers e4) [e4]
  let e6 := shortest e5 [cancel e5]
  let e7 := shortest e6 [takeCommon e6, expand e6]
  if 17 * e.operations < 10 * e7.operations then e else e7

def simplify : Symbolic → Symbolic
  | .lambda vs b => .lambda vs (simplifyExpression b)
  | e => simplifyExpression e

end SortedLogic.Symbolic

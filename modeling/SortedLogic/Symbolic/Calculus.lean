import SortedLogic.Symbolic.Polynomial

/-!
# Calculus of symbolic expressions

Derivatives, antiderivatives of simple products, and sums of polynomials by Bernoulli numbers.
-/

namespace SortedLogic.Symbolic

/-! ## Derivatives -/

def outerDerivative (f : String) (u : Symbolic) : Option Symbolic :=
  let square := pow u (.number 2)
  let circle := pow (sub one square) (.number (mkRat (-1) 2))
  match f with
  | "sin" => some (applyFunction "cos" u)
  | "cos" => some (neg (applyFunction "sin" u))
  | "tan" => some (add (pow (applyFunction "tan" u) (.number 2)) one)
  | "exp" => some (exponential u)
  | "log" => some (inverse u)
  | "asin" => some circle
  | "acos" => some (neg circle)
  | "atan" => some (inverse (add square one))
  | _ => none

def derivative (x : String) : Symbolic → Symbolic
  | .symbol y => if x = y then one else zero
  | .sum ts => sumOf (ts.map (derivative x))
  | .product fs =>
    let ds := fs.map (derivative x)
    sumOf ((fs.zip ds).zipIdx.map fun ((_, d), i) => productOf (fs.set i d))
  | .power b e =>
    let db := derivative x b
    if e.has x then
      let de := derivative x e
      mul (pow b e) (add (mul de (applyFunction "log" b)) (productOf [e, db, inverse b]))
    else productOf [e, pow b (sub e one), db]
  | .apply f [u] =>
    let du := derivative x u
    match outerDerivative f u with
    | some d => mul d du
    | none => if du.isZero then zero else .apply "Derivative" [.apply f [u], .symbol x]
  | _ => zero

variable (x : String)
variable (e : Symbolic)

def unevaluatedDerivative : Symbolic :=
  if e.has x then .apply "Derivative" [e, .symbol x] else zero

def carryOut : Symbolic → Symbolic
  | .apply "Derivative" [e, .symbol x] => derivative x (carryOut e)
  | .sum ts => sumOf (ts.map carryOut)
  | .product fs => productOf (fs.map carryOut)
  | .power b e => pow (carryOut b) (carryOut e)
  | .apply f xs => applyAll f (xs.map carryOut)
  | .lambda vs b => .lambda vs (carryOut b)
  | .equation a b => .equation (carryOut a) (carryOut b)
  | .comparison s a b => .comparison s (carryOut a) (carryOut b)
  | e => e

/-! ## Polynomials in one symbol -/

def splitAt (t : Symbolic) : Symbolic × List Symbolic :=
  let (c, fs) := t.factors
  (productOf (.number c :: fs.filter fun f => !f.has x), fs.filter fun f => f.has x)

def exponentOf? : Symbolic → Option Rat
  | .symbol y => if x = y then some 1 else none
  | .power (.symbol y) (.number q) => if x = y then some q else none
  | _ => none

def monomialIn? (t : Symbolic) : Option (Symbolic × Nat) :=
  match splitAt x t with
  | (c, []) => some (c, 0)
  | (c, [f]) => do
    let q ← exponentOf? x f
    if q.den = 1 && 0 ≤ q.num then return (c, q.num.toNat) else none
  | _ => none

def coefficients? : Option (List Symbolic) := do
  let ms ← (expand e).terms.mapM (monomialIn? x)
  let degree := ms.foldl (fun d (_, k) => max d k) 0
  return (List.range (degree + 1)).map fun d => sumOf ((ms.filter (·.2 = d)).map (·.1))

def ofCoefficients (x : Symbolic) (cs : List Symbolic) : Symbolic :=
  sumOf (cs.zipIdx.map fun (c, k) => mul c (pow x (.number (k : Rat))))

def linear? : Option (Symbolic × Symbolic) :=
  match coefficients? x e with
  | some [b, a] => some (a, b)
  | _ => none

/-! ## Antiderivatives -/

/-- For the antiderivative of `P exp u`, where `u` has the slope `a`: the polynomial `Q` with `Q' + a Q = P`. -/
def exponentialCofactor (a : Symbolic) (cs : List Symbolic) : List Symbolic :=
  (cs.zipIdx.reverse.foldl (fun (acc : List Symbolic × Symbolic) (c, k) =>
    let q := cancel (div (sub c (scale ((k + 1 : Nat) : Rat) acc.2)) a)
    (q :: acc.1, q)) ([], zero)).1

def wavePart (x : String) (a u : Symbolic) (sine : Bool) : Nat → Symbolic
  | 0 =>
    if sine then neg (div (applyFunction "cos" u) a) else div (applyFunction "sin" u) a
  | n + 1 =>
    let p := pow (.symbol x) (.number ((n + 1 : Nat) : Rat))
    let outer := if sine then neg (div (applyFunction "cos" u) a) else div (applyFunction "sin" u) a
    let rest := scale ((n + 1 : Nat) : Rat) (div (wavePart x a u (!sine) n) a)
    if sine then add (mul p outer) rest else sub (mul p outer) rest

def wavePower (a u : Symbolic) (sine : Bool) : Nat → Symbolic
  | 0 => div u a
  | 1 => if sine then neg (div (applyFunction "cos" u) a) else div (applyFunction "sin" u) a
  | n + 2 =>
    let s := applyFunction "sin" u
    let c := applyFunction "cos" u
    let k : Rat := ((n + 2 : Nat) : Rat)
    let front := if sine then productOf [.number (-1 / k), c, pow s (.number (k - 1))]
      else productOf [.number (1 / k), s, pow c (.number (k - 1))]
    add (div front a) (scale ((k - 1) / k) (wavePower a u sine n))

def polynomialIntegral (x : Symbolic) (cs : List Symbolic) : Symbolic :=
  sumOf (cs.zipIdx.map fun (c, k) =>
    mul (expand (scale (1 / ((k + 1 : Nat) : Rat)) c)) (pow x (.number ((k + 1 : Nat) : Rat))))

def waveProduct? (a u : Symbolic) (n m : Nat) : Option Symbolic :=
  let s := applyFunction "sin" u
  let c := applyFunction "cos" u
  let t := Symbolic.symbol "t"
  let circle (k : Nat) : Symbolic := pow (sub one (pow t (.number 2))) (.number (k : Rat))
  let integrated (e at' : Symbolic) : Option Symbolic := do
    let cs ← coefficients? "t" e
    return div (substitute [("t", at')] (polynomialIntegral t cs)) a
  if m = 0 && n % 2 = 0 then some (wavePower a u true n)
  else if n = 0 && m % 2 = 0 then some (wavePower a u false m)
  else if n % 2 = 1 && (m % 2 = 0 || n < m) then
    integrated (neg (mul (circle ((n - 1) / 2)) (pow t (.number (m : Rat))))) c
  else if m % 2 = 1 then integrated (mul (pow t (.number (n : Rat))) (circle ((m - 1) / 2))) s
  else none

def wave? : Symbolic → Option (Bool × Symbolic × Nat)
  | .apply "sin" [u] => some (true, u, 1)
  | .apply "cos" [u] => some (false, u, 1)
  | .power (.apply "sin" [u]) (.number q) => if q.den = 1 && 0 < q.num then some (true, u, q.num.toNat) else none
  | .power (.apply "cos" [u]) (.number q) => if q.den = 1 && 0 < q.num then some (false, u, q.num.toNat) else none
  | _ => none

def factorIntegral? (fs : List Symbolic) : Option Symbolic :=
  let powers := fs.filter fun f => (exponentOf? x f).isSome
  let others := fs.filter fun f => (exponentOf? x f).isNone
  match powers.filterMap (exponentOf? x), others with
  | [q], [] =>
    if q = -1 then some (applyFunction "log" (.symbol x))
    else some (scale (1 / (q + 1)) (pow (.symbol x) (.number (q + 1))))
  | [], [.power b (.number q)] => do
    match wave? (.power b (.number q)) with
    | some (sine, u, k) =>
      let (a, _) ← linear? x u
      waveProduct? a u (if sine then k else 0) (if sine then 0 else k)
    | none =>
      let (a, _) ← linear? x b
      if q = -1 then return div (applyFunction "log" b) a
      else return div (scale (1 / (q + 1)) (pow b (.number (q + 1)))) a
  | qs, [f] => do
    let n ← match qs with
      | [] => some 0
      | [q] => if q.den = 1 && 0 ≤ q.num then some q.num.toNat else none
      | _ => none
    let (sine, u, k) ← wave? f
    if k ≠ 1 then none
    let (a, _) ← linear? x u
    return expand (wavePart x a u sine n)
  | [], [f, g] => do
    let (s, u, n) ← wave? f
    let (t, v, m) ← wave? g
    if s = t || u != v then none
    let (a, _) ← linear? x u
    if s then waveProduct? a u n m else waveProduct? a u m n
  | _, _ => none

def exponentialOf? (fs : List Symbolic) : Option Symbolic :=
  fs.findSome? fun
    | .apply "exp" [u] => some u
    | _ => none

def exponentialIntegral? (u : Symbolic) (ts : List Symbolic) : Option Symbolic := do
  let (a, _) ← linear? x u
  let cs ← coefficients? x (sumOf (ts.map fun t => div t (exponential u)))
  let q := ofCoefficients (.symbol x) (exponentialCofactor a cs)
  return mul (factorNumber q) (exponential u)
where
  factorNumber (e : Symbolic) : Symbolic :=
    let n := e.terms.foldl (fun (g : Nat) t => Nat.gcd g t.coefficient.num.natAbs) 0
    let d := e.terms.foldl (fun (l : Nat) t => Nat.lcm l t.coefficient.den) 1
    if n = 0 || !e.isSum then e
    else
      let c := mkRat n d
      if c = 1 then e else .product [.number c, scale (1 / c) e]

def antiderivative? : Option Symbolic :=
  match coefficients? x e with
  | some cs => some (polynomialIntegral (.symbol x) cs)
  | none => do
    let ts := (expand e).terms
    let us := (ts.filterMap fun t => exponentialOf? (splitAt x t).2).foldl
      (fun acc u => if acc.any (· == u) then acc else acc ++ [u]) []
    let byExponential ← us.mapM fun u =>
      exponentialIntegral? x u (ts.filter fun t => (exponentialOf? (splitAt x t).2).any (· == u))
    let others ← (ts.filter fun t => (exponentialOf? (splitAt x t).2).isNone).mapM fun t =>
      match splitAt x t with
      | (c, []) => some (mul c (.symbol x))
      | (c, fs) => mul c <$> factorIntegral? x fs
    return sumOf (byExponential ++ others)

/-! ## Sums -/

def binomial : Nat → Nat → Nat
  | _, 0 => 1
  | 0, _ + 1 => 0
  | n + 1, k + 1 => binomial n k + binomial n (k + 1)

def bernoulliNumbers : Nat → List Rat
  | 0 => [1]
  | n + 1 =>
    let bs := bernoulliNumbers n
    let s := bs.zipIdx.foldl (fun (acc : Rat) (b, k) => acc + (binomial (n + 2) k : Rat) * b) 0
    bs ++ [-s / ((n + 2 : Nat) : Rat)]

def bernoulli (n : Nat) (x : Symbolic) : Symbolic :=
  let bs := bernoulliNumbers n
  sumOf ((List.range (n + 1)).map fun k =>
    scale ((binomial n k : Rat) * bs.getD (n - k) 0) (pow x (.number (k : Rat))))

def powerSum (n : Nat) (a b : Symbolic) : Symbolic :=
  expand (scale (1 / ((n + 1 : Nat) : Rat)) (sub (bernoulli (n + 1) (add b one)) (bernoulli (n + 1) a)))

/-- Where `b` is smaller by more than one, it is the negative of the sum over the numbers between. -/
def summation? (a b e : Symbolic) : Option Symbolic :=
  match (sub b a).integer? with
  | some d =>
    let (first, count, sign) : Symbolic × Nat × Rat :=
      if d < 0 then (add b one, (-d - 1).toNat, -1) else (a, (d + 1).toNat, 1)
    some (scale sign (sumOf ((List.range count).map fun (k : Nat) =>
      substitute [(x, add first (.number (k : Rat)))] e)))
  | none => do
    let parts ← (expand e).terms.mapM fun t => do
      let (c, n) ← monomialIn? x t
      if n = 0 then return mul c (add (sub b a) one) else return mul c (powerSum n a b)
    return sumOf parts

end SortedLogic.Symbolic

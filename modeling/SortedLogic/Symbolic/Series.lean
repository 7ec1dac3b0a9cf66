import SortedLogic.Symbolic.Calculus

/-!
# Series and limits

A function near zero is a series that may start at a negative power. A limit is read off its first term.
-/

namespace SortedLogic.Symbolic

structure Series where
  start : Int
  coeffs : List Symbolic
  exact : Bool := true

namespace Series

def trimFrom : Int → List Symbolic → Int × List Symbolic
  | n, [] => (n, [])
  | n, c :: cs => if c.isZero then trimFrom (n + 1) cs else (n, c :: cs)

variable (len : Nat)

def make (start : Int) (cs : List Symbolic) (exact : Bool) : Series :=
  let (n, cs) := trimFrom start (cs.map expand)
  let rest := cs.drop len
  { start := n, coeffs := cs.take len, exact := exact && rest.all isZero }

def const (c : Symbolic) : Series := if c.isZero then ⟨0, [], true⟩ else ⟨0, [c], true⟩

def at' (s : Series) (n : Int) : Symbolic :=
  if n < s.start then zero else s.coeffs.getD (n - s.start).toNat zero

def add (len : Nat) (s t : Series) : Series :=
  if s.coeffs.isEmpty && s.exact then t
  else if t.coeffs.isEmpty && t.exact then s
  else
    let start := min s.start t.start
    let stop :=
      if s.exact && t.exact then max (s.start + s.coeffs.length) (t.start + t.coeffs.length)
      else if s.exact then t.start + t.coeffs.length
      else if t.exact then s.start + s.coeffs.length
      else min (s.start + s.coeffs.length) (t.start + t.coeffs.length)
    let cs := (List.range (stop - start).toNat).map fun (k : Nat) => Symbolic.add (s.at' (start + k)) (t.at' (start + k))
    make len start cs (s.exact && t.exact)

def mul (len : Nat) (s t : Series) : Series :=
  if (s.coeffs.isEmpty && s.exact) || (t.coeffs.isEmpty && t.exact) then ⟨0, [], true⟩
  else
    let start := s.start + t.start
    let count :=
      if s.exact && t.exact then s.coeffs.length + t.coeffs.length - 1
      else if s.exact then t.coeffs.length
      else if t.exact then s.coeffs.length
      else min s.coeffs.length t.coeffs.length
    let cs := (List.range count).map fun (k : Nat) =>
      sumOf ((List.range (k + 1)).map fun (i : Nat) =>
        Symbolic.mul (s.coeffs.getD i zero) (t.coeffs.getD (k - i) zero))
    make len start cs (s.exact && t.exact)

def scale (c : Symbolic) (s : Series) : Series := mul len (const c) s

def pow (len : Nat) (s : Series) : Nat → Series
  | 0 => const one
  | n + 1 => mul len (pow len s n) s

def compose (cs : List Symbolic) (s : Series) : Series :=
  let sum := cs.zipIdx.foldl (fun (acc : Series × Series) (c, _) =>
    (add len acc.1 (scale len c acc.2), mul len acc.2 s)) (⟨0, [], true⟩, const one)
  if sum.1.exact then
    { start := sum.1.start
      coeffs := (List.range len).map fun (k : Nat) => sum.1.at' (sum.1.start + k)
      exact := s.coeffs.isEmpty }
  else sum.1

def inverse? (s : Series) : Option Series :=
  match s.coeffs with
  | [] => none
  | c :: rest =>
    let u := make len 1 (rest.map fun d => div d c) s.exact
    let geometric := (List.range len).map fun (k : Nat) => integer (if k % 2 = 0 then 1 else -1)
    let inner := if u.coeffs.isEmpty && u.exact then const one else compose len geometric u
    let r := scale len (Symbolic.inverse c) inner
    some { r with start := r.start - s.start }

def factorial : Nat → Nat
  | 0 => 1
  | n + 1 => (n + 1) * factorial n

def exponentialCoefficients : List Symbolic :=
  (List.range len).map fun (k : Nat) => .number (mkRat 1 (factorial k))

def sineCoefficients : List Symbolic :=
  (List.range len).map fun (k : Nat) =>
    if k % 2 = 0 then zero else .number (mkRat (if k % 4 = 1 then 1 else -1) (factorial k))

def cosineCoefficients : List Symbolic :=
  (List.range len).map fun (k : Nat) =>
    if k % 2 = 1 then zero else .number (mkRat (if k % 4 = 0 then 1 else -1) (factorial k))

def logarithmCoefficients : List Symbolic :=
  (List.range len).map fun (k : Nat) => if k = 0 then zero else .number (mkRat (if k % 2 = 1 then 1 else -1) k)

def binomialCoefficients (q : Rat) (len : Nat) : List Symbolic :=
  ((List.range len).foldl (fun (acc : List Symbolic × Rat) (k : Nat) =>
    (acc.1 ++ [.number acc.2], acc.2 * (q - (k : Rat)) / ((k + 1 : Nat) : Rat))) ([], 1)).1

def function? (f : String) (s : Series) : Option Series :=
  if s.start < 0 && !s.coeffs.isEmpty then none
  else
    let c := s.at' 0
    let u := add len s (const (neg c))
    match f with
    | "exp" => some (scale len (exponential c) (compose len (exponentialCoefficients len) u))
    | "sin" => some (add len (scale len (applyFunction "sin" c) (compose len (cosineCoefficients len) u))
        (scale len (applyFunction "cos" c) (compose len (sineCoefficients len) u)))
    | "cos" => some (add len (scale len (applyFunction "cos" c) (compose len (cosineCoefficients len) u))
        (scale len (neg (applyFunction "sin" c)) (compose len (sineCoefficients len) u)))
    | "log" =>
      if c.isZero then none
      else some (add len (const (applyFunction "log" c))
        (compose len (logarithmCoefficients len) (scale len (Symbolic.inverse c) u)))
    | _ => none

def power? (s : Series) (q : Rat) : Option Series :=
  if q.den = 1 then
    if 0 ≤ q.num then some (pow len s q.num.toNat)
    else (inverse? len s).map fun r => pow len r q.num.natAbs
  else
    let c := s.at' 0
    if s.start < 0 || c.isZero then none
    else
      let u := add len s (const (neg c))
      some (scale len (Symbolic.pow c (.number q))
        (compose len (binomialCoefficients q len) (scale len (Symbolic.inverse c) u)))

end Series

def series? (len : Nat) (x : String) : Symbolic → Option Series
  | .symbol y => some (if x = y then ⟨1, [one], true⟩ else Series.const (.symbol y))
  | .sum ts => do return (← ts.mapM (series? len x)).foldl (Series.add len) ⟨0, [], true⟩
  | .product fs => do return (← fs.mapM (series? len x)).foldl (Series.mul len) (Series.const one)
  | .power b (.number q) => do Series.power? len (← series? len x b) q
  | .apply f [u] =>
    if u.has x then do
      match f with
      | "tan" =>
        let s ← series? len x u
        let c ← Series.function? len "cos" s
        return Series.mul len (← Series.function? len "sin" s) (← Series.inverse? len c)
      | f => Series.function? len f (← series? len x u)
    else some (Series.const (.apply f [u]))
  | e => if e.has x then none else some (Series.const e)

def seriesAt? (x : String) (place : Symbolic) (n : Nat) (e : Symbolic) : Option Symbolic := do
  if !e.has x then return e
  let near := substitute [(x, add (.symbol x) place)] e
  let s ← series? (n + 10) x near
  let distance := sub (.symbol x) place
  let power (k : Int) : Symbolic := pow distance (.number k)
  let known := (s.coeffs.zipIdx.filter fun (_, i) => s.start + i < n).map fun (c, i) => mul c (power (s.start + i))
  let complete := s.exact && s.start + s.coeffs.length ≤ n
  return sumOf (if complete then known else known ++ [.apply "Order" [power n]])

/-! ## Limits -/

def sign? (e : Symbolic) : Option Bool :=
  if e.isNumeric then some (0 < e.approximate) else none

def limitOfSeries? (s : Series) : Option Symbolic :=
  match s.coeffs with
  | [] => if s.exact then some zero else none
  | c :: _ =>
    if 0 < s.start then some zero
    else if s.start = 0 then some c
    else (sign? c).map fun positive => if positive then .infinity else .negativeInfinity

mutual
def limitOfParts? (x : String) : Symbolic → Option Symbolic
  | .sum ts => do defined? (sumOf (← limitsOfParts? x ts))
  | .product fs => do defined? (productOf (← limitsOfParts? x fs))
  | .power b e => do
    if e.has x then none
    match series? 8 x (.power b e) with
    | some s => limitOfSeries? s
    | none => defined? (pow (← limitOfParts? x b) e)
  | .apply f [u] => do
    let v ← limitOfParts? x u
    if v.isInfinite && !(f = "exp" || f = "log") then none
    else defined? (applyFunction f v)
  | .symbol y => some (if x = y then zero else .symbol y)
  | e => if e.has x then none else some e

def limitsOfParts? (x : String) : List Symbolic → Option (List Symbolic)
  | [] => some []
  | e :: es => do return (← limitOfParts? x e) :: (← limitsOfParts? x es)

def defined? (e : Symbolic) : Option Symbolic :=
  match e with
  | .undefined | .unsignedInfinity => none
  | e => some e
end

def limitAtZero? (x : String) (e : Symbolic) : Option Symbolic :=
  if !e.has x then some e
  else
    match (series? 12 x e).bind limitOfSeries? with
    | some l => some l
    | none => limitOfParts? x e

/-- The limit at a place, from above; at an infinite place, from inside. -/
def limit? (x : String) (place e : Symbolic) : Option Symbolic :=
  let at' (y : Symbolic) : Symbolic := substitute [(x, y)] e
  match place with
  | .infinity => limitAtZero? x (at' (inverse (.symbol x)))
  | .negativeInfinity => limitAtZero? x (at' (neg (inverse (.symbol x))))
  | place => limitAtZero? x (at' (add (.symbol x) place))

end SortedLogic.Symbolic

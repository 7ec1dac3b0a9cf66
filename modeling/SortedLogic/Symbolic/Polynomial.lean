import SortedLogic.Symbolic.Print

/-!
# Polynomials in several variables

Monomials with rational coefficients in falling lexical order, and common divisors by pseudo-division.
-/

namespace SortedLogic

abbrev Exponents := List Nat

structure Polynomial where
  terms : List (Exponents × Rat)

namespace Polynomial
variable (f : Polynomial)

def isZero : Bool := f.terms.isEmpty

def zero : Polynomial := ⟨[]⟩

def compareExponents : Exponents → Exponents → Ordering
  | m :: ms, n :: ns => if m < n then .lt else if n < m then .gt else compareExponents ms ns
  | [], [] => .eq
  | [], _ :: _ => .lt
  | _ :: _, [] => .gt

def insert (m : Exponents) (c : Rat) : List (Exponents × Rat) → List (Exponents × Rat)
  | [] => if c = 0 then [] else [(m, c)]
  | (n, d) :: rest =>
    match compareExponents m n with
    | .gt => if c = 0 then (n, d) :: rest else (m, c) :: (n, d) :: rest
    | .eq => if c + d = 0 then rest else (n, c + d) :: rest
    | .lt => (n, d) :: insert m c rest

def ofTerms (ts : List (Exponents × Rat)) : Polynomial := ⟨ts.foldl (fun acc (m, c) => insert m c acc) []⟩

def const (n : Nat) (c : Rat) : Polynomial := ofTerms [(List.replicate n 0, c)]

def variableAt (n i : Nat) : Polynomial := ⟨[((List.range n).map fun j => if i = j then 1 else 0, 1)]⟩

def add (f g : Polynomial) : Polynomial := ⟨g.terms.foldl (fun acc (m, c) => insert m c acc) f.terms⟩

def scale (c : Rat) (f : Polynomial) : Polynomial :=
  if c = 0 then zero else ⟨f.terms.map fun (m, d) => (m, c * d)⟩

def sub (f g : Polynomial) : Polynomial := f.add (g.scale (-1))

def shift (m : Exponents) (c : Rat) (f : Polynomial) : Polynomial :=
  if c = 0 then zero else ⟨f.terms.map fun (n, d) => (m.zipWith (· + ·) n, c * d)⟩

def mul (f g : Polynomial) : Polynomial := f.terms.foldl (fun acc (m, c) => acc.add (g.shift m c)) zero

def pow (vars : Nat) (f : Polynomial) : Nat → Polynomial
  | 0 => const vars 1
  | n + 1 => (pow vars f n).mul f

def same (f g : Polynomial) : Bool := (f.sub g).isZero

def number? : Option Rat :=
  match f.terms with
  | [] => some 0
  | [(m, c)] => if m.all (· = 0) then some c else none
  | _ => none

def leading : Rat := (f.terms.head?.map (·.2)).getD 0

/-! ## One variable -/

def degreeIn (i : Nat) (f : Polynomial) : Nat := f.terms.foldl (fun d (m, _) => max d (m.getD i 0)) 0

def coefficientIn (i d : Nat) (f : Polynomial) : Polynomial :=
  ofTerms ((f.terms.filter fun (m, _) => m.getD i 0 = d).map fun (m, c) => (m.set i 0, c))

def coefficientsIn (i : Nat) (f : Polynomial) : List Polynomial :=
  (List.range (f.degreeIn i + 1)).map fun d => f.coefficientIn i d

def raiseIn (i d : Nat) (f : Polynomial) : Polynomial :=
  ofTerms (f.terms.map fun (m, c) => (m.set i (m.getD i 0 + d), c))

def derivativeIn (i : Nat) (f : Polynomial) : Polynomial :=
  ofTerms ((f.terms.filter fun (m, _) => 0 < m.getD i 0).map fun (m, c) =>
    (m.set i (m.getD i 0 - 1), c * (m.getD i 0 : Rat)))

/-! ## Division -/

def exponentsLess? : Exponents → Exponents → Option Exponents
  | m :: ms, n :: ns => if n ≤ m then (exponentsLess? ms ns).map fun ks => (m - n) :: ks else none
  | [], [] => some []
  | _, _ => none

def quotientFrom : Nat → Polynomial → Polynomial → Polynomial → Option Polynomial
  | 0, _, _, _ => none
  | fuel + 1, f, g, q =>
    match f.terms, g.terms with
    | [], _ => some q
    | _, [] => none
    | (m, c) :: _, (n, d) :: _ =>
      match exponentsLess? m n with
      | none => none
      | some k => quotientFrom fuel (f.sub (g.shift k (c / d))) g (q.add ⟨[(k, c / d)]⟩)

def quotient? (f g : Polynomial) : Option Polynomial := quotientFrom 10000 f g zero

/-- Greatest common divisor of numerators over least common multiple of denominators, with the leading sign. -/
def content : Rat :=
  let n : Nat := f.terms.foldl (fun (g : Nat) (t : Exponents × Rat) => Nat.gcd g t.2.num.natAbs) 0
  let d : Nat := f.terms.foldl (fun (l : Nat) (t : Exponents × Rat) => Nat.lcm l t.2.den) 1
  if n = 0 then 1 else if f.leading < 0 then -(mkRat n d) else mkRat n d

def primitive : Polynomial := if f.isZero then f else f.scale (1 / f.content)

def pseudoRemainder (i : Nat) : Nat → Polynomial → Polynomial → Polynomial
  | 0, f, _ => f
  | fuel + 1, f, g =>
    let m := f.degreeIn i
    let n := g.degreeIn i
    if f.isZero || m < n then f
    else
      let a := f.coefficientIn i m
      let b := g.coefficientIn i n
      pseudoRemainder i fuel ((f.mul b).sub ((g.mul a).raiseIn i (m - n))).primitive g

def gcdFrom (vars : Nat) : Nat → Polynomial → Polynomial → Polynomial
  | 0, _, _ => const vars 1
  | fuel + 1, f, g =>
    if f.isZero then g.primitive
    else if g.isZero then f.primitive
    else
      match (List.range vars).find? fun i => 0 < f.degreeIn i || 0 < g.degreeIn i with
      | none => const vars 1
      | some i =>
        let contentOf (h : Polynomial) : Polynomial := (h.coefficientsIn i).foldl (gcdFrom vars fuel) zero
        let a := contentOf f
        let b := contentOf g
        let c := gcdFrom vars fuel a b
        let h := euclid i fuel ((f.quotient? a).getD f) ((g.quotient? b).getD g) contentOf
        (c.mul h).primitive
where
  euclid (i : Nat) : Nat → Polynomial → Polynomial → (Polynomial → Polynomial) → Polynomial
    | 0, _, _, _ => const vars 1
    | n + 1, f, g, contentOf =>
      if g.isZero then f
      else if g.degreeIn i = 0 then const vars 1
      else
        let r := pseudoRemainder i 1000 f g
        let r := if r.isZero then r else ((r.quotient? (contentOf r)).getD r).primitive
        euclid i n g r contentOf

def gcd (vars : Nat) (f g : Polynomial) : Polynomial := gcdFrom vars (4 * vars + 60) f g

/-! ## One variable -/

def valueAt (i : Nat) (x : Rat) (f : Polynomial) : Rat :=
  f.terms.foldl (fun acc (m, c) => acc + c * Rat.pow x (m.getD i 0)) 0

def divisors (n : Nat) : List Int :=
  let small := (List.range (min n 2000)).map (· + 1) |>.filter fun d => n % d = 0
  let all := (small ++ small.map fun d => n / d).eraseDups
  all.flatMap fun (d : Nat) => [(d : Int), -(d : Int)]

def places (count : Nat) : List Int :=
  (List.range count).map fun (k : Nat) => if k % 2 = 1 then ((k + 1) / 2 : Int) else -((k / 2 : Nat) : Int)

def interpolate (n i : Nat) (points : List (Int × Int)) : Polynomial :=
  points.foldl (fun acc (x, y) =>
    let others := points.filter (·.1 ≠ x)
    let basis := others.foldl (fun p (z, _) =>
      p.mul (((variableAt n i).sub (const n (z : Rat))).scale (1 / ((x : Rat) - z)))) (const n (y : Rat))
    acc.add basis) zero

def choices : List (List Int) → List (List Int)
  | [] => [[]]
  | xs :: rest => (xs.flatMap fun x => (choices rest).map (x :: ·)).take 200000

def factorOfDegree? (n i d : Nat) (f : Polynomial) : Option Polynomial :=
  let xs := places (d + 1)
  let values := xs.map fun (x : Int) => f.valueAt i (x : Rat)
  match (xs.zip values).find? (·.2 = 0) with
  | some (x, _) => some ((variableAt n i).sub (const n (x : Rat)))
  | none =>
    let options := values.map fun v => divisors v.num.natAbs
    let options := match options with
      | o :: os => (o.filter (0 < ·)) :: os
      | [] => []
    (choices options).findSome? fun ys =>
      let g := (interpolate n i (xs.zip ys)).primitive
      if g.degreeIn i = d && (f.quotient? g).isSome then some g else none

def splitOne? (n i : Nat) (f : Polynomial) : Option Polynomial :=
  (List.range (f.degreeIn i / 2)).findSome? fun k => factorOfDegree? n i (k + 1) f

/-! ## Several variables -/

def squareRoot? (q : Rat) : Option Rat :=
  let root? (n : Nat) : Option Nat := (List.range (min n 100000 + 1)).find? fun k => k * k = n
  if q < 0 then none
  else do
    let a ← root? q.num.natAbs
    let b ← root? q.den
    return mkRat a b

def counted (fs : List Polynomial) : List (Polynomial × Nat) :=
  fs.foldl (fun acc f =>
    if acc.any fun (g, _) => f.same g then acc.map fun (g, k) => if f.same g then (g, k + 1) else (g, k)
    else acc ++ [(f, 1)]) []

def factorsFrom (n : Nat) : Nat → Polynomial → List Polynomial
  | 0, f => [f]
  | fuel + 1, f =>
    let used := (List.range n).filter fun i => 0 < f.degreeIn i
    match used.mergeSort fun i j => f.degreeIn i ≤ f.degreeIn j with
    | [] => []
    | i :: _ =>
      let split (g : Polynomial) : List Polynomial :=
        match f.quotient? g with
        | some h => factorsFrom n fuel g.primitive ++ factorsFrom n fuel h.primitive
        | none => [f]
      let c := (f.coefficientsIn i).foldl (gcd n) zero
      if c.number?.isNone then split c
      else if f.degreeIn i = 1 then [f]
      else
        let g := gcd n f (f.derivativeIn i)
        if g.number?.isNone then split g
        else if used.length = 1 then
          match splitOne? n i f with
          | some g => split g
          | none => [f]
        else if f.degreeIn i = 2 then
          let a := f.coefficientIn i 2
          let b := f.coefficientIn i 1
          let disc := (b.mul b).sub ((a.mul (f.coefficientIn i 0)).scale 4)
          match rootFrom fuel disc with
          | none => [f]
          | some s =>
            let g := ((a.scale 2).raiseIn i 1).add (b.sub s)
            let c := (g.coefficientsIn i).foldl (gcd n) zero
            split ((g.quotient? c).getD g).primitive
        else [f]
where
  rootFrom (fuel : Nat) (f : Polynomial) : Option Polynomial :=
    if f.isZero then some f
    else
      let parts := counted (factorsFrom n fuel f.primitive)
      match squareRoot? f.content with
      | some c =>
        if parts.all fun (_, k) => k % 2 = 0 then
          some (parts.foldl (fun acc (g, k) => acc.mul (pow n g (k / 2))) (const n c))
        else none
      | none => none

def factorize (n : Nat) (f : Polynomial) : Rat × List (Polynomial × Nat) :=
  if f.isZero then (0, []) else (f.content, counted (factorsFrom n 60 f.primitive))

end Polynomial

namespace Symbolic

/-! ## Expanding -/

def distribute (fs : List Symbolic) : Symbolic :=
  sumOf (fs.foldl (fun acc f => acc.flatMap fun a => f.terms.map fun t => mul a t) [one])

def largestPower : Nat := 100

def expandPower (b e : Symbolic) : Symbolic :=
  match b, e with
  | .sum ts, .number q =>
    if q.den = 1 && 1 < q.num && q.num ≤ largestPower then
      (List.range (q.num.toNat - 1)).foldl (fun acc _ => distribute [acc, .sum ts]) (.sum ts)
    else pow b e
  | b, .sum es => productOf (es.map (pow b))
  | b, e => pow b e

def expandFunction (f : String) (xs : List Symbolic) : Symbolic :=
  match f, xs with
  | "exp", [.sum ts] => productOf (ts.map exponential)
  | f, xs => applyAll f xs

def expand : Symbolic → Symbolic
  | .sum ts => sumOf (ts.map expand)
  | .product fs => distribute (fs.map expand)
  | .power b e => expandPower (expand b) (expand e)
  | .apply f xs => expandFunction f (xs.map expand)
  | .lambda vs b => .lambda vs (expand b)
  | .equation a b => .equation (expand a) (expand b)
  | .comparison s a b => .comparison s (expand a) (expand b)
  | e => e

/-! ## Quotients of polynomials -/

def generators : Symbolic → List Symbolic
  | .number _ => []
  | .sum ts => ts.flatMap generators
  | .product fs => fs.flatMap generators
  | .power b (.number q) => if q.den = 1 then generators b else [(wholePower (.power b (.number q))).1]
  | e => [(wholePower e).1]

/-- Letters from `x` to `z` come first, then those from `p` to `w`, then the others; longer names come last. -/
def generatorPlace (name : String) : Nat :=
  match name.toList with
  | [c] =>
    if 'x' ≤ c && c ≤ 'z' then c.toNat
    else if 'p' ≤ c && c ≤ 'w' then 1000 + c.toNat
    else if 'a' ≤ c && c ≤ 'o' then 2000 + c.toNat
    else 3000
  | _ => 3000

variable (e : Symbolic)

def generatorsOf : List Symbolic :=
  let gens := (generators e).foldl (fun acc g => if acc.any (· == g) then acc else acc ++ [g]) []
  gens.mergeSort fun a b =>
    let p := generatorPlace a.text
    let q := generatorPlace b.text
    p < q || (p = q && a.text ≤ b.text)

structure Quotient where
  above : Polynomial
  below : Polynomial

def generatorPower? (gens : List Symbolic) (e : Symbolic) : Option Quotient := do
  let n := gens.length
  let (b, k) := wholePower e
  let i ← gens.findIdx? (· == b)
  let p := Polynomial.pow n (Polynomial.variableAt n i) k.natAbs
  return if 0 ≤ k then ⟨p, Polynomial.const n 1⟩ else ⟨Polynomial.const n 1, p⟩

def quotient? (gens : List Symbolic) : Symbolic → Option Quotient
  | .number q => some ⟨Polynomial.const gens.length q, Polynomial.const gens.length 1⟩
  | .sum ts => do
    let qs ← ts.mapM (quotient? gens)
    return qs.foldl (fun a b => ⟨(a.above.mul b.below).add (b.above.mul a.below), a.below.mul b.below⟩)
      ⟨Polynomial.zero, Polynomial.const gens.length 1⟩
  | .product fs => do
    let qs ← fs.mapM (quotient? gens)
    let unit := Polynomial.const gens.length 1
    return qs.foldl (fun a b => ⟨a.above.mul b.above, a.below.mul b.below⟩) ⟨unit, unit⟩
  | .power b (.number q) =>
    if q.den = 1 then do
      let r ← quotient? gens b
      let n := gens.length
      let k := q.num.natAbs
      let above := Polynomial.pow n r.above k
      let below := Polynomial.pow n r.below k
      return if 0 ≤ q.num then ⟨above, below⟩ else ⟨below, above⟩
    else generatorPower? gens (.power b (.number q))
  | e => generatorPower? gens e

def ofPolynomial (gens : List Symbolic) (f : Polynomial) : Symbolic :=
  sumOf (f.terms.map fun (m, c) =>
    productOf (.number c :: (gens.zip m).map fun (g, k) => pow g (.number (k : Rat))))

def lowest (n : Nat) (q : Quotient) : Rat × Polynomial × Polynomial :=
  let g := Polynomial.gcd n q.above q.below
  let above := (q.above.quotient? g).getD q.above
  let below := (q.below.quotient? g).getD q.below
  (above.content / below.content, above.primitive, below.primitive)

/-- Cancels the common divisor of numerator and denominator, and multiplies both out. -/
def cancel : Symbolic :=
  let gens := generatorsOf e
  match quotient? gens e with
  | none => e
  | some q =>
    if q.above.isZero then zero
    else if q.below.isZero then .unsignedInfinity
    else
      let (c, above, below) := lowest gens.length q
      match below.number? with
      | some d => ofPolynomial gens (above.scale (c / d))
      | none =>
        div (ofPolynomial gens (above.scale (c.num : Rat))) (ofPolynomial gens (below.scale (c.den : Rat)))

def isPolynomial : Bool :=
  match quotient? (generatorsOf e) e with
  | some q => q.below.number?.isSome
  | none => false

def factor : Symbolic :=
  let gens := generatorsOf e
  match quotient? gens e with
  | none => e
  | some q =>
    if q.above.isZero then zero
    else if q.below.isZero then e
    else
      let n := gens.length
      let (c, above, below) := lowest n q
      let (a, fs) := above.factorize n
      let (b, gs) := below.factorize n
      productOf (.number (c * a / b) ::
        fs.map (fun (f, k) => pow (ofPolynomial gens f) (.number (k : Rat))) ++
        gs.map (fun (g, k) => pow (ofPolynomial gens g) (.number (-(k : Rat)))))

end Symbolic
end SortedLogic

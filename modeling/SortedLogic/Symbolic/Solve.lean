import SortedLogic.Symbolic.Calculus

/-!
# Solving equations

Linear systems by elimination, polynomials by factors of degree one and two.
-/

namespace SortedLogic.Symbolic

abbrev Solution := List (String × Symbolic)

/-! ## Linear systems -/

variable (vs : List String)

def linearRow? (e : Symbolic) : Option (List Symbolic × Symbolic) := do
  let parts ← (expand e).terms.mapM fun t => do
    let (c, fs) := t.factors
    let unknown := fs.filter fun f => vs.any f.has
    let known := productOf (.number c :: fs.filter fun f => !vs.any f.has)
    match unknown with
    | [] => some (none, known)
    | [.symbol v] => some (some v, known)
    | _ => none
  let coefficient (v : Option String) : Symbolic := sumOf ((parts.filter (·.1 = v)).map (·.2))
  return (vs.map fun v => coefficient (some v), coefficient none)

abbrev Row := List Symbolic

def scaleRow (c : Symbolic) (r : Row) : Row := r.map fun e => cancel (mul c e)

def reduceRow (i : Nat) (pivot r : Row) : Row :=
  let c := r.getD i zero
  if c.isZero then r else (r.zip pivot).map fun (a, b) => cancel (sub a (mul c b))

def eliminate (columns : Nat) : Nat → Nat → List (Nat × Row) → List Row → List (Nat × Row) × List Row
  | 0, _, done, rest => (done, rest)
  | fuel + 1, i, done, rest =>
    if columns ≤ i then (done, rest)
    else
      match rest.findIdx? fun r => !(r.getD i zero).isZero with
      | none => eliminate columns fuel (i + 1) done rest
      | some k =>
        let r := rest.getD k []
        let pivot := scaleRow (inverse (r.getD i zero)) r
        let others := (rest.eraseIdx k).map (reduceRow i pivot)
        let done := done.map fun (j, q) => (j, reduceRow i pivot q)
        eliminate columns fuel (i + 1) (done ++ [(i, pivot)]) others

def solveLinear? (es : List Symbolic) : Option (List Solution) := do
  let rows ← es.mapM fun e => do
    let (cs, c) ← linearRow? vs e
    return cs ++ [c]
  let n := vs.length
  let (pivots, rest) := eliminate n (n + 1) 0 [] rows
  if rest.any fun r => !(r.getD n zero).isZero then return []
  let solution := pivots.map fun (i, r) =>
    let free := (List.range n).filter fun j => j ≠ i
    (vs.getD i "", neg (sumOf (r.getD n zero :: free.map fun j => mul (r.getD j zero) (.symbol (vs.getD j "")))))
  return if solution.isEmpty then [] else [solution]

/-! ## One unknown -/

def quadraticRoots (a b c : Symbolic) : List Symbolic :=
  let disc := expand (sub (pow b (.number 2)) (scale 4 (mul a c)))
  let root := pow disc (.number (mkRat 1 2))
  let below := inverse (scale 2 a)
  [mul below (sub (neg b) root), mul below (add (neg b) root)]

def rationalRoots? (x : String) (e : Symbolic) : Option (List Symbolic) := do
  let gens := [Symbolic.symbol x]
  let q ← quotient? gens e
  let (_, fs) := q.above.factorize 1
  let roots ← fs.mapM fun (f, _) => do
    match f.coefficientsIn 0 |>.map fun c => c.number?.getD 0 with
    | [b, a] => some [.number (-b / a)]
    | [c, b, a] => some (quadraticRoots (.number a) (.number b) (.number c))
    | _ => none
  return roots.flatten

def functionsOf (x : String) (e : Symbolic) : List (String × Symbolic) :=
  ((expand e).terms.flatMap fun t => (splitAt x t).2).filterMap fun
    | .apply f [u] => some (f, u)
    | _ => none

def functionInverses? (f : String) (c : Symbolic) : Option (List Symbolic) :=
  match f with
  | "cos" =>
    let a := applyFunction "acos" c
    some [a, sub (scale 2 .circleRatio) a]
  | "sin" =>
    let a := applyFunction "asin" c
    some [a, sub .circleRatio a]
  | "tan" => some [applyFunction "atan" c]
  | "exp" => some [applyFunction "log" c]
  | _ => none

def roots? (x : String) (e : Symbolic) : Option (List Symbolic) :=
  match rationalRoots? x e with
  | some roots => some roots
  | none =>
    match coefficients? x e with
    | some [b, a] => some [neg (cancel (div b a))]
    | some [c, b, a] => some (quadraticRoots a b c)
    | _ => do
      match functionsOf x e with
      | [] => none
      | (f, u) :: _ =>
        let inner := Symbolic.apply f [u]
        let e' := sumOf ((expand e).terms.map fun t =>
          let (c, fs) := t.factors
          productOf (.number c :: fs.map fun g => if g == inner then .symbol "t" else g))
        let (a, b) ← linear? "t" e'
        if a.has x || b.has x then none
        let values ← functionInverses? f (neg (div b a))
        let (k, d) ← linear? x u
        return values.map fun v => div (sub v d) k

/-! ## Systems -/

def solvable? (e : Symbolic) : Option (String × Symbolic) :=
  vs.findSome? fun v =>
    match linear? v e with
    | some (.number a, b) => some (v, neg (expand (scale (1 / a) b)))
    | _ => none

def solveFrom : Nat → List String → List Symbolic → Option (List Solution)
  | 0, _, _ => none
  | fuel + 1, vs, es =>
    let es := (es.map expand).filter fun e => !e.isZero
    if es.any fun e => !vs.any e.has then some []
    else
      match solveLinear? vs es with
      | some solutions => some solutions
      | none => do
        match es.zipIdx.findSome? fun (e, i) => (solvable? vs e).map fun s => (s, i) with
        | some ((v, value), i) =>
          if es.length = 1 then return [[(v, value)]]
          let rest := (es.eraseIdx i).map fun e => expand (substitute [(v, value)] e)
          let solutions ← solveFrom fuel (vs.filter (· ≠ v)) rest
          return solutions.map fun s => (v, expand (substitute s value)) :: s
        | none =>
          match es, vs.filter fun v => es.any (·.has v) with
          | [e], [v] => do
            let roots ← roots? v e
            let distinct := roots.foldl (fun acc r => if acc.any (· == r) then acc else acc ++ [r]) []
            return distinct.map fun r => [(v, r)]
          | _, _ => none

def solve? (es : List Symbolic) : Option (List Solution) := do
  let solutions ← solveFrom (es.length + 2) vs (es.map fun e => expand e)
  let values (s : Solution) : Key :=
    .row (vs.filterMap fun v => (s.find? (·.1 = v)).map fun (_, e) => e.key)
  return solutions.mergeSort fun s t => (values s).compare (values t) != .gt

end SortedLogic.Symbolic

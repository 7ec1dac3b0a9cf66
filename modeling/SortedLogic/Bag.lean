import SortedLogic.Fault

/-!
# Bags

Lists of names with counts, sorted by name. The operations walk two bags side by side, sorted or not.
-/

namespace SortedLogic

abbrev Bag := List (String × Int)

namespace Bag

/-- The least bag that contains both, and whether they share a name. -/
def join : Bag → Bag → Bag × Bool
  | [], ys => (ys, false)
  | xs, [] => (xs, false)
  | (x, n) :: xs, (y, m) :: ys =>
    if x < y then
      let (r, b) := join xs ((y, m) :: ys)
      ((x, n) :: r, b)
    else if y < x then
      let (r, b) := join ((x, n) :: xs) ys
      ((y, m) :: r, b)
    else
      let (r, _) := join xs ys
      ((x, max n m) :: r, true)
termination_by xs ys => xs.length + ys.length

def overlap? (xs ys : Bag) : Option Bag :=
  let (r, shared) := join xs ys
  if shared then some r else none

def add : Bag → Bag → Bag
  | [], ys => ys
  | xs, [] => xs
  | (x, n) :: xs, (y, m) :: ys =>
    if x < y then (x, n) :: add xs ((y, m) :: ys)
    else if y < x then (y, m) :: add ((x, n) :: xs) ys
    else (x, n + m) :: add xs ys
termination_by xs ys => xs.length + ys.length

/-- What is left of the first bag without the second, if it is contained in it. -/
def sub? : Bag → Bag → Option Bag
  | xs, [] => some xs
  | [], _ :: _ => none
  | (x, n) :: xs, (y, m) :: ys =>
    if x < y then (sub? xs ((y, m) :: ys)).map ((x, n) :: ·)
    else if y < x then none
    else if n = m then sub? xs ys
    else if m < n then (sub? xs ys).map ((x, n - m) :: ·)
    else none
termination_by xs ys => xs.length + ys.length

def count (xs : Bag) : Int := (xs.map (·.2)).foldl (· + ·) 0

/-- The first pair that differs decides: the greater name or, for one name, the greater count. -/
def dominates? : Bag → Bag → Option Bool
  | (x, n) :: xs, (y, m) :: ys =>
    if x < y then some false
    else if y < x then some true
    else if n < m then some false
    else if m < n then some true
    else dominates? xs ys
  | _, _ => none

def order? (xs ys : Bag) : Option (Bag × Bag) :=
  (dominates? xs ys).map fun b => if b then (xs, ys) else (ys, xs)

def shortlex? (xs ys : Bag) : Option (Bag × Bag) :=
  if count xs < count ys then some (ys, xs)
  else if count ys < count xs then some (xs, ys)
  else order? xs ys

/-! ## Rewriting and completion of bags -/

abbrev Rule := Bag × Bag

def replace? (xs : Bag) (r : Rule) : Option Bag := (sub? xs r.1).map fun z => add z r.2

def sweep : List Rule → Bag → Bag × Bool
  | [], s => (s, false)
  | r :: rules, s =>
    match replace? s r with
    | some t => ((sweep rules t).1, true)
    | none => sweep rules s

def rewrite : Nat → List Rule → Bag → Checked Bag
  | 0, _, _ => .error .tooDeep
  | fuel + 1, rules, s =>
    let (t, applied) := sweep rules s
    if applied then rewrite fuel rules t else .ok t

def reducts (q r : Rule) : Checked (List Rule) :=
  match overlap? q.1 r.1 with
  | none => .ok []
  | some o =>
    match replace? o q, replace? o r with
    | some x, some y => .ok (if x = y then [] else [(x, y)])
    | _, _ => .error .violated

def deduceFrom : List Rule → List Rule → Checked (List Rule)
  | _, [] => .ok []
  | before, r :: rest => do
    let here ← before.mapM fun q => reducts q r
    return here.flatten ++ (← deduceFrom (before ++ [r]) rest)

def deduce (rules : List Rule) : Checked (List Rule) := deduceFrom [] rules

def addEquations (fuel : Nat) : List Rule → List Rule → Checked (List Rule × Bool)
  | [], rules => .ok (rules, false)
  | (l, r) :: rest, rules => do
    let l ← rewrite fuel rules l
    let r ← rewrite fuel rules r
    if l = r then addEquations fuel rest rules
    else match shortlex? l r with
      | none => throw .violated
      | some rule =>
        let (rules, _) ← addEquations fuel rest (rules ++ [rule])
        return (rules, true)

def completeFrom (fuel : Nat) : Nat → List Rule → List Rule → Checked (List Rule)
  | 0, _, _ => .error .tooDeep
  | rounds + 1, equations, rules => do
    let equations := equations ++ (← deduce rules)
    let (rules, added) ← addEquations fuel equations.reverse rules
    if added then completeFrom fuel rounds [] rules else return rules

def complete (fuel : Nat) (equations : List Rule) : Checked (List Rule) :=
  completeFrom fuel fuel equations []

end Bag
end SortedLogic

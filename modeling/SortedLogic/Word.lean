/-!
# Rewriting words

Words are lists of integers, rules are pairs of words. A sweep replaces the first occurrence of each left side in turn;
`rewrite` sweeps until nothing changes.
-/

namespace SortedLogic

abbrev Word := List Int

namespace Word

abbrev Rule := Word × Word

def indexOf? (s : Word) : Word → Option Nat
  | [] => if s.isEmpty then some 0 else none
  | c :: t => if s.isPrefixOf (c :: t) then some 0 else (indexOf? s t).map (· + 1)

def replaceFirst (s : Word) (r : Rule) : Word :=
  match indexOf? r.1 s with
  | some i => s.take i ++ r.2 ++ s.drop (i + r.1.length)
  | none => s

def sweep (rules : List Rule) (s : Word) : Word := rules.foldl replaceFirst s

def rewrite : Nat → List Rule → Word → Option Word
  | 0, _, _ => none
  | fuel + 1, rules, s =>
    let t := sweep rules s
    if t = s then some t else rewrite fuel rules t

/-- The first of two words of one length that differ has the smaller letter. -/
def lexLess : Word → Word → Bool
  | [], [] => false
  | [], _ :: _ => true
  | _ :: _, [] => false
  | a :: s, b :: t => a < b || (a == b && lexLess s t)

/-- Is `s` below `t`: shorter, or of the same length and earlier in the dictionary? -/
def shortlexLess (s t : Word) : Bool :=
  s.length < t.length || (s.length == t.length && lexLess s t)

/-- The two words, the greater one first. Equal words cannot be put in order. -/
def orient? (s t : Word) : Option Rule :=
  if shortlexLess s t then some (t, s) else if shortlexLess t s then some (s, t) else none

/-! ## Completion of word equations -/

/-- The two ways in which the ends of two words overlap by `n` letters. -/
def edgeOverlaps (s t : Word) (n : Nat) : List Word :=
  (if t.drop (t.length - n) = s.take n then [t ++ s.drop n] else []) ++
  (if s.drop (s.length - n) = t.take n then [s ++ t.drop n] else [])

/-- The words in which both `s` and `t` occur and meet; `s` is not longer than `t`. -/
def overlapsOrdered (s t : Word) : List Word :=
  (if (indexOf? s t).isSome then [t] else []) ++ (List.range (s.length - 1)).flatMap fun i => edgeOverlaps s t (i + 1)

def overlaps (s t : Word) : List Word :=
  if t.length < s.length then overlapsOrdered t s else overlapsOrdered s t

def reducts (fuel : Nat) (r q : Rule) (o : Word) : Option (List Rule) := do
  let x ← rewrite fuel [r] o
  let y ← rewrite fuel [q] o
  return if x = y then [] else [(x, y)]

/-- The equations from the overlaps of a rule with each rule before it. -/
def deduceFrom (fuel : Nat) : List Rule → List Rule → Option (List Rule)
  | _, [] => some []
  | before, r :: rest => do
    let here ← before.mapM fun q => do
      return (← (overlaps q.1 r.1).mapM (reducts fuel q r)).flatten
    return here.flatten ++ (← deduceFrom fuel (before ++ [r]) rest)

def deduce (fuel : Nat) (rules : List Rule) : Option (List Rule) := deduceFrom fuel [] rules

def addEquations (fuel : Nat) : List Rule → List Rule → Option (List Rule × Bool)
  | [], rules => some (rules, false)
  | (l, r) :: rest, rules => do
    let l ← rewrite fuel rules l
    let r ← rewrite fuel rules r
    match orient? l r with
    | none => addEquations fuel rest rules
    | some rule =>
      let (rules, _) ← addEquations fuel rest (rules ++ [rule])
      return (rules, true)

/-- Rounds of completion. The equations of a round are worked off from the last one on. -/
def completeFrom (fuel : Nat) : Nat → List Rule → List Rule → Option (List Rule)
  | 0, _, _ => none
  | rounds + 1, equations, rules => do
    let equations := equations ++ (← deduce fuel rules)
    let (rules, added) ← addEquations fuel equations.reverse rules
    if added then completeFrom fuel rounds [] rules else return rules

def complete (fuel : Nat) (equations : List Rule) : Option (List Rule) :=
  completeFrom fuel fuel equations []

/-- The left side is rewritten by the other rules, the right side by all. A rule whose left side stays is kept; one with two
different sides left becomes an equation. -/
def simplify (fuel : Nat) (rules : List Rule) : Option (List Rule × List Rule) :=
  go 0 rules
where
  go (i : Nat) : List Rule → Option (List Rule × List Rule)
    | [] => some ([], [])
    | (l, r) :: rest => do
      let l' ← rewrite fuel (rules.eraseIdx i) l
      let r' ← rewrite fuel rules r
      let (equations, kept) ← go (i + 1) rest
      return if l' = l then (equations, (l, r') :: kept)
        else if l' = r' then (equations, kept)
        else ((l', r') :: equations, kept)

end Word
end SortedLogic

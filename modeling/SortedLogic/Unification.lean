import SortedLogic.Matching

/-!
# Unification

Equations are solved from a stack, last argument first. A solved variable is replaced everywhere, so the pair (number of
unknowns, size of the stack) falls at each step.
-/

namespace SortedLogic

namespace Unification

def weight : List (Term × Term) → Nat
  | [] => 0
  | (a, b) :: rest => a.size + b.size + weight rest

theorem weight_append (as bs : List (Term × Term)) : weight (as ++ bs) = weight as + weight bs := by
  induction as with
  | nil => simp [weight]
  | cons p as ih => simp [weight, ih]; omega

theorem weight_reverse (as : List (Term × Term)) : weight as.reverse = weight as := by
  induction as with
  | nil => rfl
  | cons p as ih => simp [weight, weight_append, ih]; omega

theorem weight_zip_le (as bs : List Term) : weight (as.zip bs) ≤ Term.sizes as + Term.sizes bs := by
  induction as generalizing bs with
  | nil => simp [weight]
  | cons a as ih =>
    cases bs with
    | nil => simp [weight]
    | cons b bs => simp only [List.zip_cons_cons, weight, Term.sizes]; have := ih bs; omega

def replaceIn (x t : Term) (e : Term × Term) : Checked (Term × Term) :=
  return (← e.1.substitute [(x, t)], ← e.2.substitute [(x, t)])

def replaceInSolution (x t : Term) (σ : Substitution) : Checked Substitution :=
  σ.mapM fun (k, v) => return (k, ← v.substitute [(x, t)])

def without (x : Term) (vs : List Term) : List Term := vs.filter (· ≠ x)

theorem length_without_lt {x : Term} {vs : List Term} (h : vs.contains x = true) : (without x vs).length < vs.length := by
  have : x ∈ vs := by simpa using h
  exact List.length_filter_lt_length_iff_exists.2 ⟨x, this, by simp⟩

def solve (unknowns : List Term) (todo : List (Term × Term)) (σ : Substitution) : Checked (Option Substitution) :=
  match todo with
  | [] => .ok (some σ)
  | (a, b) :: rest =>
    if a = b then solve unknowns rest σ
    else if _known : unknowns.contains a then do
      if ← Term.occurs a b then return none
      let rest ← rest.mapM (replaceIn a b)
      let σ ← replaceInSolution a b σ
      solve (without a unknowns) rest (σ.set a b)
    else if _known : unknowns.contains b then do
      if ← Term.occurs b a then return none
      let rest ← rest.mapM (replaceIn b a)
      let σ ← replaceInSolution b a σ
      solve (without b unknowns) rest (σ.set b a)
    else match a, b with
      | .app f as, .app g bs =>
        if f = g then solve unknowns ((as.zip bs).reverse ++ rest) σ else .ok none
      | .app .., _ => .ok none
      | _, _ => .error (.failed (some "unexpected case"))
termination_by (unknowns.length, weight todo)
decreasing_by
  · apply Prod.Lex.right
    have := Term.size_pos a
    simp only [weight]; omega
  · exact Prod.Lex.left _ _ (length_without_lt _known)
  · exact Prod.Lex.left _ _ (length_without_lt _known)
  · apply Prod.Lex.right
    have := weight_zip_le as bs
    simp only [weight, weight_append, weight_reverse, Term.size]; omega

end Unification

namespace Term

/-- The most general terms for the constants `vs` that make `a` and `b` equal. -/
def unify (vs : List Term) (a b : Term) : Checked (Option Substitution) :=
  Unification.solve vs [(a, b)] []

def unifyLoose (a b : Term) : Checked (Option Substitution) :=
  Unification.solve ((a.subterms true ++ b.subterms true).filter isVar) [(a, b)] []

end Term
end SortedLogic

/-! ## Generalization -/

namespace SortedLogic.Generalization

/-- The variables made so far with the terms they stand for. -/
abbrev Table := List (List Term × Term)

def sameHead (f : Symbol) (n : Nat) (ts : List Term) : Bool :=
  ts.all fun
    | .app g args => f = g && args.length = n
    | _ => false

def columns (n : Nat) (ts : List Term) : List (List Term) :=
  (List.range n).map fun i => ts.filterMap fun t => t.children[i]?

mutual
/-- The pattern of a list of terms, which holds `t` and then `ts`. Finding the list in the table compares its terms with
themselves, which a sort with an equality of its own refuses. -/
def patternFrom (overloads : Srt → Bool) : Nat → Table → List Term → Fresh (Term × Table)
  | _, _, [] => throw .outOfRange
  | fuel, table, t :: ts => do
    if ts.all (· = t) then return (t, table)
    match table.find? (·.1 = t :: ts) with
    | some (_, z) => if overloads t.sort then illFormed else return (z, table)
    | none =>
      if !(t :: ts).all Term.isApp then throw (.failed (some "Unexpected case in antipattern"))
      match fuel, t with
      | fuel + 1, .app f args =>
        if sameHead f args.length ts then
          let (args, table) ← patternsFrom overloads fuel table (columns args.length (t :: ts))
          return (← f.apply args, table)
        else
          let z ← freshConst f.name t.sort
          return (z, table ++ [(t :: ts, z)])
      | _, _ => return (t, table)
termination_by fuel _ _ => (fuel, 0)

def patternsFrom (overloads : Srt → Bool) : Nat → Table → List (List Term) → Fresh (List Term × Table)
  | _, table, [] => return ([], table)
  | fuel, table, c :: cs => do
    let (p, table) ← patternFrom overloads fuel table c
    let (ps, table) ← patternsFrom overloads fuel table cs
    return (p :: ps, table)
termination_by fuel _ cs => (fuel, cs.length + 1)
end

/-- The variables and the pattern. All terms must have one sort. -/
def pattern (overloads : Srt → Bool) (ts : List Term) : Fresh (List Term × Term) :=
  match ts with
  | [] => throw .outOfRange
  | t :: _ => do
    if !ts.all (·.sort = t.sort) then throw .violated
    let (p, table) ← patternFrom overloads t.size [] ts
    return (table.map (·.2), p)

end SortedLogic.Generalization

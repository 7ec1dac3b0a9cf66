import SortedLogic.Rewrite.Step
import SortedLogic.World

/-!
# Search and hypotheses

Looking for theorems that speak about a symbol or match a term, and for the hypotheses that a theorem needs.
-/

namespace SortedLogic.Search

abbrev Library := List (String × Proof)

abbrev Hit := String × List (Option Term)

/-- The left side first, then the right side unless it is a constant. A theorem that is no rule does not match. -/
def hit? (t : Term) (pf : Proof) : Fresh (Option (List (Option Term))) := do
  match ← readable pf with
  | none => return none
  | some rule =>
    let found ← match ← Term.pmatchAnywhere rule.vars rule.lhs t true with
      | some m => pure (some m)
      | none =>
        if rule.rhs.isConst then pure none
        else Term.pmatchAnywhere rule.vars rule.rhs t true
    return found.map fun (_, σ) => rule.vars.map σ.get?
where
  readable (pf : Proof) : Fresh (Option Rewrite.Rule) :=
    tryCatch (some <$> Rewrite.Rule.ofTerm pf.thm none) fun
      | .notRule _ => return none
      | f => throw f

def byTerm (t : Term) (library : Library) : Fresh (List Hit) :=
  library.filterMapM fun (name, pf) => return (← hit? t pf).map (name, ·)

def bySymbol (f : Symbol) (library : Library) : List Hit :=
  library.filterMap fun (name, pf) => if pf.thm.symbols.contains f then some (name, []) else none

inductive Query where
  | symbol (f : Symbol)
  | term (t : Term)

def Query.run (q : Query) (library : Library) : Fresh (List Hit) :=
  match q with
  | .symbol f => return bySymbol f library
  | .term t => byTerm t library

def all (qs : List Query) (library : Library) : Fresh (List Hit) := do
  let results ← qs.mapM (·.run library)
  match results with
  | [] => outOfRange
  | first :: _ => return first.filter fun (name, _) => results.all fun r => r.any (·.1 = name)

def shrink (unsat : List Term → Bool) : List Term → List Term → List Term
  | kept, [] => kept
  | kept, f :: rest =>
    if unsat (kept ++ rest) then shrink unsat kept rest else shrink unsat (kept ++ [f]) rest

def prune (datatypes : List Datatype) (thm : Term) (hyps : List Term) : Checked (List Term) := do
  let goal ← thm.not
  let unsat := Prover.unsat datatypes
  if !unsat (goal :: hyps) then invalid "Theorem is not valid"
  let core := shrink unsat [] (hyps ++ [goal])
  if unsat hyps && !core.contains goal then invalid "Hypotheses are inconsistent"
  return core.dropLast

def checkConsistent (datatypes : List Datatype) (thms : List Term) : Checked Unit :=
  if Prover.unsat datatypes thms then invalid "Theorems are inconsistent" else .ok ()

end SortedLogic.Search

/-! ## Values -/

namespace SortedLogic.Models

abbrev Finder := (formulas expressions : List Term) → Option (List Term)

def values (datatypes : List Datatype) : Nat → Srt → List Term
  | _, .bool => [.ff, .tt]
  | _, .bitvec w => (List.range (Nat.pow 2 w)).map fun (v : Nat) => .bits v w
  | 0, _ => []
  | fuel + 1, s =>
    match datatypes.find? (·.sort = s) with
    | none => []
    | some d => d.constructors.flatMap fun c =>
      let choices := c.symbol.domain.foldr (fun r acc =>
        (values datatypes fuel r).flatMap fun v => acc.map (v :: ·)) [[]]
      choices.map fun args => .app c.symbol args

def finiteConsts (datatypes : List Datatype) (ts : List Term) : List Term :=
  (ts.flatMap fun t => (t.subterms true).filter fun u =>
    u.isBindable && Prover.isFinite datatypes datatypes.length u.sort).eraseDups

def assignments (datatypes : List Datatype) : List Term → List Substitution
  | [] => [[]]
  | x :: xs =>
    (values datatypes datatypes.length x.sort).flatMap fun v =>
      (assignments datatypes xs).map ((x, v) :: ·)

def Finder.exhaustive (datatypes : List Datatype) : Finder := fun formulas expressions =>
  (assignments datatypes (finiteConsts datatypes (formulas ++ expressions))).findSome? fun σ =>
    let see (t : Term) : Term := Ground.simplify (t.replaceAll σ)
    let formulas := formulas.map see
    if formulas.contains .ff || (!formulas.all (· = .tt) && Prover.unsat datatypes formulas) then none
    else some (expressions.map see)

/-- After each tuple every expression is asked to differ from its value in it. -/
def allValuesFrom (find : Finder) (es : List Term) : Nat → List Term → Checked (List (List Term))
  | 0, _ => .ok []
  | fuel + 1, formulas =>
    match find formulas es with
    | none => .ok []
    | some vs => do
      let blocks ← (es.zip vs).mapM fun (e, v) => e.neq v
      return vs :: (← allValuesFrom find es fuel (formulas ++ blocks))

def allValues (find : Finder) (limit : Nat) (es : List Term) : Checked (List (List Term)) :=
  allValuesFrom find es limit []

def generate (find : Finder) (limit : Nat) (x : Term) (formulas : List Term) : Checked (List Term) :=
  return (← allValuesFrom find [x] limit formulas).flatten

end SortedLogic.Models

import SortedLogic.Grammar
import SortedLogic.Quantify
import SortedLogic.Rewrite.Step

/-!
# Programs as formulas

All terms of a program have one sort. A name that starts with a capital is a variable; a query asks for values.
-/

namespace SortedLogic.Horn
open Grammar (Tree)

def thing : Srt := .uninterpreted "Term"

structure Clause where
  vars : List Term
  formula : Term

structure Query where
  vars : List Term
  goals : List Term

structure Program where
  clauses : List Clause := []
  queries : List Query := []

mutual
def term : Tree → Checked Term
  | .node _ [.token _ x] => return .const (← Text.checkName x) thing
  | .node _ [.token _ f, .node _ args] => do
    let ts ← terms args
    Symbol.apply ⟨← Text.checkName f, ts.map fun _ => thing, thing, .free⟩ ts
  | _ => .error .noParse

def terms : List Tree → Checked (List Term)
  | [] => .ok []
  | t :: ts => do return (← term t) :: (← terms ts)
end

/-- A predicate of terms. One without arguments has no place for them either. -/
def atom : Tree → Checked Term
  | .node _ [.token _ p, .node _ args] => do
    let ts ← terms args
    Symbol.apply ⟨← Text.checkName p, ts.map fun _ => thing, .bool, .free⟩ ts
  | _ => .error .outOfRange

def isVariable : Term → Bool
  | .app f [] => f.name.toList.head?.any Grammar.isUpper
  | _ => false

def variablesOf : Term → List Term
  | .app f args => if isVariable (.app f args) then [.app f args] else args.flatMap variablesOf
  | _ => []

def variablesIn (ts : List Term) : List Term := (ts.flatMap variablesOf).eraseDups

def statement (p : Program) : Tree → Checked Program
  | .node "fact" [t] => do
    let a ← atom t
    return { p with clauses := p.clauses ++ [⟨variablesIn [a], a⟩] }
  | .node "rule" [t, .node _ body] => do
    let head ← atom t
    let body ← body.mapM atom
    let e ← (← Term.and body).implies head
    return { p with clauses := p.clauses ++ [⟨variablesIn (head :: body), e⟩] }
  | .node "query" [.node _ goals] => do
    let goals ← goals.mapM atom
    return { p with queries := p.queries ++ [⟨variablesIn goals, goals⟩] }
  | _ => .error .noParse

def Program.read (s : String) : Checked Program :=
  match Grammar.HornClause.parse s with
  | some (.node _ ss) => ss.foldlM statement {}
  | _ => .error .noParse

def Clause.toTerm (c : Clause) : Checked Term :=
  if c.vars.isEmpty then .ok c.formula else c.formula.quantify .forall c.vars

/-! ## Resolution -/

open Rewrite (HornRule)

/-- The unknowns, the goals (the last one is next) and the values so far. -/
structure Branch where
  unknowns : List Term
  goals : List Term
  values : Substitution

structure Answer where
  unknowns : List Term
  values : Substitution

def Substitution.compose (σ τ : Substitution) : Checked Substitution := do
  let moved ← σ.mapM fun (x, t) => return (x, ← t.substitute τ)
  return τ.foldl (fun acc (x, t) => Substitution.set acc x t) moved

def resolve (b : Branch) (goals : List Term) (goal : Term) (r : HornRule) : Fresh (Option Branch) := do
  let r ← r.freshen
  let unknowns := b.unknowns ++ r.vars
  match ← Term.unify unknowns r.conc goal with
  | none => return none
  | some σ =>
    return some {
      unknowns := unknowns.eraseDups.filter fun x => !σ.any (·.1 = x)
      goals := goals ++ [← r.hyp.substitute σ]
      values := ← Substitution.compose b.values σ }

def expand (rules : List HornRule) (b : Branch) (goals : List Term) (goal : Term) : Fresh (List Branch) :=
  if goal = .tt then return [{ b with goals }]
  else if goal = .ff then return []
  else match goal with
    | .app f args =>
      if f.isOp "and" then return [{ b with goals := goals ++ args.reverse }]
      else if f.isOp "or" then return (args.map fun a => { b with goals := goals ++ [a] }).reverse
      else byRules
    | _ => byRules
where
  byRules : Fresh (List Branch) := do
    let bs ← rules.reverse.mapM (resolve b goals goal)
    return (bs.filterMap id).reverse

def search (rules : List HornRule) (asked : List Term) : Nat → Nat → List Branch → Fresh (List Answer)
  | 0, _, _ => throw .tooDeep
  | _, _, [] => return []
  | _, 0, _ => return []
  | fuel + 1, limit + 1, b :: todo =>
    match b.goals.getLast? with
    | none => do
      let answer : Answer := ⟨b.unknowns, b.values.filter fun (x, _) => asked.contains x⟩
      return answer :: (← search rules asked fuel limit todo)
    | some goal => do
      let next ← expand rules b b.goals.dropLast goal
      search rules asked fuel (limit + 1) (next ++ todo)

/-- The steps that programs are run for. -/
def maxSteps : Nat := 1000000

/-- At most `limit` answers. A search that is not at its end after `fuel` steps is refused. -/
def solve (fuel : Nat) (vars goals : List Term) (rules : List Term) (limit : Nat) : Fresh (List Answer) := do
  let rules ← rules.reverse.mapM fun t => HornRule.ofTerm t none
  search rules.reverse vars fuel limit [⟨vars, goals, []⟩]

end SortedLogic.Horn

import SortedLogic.Command.Basic
import SortedLogic.Horn
import SortedLogic.Intuitionistic

/-!
# Commands that search for proofs and answers
-/

namespace SortedLogic.Command.Provers
open Intuitionistic
variable (r : Request)

def formulas (fs : List Formula) : Data := terms (fs.map Formula.toTerm)

def shownVisit : Visit → Data
  | .right settled pending goal => sequent "right" settled pending goal
  | .left settled pending goal => sequent "left" settled pending goal
  | .search settled goal => .list [.text "search", formulas settled, term goal.toTerm]
where
  sequent (side : String) (settled pending : List Formula) (goal : Formula) : Data :=
    .list [.text side, formulas settled, formulas pending.reverse, term goal.toTerm]

def shownSteps : Nat := 25

def intuitionistic : Answer := do
  let a := prove (Formula.ofTerm (← r.term "t"))
  return .record [("proved", .bool (← a.result)), ("steps", nat a.trace.length),
    ("trace", .each (a.trace.take shownSteps) shownVisit)]

/-! ## Programs of clauses -/

def sortedNames (vs : List Term) : Data := .ofTexts ((vs.map nameOf).mergeSort (· ≤ ·))

def program : Answer := do
  let p ← Horn.Program.read (r.str "text")
  return .record [
    ("clauses", .each p.clauses fun c => .record [("vs", sortedNames c.vars), ("clause", term c.formula)]),
    ("queries", .each p.queries fun q => .record [("vs", sortedNames q.vars), ("goals", terms q.goals)])]

def shownAnswer (a : Horn.Answer) : Data :=
  let (fresh, named) := a.unknowns.partition fun v => (nameOf v).contains '!'
  .record [("free", sortedNames named), ("fresh", nat fresh.length), ("subst", substitution a.values)]

def runProgram : Answer := do
  let p ← Horn.Program.read (r.str "text")
  let rules ← p.clauses.mapM fun c => (liftM c.toTerm : Session Term)
  match p.queries.find? (!·.goals.isEmpty) with
  | none => return .null
  | some q => return .each (← Horn.solve Horn.maxSteps q.vars q.goals rules Horn.maxSteps) shownAnswer

def resolution : Answer := do
  let limit := if r.has "limit" then (r.num "limit").toNat else 1000
  return .each (← Horn.solve Horn.maxSteps (← r.terms "vs") (← r.terms "goals") (← r.terms "rules") limit) shownAnswer

end SortedLogic.Command.Provers

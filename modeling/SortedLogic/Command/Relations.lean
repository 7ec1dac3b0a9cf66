import SortedLogic.Command.Basic
import SortedLogic.Relational

/-!
# Commands on relations kept as tables
-/

namespace SortedLogic.Command.Relations
open Relational
variable (naming : Naming) (r : Request)

def statement (t : Term) : Session Insert := do
  if t.sort ≠ .bool then
    throw (if t.sort.isDatatype then .invalid (some "Unsupported expression:") else .noField)
  let rule ← (liftM (Rewrite.HornRule.ofTerm t none) : Session Rewrite.HornRule)
  Insert.ofRule rule

def compile : Answer := return .text (← statement (← r.term "rule")).text

def rows (t : Table) : Data := .sorted t.rows fun row => .each row (.orNull .int)

def content (names : List String) (db : Database) : Data :=
  .record (names.eraseDups.map fun n => (n, ((db.table? n).map rows).getD (.list [])))

def run : Answer := do
  let signature ← (r.all "sig").mapM r.readSymbol
  let names := signature.map Symbol.name
  let db ← signature.foldlM (fun (db : Database) f => (liftM (db.declare f.name f.arity) : Session Database)) []
  let shown (db : Database) (done : Checked Data) : Data :=
    .record [("run", .text (match done with | .ok _ => "ok" | .error f => naming f)), ("tables", content names db)]
  answers (fun db t => do return (← (← statement t).run db, .ok .null)) shown db (← r.terms "rules")

end SortedLogic.Command.Relations

import SortedLogic.Command.Basic
import SortedLogic.Testing

/-!
# Commands that test formulas
-/

namespace SortedLogic.Command.Testing
variable (r : Request)

def quickCheck : Answer := do
  SortedLogic.Testing.check (← r.term "t")
  return .text "ok"

def sortOccurs : Answer := do
  let pairs ← r.pairs "pairs" r.readSort r.readSort
  let datatypes := (← theWorld).datatypes
  return .each pairs fun (s, t) => .bool (Datatype.occurs datatypes s t)

end SortedLogic.Command.Testing

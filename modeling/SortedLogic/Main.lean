import SortedLogic.Solver

/-!
# The command line

What is printed is the command that starts the solver, or what the launcher has to say.
-/

open SortedLogic.Solver in
def main (words : List String) : IO UInt32 := do
  let start := launch words 0
  match start.command with
  | some command => IO.println (" ".intercalate (command.map quotedWord))
  | none => IO.print start.output
  return if start.code.isSome then 1 else 0

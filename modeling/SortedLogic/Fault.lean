/-!
# Why an operation is refused

One type of causes for the whole library. A cause carries a text only where the text tells cases of it apart.
-/

namespace SortedLogic

inductive Fault where
  /-- A term, a sort or an application that the signature does not allow. -/
  | illFormed
  /-- A requirement that the operation states on its arguments does not hold. -/
  | violated
  | noField
  | noKey
  | outOfRange
  | wrongKind | divisionByZero | overflow | tooDeep
  | unprovable
  | badName
  | badSyntax | badIndentation
  | noParse
  | badStatement
  | unbound (name : String)
  | noModule
  | programFailed
  | buildFailed (message : String)
  | badObject (message : String)
  | notRule (message : String)
  | invalid (message : Option String)
  | unsupported (message : Option String)
  | badSignature (message : String)
  | failed (message : Option String)
  deriving DecidableEq

namespace Fault

def message? : Fault → Option String
  | .badObject m | .notRule m | .badSignature m | .buildFailed m => some m
  | .invalid m | .unsupported m | .failed m => m
  | .unbound x => some ("name '" ++ x ++ "' is not defined")
  | _ => none

end Fault

abbrev Checked := Except Fault

def Checked.guard (b : Bool) (f : Fault) : Checked Unit :=
  if b then .ok () else .error f

/-! ## Computations that are refused -/

section
variable {m : Type → Type} {α : Type} [MonadExceptOf Fault m]

abbrev illFormed : m α := throw Fault.illFormed
abbrev violated : m α := throw Fault.violated
abbrev wrongKind : m α := throw Fault.wrongKind
abbrev tooDeep : m α := throw Fault.tooDeep
abbrev noField : m α := throw Fault.noField
abbrev noKey : m α := throw Fault.noKey
abbrev badSyntax : m α := throw Fault.badSyntax
abbrev outOfRange : m α := throw Fault.outOfRange
abbrev noParse : m α := throw Fault.noParse
abbrev invalid (message : String) : m α := throw (Fault.invalid (some message))
abbrev unsupported (message : String) : m α := throw (Fault.unsupported (some message))
abbrev failed (message : String) : m α := throw (Fault.failed (some message))

end
end SortedLogic

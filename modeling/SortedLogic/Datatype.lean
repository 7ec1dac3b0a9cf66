import SortedLogic.Term.Build

/-!
# Datatypes

A datatype is a list of constructors, each with accessors and a recognizer.
-/

namespace SortedLogic

structure Constructor where
  symbol : Symbol
  accessors : List Symbol
  recognizer : Symbol
  deriving DecidableEq, Inhabited

structure Datatype where
  name : String
  constructors : List Constructor
  deriving DecidableEq

namespace Datatype

def sort (d : Datatype) : Srt := .datatype d.name

def make (name : String) (cons : List (String × Vars)) : Datatype :=
  let self : Srt := .datatype name
  ⟨name, cons.map fun (c, fields) =>
    { symbol := ⟨c, fields.map (·.2), self, .constructor⟩
      accessors := fields.zipIdx.map fun ((a, s), i) => ⟨a, [self], s, .accessor c i⟩
      recognizer := ⟨"is", [self], .bool, .recognizer c⟩ }⟩

def constructor? (d : Datatype) (name : String) : Option Constructor :=
  d.constructors.find? (·.symbol.name = name)

end Datatype
end SortedLogic

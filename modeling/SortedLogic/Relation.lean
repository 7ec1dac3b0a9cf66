import SortedLogic.Quantify

/-!
# Relations between terms

The relations `=`, `≤`, `<`, `>`, `≥`. Numbers and bitvectors (read with sign) have their own; other sorts need a method.
-/

namespace SortedLogic

inductive Relation where
  | eq | le | lt | gt | ge
  deriving DecidableEq

namespace Relation

def flip : Relation → Relation
  | .eq => .eq
  | .le => .ge
  | .lt => .gt
  | .gt => .lt
  | .ge => .le

def sign : Relation → String
  | .eq => "=="
  | .le => "<="
  | .lt => "<"
  | .gt => ">"
  | .ge => ">="

def method : Relation → String
  | .eq => "eq"
  | .le => "le"
  | .lt => "lt"
  | .gt => "gt"
  | .ge => "ge"

def signedName : Relation → String
  | .eq => "="
  | .le => "bvsle"
  | .lt => "bvslt"
  | .gt => "bvsgt"
  | .ge => "bvsge"

def floatName : Relation → String
  | .eq => "="
  | .le => "fp.leq"
  | .lt => "fp.lt"
  | .gt => "fp.gt"
  | .ge => "fp.geq"

end Relation

def World.order (w : World) (r : Relation) (a b : Term) : Checked Term :=
  let (r, a, b) := if b.outranks a then (r.flip, b, a) else (r, a, b)
  match a.sort with
  | .int | .real => do
    let (a, b) ← a.coerce b
    Term.op (.builtin r.sign [a.sort, a.sort] .bool) [a, b]
  | .bitvec _ => do
    let (a, b) ← a.coerce b
    Term.op (.builtin r.signedName [a.sort, a.sort] .bool) [a, b]
  | .float .. => do
    let (a, b) ← a.coerce b
    Term.op (.builtin r.floatName [a.sort, a.sort] .bool) [a, b]
  | s =>
    match w.method? r.method s with
    | some m => m.apply [a, b]
    | none => .error (.unsupported (some "No implementation of"))

def World.relate (w : World) (r : Relation) (a b : Term) : Checked Term :=
  match r with
  | .eq => w.equate a b
  | r => w.order r a b

end SortedLogic

import SortedLogic.Theory.Bounds

/-!
# Classes of structures

A class says which parts and laws a structure has to have. One that fails stays registered.
-/

namespace SortedLogic.Theory.Structures
open Vocabulary

abbrev Check := Call → Named → Srt → Session Named

def field (parts : Named) (x : String) : Session Value :=
  match parts.find? (·.1 = x) with
  | some (_, v) => return v
  | none => noField

def statedBy (parts : Named) (x : String) : Session Term := do
  let .proof p := ← field parts x | noField
  return p.thm

def xyz (s : Srt) : Named := ["x", "y", "z"].map fun x => (x, .term (.const x s))

variable (call : Call)
variable (theory : String)

def states (parts locals : Named) (x law : String) : Session Bool := do
  let thm ← statedBy parts x
  thm.alphaEq (← termText call theory (locals ++ parts) law)

def require (parts locals : Named) (x law : String) : Session Unit := do
  if !(← states call theory parts locals x law) then violated

def requireProperty (parts locals : Named) (x law : String) : Session Unit := do
  if !(← states call theory parts locals x law) then invalid "Property does not match"

def base (cls : String) (s : Srt) : Session Value := call (.structureClass cls) [.sort s] []

def withPart (parts : Named) (x : String) (v : Value) : Named := (x, v) :: parts.filter (·.1 ≠ x)

def withLaw (parts locals : Named) (x law : String) : Session Named := do
  let thm ← termText call theory (locals ++ parts) law
  return withPart parts x (.proof (.byProofs thm []))

def semigroup : Check := fun call parts s => do
  require call "algebra.group" parts (xyz s) "assoc" "forall x y z: x * (y * z) = (x * y) * z"
  return parts

def abelSemigroup : Check := fun call parts s => do
  let inner ← base call "Semigroup" s
  let parts := withPart parts "Semigroup" inner
  require call "algebra.group" parts (xyz s) "comm" "forall x y: x * y = y * x"
  let parts := withPart parts "assoc" (← part inner "assoc")
  withLaw call "algebra.group" parts (xyz s) "left_commute" "forall x y z: x * (y * z) = y * (x * z)"

def monoid : Check := fun call parts s => do
  let inner ← base call "Semigroup" s
  let parts := withPart parts "Semigroup" inner
  let parts := withPart parts "assoc" (← part inner "assoc")
  require call "algebra.group" parts (xyz s) "id_left" "forall x: e * x = x"
  require call "algebra.group" parts (xyz s) "id_right" "forall x: x * e = x"
  return parts

def group : Check := fun call parts s => do
  let inner ← base call "Monoid" s
  let parts := withPart parts "Monoid" inner
  let parts := withPart parts "e" (← part inner "e")
  let parts := withPart parts "assoc" (← part inner "assoc")
  require call "algebra.group" parts (xyz s) "inv_left" "forall x: inv(x) * x = e"
  require call "algebra.group" parts (xyz s) "inv_right" "forall x: x * inv(x) = e"
  return parts

def semiLattice : Check := fun call parts s => do
  let inner ← base call "AbelSemiGroup" s
  let parts := withPart parts "Group" inner
  require call "algebra.lattice" parts (xyz s) "idem" "forall x: x * x = x"
  let parts ← withLaw call "algebra.lattice" parts (xyz s) "left_idem" "forall x y: x * (x * y) = x * y"
  withLaw call "algebra.lattice" parts (xyz s) "right_idem" "forall x y: (y * x) * x = y * x"

def preOrder : Check := fun call parts s => do
  require call "algebra.ordering" parts (xyz s) "refl" "forall x: x <= x"
  require call "algebra.ordering" parts (xyz s) "trans" "every x y z where x <= y; y <= z: x <= z"
  require call "algebra.ordering" parts (xyz s) "less_le_not_le"
    "every x y: (x < y) = (x <= y and not (y <= x))"
  return parts

def topology : Check := fun call parts s => do
  let S ← aSort (← call (.native "set.Set" []) [.sort s] [])
  let SS ← aSort (← call (.native "set.Set" []) [.sort S] [])
  let parts := withPart parts "Set" (.sort S)
  let locals : Named := [("S", .sort S), ("A", .term (.const "A" S)), ("B", .term (.const "B" S)),
    ("K_", .term (.const "K" SS)), ("BigUnion", .native "set.BigUnion" [])]
  let laws := [("open_UNIV", "open(S.full)"),
    ("open_Int", "every A B where open(A); open(B): open(A & B)"),
    ("open_Union", "every K_ where (every A where K_[A]: open(A)): open(BigUnion(K_))")]
  for (x, law) in laws do
    requireProperty call "algebra.topology" parts locals x law
  let A := Term.const "A" S
  let d ← Kernel.define "closed" [A] (← termText call "algebra.topology" locals "open(~A)")
  return withPart parts "closed" (.symbol d.symbol)

/-- A sum that is associative. No structure passes: a part that states the law is refused as well. -/
def vectorSpace : Check := fun call parts s => do
  let scalar ← field parts "scalar"
  match scalar with
  | .sort _ => pure ()
  | _ => illFormed
  let _ ← field parts "smul"
  if ((← theWorld).method? "add" s).isNone then violated
  requireProperty call "algebra.vector" parts (xyz s) "add_assoc" "forall x y: x + (y + z) = (x + y) + z"
  violated

def normed : Check := fun call parts s => do
  let _ ← base call "VectorSpace" s
  return parts

def classes : List (String × Check) :=
  [("Semigroup", semigroup), ("AbelSemiGroup", abelSemigroup), ("Monoid", monoid), ("Group", group),
   ("SemiLattice", semiLattice), ("PreOrder", preOrder), ("Topology", topology), ("VectorSpace", vectorSpace),
   ("Normed", normed)]

def read (cls : String) (key : List Value) : Session Value := do
  let some k := key.mapM Index.of? | invalid "Not registered in typeclass"
  match (← theWorld).structure? cls k, classes.find? (·.1 = cls) with
  | none, _ => invalid "Not registered in typeclass"
  | some _, none => noKey
  | some parts, some (_, check) =>
    match key with
    | [.sort s] => .member cls <$> check call parts s
    | [_] => illFormed
    | _ => wrongKind

def register (cls : String) (key : List Value) (parts : Named) : Session Value := do
  let some k := key.mapM Index.of? | wrongKind
  if ((← theWorld).structure? cls k).isSome then invalid "Already registered key"
  changeWorld fun w => { w with structures := w.structures ++ [(cls, k, parts)] }
  read call cls key

def natives : Natives := [
  ("instance", fun call args _ =>
    match args with
    | .text cls :: key => read call cls key
    | _ => wrongKind),
  ("register", fun call args parts =>
    match args with
    | .text cls :: key => register call cls key parts
    | _ => wrongKind)]

end SortedLogic.Theory.Structures

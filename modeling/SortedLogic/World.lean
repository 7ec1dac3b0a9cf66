import SortedLogic.Prover
import SortedLogic.Value.Basic

/-!
# The world

What an operation may look up and add to: datatypes, definitions, methods for sorts, and the supply of names.
-/

namespace SortedLogic

structure Definition where
  name : String
  symbol : Symbol
  args : List Term
  body : Term
  law : Proof

inductive Method where
  | symbol (f : Symbol)
  | template (vars : List Term) (body : Term)
  /-- Well-formedness of a record: a condition `body` on the constant `v`, and well-formed fields. -/
  | record (condition : Option (Term × Term)) (fields : List Symbol)
  | structuralInduction
  /-- Induction on the integers, upward and downward from zero. -/
  | integerInduction
  | native (name : String)

inductive Index where
  | sort (s : Srt)
  | number (n : Int)
  deriving DecidableEq

structure World where
  next : Nat := 0
  datatypes : List Datatype := []
  definitions : List Definition := []
  methods : List (String × Srt × Method) := []
  admitting : Bool := true
  /-- The solver: does the last formula follow from the others? -/
  entails : List Datatype → List Term → Term → Fresh Bool := Prover.entails
  /-- The solver: can the formulas not hold together? -/
  unsat : List Datatype → List Term → Bool := Prover.unsat
  /-- The solver's simplifier. -/
  simplify : Term → Term := Ground.simplify
  /-- The names of each theory with their values; of two of one name the first holds. -/
  theories : List (String × List (String × Value)) := []
  /-- What is attached to sorts; of two of one name the first holds. -/
  attachments : List (Srt × String × Value) := []
  /-- What constructions gave for their arguments, so that each is carried out once. -/
  constructions : List (String × List Index × Value) := []
  /-- The structures that are registered for each class, with their parts. -/
  structures : List (String × List Index × List (String × Value)) := []

instance : Inhabited World := ⟨{}⟩

namespace World
variable (w : World)

def datatype? (s : Srt) : Option Datatype :=
  w.datatypes.find? (·.sort = s)

def definition? (f : Symbol) : Option Definition :=
  w.definitions.find? (·.symbol = f)

def isDefined (f : Symbol) : Bool := (w.definition? f).isSome

def define (d : Definition) : World :=
  if w.isDefined d.symbol then
    { w with definitions := w.definitions.map fun e => if e.symbol = d.symbol then d else e }
  else { w with definitions := w.definitions ++ [d] }

def method? (op : String) (s : Srt) : Option Method :=
  (w.methods.find? fun (o, r, _) => o = op ∧ r = s).map (·.2.2)

/-- Whether a sort has an operation of its own. For `eq` this means that asking whether two of its terms are the same gives
another term, which is no truth value. -/
def has (op : String) (s : Srt) : Bool := (w.method? op s).isSome

def overloads (s : Srt) : Bool := w.has "eq" s

def register (op : String) (s : Srt) (m : Method) : World :=
  { w with methods := (op, s, m) :: w.methods.filter fun (o, r, _) => ¬ (o = op ∧ r = s) }

def attach (s : Srt) (name : String) (v : Value) : World :=
  { w with attachments := (s, name, v) :: w.attachments.filter fun (r, x, _) => ¬ (r = s ∧ x = name) }

def attached (s : Srt) : List (String × Value) :=
  (w.attachments.filter (·.1 = s)).map (·.2)

def theory? (name : String) : Option (List (String × Value)) :=
  (w.theories.find? (·.1 = name)).map (·.2)

def construction? (name : String) (key : List Index) : Option Value :=
  (w.constructions.find? fun (x, k, _) => x = name ∧ k = key).map (·.2.2)

def structure? (cls : String) (key : List Index) : Option (List (String × Value)) :=
  (w.structures.find? fun (c, k, _) => c = cls ∧ k = key).map (·.2.2)

/-- The constructor that a symbol is, or that it recognizes or reads. -/
def constructorOf? (f : Symbol) : Option Constructor :=
  match f.role with
  | .constructor => do (← w.datatype? f.range).constructor? f.name
  | .recognizer c | .accessor c _ => do (← w.datatype? (← f.domain.head?)).constructor? c
  | _ => none

end World

/-- Computations that read and change the world. A refusal keeps what was done before it. -/
abbrev Session := ExceptT Fault (StateM World)

def theWorld : Session World := ExceptT.mk fun w => (.ok w, w)

def changeWorld (f : World → World) : Session Unit := ExceptT.mk fun w => (.ok (), f w)

instance : MonadLift Checked Session where
  monadLift x := ExceptT.mk (pure x)

instance : MonadLift Fresh Session where
  monadLift x := ExceptT.mk fun w =>
    let (r, n) := x.run w.next
    (r, { w with next := n })

end SortedLogic

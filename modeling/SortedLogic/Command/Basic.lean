import SortedLogic.Kernel
import SortedLogic.Matching
import SortedLogic.Written

/-!
# Commands

A command is a request written as data, answered by data. `Request.prepare` puts the names that its fields declare in scope.
-/

namespace SortedLogic.Command

structure Request where
  input : Data
  scope : Scope

abbrev Answer := Session Data

abbrev Handler := Request → Answer

namespace Request
variable (r : Request) (k : String) (d : Data)

def get : Data := r.input.get k
def has : Bool := r.input.has k
def str : String := r.input.str k
def num : Int := r.input.num k
def all : List Data := r.input.all k
def flag : Bool := (r.get k).asBool
def readTerm : Session Term := d.readTerm r.scope
def readTerms : Session (List Term) := d.items.mapM r.readTerm
def readSort : Session Srt := d.readSort r.scope
def term : Session Term := r.readTerm (r.get k)
def terms : Session (List Term) := r.readTerms (r.get k)
def sort : Session Srt := r.readSort (r.get k)
def vars : Session Vars := Data.readVars r.scope (r.all k)

def at' : Request := { r with input := d }

def pairs {α β : Type} (f : Data → Session α) (g : Data → Session β) : Session (List (α × β)) :=
  (r.all k).mapM fun p => return (← f (p.item 0), ← g (p.item 1))

def withVars (vars : Vars) : Request :=
  { r with scope := vars.foldl (fun σ (x, s) => σ.addTerm x (.const x s)) r.scope }

def readSymbol : Session Symbol := do
  match r.scope.symbol? d.asText with
  | some f => return f
  | none => do
    let "op" :: name :: sorts := d.asText.splitOn ":" | noKey
    let some f := Builtin.symbol? name (← sorts.mapM fun x => r.readSort (.text x)) | noKey
    return f

def symbol : Session Symbol := r.readSymbol (r.get k)

def term? : Session (Option Term) := if (r.get k).isNull then return none else some <$> r.term k

end Request

def constants (vars : Vars) : List Term := vars.map fun (x, s) => .const x s

def named {α : Type} (f : Data → Session α) (d : Data) : Session (String × α) :=
  return ((d.item 0).asText, ← f (d.item 1))

def declareDatatype (σ : Scope) (name : String) (cons : List Data) : Session (Scope × Datatype) := do
  let name' := Kernel.datatypeName (← theWorld) name
  let inner := σ.addSort name (.datatype name')
  let cons ← cons.mapM fun c => return ((c.item 0).asText, ← c.items.tail.mapM (named (·.readSort inner)))
  let d := Datatype.make (← Text.checkName name') cons
  Kernel.declare d
  return (σ.addDatatype name d, d)

def defineSymbol (σ : Scope) (d : Data) : Session (Scope × Definition) := do
  let r : Request := ⟨d, σ⟩
  let vars ← r.vars "args"
  let name := d.str "name"
  let inner ← if d.has "ret" then pure (σ.addSymbol name ⟨name, vars.map (·.2), ← r.sort "ret", .free⟩) else pure σ
  let body ← (Request.withVars ⟨d, inner⟩ vars).term "body"
  let f ← Kernel.define name (constants vars) body (r.flag "lift_lambda")
  return (σ.addSymbol name f.symbol, f)

def Request.prepare (input : Data) (σ : Scope) : Session Request := do
  let σ ← (input.all "datatypes").foldlM (fun σ d => Prod.fst <$> declareDatatype σ (d.str "name") (d.all "cons")) σ
  let σ ← Data.learn σ (input.get "consts")
  let σ ← Data.learn σ (input.get "funs")
  let σ ← (input.get "consts").fields.foldlM (fun σ (x, s) => do
    let s ← s.readSort σ
    return σ.addTerm x (.const (← Text.checkName x) s)) σ
  let σ ← (input.get "funs").fields.foldlM (fun σ (x, ss) => do
    let ss ← ss.items.mapM fun s => s.readSort σ
    return σ.addSymbol x ⟨← Text.checkName x, ss.dropLast, ss.getLastD .int, .free⟩) σ
  let r : Request := ⟨input, ← (input.all "defs").foldlM (fun σ d => Prod.fst <$> defineSymbol σ d) σ⟩
  for w in input.all "wf" do
    let s ← r.readSort (w.item 0)
    let v := (w.item 1).asText
    let t ← (r.withVars [(v, s)]).readTerm (w.item 2)
    changeWorld (·.register "wf" s (.template [.const v s] t))
  return r

/-! ## Answers -/

def term (t : Term) : Data := .ofTerm t
def terms (ts : List Term) : Data := .each ts term
def sort (s : Srt) : Data := .ofSort s
def symbol (f : Symbol) : Data := .ofSymbol f
def sortedTerms (ts : List Term) : Data := .sorted ts term
def substitution (σ : Substitution) : Data := .each σ fun (x, t) => .pair (term x) (term t)
def nat (n : Nat) : Data := .int n
def nameOf (v : Term) : String := ((v.bindingName?).map (·.1)).getD ""
def namedSorts (vs : List Term) : Data := .each vs fun v => .pair (.text (nameOf v)) (sort v.sort)

def Request.library (r : Request) (k : String) : Session (List (String × Proof)) := do
  let entries ← (r.all k).mapM (named r.readTerm)
  return entries.foldl (fun acc (n, t) => Data.setField acc n (.byAxiom t)) []

/-- The name of the cause of a refusal and its text; the names are up to the caller. -/
abbrev Naming := Fault → String

def faultFields (naming : Naming) (f : Fault) : Data.Fields :=
  ("error", .text (naming f)) :: (f.message?.toList.map fun m => ("message", .text m))

/-! ## Steps -/

def attempt {α : Type} (x : Session α) : Session (Checked α) := tryCatch (Except.ok <$> x) fun f => return .error f

def outcome (naming : Naming) : Checked Data → Data.Fields
  | .ok a => [("ok", a)]
  | .error f => faultFields naming f

section Steps
variable {σ ι : Type} (step : σ → ι → Session (σ × Checked Data)) (shown : σ → Checked Data → Data)

/-- What a step gives is shown with the state after it; a step that is refused leaves the state. -/
def runSteps : σ → List ι → Session (List Data × σ)
  | s, [] => return ([], s)
  | s, i :: rest => do
    let (s, a) ← tryCatch (step s i) fun f => return (s, .error f)
    let (more, last) ← runSteps s rest
    return (shown s a :: more, last)

def answers (s : σ) (is : List ι) : Answer := return .list (← runSteps step shown s is).1

def plain (step : σ → ι → Session (σ × Data)) (s : σ) (i : ι) : Session (σ × Checked Data) := Prod.map id .ok <$> step s i

end Steps

structure Derivation where
  proofs : List (String × Proof) := []
  scope : Scope

namespace Derivation
variable (s : Derivation) (d : Data)

def request : Request := ⟨d, s.scope⟩

def proof : Session Proof := do
  let some p := s.proofs.lookup d.asText | noKey
  return p

def proofsAt (k : String) : Session (List Proof) :=
  match d.get k with
  | .text x => return [← s.proof (.text x)]
  | .list ds => ds.mapM s.proof
  | _ => return []

def keep (p : Option Proof) (vs : List Term) : Derivation :=
  if d.has "as" then
    let x := d.str "as"
    { proofs := p.toList.map (x, ·) ++ s.proofs, scope := { s.scope with results := (x, vs) :: s.scope.results } }
  else s

end Derivation
end SortedLogic.Command

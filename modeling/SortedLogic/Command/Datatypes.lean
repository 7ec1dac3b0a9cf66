import SortedLogic.Command.Basic
import SortedLogic.Datatype.Record
import SortedLogic.Datatype.Pattern

/-!
# Commands on datatypes

Fields, constructors, records, patterns, functions by equations, and declarations.
-/

namespace SortedLogic.Command.Datatypes
variable (naming : Naming) (r : Request) (k : String)

def datatype (otherwise : Fault := .noField) : Session Datatype := do
  let s ← r.sort "sort"
  Datatype.ofSort (← theWorld) s otherwise

def subject : Session (Term × Datatype) := do
  let t ← r.term "t"
  return (t, ← Datatype.ofSort (← theWorld) t.sort)

def namedTerms : Session (List (String × Term)) := (r.get "kwargs").fields.mapM fun (x, d) => return (x, ← r.readTerm d)

def property : Answer := do
  let (t, d) ← subject r
  return .orNull term (← d.property? t (r.str "name"))

def build : Answer := do
  let d ← datatype r .wrongKind
  return term (← d.build (← r.terms "args") (← namedTerms r))

def replaceFields : Answer := do
  let (t, d) ← subject r
  return term (← d.replaceFields t (← namedTerms r))

def enumerate : Answer := return terms (← (← datatype r .wrongKind).enumerate)
def size : Answer := return nat (← datatype r .wrongKind).constructors.length
def constructorIndex : Answer := return nat (← (← datatype r).constructorIndex (r.str "name"))

def fieldIndex : Answer := do
  let c ← (← datatype r).constructorAt (r.num "i")
  nat <$> Datatype.fieldIndex c (r.str "name")

def shownMatch (m : Datatype.Match) : Data :=
  .record [("constraints", terms m.conditions), ("subst", substitution m.values)]

def matchPattern : Answer := return shownMatch (← Datatype.matchPattern (← theWorld) (← r.term "x") {} (← r.term "pat"))

def theCases : Session (List (Term × Term)) := r.pairs "cases" r.readTerm r.readTerm

def matchAll : Answer := return shownMatch (← Datatype.matchAll (← theWorld) (← theCases r))

def matchValue : Answer := do
  let x ← r.term "x"
  if !x.sort.isDatatype then noField
  return term (← Datatype.matchValue x (← theCases r) (← r.term? "default"))

def defineByEquations : Answer := do
  let (d, laws) ← Datatype.defineByEquations (← r.terms "eqs")
  return .record [("defn", term d.law.thm), ("cases", terms laws)]

def laws (make : Datatype → Session (List Term)) : Answer := return terms (← make (← datatype r))

def injectivity : Answer := laws r Datatype.injectivity
def recognition : Answer := laws r Datatype.recognition
def distinctness : Answer := laws r Datatype.distinctness
def access : Answer := laws r Datatype.access

def eachItem (onFault : Fault → Data) (act : Scope → Data → Session (Scope × Data)) : Answer :=
  answers (plain act) (fun _ => fun | .ok a => a | .error f => onFault f) r.scope (r.all k)

def declareRecord (onFault : Fault → Data) (σ : Scope) (d : Data) : Session (Scope × Data) := do
  let r : Request := ⟨d, σ⟩
  let fields ← if d.has "newtype" then do pure [("val", ← r.sort "newtype")]
    else (d.all "fields").mapM (named r.readSort)
  let name := d.str "name"
  let t ← Datatype.declareRecord name fields
  let σ := σ.addDatatype name t
  let shown : Session Data := do
    let p := d.get "pred"
    let condition ← if p.isNull then pure none else do
      let v := (p.item 0).asText
      let body ← (Request.withVars ⟨d, σ⟩ [(v, t.sort)]).readTerm (p.item 1)
      pure (some (Term.const v t.sort, body))
    t.registerWellFormed condition
    let w ← theWorld
    let mk ← t.onlyConstructor .violated
    let base := [("name", Data.text t.name), ("mk", symbol mk.symbol)]
    if (w.method? "wf" t.sort).isNone then return .record (("wf", .null) :: base)
    let x := Term.const "r" t.sort
    let wf ← w.wellFormed x
    let same ← equate x x
    return .record ([("wf", term wf), ("qforall", term (← forallWhere [x] [same])),
      ("qexists", term (← existsWhere [x] [same]))] ++ base)
  let a ← tryCatch shown fun f => return onFault f
  return (σ, a)

def records : Answer :=
  let onFault (f : Fault) : Data := .record [("error", .text (naming f))]
  eachItem r "structs" onFault (declareRecord onFault)

def declareType (σ : Scope) (d : Data) : Session (Scope × Data) := do
  let cons := if d.has "enum" then
      (match d.get "enum" with
      | .text s => (Text.words s).map Data.text
      | e => e.items).map fun c => Data.list [c]
    else d.all "cons"
  let (σ, t) ← declareDatatype σ (d.str "name") cons
  return (σ, .record [("name", .text t.name), ("cons", .each t.constructors fun c => symbol c.symbol)])

def types : Answer := eachItem r "types" (fun f => .record (faultFields naming f)) declareType

def relation : Answer := do
  let vars ← r.vars "params"
  let params := constants vars
  let name := r.str "name"
  let cons := r.all "cons"
  let (σ, d) ← declareDatatype r.scope name (cons.map fun c => .list (c.get "name" :: c.all "fields"))
  let inner := Request.withVars ⟨r.input, σ⟩ vars
  let shows : List Datatype.Shows := cons.map fun c fields => do
    let p := c.get "pred"
    if p.isNull then return .tt
    else if !(c.get "lambda").asBool then inner.readTerm p
    else
      let named := ((c.all "fields").map fun f => (f.item 0).asText).zip fields
      let some ev := named.lookup (p.item 0).asText | noKey
      let here : Request := ⟨r.input, named.foldl (fun τ (x, t) => Scope.addTerm τ x t) inner.scope⟩
      let t ← Datatype.related ev (← here.readTerms (p.item 1))
      match p.items with
      | [_, _, side] => Term.and [t, ← here.readTerm side]
      | _ => return t
  let e ← Datatype.defineRelation d (Text.lower name) params shows
  let used ← Datatype.related (.const "ev" d.sort) params
  return .record [("defn", term e.law.thm), ("use", term used)]

end SortedLogic.Command.Datatypes

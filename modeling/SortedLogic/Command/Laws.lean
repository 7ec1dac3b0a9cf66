import SortedLogic.Command.Quantifiers
import SortedLogic.Property

/-!
# Commands on laws of operations

Normal forms under laws, tables of proofs of a law, and registries of structures.
-/

namespace SortedLogic.Command.Laws
open Property

def laws : List (String × Law) :=
  [("assoc", .assoc), ("comm", .comm), ("idem", .idem), ("runit", .rightUnit), ("inv", .inverse), ("symm", .symmetric),
   ("trans", .transitive)]

def readLaw (d : Data) : Session Law := do
  let some l := laws.lookup d.asText | noKey
  return l

variable (naming : Naming) (r : Request)

def lawsOf : Session Laws :=
  (r.all "register").foldlM (fun ls d => do
    let l ← readLaw (d.item 0)
    let f ← r.readSymbol (d.item 1)
    return ls.add l f (.byAxiom (← l.formula [.symbol f]))) Property.Laws.standard

def normalized (l : Law) (norm : (Symbol → Option Proof) → Term → Traced Term) : Answer := do
  let laws ← lawsOf r
  let (u, trace) := (norm (laws.find? l) (← r.term "t")).outcome
  return .record [("t", term (← u)), ("trace", terms (trace.map Proof.thm))]

def assoc : Answer := normalized r .assoc fun law? => assocNorm law? true
def comm : Answer := normalized r .comm fun law? => commNorm law? true
def idem : Answer := normalized r .idem idemNorm

/-! ## Tables of proofs -/

def readArgument (d : Data) : Session Property.Argument :=
  if d.has "decl" then .symbol <$> r.readSymbol (d.get "decl") else .term <$> r.readTerm (d.get "term")

def tableStep (l : Law) (args : List Property.Argument) (stored : Option Proof) (d : Data) :
    Session (Option Proof × Data) := do
  let r := r.at' d
  let store (pf : Proof) : Session (Option Proof × Data) := do return (some (← accept (← l.formula args) pf), .bool true)
  match d.str "do" with
  | "register" => store (.byAxiom (← r.term "thm"))
  | "register_raw" =>
    let _ ← r.term "thm"
    invalid "Not a proof"
  | "call" => do
    let some p := stored | noKey
    return (stored, term p.thm)
  | "get" => return (stored, Data.orNull (fun p => term p.thm) stored)
  | "in" => return (stored, .bool stored.isSome)
  | _ =>
    let by' ← r.terms "by"
    store (← Kernel.prove (← l.formula args) (by'.map (Proof.byAxiom ·)))

def table : Answer := do
  let l ← readLaw (r.get "prop")
  let args ← (r.all "args").mapM (readArgument r)
  let formula ← l.formula args
  return .list (term formula :: (← Quantifiers.steps naming r (tableStep r l args) none))

/-! ## Registries -/

def parts (ps : Parts Term) : Data := .each ps fun (x, t) => .pair (.text x) (term t)

def part (ps : Parts Term) (x : String) : Checked Term :=
  match ps.find? (·.1 = x) with
  | some (_, t) => .ok t
  | none => noField

/-- One class, whose entries have to have some parts, and some pairs of them equal. -/
def oneClass (present : List String) (equal : List (String × String)) : Classes Unit (List String) Term where
  line _ := [()]
  check _ _ ps _ := ([], do
    if !(present.all fun x => ps.any (·.1 = x)) then violated
    for (x, y) in equal do
      if !(← (← part ps x).alphaEq (← part ps y)) then invalid "Property does not match"
    return ps)

abbrev ClassState := Registries Unit (List String) Term

def registryStep (K : Classes Unit (List String) Term) (s : ClassState) (d : Data) : Session (ClassState × Checked Data) := do
  let k := (d.all "key").map Data.render
  match d.str "do" with
  | "register" =>
    let ps ← (d.get "fields").fields.mapM fun (x, t) => do pure (x, ← r.readTerm t)
    let (s, result) := K.register s () k ps
    return (s, result.map fun _ => nat (K.entries s ()).length)
  | "get" =>
    let (s, found) := K.get s () k
    return (s, found.map parts)
  | _ =>
    let (s, found) := K.lookup s () k
    return (s, found.map parts)

def registry : Answer :=
  let K := oneClass ((r.all "require").map Data.asText) ((r.all "equal").map fun p => ((p.item 0).asText, (p.item 1).asText))
  let shown (s : ClassState) : Checked Data → Data
    | .ok a => .record [("ok", a)]
    | .error f => .record [("error", .text (naming f)), ("registered", nat (K.entries s ()).length)]
  answers (registryStep r K) shown [] (r.all "steps")

end SortedLogic.Command.Laws

import SortedLogic.Kernel

/-!
# Values of datatypes by name

Recognizers and fields by name, and records whose values are well-formed under a condition.
-/

namespace SortedLogic.Datatype

def ofSort (w : World) (s : Srt) (otherwise : Fault := .noField) : Checked Datatype :=
  match w.datatype? s with
  | some d => .ok d
  | none => .error otherwise

variable (d : Datatype)

def property? (t : Term) (name : String) : Checked (Option Term) :=
  if name.startsWith "is_" && 3 < name.length then
    match d.constructor? ((name.drop 3).toString) with
    | some c => some <$> c.recognizer.apply [t]
    | none => .ok none
  else
    match (d.constructors.flatMap (·.accessors)).find? (·.name = name) with
    | some a => some <$> a.apply [t]
    | none => .ok none

variable (name : String)

def constructorIndex : Checked Nat :=
  match d.constructors.findIdx? (·.symbol.name = name) with
  | some i => .ok i
  | none => .error (.invalid (some "Constructor"))

def fieldIndex (c : Constructor) (name : String) : Checked Nat :=
  match c.accessors.findIdx? (·.name = name) with
  | some i => .ok i
  | none => .error (.invalid (some "Accessor"))

def constructorAt (i : Int) : Checked Constructor := do
  let some c := (if i < 0 then none else d.constructors[i.toNat]?) | throw .illFormed
  .ok c

def onlyConstructor (otherwise : Fault) : Checked Constructor :=
  match d.constructors with
  | [c] => .ok c
  | _ => .error otherwise

def build (positional : List Term) (named : List (String × Term)) : Checked Term := do
  let c ← d.onlyConstructor .violated
  if named.isEmpty then c.symbol.apply positional
  else if positional.isEmpty then
    let fields ← named.foldlM (fun (acc : List (Nat × Term)) (k, t) => do
      return (← fieldIndex c k, t) :: acc) []
    match (List.range c.symbol.arity).mapM fun i => (fields.find? (·.1 = i)).map (·.2) with
    | some args => c.symbol.apply args
    | none => throw .illFormed
  else throw .wrongKind

def replaceFields (t : Term) (named : List (String × Term)) : Checked Term := do
  let c ← d.onlyConstructor .wrongKind
  if !named.all fun (k, _) => c.accessors.any (·.name = k) then throw (.invalid (some "Constructor"))
  let old ← match t with
    | .app f args => if f.isConstructor then pure args else c.accessors.mapM fun a => a.apply [t]
    | _ => c.accessors.mapM fun a => a.apply [t]
  c.symbol.apply ((c.accessors.zip old).map fun (a, o) =>
    ((named.reverse.find? (·.1 = a.name)).map (·.2)).getD o)

def enumerate : Checked (List Term) :=
  if d.constructors.all fun c => c.symbol.arity = 0 then .ok (d.constructors.map fun c => .app c.symbol [])
  else .error .wrongKind

/-- Its values are well-formed if the condition holds and so are those fields whose sorts have a notion of it. -/
def declareRecord (fields : Vars) : Session Datatype := do
  let name' := Kernel.datatypeName (← theWorld) name
  let d := Datatype.make (← Text.checkName name') [(← Text.checkName name, fields)]
  Kernel.declare d
  return d

def registerWellFormed (condition : Option (Term × Term)) : Session Unit := do
  let w ← theWorld
  let c ← d.onlyConstructor .violated
  let fields := c.accessors.filter fun a => (w.method? "wf" a.range).isSome
  if condition.isSome || !fields.isEmpty then
    changeWorld (·.register "wf" d.sort (.record condition fields))

/-! ## Laws of a datatype -/

def fieldConsts (c : Constructor) (hint : String) : Fresh (List Term) :=
  c.symbol.domain.mapM fun s => freshConst hint s

def forAll (vs : List Term) (t : Term) : Checked Term :=
  if vs.isEmpty then .ok t else t.quantify .forall vs

/-- Values of one constructor are equal exactly if all fields are. -/
def injectivity : Session (List Term) :=
  (d.constructors.filter fun c => 0 < c.symbol.arity).mapM fun c => do
    let xs ← fieldConsts c "x"
    let ys ← fieldConsts c "y"
    let whole ← equate (← c.symbol.apply xs) (← c.symbol.apply ys)
    let parts ← (xs.zip ys).mapM fun (x, y) => equate x y
    forAll (xs ++ ys) (← equate whole (← Term.and parts))

def recognition : Session (List Term) := do
  let laws ← d.constructors.mapM fun r => d.constructors.mapM fun c => do
    let xs ← fieldConsts c "x"
    let t ← r.recognizer.apply [← c.symbol.apply xs]
    let law ← t.eq (.bool (r.symbol = c.symbol))
    let law ← forAll xs law
    pure law
  return laws.flatten

def earlierPairs {α : Type} : List α → List α → List (α × α)
  | _, [] => []
  | before, a :: rest => before.map (a, ·) ++ earlierPairs (before ++ [a]) rest

/-- Values of two constructors differ. A constant constructor is compared with constants only. -/
def distinctness : Session (List Term) := do
  let prepared ← d.constructors.mapM fun c => do
    let xs ← fieldConsts c "x"
    pure (c, xs)
  (earlierPairs [] prepared).mapM fun ((c, xs), (c', _)) => do
    if 0 < c.symbol.arity then
      let ys ← fieldConsts c' "y"
      let t ← separate (← c.symbol.apply xs) (← c'.symbol.apply ys)
      liftM (forAll (xs ++ ys) t)
    else separate (← c.symbol.apply []) (← c'.symbol.apply [])

def access : Session (List Term) := do
  let laws ← d.constructors.mapM fun c => do
    let xs ← fieldConsts c "x"
    (c.accessors.zip xs).mapM fun (a, x) => do
      let t ← equate (← a.apply [← c.symbol.apply xs]) x
      let law ← forAll xs t
      pure law
  return laws.flatten

/-! ## Relations by evidence -/

abbrev Shows := List Term → Session Term

def relationSymbol (params : List Term) : Symbol :=
  ⟨name, d.sort :: params.map Term.sort, .bool, .free⟩

def related (ev : Term) (args : List Term) : Session Term :=
  if ev.sort.isDatatype then dispatch "rel" (ev :: args) else throw .noField

def defineRelation (params : List Term) (shows : List Shows) :
    Session Definition := do
  changeWorld (·.register "rel" d.sort (.symbol (relationSymbol d name params)))
  let ev ← freshConst name d.sort
  let cases ← (d.constructors.zip shows).mapM fun (c, show') => do
    let condition ← c.recognizer.apply [ev]
    let fields ← c.accessors.mapM fun a => (liftM (a.apply [ev]) : Session Term)
    let t ← show' fields
    pure (condition, some t)
  Kernel.define name (ev :: params) (← chain cases none)

end SortedLogic.Datatype

/-! ## Sorts inside sorts -/

namespace SortedLogic

mutual
def Srt.size : Srt → Nat
  | .array ds r => 1 + Srt.sizes ds + r.size
  | .seq s | .regex s => 1 + s.size
  | _ => 1

def Srt.sizes : List Srt → Nat
  | [] => 0
  | s :: ss => s.size + Srt.sizes ss
end

namespace Datatype
variable (datatypes : List Datatype)

/-- The sorts that a sort is looked into for. Of an array with several indices only the first index counts. -/
def parts : Srt → List Srt
  | .array ds r => ds.take 1 ++ [r]
  | .seq s => [s]
  | .string => [.char]
  | s => ((datatypes.find? (·.sort = s)).map fun d => d.constructors.flatMap (·.symbol.domain)).getD []

def searchAll (search : Srt → List Srt → Bool × List Srt) : List Srt → List Srt → Bool × List Srt
  | [], visited => (false, visited)
  | s :: ss, visited =>
    match search s visited with
    | (true, visited) => (true, visited)
    | (false, visited) => searchAll search ss visited

def searchFrom (datatypes : List Datatype) (s : Srt) : Nat → Srt → List Srt → Bool × List Srt
  | 0, _, visited => (false, visited)
  | fuel + 1, r, visited =>
    if visited.contains r then (false, visited)
    else if s = r then (true, visited)
    else searchAll (searchFrom datatypes s fuel) (parts datatypes r) (r :: visited)

def reach (r : Srt) : Nat :=
  r.size + (datatypes.map fun d => 1 + Srt.sizes (d.constructors.flatMap (·.symbol.domain))).foldl (· + ·) 0 + 2

def occurs (s r : Srt) : Bool :=
  (searchFrom datatypes s (reach datatypes r) r []).1

end Datatype
end SortedLogic

import SortedLogic.Command.Basic
import SortedLogic.Tactic.Goal
import SortedLogic.Theory.Catalog

/-!
# Commands on theories

A value of a theory is written `theory:name.part`.
-/

namespace SortedLogic.Command.Theories
open Theory

/-! ## Places in theories -/

def valueAt (place : String) : Session Value := do
  let [theory, path] := place.splitOn ":" | noField
  let x :: parts := path.splitOn "." | noField
  parts.foldlM part (← theoryName theory x)

def sortAt : Nat → Vars → Data → Session Srt
  | 0, _, _ => tooDeep
  | depth + 1, sorts, d => do
    let σ : Scope := { sorts, external := sortAt depth }
    match d with
    | .list [.text "thy", .text place] => Vocabulary.aSort (← valueAt place)
    | .list (.text "app" :: .text place :: args) =>
      let args ← args.mapM fun
        | .int n => return .int n
        | a => .sort <$> a.readSort σ
      Vocabulary.aSort (← call (← valueAt place) args [])
    | _ => wrongKind

def scope : Scope := { external := sortAt 100 }

def bring (w : World) (σ : Scope) (x : String) (v : Value) : Scope :=
  match v with
  | .term t => σ.addTerm x t
  | .symbol f => σ.addSymbol x f
  | .sort s =>
    match w.datatype? s with
    | some d => (σ.addDatatype d.name d).addSort x s
    | none =>
      match s with
      | .uninterpreted name => (σ.addSort name s).addSort x s
      | _ => σ.addSort x s
  | _ => σ

def bringAll (names : List Data) (σ : Scope) : Session Scope := do
  let w ← theWorld
  return names.foldl (fun σ theory =>
    ((w.theory? theory.asText).getD []).reverse.foldl (fun σ (x, v) => bring w σ x v) σ) σ

/-! ## Showing values -/

structure Labels where
  kind : String
  function : String
  construction : String
  structureClass : String
  operation : String
  symbolic : String

def shownSymbol (w : World) (f : Symbol) : Data :=
  .record (("decl", symbol f) :: (w.definition? f).toList.map fun d => ("defn", term d.law.thm))

def shownTerm (t : Term) : Data := .record [("t", term t), ("sort", sort t.sort)]

variable (labels : Labels)

def shownPlain (w : World) : Value → Data
  | .null => .null
  | .bool b => .bool b
  | .int n => .int n
  | .ratio q => .record [("frac", .text (Data.ratText q))]
  | .float x => .record [("f", .text (Binary64.text x))]
  | .text s => .text s
  | .term t => shownTerm t
  | .symbol f => shownSymbol w f
  | .proof p => .record [("thm", term p.thm)]
  | .sort s => .record [("sort", sort s)]
  | .symbolic e => .record [(labels.symbolic, .text e.text)]
  | .native name [] => kind (if constructions.contains name then labels.construction else labels.function)
  | .structureClass _ => kind labels.structureClass
  | .object name _ => kind name
  | .overloaded _ => kind labels.operation
  | _ => kind labels.function
where
  kind (name : String) : Data := .record [(labels.kind, .text name)]

def pairs (fields : Data.Fields) : Data := .each (Data.sortFields fields) fun (x, d) => .pair (.text x) d

def shownSort (w : World) (s : Srt) : Data :=
  let cons := (w.datatype? s).toList.map fun d => ("cons", .each d.constructors fun c => symbol c.symbol)
  let attrs := match w.attached s with
    | [] => []
    | attrs => [("attrs", pairs (attrs.map fun (x, v) => (x, shownPlain labels w v)))]
  .record ([("sort", sort s)] ++ cons ++ attrs)

mutual
def shown (labels : Labels) (w : World) : Value → Data
  | .list xs | .tuple xs => .list (xs.map (shown labels w))
  | .sort s => shownSort labels w s
  | .table entries => .list (Data.sort (shownEntries labels w entries))
  | .member _ parts => pairs (shownParts labels w parts)
  | v => shownPlain labels w v

def shownEntries (labels : Labels) (w : World) : List (Value × Value) → List Data
  | [] => []
  | (k, v) :: rest => .pair (shown labels w k) (shown labels w v) :: shownEntries labels w rest

def shownParts (labels : Labels) (w : World) : List (String × Value) → Data.Fields
  | [] => []
  | (x, v) :: rest => (x, shown labels w v) :: shownParts labels w rest
end

/-! ## Names and theorems of a theory -/

variable (r : Request)

def names : Answer := .list <$> (r.all "names").mapM fun x => do
  let v ← theoryName (r.str "module") x.asText
  return .pair x (shown labels (← theWorld) v)

def theoremsOf (w : World) (theory : String) : List (String × Bool) :=
  ((w.theory? theory).getD []).flatMap fun (x, v) =>
    let name := theory ++ "." ++ x
    match v with
    | .proof _ => [(name, true)]
    | .sort s => (w.attached s).filterMap fun (y, v) =>
      match v with
      | .proof _ => some (name ++ "." ++ y, false)
      | _ => none
    | _ => []

def theorems : Answer := do
  let w ← theWorld
  let theory := r.str "module"
  let found := if r.flag "deep" then
      (w.theories.filter fun (x, _) => x = theory || (theory ++ ".").isPrefixOf x).flatMap fun (x, _) => theoremsOf w x
    else (theoremsOf w theory).filter (·.2)
  return .ofTexts (found.map (·.1)).mergeSort

/-! ## Steps -/

structure State where
  request : Request
  results : Named := []

def readFloat (s : String) : Checked Value := do
  let special := [("inf", 1 / 0), ("-inf", -1 / 0), ("nan", 0 / 0)]
  let some x := special.lookup s <|> (Text.rational? s).bind Binary64.ofRat? | throw (.invalid none)
  return .float x

def readArgument (st : State) : Data → Session Value
  | .null => return .null
  | .bool b => return .bool b
  | .int n => return .int n
  | .decimal m e => return .float (Float.ofInt m / Float.ofNat (Nat.pow 10 e))
  | .text s => return .text s
  | .list xs | .record [("list", .list xs)] => .list <$> xs.mapM (readArgument st)
  | .record [("t", d)] => .term <$> st.request.readTerm d
  | .record [("s", d)] => .sort <$> st.request.readSort d
  | .record [("path", .text place)] => valueAt place
  | .record [("decl", f)] => .symbol <$> st.request.readSymbol f
  | .record [("r", .text x)] => do
    let some v := st.results.lookup x | noKey
    return v
  | .record [("axiom", d)] => return .proof (.byAxiom (← st.request.readTerm d))
  | .record [("tuple", .list xs)] => .tuple <$> xs.mapM (readArgument st)
  | .record [("f", .text s)] => liftM (readFloat s)
  | .record [("oo", _)] => return .symbolic .infinity
  | _ => wrongKind

variable (st : State)

def readNamed (d : Data) : Session Named :=
  d.fields.mapM fun (x, a) => return (x, ← readArgument st a)

def readFunction : Data → Session Value
  | .text place => valueAt place
  | d => readArgument st d

def binary : List (String × (Value → Value → Session Value)) :=
  [("add", operator call .add), ("sub", operator call .sub), ("mul", operator call .mul), ("truediv", operator call .div),
   ("matmul", operator call .matMul), ("and_", operator call .bitAnd), ("or_", operator call .bitOr),
   ("lt", relate call .lt), ("le", relate call .le), ("gt", relate call .gt), ("ge", relate call .ge),
   ("eq", relate call .eq), ("ne", differ call), ("getitem", index call)]

def unary : List (String × (Value → Session Value)) := [("neg", negate call), ("invert", invert call)]

def applyOperator (op : String) (args : List Value) : Session Value :=
  match binary.lookup op, unary.lookup op, args with
  | some f, _, [a, b] => f a b
  | _, some f, [a] => f a
  | _, _, _ => wrongKind

def readClass (d : Data) : Session String := do
  let .structureClass c := ← readFunction st d | noField
  return c

def perform (d : Data) : Session Value := do
  let args : Session (List Value) := (d.all "args").mapM (readArgument st)
  match d.str "do" with
  | "show" => readFunction st (d.get "of")
  | "attr" => part (← readFunction st (d.get "of")) (d.str "name")
  | "call" => call (← readFunction st (d.get "f")) (← args) (← readNamed st (d.get "kw"))
  | "op" => applyOperator (d.str "f") (← args)
  | "method" => runOperation call (d.str "f") (← args)
  | "register" =>
    let cls ← readClass st (d.get "cls")
    call (.native "register" [.text cls]) (← args) (← readNamed st (d.get "fields"))
  | "typeclass" => call (.structureClass (← readClass st (d.get "cls"))) (← args) []
  | "prove" => .proof <$> do Tactic.prove (← st.request.readTerm (d.get "thm")) []
  | _ => noKey

def State.keep (w : World) (x : String) (v : Value) : State :=
  { request := { st.request with scope := bring w st.request.scope x v }
    results := (x, v) :: st.results }

def step (d : Data) : Session (State × Checked Data) := do
  let st := { st with request := { st.request with scope := ← Data.learn st.request.scope d } }
  let r ← attempt (perform st d)
  let w ← theWorld
  return (match r, d.get "as" with
    | .ok v, .text x => st.keep w x v
    | _, _ => st, shown labels w <$> r)

def withoutNumbers : List Char → List Char
  | '_' :: '_' :: rest =>
    if (rest.head?.map Char.isDigit).getD false then '_' :: '_' :: afterDigits rest else '_' :: withoutNumbers ('_' :: rest)
  | c :: rest => c :: withoutNumbers rest
  | [] => []
where
  afterDigits : List Char → List Char
    | c :: rest => if c.isDigit then afterDigits rest else c :: withoutNumbers rest
    | [] => []

mutual
def unnumbered : Data → Data
  | .text s => .text (String.ofList (withoutNumbers s.toList))
  | .list xs => .list (xs.map unnumbered)
  | .record fields => .record (unnumberedFields fields)
  | d => d

def unnumberedFields : Data.Fields → Data.Fields
  | [] => []
  | (x, d) :: rest => (x, unnumbered d) :: unnumberedFields rest
end

def run (naming : Naming) : Handler := fun r =>
  unnumbered <$> answers (step labels) (fun _ done => .record (outcome naming done)) { request := r } (r.all "steps")

end SortedLogic.Command.Theories

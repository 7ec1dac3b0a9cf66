import SortedLogic.Command.Basic
import SortedLogic.Script.Meaning

/-!
# Commands on values and scripts

Evaluation, normal forms, reification, and scripts as terms.
-/

namespace SortedLogic.Command.Reflection

def readValue (r : Request) : Data → Session Value
  | .null => return .null
  | .bool b => return .bool b
  | .int n => return .int n
  | .text s => return .text s
  | .record [("frac", .text s)] => do
    let some q := Rat.ofText? s | throw (.invalid none)
    return .ratio q
  | .record [("list", .list xs)] => .list <$> xs.mapM (readValue r)
  | .record [("term", t)] | .record [("t", t)] => .term <$> r.readTerm t
  | .record [("closure", t)] => return .closure (← r.readTerm t) [] [] false
  | .record [("decl", f)] => .symbol <$> r.readSymbol f
  | .record [("cons", .text c), ("fields", .list xs), ("sort", s)] => do
    let s ← r.readSort s
    let w ← theWorld
    let some k := (w.datatype? s).bind (·.constructor? c) | noKey
    let vs ← xs.mapM (readValue r)
    if vs.length ≠ k.symbol.arity then wrongKind
    Reflect.makeRecord w k.symbol vs
  | _ => wrongKind

mutual
def shownValue : Value → Data
  | .null => .null
  | .bool b => .bool b
  | .int n => .int n
  | .ratio q => .record [("frac", .text (Data.ratText q))]
  | .float x => .record [("f", .text (Binary64.text x))]
  | .text s => .text s
  | .list xs | .tuple xs => .record [("list", .list (xs.map shownValue))]
  | .term t => .record [("term", term t)]
  | .symbol f => .record [("decl", .text f.name)]
  | .sort s => sort s
  | .proof p => .record [("proof", term p.thm)]
  | .record c fields => .record [("cons", .text c), ("fields", .list (shownFields fields))]
  | .closure lam _ _ _ => .record [("closure", term lam)]
  | _ => .text "<function>"

def shownFields : List (String × Value) → List Data
  | [] => []
  | (_, v) :: rest => shownValue v :: shownFields rest
end

variable (r : Request)

def readNames (k : String) : Session (List (String × Value)) :=
  (r.get k).fields.mapM fun (x, d) => return (x, ← readValue r d)

def eval : Answer := do
  let env : Reflect.Environment := ⟨← readNames r "globals", r.str "default" = "term"⟩
  let v ← Reflect.eval env (← readNames r "locals") (← r.term "t")
  shownValue <$> if r.has "call" then do Reflect.call v (← (r.all "call").mapM (readValue r)) else pure v

def normalize : Answer := return term (← Reflect.normalize (← r.term "t"))
def reify : Answer := return term (← Reflect.reify (← r.sort "sort") (← readValue r (r.get "value")))
def inferSort : Answer := return sort (← Reflect.inferSort (← readValue r (r.get "value")))

def plainTypes : List (String × PlainType) :=
  [("int", .int), ("bool", .bool), ("str", .text), ("float", .float), ("fraction", .fraction)]

def readType : Data → PlainType
  | .list (.text "list" :: args) => .list (args.map readType)
  | .list (.text "dict" :: args) => .table (args.map readType)
  | .list (.text x :: args) => .generic x (args.map readType)
  | d => (plainTypes.lookup d.asText).getD (.other d.asText)

def shownType : PlainType → Data
  | .int => .text "int"
  | .bool => .text "bool"
  | .text => .text "str"
  | .fraction => .text "fraction"
  | .float => .text "float"
  | .other x => .text x
  | .list args => .list (.text "list" :: args.map shownType)
  | .table args => .list (.text "dict" :: args.map shownType)
  | .generic x args => .list (.text x :: args.map shownType)

def sortOfType : Answer := do sort <$> (readType (r.get "type")).toSort
def typeOfSort : Answer := return shownType (← PlainType.ofSort (← r.sort "sort"))

def declared : List (String × Value) :=
  ((r.get "consts").fields ++ (r.get "funs").fields).reverse.filterMap fun (x, _) =>
    ((r.scope.function? x).map Value.symbol <|> (r.scope.term? x).map Value.term).map (x, ·)

def expression : Answer := do
  let locals ← (r.get "locals").fields.mapM fun (x, d) => return (x, Value.term (← r.readTerm d))
  let w ← theWorld
  let .term t := ← Script.meaning w { locals, globals := declared r } (← Script.readExpr (r.str "src")) | noField
  return term t

def function : Answer := do
  let sorts := (r.all "datatypes").filterMap fun d =>
    let x := d.str "name"
    (r.scope.sorts.lookup x).map fun s => (x, Value.sort s)
  let ns : Script.Names := { globals := sorts.reverse ++ declared r }
  let items ← Script.readItems (r.str "src")
  let f ← Script.findFunction (r.str "name") ns items
  let d ← f.define ns
  return .record [("decl", symbol d.symbol), ("defn", term d.law.thm)]

end SortedLogic.Command.Reflection

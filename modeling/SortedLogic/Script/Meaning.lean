import SortedLogic.Reflect
import SortedLogic.Script.Parser

/-!
# The meaning of scripts as terms

An expression means the term that its operators build, a body the value of its last statement, and a choice between bodies one
between their values.
-/

namespace SortedLogic.Script

structure Names where
  locals : List (String × Value) := []
  globals : List (String × Value) := []

namespace Names

def find? (ns : Names) (x : String) : Option Value :=
  ((ns.locals.find? (·.1 = x)).or (ns.globals.find? (·.1 = x))).map (·.2)

def find (ns : Names) (x : String) : Checked Value :=
  match ns.find? x with
  | some v => .ok v
  | none => invalid ("Could not find " ++ x ++ " in global or local environment")

def bind (ns : Names) (x : String) (v : Value) : Names := { ns with locals := (x, v) :: ns.locals }

end Names

def Literal.value : Literal → Value
  | .int n => .int n
  | .float x => .float x
  | .text s => .text s
  | .bool b => .bool b
  | .strange => .null

def equation (a b : Value) : Checked Value :=
  match b with
  | .null => .ok (.bool false)
  | _ => do
    let (x, y) ← Value.coerce a b
    .term <$> x.eq y

def comparison (w : World) : Comparison → Value → Value → Checked Value
  | .rel .eq, a, b => equation a b
  | .rel r, a, b => Value.relate w r a b
  | .ne, a, b => Value.separate w a b
  | .other, _, _ => unsupported "Compare"

/-- The links of a chain of comparisons. Each value is found before it is compared. -/
def links (w : World) : Value → List Comparison → List (Checked Value) → Checked (List Value)
  | a, op :: ops, b :: bs => do
    let b ← b
    return (← comparison w op a b) :: (← links w b ops bs)
  | _, _, _ => .ok []

def uninterpretable : Fault := .invalid (some "Could not interpret expression")

mutual
def meaning (w : World) (ns : Names) : Expr → Checked Value
  | .literal v => .term <$> v.value.toTerm
  | .name x => ns.find x
  | .unary op e =>
    match op with
    | .not | .complement => do Value.invert w (← meaning w ns e)
    | .minus => do Value.negate w (← meaning w ns e)
    | .plus => unsupported "UnaryOp"
  | .binary op a b =>
    if op = .matMul then .error uninterpretable
    else do
      let x ← meaning w ns a
      let y ← meaning w ns b
      Value.operator w op x y
  | .all es => do return .term (← Value.conjunction (← meanings w ns es))
  | .any es => do return .term (← Value.disjunction (← meanings w ns es))
  | .compare e ops es => do
    match ← links w (← meaning w ns e) ops (es.map (meaning w ns)) with
    | [v] => return v
    | vs => .term <$> Value.conjunction vs
  | .call f args named =>
    match f with
    | .name x => do
      if named then violated
      let g ← ns.find x
      Value.callPlain w g (← meanings w ns args)
    | _ => .error uninterpretable
  | .choice c a b => do
    let c ← meaning w ns c
    let a ← meaning w ns a
    let b ← meaning w ns b
    .term <$> Value.choice c a b
  | .field e x => do Value.property w (← meaning w ns e) x
  | .other => .error uninterpretable

def meanings (w : World) (ns : Names) : List Expr → Checked (List Value)
  | [] => .ok []
  | e :: es => do return (← meaning w ns e) :: (← meanings w ns es)
end

mutual
def Statement.meaning (w : World) (ns : Names) : Statement → Checked Value
  | .result none => invalid "Returning None not allowed"
  | .result (some e) => Script.meaning w ns e
  | .choice c yes no => do
    let c ← Script.meaning w ns c
    let yes ← bodyMeaning w ns yes
    let no ← bodyMeaning w ns no
    .term <$> Value.choice c yes no
  | .assign .. | .other => invalid "Statement"

def bodyMeaning (w : World) (ns : Names) : List Statement → Checked Value
  | [] => violated
  | [s] => s.meaning w ns
  | s :: rest =>
    match s with
    | .assign x e => do
      let v ← Script.meaning w ns e
      bodyMeaning w (ns.bind x v) rest
    | _ => invalid "Statement"
end

/-! ## Functions -/

def namedTypes : List (String × PlainType) :=
  [("int", .int), ("bool", .bool), ("str", .text), ("float", .float), ("Fraction", .fraction)] ++
    ["bytes", "list", "dict", "tuple", "set", "frozenset", "object", "type", "complex", "range", "bytearray", "slice",
     "memoryview", "property", "classmethod", "staticmethod", "super", "enumerate", "filter", "map", "reversed", "zip",
     "Exception", "BaseException", "ValueError", "TypeError"].map fun x => (x, .other x)

def namedFunctions : List String :=
  ["abs", "all", "any", "ascii", "bin", "callable", "chr", "compile", "delattr", "dir", "divmod", "eval", "exec",
   "format", "getattr", "globals", "hasattr", "hash", "help", "hex", "id", "input", "isinstance", "issubclass", "iter",
   "len", "locals", "max", "min", "next", "oct", "open", "ord", "pow", "print", "repr", "round", "setattr", "sorted",
   "sum", "vars", "NotImplemented", "Ellipsis"]

def checkNote (ns : Names) : Option Expr → Checked Unit
  | some (.name x) =>
    if (ns.find? x).isSome || namedTypes.any (·.1 = x) || namedFunctions.contains x then .ok ()
    else .error (.unbound x)
  | _ => .ok ()

def sortOfNote (ns : Names) : Option Expr → Checked Srt
  | none => wrongKind
  | some (.name x) =>
    match ns.find? x with
    | some (.sort s) => .ok s
    | some _ => unsupported "Name"
    | none =>
      match namedTypes.find? (·.1 = x) with
      | some (_, t) => t.toSort
      | none => unsupported "Name"
  | some (.literal (.text s)) => do
    let .name x := ← readExpr (String.ofList (s.toList.filter (· ≠ '"'))) | violated
    checkNote ns (some (.name x))
    let some (.sort s) := ns.find? x | violated
    return s
  | some (.literal _) => noField
  | some _ => unsupported "Annotation"

def Function.define (f : Function) (ns : Names) : Session Definition := do
  if f.restricted then violated
  let args ← f.args.mapM fun (x, note) => do
    let s ← sortOfNote ns note
    return Term.const (← Text.checkName x) s
  if f.result.isNone then invalid "Function"
  let range ← sortOfNote ns f.result
  let self : Symbol := ⟨← Text.checkName f.name, args.map Term.sort, range, .free⟩
  let inner := (f.args.zip args).foldl (fun ns ((x, _), t) => Names.bind ns x (.term t))
    (ns.bind f.name (.symbol self))
  let w ← theWorld
  match ← bodyMeaning w inner f.body with
  | .term body =>
    let d ← Kernel.define f.name args body
    if args.isEmpty then throw (if body.sort.isDatatype then .wrongKind else .noField)
    if d.symbol.range ≠ range then invalid "Function"
    return d
  | _ => noField

def findFunction (name : String) (ns : Names) (script : List Item) : Checked Function := do
  for item in script do
    if let .function f := item then
      for (_, note) in f.args do checkNote ns note
      checkNote ns f.result
  let named := script.filter fun
    | .function f => f.name = name
    | .assign x => x = name
    | .other => false
  match named.getLast? with
  | some (.function f) => return f
  | some _ => violated
  | none => noKey

end SortedLogic.Script

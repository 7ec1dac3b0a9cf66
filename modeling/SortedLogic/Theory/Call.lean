import SortedLogic.Value.Operator

/-!
# Calling values

Functions of the theories are carried out by the library and may call any value, so nesting is bounded.
-/

namespace SortedLogic.Theory

abbrev Named := List (String × Value)

abbrev Call := Value → List Value → Named → Session Value

abbrev Native := Call → List Value → Named → Session Value

abbrev Natives := List (String × Native)

def runMethod (call : Call) (m : Method) (args : List Value) : Session Value :=
  match m with
  | .native name => call (.native name []) args []
  | m => liftM (Value.runMethod m args)

/-- The well-formedness of a term and its induction scheme have methods of their own kind. -/
def runOperation (call : Call) (op : String) (args : List Value) : Session Value := do
  match args with
  | .term t :: rest =>
    let w ← theWorld
    match w.method? op t.sort with
    | none =>
      if op = "eq" || op = "ne" then
        match rest with
        | [b] => liftM (if op = "eq" then Value.relateTerm w .eq t b else Value.separateTerm w t b)
        | _ => wrongKind
      else throw Value.noMethod
    | some m =>
      match op, rest, m with
      | "wf", [], _ => .term <$> w.wellFormed t
      | "induct", [.term p], .structuralInduction => .proof <$> Kernel.induct t p
      | "induct", [.term p], .integerInduction => .proof <$> Kernel.induct t p
      | "induct", [.symbol f], .structuralInduction => .proof <$> Kernel.inductDatatypeBy t fun u => f.apply [u]
      | "induct", [_], .structuralInduction => wrongKind
      | "induct", [_], .integerInduction => wrongKind
      | _, _, m => runMethod call m args
  | [] => wrongKind
  | .object _ (some d) :: rest =>
    if op ≠ "create" then noField
    if !rest.isEmpty then wrongKind
    Kernel.declare d
    return .sort d.sort
  | _ => noField

def nativeMethod? (w : World) (op : Option String) (v : Value) : Option String := do
  match v with
  | .term t =>
    match w.method? (← op) t.sort with
    | some (.native name) => some name
    | _ => none
  | _ => none

def operator (call : Call) (op : Value.Op) (a b : Value) : Session Value := do
  let w ← theWorld
  match nativeMethod? w op.method? a with
  | some name => call (.native name []) [a, b] []
  | none => Value.operator w op a b

def leading (a b : Value) : Bool :=
  match a, b with
  | .term x, .term y => !y.outranks x
  | .term _, _ => true
  | _, .term _ => false
  | _, _ => true

def relate (call : Call) (r : Relation) (a b : Value) : Session Value := do
  let w ← theWorld
  let (r, a, b) := if leading a b then (r, a, b) else (r.flip, b, a)
  match nativeMethod? w (some r.method) a with
  | some name => call (.native name []) [a, b] []
  | none => Value.relate w r a b

def differ (call : Call) (a b : Value) : Session Value := do
  let w ← theWorld
  let (a, b) := if leading a b then (a, b) else (b, a)
  match nativeMethod? w (some "ne") a with
  | some name => call (.native name []) [a, b] []
  | none => Value.separate w a b

def negate (call : Call) (a : Value) : Session Value := do
  let w ← theWorld
  match nativeMethod? w (some "neg") a with
  | some name => call (.native name []) [a] []
  | none => Value.negate w a

def invert (call : Call) (a : Value) : Session Value := do
  let w ← theWorld
  match nativeMethod? w (some "invert") a with
  | some name => call (.native name []) [a] []
  | none => Value.invert w a

def index (call : Call) (a i : Value) : Session Value := do
  let w ← theWorld
  match nativeMethod? w (some "getitem") a with
  | some name => call (.native name []) [a, i] []
  | none => Value.index w a i

def part (v : Value) (name : String) : Session Value := do
  let w ← theWorld
  match v with
  | .sort s =>
    match (w.attached s).find? (·.1 = name) with
    | some (_, x) => return x
    | none =>
      match w.datatype? s with
      | none => noField
      | some d =>
        match d.constructor? name with
        | some c => return if c.symbol.arity = 0 then .term (.app c.symbol []) else .symbol c.symbol
        | none =>
          if name = "mk" then
            match d.constructors with
            | [c] => return .symbol c.symbol
            | _ => noField
          else
            match d.constructors.find? fun c => "is_" ++ c.symbol.name = name with
            | some c => return .symbol c.recognizer
            | none =>
              match (d.constructors.flatMap (·.accessors)).find? (·.name = name) with
              | some a => return .symbol a
              | none => noField
  | .symbol f =>
    match name, w.definition? f with
    | "defn", some d => return .proof d.law
    | _, _ => noField
  | .proof p => if name = "thm" then return .term p.thm else noField
  | .member _ parts =>
    match parts.find? (·.1 = name) with
    | some (_, x) => return x
    | none => noField
  | v => liftM (Value.property w v name)

def callDepth : Nat := 200

def callFrom (natives : Natives) : Nat → Call
  | 0, _, _, _ => tooDeep
  | depth + 1, f, args, named =>
    let call := callFrom natives depth
    match f with
    | .native name given => do
      let some (_, run) := natives.find? (·.1 = name) | noKey
      run call (given ++ args) named
    | .structureClass cls => call (.native "instance" [.text cls]) args named
    | .overloaded op => runOperation call op args
    | .sort s => do
      let w ← theWorld
      if named.isEmpty then liftM (Value.callPlain w f args)
      else
        match w.datatype? s with
        | some d => do
          let named ← named.mapM fun (k, v) => (liftM (do return (k, ← v.toTerm) : Checked (String × Term)) : Session _)
          return .term (← d.build (← args.mapM fun v => (liftM v.toTerm : Session Term)) named)
        | none => wrongKind
    | f => do
      let w ← theWorld
      if named.isEmpty then liftM (Value.callPlain w f args) else wrongKind

def callWith (natives : Natives) : Call := callFrom natives callDepth

end SortedLogic.Theory

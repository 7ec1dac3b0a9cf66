import SortedLogic.Value.Operator

/-!
# Types of plain values and the sorts they correspond to

Lists are sequences and tables are arrays. Tuples, sets and bytes have no sort.
-/

namespace SortedLogic

inductive PlainType where
  | int | bool | text | fraction | float
  | other (name : String)
  | list (args : List PlainType)
  | table (args : List PlainType)
  | generic (name : String) (args : List PlainType)

namespace PlainType

mutual
def toSort : PlainType → Checked Srt
  | .int => .ok .int
  | .bool => .ok .bool
  | .text => .ok .string
  | .fraction | .float => .ok .real
  | .other _ => unsupported "Type"
  | .list args => do
    match ← toSorts args args.length 1 "List must have exactly one type parameter" with
    | [s] => return .seq s
    | _ => illFormed
  | .table args => do
    match ← toSorts args args.length 2 "Dict must have exactly two type parameters" with
    | [k, v] => return .array [k] v
    | _ => illFormed
  | .generic _ _ => unsupported "Generic type"

def toSorts : List PlainType → (given wanted : Nat) → String → Checked (List Srt)
  | ts, given, wanted, message => do
    if given ≠ wanted then unsupported message
    match ts with
    | [] => return []
    | t :: rest => return (← toSort t) :: (← toSorts rest given wanted message)
end

def ofSort : Srt → Checked PlainType
  | .int => .ok .int
  | .real => .ok .fraction
  | .bool => .ok .bool
  | .string => .ok .text
  | .array (d :: _) r => return .table [← ofSort d, ← ofSort r]
  | .seq s => return .list [← ofSort s]
  | _ => unsupported "Sort"

end PlainType
end SortedLogic

/-! ## Evaluation of terms -/

namespace SortedLogic.Reflect

structure Environment where
  globals : List (String × Value) := []
  lenient : Bool := false

def budget : Nat := 975

def lookup (names : List (String × Value)) (x : String) : Option Value :=
  (names.find? (·.1 = x)).map (·.2)

def withoutValue (env : Environment) (t : Term) : Checked Value :=
  if env.lenient then .ok (.term t) else invalid "Cannot evaluate"

def joinBy (w : World) (op : Value.Op) : List Value → Checked Value
  | [] => wrongKind
  | v :: vs => vs.foldlM (Value.operator w op) v

def isIdentifier (s : String) : Bool :=
  match s.toList with
  | [] => false
  | c :: cs => (c.isAlpha || c = '_' || 127 < c.toNat) && cs.all fun c => c.isAlphanum || c = '_' || 127 < c.toNat

def reserved : List String :=
  ["False", "None", "True", "and", "as", "assert", "async", "await", "break", "class", "continue", "def", "del",
   "elif", "else", "except", "finally", "for", "from", "global", "if", "import", "in", "is", "lambda", "nonlocal",
   "not", "or", "pass", "raise", "return", "try", "while", "with", "yield"]

def checkRecordNames (constructor : String) (fields : List String) : Checked Unit := do
  for x in constructor :: fields do
    if !isIdentifier x then
      invalid ("Type names and field names must be valid identifiers: '" ++ x ++ "'")
    if reserved.contains x then
      invalid ("Type names and field names cannot be a keyword: '" ++ x ++ "'")
  for x in fields do
    if x.startsWith "_" then invalid ("Field names cannot start with an underscore: '" ++ x ++ "'")

def makeRecord (w : World) (f : Symbol) (args : List Value) : Checked Value := do
  let fields := match w.constructorOf? f with
    | some c => c.accessors.map (·.name)
    | none => []
  checkRecordNames f.name fields
  return .record f.name (fields.zip args)

def evalApp (w : World) (env : Environment) (e : Term) (f : Symbol) (vs : List Value) : Checked Value :=
  let two (op : Value → Value → Checked Value) : Checked Value := do
    let a :: b :: _ := vs | wrongKind
    op a b
  let one (op : Value → Checked Value) : Checked Value := do
    let a :: _ := vs | wrongKind
    op a
  match f.role with
  | .accessor .. => one fun v => Value.property w v f.name
  | .constructor => makeRecord w f vs
  | .recognizer c => one fun
    | .record k _ => .ok (.bool (k = c))
    | _ => .ok (.bool false)
  | .builtin _ =>
    match f.name with
    | "store" => invalid "Store not implemented"
    | "const" => one fun v => .ok (.constant v)
    | "map" => invalid "Map not implemented"
    | "true" => .ok (.bool true)
    | "false" => .ok (.bool false)
    | "not" => one (Value.invert w)
    | "=" => two (Value.relate w .eq)
    | "<" => two (Value.relate w .lt)
    | "<=" => two (Value.relate w .le)
    | ">=" => two (Value.relate w .ge)
    | ">" => two (Value.relate w .gt)
    | "+" => joinBy w .add vs
    | "*" => joinBy w .mul vs
    | "-" => if f.arity = 1 then one (Value.negate w) else two (Value.operator w .sub)
    | "/" => two (Value.operator w .div)
    | "div" => two (Value.operator w .floorDiv)
    | "^" => two (Value.operator w .pow)
    | "mod" => two (Value.operator w .mod)
    | _ => withoutValue env e
  | _ => withoutValue env e

/-- One equal to `stop` decides a conjunction or disjunction, those of the other truth value drop out. -/
def untilDecided (stop : Bool) (eval : Term → Session Value) : List Term → List Value → Session (Option (List Value))
  | [], acc => return some acc.reverse
  | t :: ts, acc => do
    match ← eval t with
    | .bool b => if b = stop then return none else untilDecided stop eval ts acc
    | v => untilDecided stop eval ts (v :: acc)

def evalJunction (stop : Bool) (op : Value.Op) (eval : Term → Session Value) (args : List Term) : Session Value := do
  match ← untilDecided stop eval args [] with
  | none => return .bool stop
  | some [] => return .bool (!stop)
  | some vs =>
    let w ← theWorld
    joinBy w op vs

def symbolName (x : String) : String := x.replace "!" "__"

def newSymbol : Session String := do
  let c ← freshConst "c" .real
  return symbolName (((c.bindingName?).map (·.1)).getD "")

mutual
def evalTerm (env : Environment) : Nat → List (String × Value) → Term → Session Value
  | 0, _, _ => tooDeep
  | n + 1, locals, e =>
    match e with
    | .bind .lambda _ _ => return .closure e env.globals locals env.lenient
    | .bind _ _ _ => invalid "Quantifier not implemented"
    | .var _ _ => withoutValue env e
    | .app f args => do
      let sub := evalTerm env n locals
      match f.role, f.name, args with
      | .int v, _, _ => return .int v
      | .rat q, _, _ => return .ratio q
      | .builtin _, "if", [c, a, b] =>
        match ← sub c with
        | .bool true => sub a
        | .bool false => sub b
        | v =>
          match lookup env.globals "If" with
          | some choose =>
            let x ← sub a
            let y ← sub b
            callValue n choose [v, x, y]
          | none =>
            if v.isTerm then
              let x ← sub a
              let y ← sub b
              .term <$> Value.choice v x y
            else invalid "If condition not a boolean or expression"
      | .builtin _, "and", _ => evalJunction false .bitAnd sub args
      | .builtin _, "or", _ => evalJunction true .bitOr sub args
      | .builtin _, "=>", [a, b] =>
        match ← sub a with
        | .bool true => sub b
        | .bool false => return .bool true
        | v => return .term (← Value.implication v (← sub b))
      | _, _, _ =>
        let vs ← match n with
          | 0 => if args.isEmpty then pure [] else tooDeep
          | m + 1 => args.mapM (evalTerm env m locals)
        let w ← theWorld
        match w.definition? f with
        | some d =>
          let lam ← d.body.lambda d.args
          callValue n (.closure lam env.globals locals env.lenient) vs
        | none =>
          match (lookup locals f.name).or (lookup env.globals f.name) with
          | some v => if args.isEmpty then return v else callValue n v vs
          | none =>
            if f.isOp "select" then
              match vs with
              | a :: is =>
                if a.isCallable then callValue n a is
                else match is with
                  | [i] => Value.index w a i
                  | _ => invalid "Select not implemented"
              | [] => wrongKind
            else evalApp w env e f vs

/-- The variables of a closure are opened as new constants; the names around it come before them. -/
def callValue : Nat → Value → List Value → Session Value
  | 0, _, _ => tooDeep
  | n + 1, f, args =>
    match f with
    | .closure lam globals locals lenient => do
      let (xs, body) ← lam.openFresh
      let own := (xs.map fun x => ((x.bindingName?).map (·.1)).getD "").zip args
      match n with
      | 0 | 1 => tooDeep
      | m + 2 => evalTerm ⟨globals, lenient⟩ m (locals ++ own) body
    | .calculation op =>
      match op, args with
      | .function _, _ | .equal, _ => liftM (op.run args)
      | _, .closure (.bind b [(v, .real)] body) globals locals lenient :: bounds => do
        let x ← newSymbol
        let e ← callValue n (.closure (.bind b [(v, .real)] body) globals locals lenient) [.symbolic (.symbol x)]
        op.runAt x e bounds
      | _, .closure .. :: _ => violated
      | _, _ => noField
    | f => do
      let w ← theWorld
      Value.callPlain w f args
end

def eval (env : Environment) (locals : List (String × Value)) (t : Term) : Session Value :=
  evalTerm env budget locals t

def call (f : Value) (args : List Value) : Session Value := callValue budget f args

/-! ## From values to terms -/

def isTruthy : Value → Bool
  | .null => false
  | .bool b => b
  | .text s => !s.isEmpty
  | .list xs | .tuple xs => !xs.isEmpty
  | .record _ fields => !fields.isEmpty
  | v =>
    match v.number? with
    | some x => !x.isZero
    | none => true

def textOf : Value → Checked String
  | .text s => .ok s
  | v => do
    let some xs := (match v with | .list xs => some xs | _ => v.row?) | wrongKind
    let parts ← xs.mapM fun
      | .text s => if s.length = 1 then .ok s else wrongKind
      | _ => wrongKind
    return String.join parts

def reifyFunction (domain range : Srt) (f : Value) : Session Term := do
  let x ← freshConst "c" domain
  let .term t := ← call f [.term x] | noField
  if t.sort = range then t.lambda [x] else violated

def reifyFrom : Nat → Srt → Value → Session Term
  | 0, _, _ => tooDeep
  | fuel + 1, s, v =>
    match v with
    | .closure lam _ _ _ => return lam
    | .term t => if t.sort = s then return t else invalid "Sort mismatch of"
    | _ =>
      match s with
      | .array (d :: _) r =>
        if v.isCallable then reifyFunction d r v else invalid "Cannot call"
      | .datatype _ => do
        match v with
        | .record c fields =>
          let w ← theWorld
          match (w.datatype? s).bind (·.constructor? c) with
          | none => invalid "Cannot reify"
          | some k =>
            if fields.length ≠ k.symbol.arity then violated
            let args ← (k.symbol.domain.zip (fields.map (·.2))).mapM fun (s, x) => reifyFrom fuel s x
            k.symbol.apply args
        | .tuple _ => invalid "Cannot reify"
        | _ => invalid "Reification on datatypesort not yet implemented"
      | .int => .int <$> v.asInt
      | .real => .rat <$> v.asRat
      | .bool => return .bool (isTruthy v)
      | .string => .text <$> textOf v
      | _ => invalid "Cannot reify"

def reify (s : Srt) (v : Value) : Session Term := reifyFrom budget s v

def inferSort : Value → Checked Srt
  | .bool _ | .int _ => .ok .int
  | .ratio _ => .ok .real
  | .text _ => .ok .string
  | .list [] => violated
  | .list (x :: _) => .seq <$> inferSort x
  | .closure lam _ _ _ => .ok lam.sort
  | _ => invalid "Cannot infer sort of"

def normalize (t : Term) : Session Term := do reify t.sort (← eval {} [] t)

end SortedLogic.Reflect

import SortedLogic.Datatype.Record
import SortedLogic.Relation
import SortedLogic.Value.Cast

/-!
# Operators on values

On plain values operators compute. Where a term takes part they build one.
-/

namespace SortedLogic

inductive Family where
  | plain | arith | bits | truth | array | datatype | seq | regex | float
  deriving DecidableEq

/-- The family of a term. A binder of any kind counts as a formula. -/
def Term.family (t : Term) : Family :=
  if t.isBind then .truth
  else match t.sort with
    | .bool => .truth
    | .int | .real => .arith
    | .bitvec _ => .bits
    | .array .. => .array
    | .datatype _ => .datatype
    | .seq _ | .string => .seq
    | .regex _ => .regex
    | .float .. => .float
    | _ => .plain

namespace Value

inductive Op where
  | add | sub | mul | div | floorDiv | mod | pow | shiftLeft | shiftRight | bitAnd | bitOr | bitXor | matMul
  deriving DecidableEq

namespace Op

def method? : Op → Option String
  | .add => some "add"
  | .sub => some "sub"
  | .mul => some "mul"
  | .div => some "div_"
  | .bitAnd => some "and_"
  | .bitOr => some "or_"
  | .matMul => some "matmul"
  | _ => none

def rightMethod? : Op → Option String
  | .add => some "radd"
  | .mul => some "rmul"
  | _ => none

def arith? (s : Srt) : Op → Option String
  | .add => some "+"
  | .sub => some "-"
  | .mul => some "*"
  | .div => some (if s = .int then "div" else "/")
  | .mod => some "mod"
  | .pow => some "**"
  | _ => none

def bits? : Op → Option String
  | .add => some "bvadd"
  | .sub => some "bvsub"
  | .mul => some "bvmul"
  | .div => some "bvsdiv"
  | .mod => some "bvsmod"
  | .bitAnd => some "bvand"
  | .bitOr => some "bvor"
  | .bitXor => some "bvxor"
  | .shiftLeft => some "bvshl"
  | .shiftRight => some "bvashr"
  | _ => none

end Op

def noMethod : Fault := .unsupported (some "No implementation of")

def runMethod (m : Method) (args : List Value) : Checked Value :=
  match m with
  | .symbol f => .term <$> applySymbol f args
  | .template vars body => do
    if vars.length ≠ args.length then wrongKind
    let args ← (vars.zip args).mapM fun (x, v) => toSort x.sort v
    .term <$> body.substitute (vars.zip args)
  | .record .. | .structuralInduction | .integerInduction | .native _ => wrongKind

variable (w : World)

def dispatch (op : String) (t : Term) (rest : List Value) : Checked Value :=
  match w.method? op t.sort with
  | some m => runMethod m (.term t :: rest)
  | none => .error noMethod

/-! ## Terms -/

def operation (name : String) (a b : Term) : Checked Value := do
  match name, a.sort, b.sort with
  | "bvsmod", .bitvec w, .bitvec _ => .term <$> Term.op (.builtin name [.bitvec w, .bitvec w] (.bitvec w)) [a, b]
  | _, _, _ =>
    match Builtin.symbol? name [a.sort, b.sort] with
    | some f => .term <$> Term.op f [a, b]
    | none => illFormed

def joinSeqs (a b : Value) : Checked Value := do
  let (a, b) ← coerce a b
  if a.sort.isSeq then .term <$> Term.op (.builtin "seq.++" [a.sort, a.sort] a.sort) [a, b]
  else illFormed

def joinRegexes (a b : Value) : Checked Value := do
  match a, b with
  | .term a, .term b => .term <$> Term.op (.builtin "re.union" [a.sort, a.sort] a.sort) [a, b]
  | _, _ => illFormed

def whereTrue (c : Term) (v : Value) : Checked Value :=
  match v.int? with
  | some 1 => .term <$> choice (.term c) (.int 1) (.int 0)
  | some 0 => return .term (.int 0)
  | _ => .term <$> choice (.term c) v (.int 0)

variable (op : Op)

def leftOperator (a : Term) (b : Value) : Checked Value :=
  let byMethod : Checked Value := do
    let some m := op.method? | wrongKind
    dispatch w m a [b]
  match a.family with
  | .arith =>
    match op.arith? a.sort with
    | none => byMethod
    | some _ => do
      if op = .mul then
        if let .term c := b then
          if c.family = .truth then return .term (← choice (.term c) (.term a) (.int 0))
      let (x, y) ← coerce (.term a) b
      operation ((op.arith? x.sort).getD "") x y
  | .bits =>
    match op.bits? with
    | none => byMethod
    | some name => do
      let (x, y) ← coerce (.term a) b
      operation name x y
  | .truth =>
    match op with
    | .mul => whereTrue a b
    | .bitAnd => .term <$> conjunction [.term a, b]
    | .bitOr => .term <$> disjunction [.term a, b]
    | .bitXor => do
      let x ← toSort .bool (.term a)
      let y ← toSort .bool b
      operation "xor" x y
    | _ => byMethod
  | .seq => if op = .add then joinSeqs (.term a) b else byMethod
  | .regex => if op = .add then joinRegexes (.term a) b else byMethod
  | .float | .array | .datatype | .plain => byMethod

def hasRightForm (b : Term) : Bool :=
  match b.family with
  | .arith => (op.arith? b.sort).isSome
  | .bits => op.bits?.isSome
  | .truth => op = .mul
  | .seq => op = .add
  | _ => false

def rightOperator (a : Value) (b : Term) : Checked Value :=
  let byMethod : Checked Value := do
    let some m := op.rightMethod? | wrongKind
    dispatch w m b [a]
  if hasRightForm op b then
    match b.family with
    | .arith => do
      let (x, y) ← coerce a (.term b)
      operation ((op.arith? x.sort).getD "") x y
    | .bits => do
      let (x, y) ← coerce a (.term b)
      operation (op.bits?.getD "") x y
    | .truth => whereTrue b a
    | .seq => joinSeqs a (.term b)
    | _ => byMethod
  else byMethod

/-! ## Plain values -/

def repeated {α : Type} (n : Int) (xs : List α) : List α := (List.replicate n.toNat xs).flatten

def onBits (f : Bool → Bool → Bool) (m n : Int) : Int :=
  let width := max m.natAbs.log2 n.natAbs.log2 + 2
  let bit (k : Int) (i : Nat) : Bool := k.fdiv (Int.pow 2 i) % 2 = 1
  let bits := (List.range width).map fun i => f (bit m i) (bit n i)
  let value : Int := (bits.zipIdx).foldl (fun acc (b, i) => if b then acc + Int.pow 2 i else acc) 0
  if f (m < 0) (n < 0) then value - Int.pow 2 width else value

def bitwise (f : Bool → Bool → Bool) : Value → Value → Checked Value
  | .bool a, .bool b => .ok (.bool (f a b))
  | a, b =>
    match a.int?, b.int? with
    | some m, some n => .ok (.int (onBits f m n))
    | _, _ => wrongKind

def shift (f : Int → Nat → Int) (a b : Value) : Checked Value :=
  match a.int?, b.int? with
  | some m, some n => if n < 0 then .error (.invalid none) else .ok (.int (f m n.toNat))
  | _, _ => wrongKind

def arithmetic (f : Number → Number → Checked Number) (a b : Value) : Checked Value :=
  match a.number?, b.number? with
  | some x, some y => ofNumber <$> f x y
  | _, _ => wrongKind

/-- An operator where one operand is symbolic. A fraction is no base of a symbolic power. -/
def symbolicOperator (a b : Value) : Checked Value := do
  let some x := a.toSymbolic? | wrongKind
  let some y := b.toSymbolic? | wrongKind
  match op, a with
  | .add, _ => return .symbolic (Symbolic.add x y)
  | .sub, _ => return .symbolic (Symbolic.sub x y)
  | .mul, _ => return .symbolic (Symbolic.mul x y)
  | .div, _ => return .symbolic (Symbolic.div x y)
  | .pow, .ratio _ => throw (.unsupported none)
  | .pow, _ => return .symbolic (Symbolic.pow x y)
  | _, _ => wrongKind

def plainOperator (a b : Value) : Checked Value :=
  if eitherSymbolic a b then symbolicOperator op a b
  else match op with
  | .add =>
    match a, b with
    | .text s, .text t => .ok (.text (s ++ t))
    | .list xs, .list ys => .ok (.list (xs ++ ys))
    | _, _ =>
      match a.row?, b.row? with
      | some xs, some ys => .ok (.tuple (xs ++ ys))
      | _, _ => arithmetic Number.add a b
  | .mul =>
    match a, b, a.int?, b.int? with
    | .text s, _, _, some n | _, .text s, some n, _ => .ok (.text (String.ofList (repeated n s.toList)))
    | .list xs, _, _, some n | _, .list xs, some n, _ => .ok (.list (repeated n xs))
    | _, _, m, n =>
      match a.row?, n, b.row?, m with
      | some xs, some n, _, _ | _, _, some xs, some n => .ok (.tuple (repeated n xs))
      | _, _, _, _ => arithmetic Number.mul a b
  | .sub => arithmetic Number.sub a b
  | .div => arithmetic Number.div a b
  | .floorDiv => arithmetic Number.floorDiv a b
  | .mod => arithmetic Number.mod a b
  | .pow => arithmetic Number.pow a b
  | .shiftLeft => shift (fun m n => m * Int.pow 2 n) a b
  | .shiftRight => shift (fun m n => m.fdiv (Int.pow 2 n)) a b
  | .bitAnd => bitwise Bool.and a b
  | .bitOr => bitwise Bool.or a b
  | .bitXor => bitwise Bool.xor a b
  | .matMul => wrongKind

/-- A term of an uninterpreted sort leaves the choice to the term on its right, if that has the operator. -/
def operator (a b : Value) : Checked Value :=
  match a, b with
  | .term x, .term y =>
    if x.family = .plain && y.family ≠ .plain && hasRightForm op y then rightOperator w op a y
    else leftOperator w op x b
  | .term x, _ => leftOperator w op x b
  | _, .term y => rightOperator w op a y
  | _, _ => plainOperator op a b

def negate : Value → Checked Value
  | .term t =>
    match t.family, t.sort with
    | .arith, s => return .term (.app (.builtin "-" [s] s) [t])
    | .bits, s => return .term (.app (.builtin "bvneg" [s] s) [t])
    | .float, s => return .term (.app (.builtin "fp.neg" [s] s) [t])
    | _, _ => dispatch w "neg" t []
  | .symbolic e => .ok (.symbolic (Symbolic.neg e))
  | v =>
    match v.number? with
    | some x => .ok (ofNumber x.neg)
    | none => wrongKind

/-- The complement: negation of formulas, all bits turned over in bit patterns and in integers. -/
def invert : Value → Checked Value
  | .term t =>
    match t.family, t.sort with
    | .truth, _ => .term <$> t.not
    | .bits, s => return .term (.app (.builtin "bvnot" [s] s) [t])
    | _, _ => dispatch w "invert" t []
  | v => do
    let some n := v.int? | wrongKind
    .ok (.int (-n - 1))

/-! ## Relations -/

mutual
def same : Value → Value → Bool
  | .null, .null => true
  | .text s, .text t => s = t
  | .list xs, .list ys => sames xs ys
  | .tuple xs, .tuple ys => sames xs ys
  | .record _ xs, .record _ ys => sameFields xs ys
  | .tuple xs, .record _ ys => sameRow xs ys
  | .record _ xs, .tuple ys => sameRow' xs ys
  | .symbol f, .symbol g => f = g
  | .sort s, .sort r => s = r
  | .term t, .term u => t = u
  | .symbolic a, .symbolic b => a == b
  | a, b =>
    match a.number?, b.number? with
    | some x, some y => x.compare? y = some .eq
    | _, _ => false

def sames : List Value → List Value → Bool
  | [], [] => true
  | x :: xs, y :: ys => same x y && sames xs ys
  | _, _ => false

def sameFields : List (String × Value) → List (String × Value) → Bool
  | [], [] => true
  | (_, x) :: xs, (_, y) :: ys => same x y && sameFields xs ys
  | _, _ => false

def sameRow : List Value → List (String × Value) → Bool
  | [], [] => true
  | x :: xs, (_, y) :: ys => same x y && sameRow xs ys
  | _, _ => false

def sameRow' : List (String × Value) → List Value → Bool
  | [], [] => true
  | (_, x) :: xs, y :: ys => same x y && sameRow' xs ys
  | _, _ => false
end

variable (r : Relation)

def holds : Ordering → Bool
  | .lt => match r with | .lt | .le => true | _ => false
  | .eq => match r with | .eq | .le | .ge => true | _ => false
  | .gt => match r with | .gt | .ge => true | _ => false

def compareRows (order : Value → Value → Checked (Option Ordering)) : List Value → List Value → Checked (Option Ordering)
  | [], [] => .ok (some .eq)
  | [], _ :: _ => .ok (some .lt)
  | _ :: _, [] => .ok (some .gt)
  | x :: xs, y :: ys => if same x y then compareRows order xs ys else order x y

def order : Nat → Value → Value → Checked (Option Ordering)
  | 0, _, _ => tooDeep
  | fuel + 1, a, b =>
    match a, b with
    | .text s, .text t => .ok (some (if s < t then .lt else if s = t then .eq else .gt))
    | .list xs, .list ys => compareRows (order fuel) xs ys
    | _, _ =>
      match a.row?, b.row? with
      | some xs, some ys => compareRows (order fuel) xs ys
      | _, _ =>
        match a.number?, b.number? with
        | some x, some y => .ok (x.compare? y)
        | _, _ => wrongKind

def orderDepth : Nat := 1000

def ownRelation (a : Term) (b : Value) : Option (Checked Term) :=
  let build (name : String) : Checked Term := do
    let (x, y) ← coerce (.term a) b
    Term.op (.builtin name [x.sort, x.sort] .bool) [x, y]
  match a.family with
  | .arith => some (build r.sign)
  | .bits => some (build r.signedName)
  | .float => some (build r.floatName)
  | .seq =>
    match r with
    | .lt => some (build "str.<")
    | .le => some (build "str.<=")
    | _ => none
  | _ => none

def relateTerm (a : Term) (b : Value) : Checked Value :=
  match r with
  | .eq =>
    match w.method? "eq" a.sort with
    | some m => runMethod m [.term a, b]
    | none =>
      match b with
      | .null => .ok (.bool false)
      | _ => do
        let (x, y) ← coerce (.term a) b
        .term <$> x.eq y
  | r =>
    match ownRelation r a b with
    | some t => .term <$> t
    | none => dispatch w r.method a [b]

def relate (a b : Value) : Checked Value :=
  match a, b with
  | .term x, .term y => if y.outranks x then relateTerm w r.flip y a else relateTerm w r x b
  | .term x, _ => relateTerm w r x b
  | _, .term y => relateTerm w r.flip y a
  | _, _ =>
    match r with
    | .eq => .ok (.bool (same a b))
    | r =>
      if eitherSymbolic a b then do return relateSymbolic r.sign (holds r) (← a.toSymbolic) (← b.toSymbolic)
      else do return .bool (((← order orderDepth a b).map (holds r)).getD false)

def separateTerm (a : Term) (b : Value) : Checked Value :=
  match w.method? "ne" a.sort with
  | some m => runMethod m [.term a, b]
  | none =>
    match b with
    | .null => .ok (.bool true)
    | _ => do
      let (x, y) ← coerce (.term a) b
      .term <$> x.neq y

def separate (a b : Value) : Checked Value :=
  match a, b with
  | .term x, .term y => if y.outranks x then separateTerm w y a else separateTerm w x b
  | .term x, _ => separateTerm w x b
  | _, .term y => separateTerm w y a
  | _, _ => .ok (.bool (!same a b))

/-! ## Parts of values -/

def elementAt (xs : List Value) (i : Int) : Checked Value := do
  let i := if i < 0 then i + xs.length else i
  let some v := (if i < 0 then none else xs[i.toNat]?) | outOfRange
  .ok v

def selectAt (a : Term) (is : List Value) : Checked Value :=
  match a.sort with
  | .array domains _ => do
    if is.length ≠ domains.length then illFormed
    return .term (← a.select (← (domains.zip is).mapM fun (s, v) => toSort s v))
  | _ => illFormed

def index (a i : Value) : Checked Value :=
  match a with
  | .term t =>
    match t with
    | .bind .. => if t.isLambda then selectAt t (places i) else illFormed
    | _ =>
      match t.sort with
      | .array .. => selectAt t (places i)
      | .seq e => do return .term (← Term.op (.builtin "seq.nth" [t.sort, .int] e) [t, ← position i])
      | .string => do return .term (← Term.op (.builtin "seq.nth" [t.sort, .int] .char) [t, ← position i])
      | _ => dispatch w "getitem" t [i]
  | _ =>
    let row? := match a with
      | .list xs => some xs
      | .text s => some (s.toList.map fun c => .text (String.singleton c))
      | _ => a.row?
    match row?, i.int? with
    | some xs, some n => elementAt xs n
    | _, _ => wrongKind
where
  places : Value → List Value
    | .tuple is => is
    | i => [i]
  position (i : Value) : Checked Term :=
    match i.int?, i with
    | some n, _ => .ok (.int n)
    | none, .term t => .ok t
    | none, _ => noField

def property (w : World) (v : Value) (name : String) : Checked Value :=
  match v with
  | .record _ fields =>
    match fields.find? (·.1 = name) with
    | some (_, x) => .ok x
    | none => noField
  | .term t =>
    match w.datatype? t.sort with
    | some d => do
      match ← d.property? t name with
      | some u => return .term u
      | none => return .null
    | none => noField
  | _ => noField

def isCallable : Value → Bool
  | .closure .. | .constant _ | .symbol _ | .proof _ | .calculation _ | .symbolic (.lambda ..) => true
  | .sort s => s.isDatatype
  | .term t => t.isBind || (match t.sort with | .array .. => true | _ => false)
  | _ => false

def callPlain (f : Value) (args : List Value) : Checked Value :=
  match f with
  | .symbol g => .term <$> applySymbol g args
  | .constant v => if args.length = 1 then .ok v else wrongKind
  | .term t =>
    match t with
    | .bind _ vars body => do
      if vars.length ≠ args.length then wrongKind
      return .term (← Term.applyBody vars body (← args.mapM toTerm))
    | _ =>
      match t.sort with
      | .array .. => selectAt t args
      | _ => wrongKind
  | .sort s =>
    match w.datatype? s with
    | some d => do
      let c ← d.onlyConstructor .violated
      return .term (← c.symbol.apply (← args.mapM toTerm))
    | none => wrongKind
  | .proof p => do
    let args ← args.mapM fun
      | .term t => .ok (Kernel.Argument.term t)
      | .proof q => .ok (.proof q)
      | _ => violated
    .proof <$> Kernel.call p args
  | .calculation op => op.run args
  | .symbolic (.lambda vs body) => do
    if vs.length ≠ args.length then wrongKind
    return .symbolic (Symbolic.substitute (vs.zip (← args.mapM toSymbolic)) body)
  | _ => wrongKind

end Value
end SortedLogic

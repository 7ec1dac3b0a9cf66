import SortedLogic.Datatype.Pattern
import SortedLogic.Theory.Call

/-!
# The vocabulary of theory texts

The names that every theory text may use: the sorts, and the functions that build terms.
-/

namespace SortedLogic.Theory

namespace Vocabulary

def aTerm : Value → Checked Term
  | .term t => .ok t
  | _ => noField

def aSort : Value → Checked Srt
  | .sort s => .ok s
  | _ => noField

def anInt : Value → Checked Int
  | v => do
    let some n := v.int? | wrongKind
    .ok n

def call1 (f : Call → Value → Session Value) : Native := fun call args _ => do
  let [a] := args | wrongKind
  f call a

def call2 (f : Call → Value → Value → Session Value) : Native := fun call args _ => do
  let [a, b] := args | wrongKind
  f call a b

def call3 (f : Call → Value → Value → Value → Session Value) : Native := fun call args _ => do
  let [a, b, c] := args | wrongKind
  f call a b c

def pure1 (f : Value → Checked Value) : Native := call1 fun _ a => liftM (f a)

def pure2 (f : Value → Value → Checked Value) : Native := call2 fun _ a b => liftM (f a b)

def pure3 (f : Value → Value → Value → Checked Value) : Native := call3 fun _ a b c => liftM (f a b c)

def pureAll (f : List Value → Checked Value) : Native := fun _ args _ => liftM (f args)

def onTerm (f : Term → Checked Term) : Native := pure1 fun a => do return .term (← f (← aTerm a))

def onTerms (f : Term → Term → Checked Term) : Native :=
  pure2 fun a b => do return .term (← f (← aTerm a) (← aTerm b))

def constantOf (s : Srt) (v : Term) : Value := .term (Builtin.constArray s v)

def constant : Value → Value → Checked Value
  | .sort s, v => constantOf s <$> v.toTerm
  | _, _ => illFormed

def store (a i v : Value) : Checked Value := do
  let a ← aTerm a
  match a.sort with
  | .array [d] r =>
    return .term (← Term.op (.builtin "store" [a.sort, d, r] a.sort) [a, ← i.toSort d, ← v.toSort r])
  | _ => illFormed

def toReal : Value → Checked Value
  | v => do
    let t ← v.toTerm
    if t.sort = .int then return .term (.app .toReal [t]) else illFormed

def toInt : Value → Checked Value
  | v => do
    let t ← v.toTerm
    if t.sort = .real then return .term (.app (.builtin "to_int" [.real] .int) [t]) else illFormed

def unsigned (t : Term) : Checked Term := do
  let w ← Bits.widthOf t
  return .app (.builtin "bv2int" [.bitvec w] .int) [t]

def signed (t : Term) : Checked Term := do
  let w ← Bits.widthOf t
  let n ← unsigned t
  let below ← Bits.compare "bvslt" t (.bits 0 w)
  below.ite (← Term.op (.builtin "-" [.int, .int] .int) [n, .int (Int.pow 2 w)]) n

def magnitude (w : World) (v : Value) : Checked Value := do
  let v := Value.term (← v.toTerm)
  match ← Value.relate w .gt v (.int 0) with
  | c => return .term (← Value.choice c v (← Value.negate w v))

def empty : Value → Checked Value
  | .sort s =>
    match s with
    | .seq _ | .string => .ok (.term (Term.emptySeq s))
    | .regex _ => .ok (.term (Term.emptyPattern s))
    | _ => illFormed
  | _ => illFormed

def full : Value → Checked Value
  | .sort s =>
    match s with
    | .regex _ => .ok (.term (Term.fullPattern s))
    | _ => illFormed
  | _ => illFormed

def aSeq : Value → Checked Term
  | .text s => .ok (.text s)
  | .term t => if t.sort.isSeq then .ok t else illFormed
  | _ => illFormed

def position (v : Value) : Checked Term :=
  match v.int?, v with
  | some n, _ => .ok (.int n)
  | none, .term t => .ok t
  | none, _ => illFormed

def join (vs : List Value) : Checked Value := do
  let vs := match vs with
    | [.list xs] => xs
    | _ => vs
  if vs.length < 2 then illFormed
  match vs with
  | .term t :: _ =>
    match t.sort with
    | .seq _ | .string => return .term (← Term.joinSeqs (← vs.mapM aSeq))
    | .regex _ =>
      let ts ← vs.mapM fun v => match v with | .term t => Except.ok t | _ => .error Fault.illFormed
      match ts with
      | t :: ts => .term <$> ts.foldlM (Term.patternOp "re.++") t
      | [] => illFormed
    | _ =>
      let ts ← vs.mapM fun v => match v with | .term t => Except.ok t | _ => .error Fault.illFormed
      .term <$> Builtin.concatAll ts
  | .text _ :: _ => return .term (← Term.joinSeqs (← vs.mapM aSeq))
  | _ => illFormed

def aPattern : Value → Checked Term
  | .term t => do
    let .regex _ := t.sort | illFormed
    .ok t
  | _ => illFormed

def onPatterns (name : String) : Native :=
  pure2 fun a b => do return .term (← Term.patternOp name (← aPattern a) (← aPattern b))

def accepts (r s : Value) : Checked Value := do
  return .term (← Term.acceptedBy (← aSeq s) (← aPattern r))

def floatTest (name : String) : Native := onTerm fun x => do
  let .float .. := x.sort | illFormed
  .ok (.app (.builtin name [x.sort] .bool) [x])

def floatValue (x : Term) : Checked Term := do
  let .float .. := x.sort | illFormed
  .ok (.app (.builtin "fp.to_real" [x.sort] .real) [x])

def roundTo (m x s : Value) : Checked Value := do
  match m, s with
  | .term m, .sort (.float e n) =>
    let x ← match x with
      | .term x => pure x
      | _ => illFormed
    if m.sort ≠ .roundingMode || x.sort ≠ .real then illFormed
    return .term (.app (.builtin "to_fp" [.roundingMode, .real] (.float e n) [e, n]) [m, x])
  | _, _ => illFormed

def floatZero : Value → Value → Checked Value
  | .sort s, .bool negative => .ok (.term (.app (.builtin (if negative then "-zero" else "+zero") [] s) []))
  | _, _ => illFormed

def roundingMode (name : String) : Value := .term (.app (.builtin name [] .roundingMode) [])

def cases : Native := fun _ args _ => do
  let pairs ← (args.filter fun v => match v with | .list _ => true | _ => false).mapM fun v =>
    match v with
    | .list [c, t] => (liftM (do return (← c.toTerm, some (← t.toTerm)) : Checked Case) : Session Case)
    | _ => wrongKind
  let default? := args.find? fun v => match v with | .list _ => false | _ => true
  let default? ← default?.mapM fun v => (liftM v.toTerm : Session Term)
  .term <$> chain pairs default?

/-- The value of the first case whose pattern matches; a value alone is the default. -/
def matching : Native := fun _ args _ => do
  match args with
  | [] => wrongKind
  | x :: rest =>
    let pairs ← rest.filterMapM fun v =>
      match v with
      | .list [p, t] => (liftM (do return some (← p.toTerm, ← t.toTerm) : Checked (Option (Term × Term))) : Session _)
      | _ => return none
    let default? := rest.find? fun v => match v with | .list _ => false | _ => true
    let default? ← default?.mapM fun v => (liftM v.toTerm : Session Term)
    return .term (← Datatype.matchValue (← aTerm x) pairs default?)

def arraySort (vs : List Value) : Checked Value := do
  let ss ← vs.mapM aSort
  let r :: d :: ds := ss.reverse | illFormed
  return .sort (.array (d :: ds).reverse r)

def natives : Natives := [
  ("Array", pureAll arraySort),
  ("Sequence", pure1 fun s => do return .sort (.seq (← aSort s))),
  ("Bits", pure1 fun n => do return .sort (.bitvec (← anInt n).toNat)),
  ("Pattern", pure1 fun s => do return .sort (.regex (← aSort s))),
  ("Float", pure2 fun e s => do return .sort (.float (← anInt e).toNat (← anInt s).toNat)),
  ("named", pure2 fun x s => do
    match x, s with
    | .text x, .sort s => return .term (.const (← Text.checkName x) s)
    | _, _ => illFormed),
  ("known", pure1 fun t => do return .proof (.byProofs (← aTerm t) [])),
  ("if", pure3 fun c a b => do return .term (← Value.choice c a b)),
  ("K", pure2 constant),
  ("store", pure3 store),
  ("int", pure1 fun v => do return .term (.int (← v.asInt))),
  ("real", pure1 fun v => do return .term (.rat (← v.asRat))),
  ("bits", pure2 fun v n => do return .term (.bits (← v.asInt) (← anInt n).toNat)),
  ("toReal", pure1 toReal),
  ("toInt", pure1 toInt),
  ("unsigned", onTerm unsigned),
  ("signed", onTerm signed),
  ("magnitude", call1 fun _ v => do magnitude (← theWorld) v),
  ("symbolOf", pure1 fun v => do
    match ← aTerm v with
    | .app f _ => return .symbol f
    | _ => illFormed),
  ("shiftRight", onTerms fun a b => Bits.binary "bvlshr" a b),
  ("empty", pure1 empty),
  ("full", pure1 full),
  ("length", pure1 fun s => do return .term (← Term.lengthSeq (← aSeq s))),
  ("unit", pure1 fun v => do return .term (Term.unitSeq (← aTerm v))),
  ("slice", pure3 fun s i n => do return .term (← Term.sliceSeq (← aSeq s) (← position i) (← position n))),
  ("contains", pure2 fun s t => do return .term (← Term.containsSeq (← aSeq s) (← aSeq t))),
  ("join", pureAll join),
  ("literal", pure1 fun s => do return .term (← Term.literalPattern (← aSeq s))),
  ("star", onTerm (Term.patternMap "re.*")),
  ("optional", onTerm (Term.patternMap "re.opt")),
  ("joinPatterns", onPatterns "re.++"),
  ("eitherPattern", onPatterns "re.union"),
  ("bothPatterns", onPatterns "re.inter"),
  ("exceptPattern", onPatterns "re.diff"),
  ("otherPattern", onTerm (Term.patternMap "re.comp")),
  ("accepts", pure2 accepts),
  ("setUnion", onTerms Term.setUnion),
  ("setInter", onTerms Term.setInter),
  ("setMinus", onTerms Term.setMinus),
  ("setComplement", onTerm Term.setComplement),
  ("subset", onTerms Term.setSubset),
  ("superset", onTerms fun a b => Term.setSubset b a),
  ("properSubset", call2 fun _ a b => do
    let s ← Term.setSubset (← aTerm a) (← aTerm b)
    let d ← Value.separate (← theWorld) a b
    return .term (← Value.conjunction [.term s, d])),
  ("isNormal", floatTest "fp.isNormal"),
  ("isSubnormal", floatTest "fp.isSubnormal"),
  ("isZero", floatTest "fp.isZero"),
  ("isNaN", floatTest "fp.isNaN"),
  ("isInfinite", floatTest "fp.isInf"),
  ("isPositive", floatTest "fp.isPositive"),
  ("isNegative", floatTest "fp.isNegative"),
  ("floatValue", onTerm floatValue),
  ("roundTo", pure3 roundTo),
  ("floatZero", pure2 floatZero),
  ("cases", cases),
  ("match", matching)]

def names : Named :=
  [("Int", .sort .int), ("Real", .sort .real), ("Bool", .sort .bool), ("String", .sort .string),
   ("RoundingMode", .sort .roundingMode), ("true", .term (.bool true)), ("false", .term (.bool false)),
   ("yes", .bool true), ("no", .bool false),
   ("nearestEven", roundingMode "roundNearestTiesToEven"), ("upward", roundingMode "roundTowardPositive"),
   ("downward", roundingMode "roundTowardNegative")]
  ++ natives.map fun (x, _) => (x, .native x [])

end Vocabulary
end SortedLogic.Theory

import SortedLogic.Theory.Bounds
import SortedLogic.Theory.Text.Arithmetic
import SortedLogic.Theory.Text.Logic

/-!
# Vectors of a dimension

Finite sorts, vectors as functions from a finite sort, and vectors as records of their components.
-/

namespace SortedLogic.Theory.Vectors
open Vocabulary

def finiteSort (n : Int) : Session Value := do
  let d ← newDatatype ("Fin" ++ toString n) fun _ => (List.range n.toNat).map fun i => ("X" ++ toString i, [])
  return .sort d.sort

def elements (s : Srt) : Session (List Term) := do
  match (← theWorld).datatype? s with
  | some d => liftM d.enumerate
  | none => wrongKind

variable (call : Call)

def sumOver (start : Option Value) (items : List Value) : Session Value := do
  match start, items with
  | some v, items => items.foldlM (operator call .add) v
  | none, v :: items => items.foldlM (operator call .add) v
  | none, [] => wrongKind

def productsAt (u v : Value) (places : List Value) : Session (List Value) :=
  places.mapM fun i => do
    let a ← index call u i
    operator call .mul a (← index call v i)

def functionVectors (n : Int) : Session Value := do
  let fin ← aSort (← call (.native "real.vec.FinSort" []) [.int n] [])
  let d ← newWrapper ("Vec0_" ++ toString n) "val" (.array [fin] .real)
  changeWorld (·.register "getitem" d.sort (.native "real.vec.componentAt"))
  let _ ← runLocal call "real.vec" [("S", .sort d.sort), ("Fin", .sort fin),
    ("products", .native "real.vec.products" []), ("squares", .native "real.vec.squares" [])]
    Text.functionVectorFacts
  return .sort d.sort

def indexSort (s : Srt) : Session Srt := do
  let some d := (← theWorld).datatype? s | wrongKind
  let [.array [fin] _] := (d.constructors.flatMap (·.accessors)).map Symbol.range | wrongKind
  return fin

def componentAt (u i : Value) : Session Value := do
  let t ← aTerm u
  let val ← part u "val"
  match i with
  | .int n =>
    let es ← elements (← indexSort t.sort)
    match (if n < 0 then none else es[n.toNat]?) with
    | some e => index call val (.term e)
    | none => invalid "Out of bounds"
  | i => index call val i

def fieldAt (u i : Value) : Session Value := do
  let t ← aTerm u
  let n ← anInt i
  let some c := ((← theWorld).datatype? t.sort).bind fun d => d.constructors.head? | illFormed
  let some a := (if n < 0 then none else c.accessors[n.toNat]?) | illFormed
  .term <$> a.apply [t]

def recordVectorOps : List (String × Value.Op) := [("add", .add), ("sub", .sub), ("mul", .mul), ("div_", .div)]

def recordVectors (n : Int) : Session Value := do
  let places := (List.range n.toNat).map fun (i : Nat) => Value.int i
  let d ← Datatype.declareRecord ("Vec" ++ toString n)
    ((List.range n.toNat).map fun i => ("x" ++ toString i, .real))
  Datatype.registerWellFormed d none
  changeWorld (·.register "getitem" d.sort (.native "real.vec.fieldAt"))
  let u := Term.const "u" d.sort
  let v := Term.const "v" d.sort
  let build (items : List Value) : Session Term := do (← call (.sort d.sort) items []).toTerm
  for (name, op) in recordVectorOps do
    let items ← places.mapM fun i => do
      let a ← index call (.term u) i
      operator call op a (← index call (.term v) i)
    let _ ← defineOverload name [u, v] (← build items)
  let items ← places.mapM fun i => do negate call (← index call (.term u) i)
  let _ ← defineOverload "neg" [u] (← build items)
  let zero ← build (places.map fun _ => .int 0)
  changeWorld (·.attach d.sort "zero" (.term zero))
  let squares ← sumOver call (some (.int 0)) (← productsAt call (.term u) (.term u) places)
  let norm2 ← defineOverload "norm2" [u] (← aTerm squares)
  changeWorld (·.attach d.sort "norm2" (.symbol norm2))
  let products ← sumOver call (some (.int 0)) (← productsAt call (.term u) (.term v) places)
  let dot ← defineOverload "dot" [u, v] (← aTerm products)
  changeWorld (·.attach d.sort "dot" (.symbol dot))
  return .sort d.sort

def placesOf (u : Value) : Session (List Value) := do
  return (← elements (← indexSort (← aTerm u).sort)).map .term

def natives : Natives := [
  ("real.vec.FinSort", onceForNumber "real.vec.FinSort" fun _ n => finiteSort n),
  ("real.vec.Vec0", onceForNumber "real.vec.Vec0" functionVectors),
  ("real.vec.Vec", onceForNumber "real.vec.Vec" recordVectors),
  ("real.vec.componentAt", call2 fun call u i => componentAt call u i),
  ("real.vec.fieldAt", call2 fun _ u i => fieldAt u i),
  ("real.vec.products", call2 fun call u v => do sumOver call none (← productsAt call u v (← placesOf u))),
  ("real.vec.squares", call1 fun call u => do sumOver call (some (.int 0)) (← productsAt call u u (← placesOf u)))]

end SortedLogic.Theory.Vectors

namespace SortedLogic.Theory.Words
open Vocabulary

/-! ## Patterns of any length -/

def bitAt (x : Int) (i : Nat) : Int := x.fdiv (Int.pow 2 i) % 2

def lowBits (x : Int) (n : Nat) : List Term := (List.range n).map fun i => .bits (bitAt x i) 1

def singleBits (x : Term) : Checked (List Term) := do
  let w ← Bits.widthOf x
  (List.range w).mapM fun i => Builtin.extract i i x

def literalPart (t : Term) : Term :=
  match t with
  | .app f [.app g []] =>
    match f.role, g.role with
    | .builtin [high, low], .bits v =>
      if f.name = "extract" then .bits (bitAt v low) (high - low + 1) else t
    | _, _ => t
  | _ => t

/-- Bits as a sequence. Sequences of less than two bits are not joined. -/
def sequenceOfBits (bits : List Term) : Checked Term :=
  if bits.length < 2 then illFormed else Term.joinSeqs (bits.map Term.unitSeq)

def integerSequence (x : Int) (n : Int) : Checked Term :=
  if n = 0 then .ok (.emptySeq (.seq (.bitvec 1)))
  else if n = 1 then .ok (Term.unitSeq (.bits x 1))
  else sequenceOfBits (lowBits x n.toNat)

/-- The pattern of a width that a sequence stands for, if it has that many bits. The last bit of the sequence comes
first. -/
def unpacked (s : Term) (n : Nat) : Checked Term := do
  let bits ← (List.range n).mapM fun (i : Nat) => s.elementSeq (.int i)
  if n < 2 then illFormed
  Builtin.concatAll bits.reverse

def wrap (s : Term) : Session Value := do
  return .term (← (← constructorOf (.datatype "BitVecN") "BitVecN").apply [s])

def toWidth (call : Call) (x : Value) (n : Int) : Session Value := do
  let s ← aSort (← call (.native "bitvec.BitVecSort" []) [.int n] [])
  let val ← (← part x "val").toTerm
  let pattern ← unpacked val n.toNat
  let fits ← (← val.lengthSeq).eq (.int n)
  let otherwise : Symbol := ⟨"toBV_undef", [.datatype "BitVecN"], s, .free⟩
  return .term (← fits.ite pattern (← otherwise.apply [← aTerm x]))

def complement (x : Value) : Session Value := do
  let z := Term.const "z" (.bitvec 1)
  let f ← (← Bits.complement z).lambda [z]
  wrap (← Term.mapSeq f (← (← part x "val").toTerm))

def bitCount (x : Term) : Checked Term := do
  let bits ← (← singleBits x).mapM unsigned
  return .app (.builtin "+" [.int, .int] .int) bits

/-! ## Bytes -/

def address : Value → Checked Bytes.Address
  | .term t => .ok (.term t)
  | v => .number <$> anInt v

def order (args : List Value) (named : Named) : Bytes.Order :=
  let flag := match args, named.find? (·.1 = "le") with
    | v :: _, _ => some v
    | [], some (_, v) => some v
    | [], none => none
  match flag with
  | some (.bool false) | some (.int 0) | some .null => .firstFirst
  | _ => .lastFirst

def readBytes (named : Named) : List Value → Checked Value
  | a :: p :: n :: rest => do
    let n ← anInt n
    if n ≤ 0 then violated
    return .term (← Bytes.read (← aTerm a) (← address p) n.toNat (order rest named))
  | _ => wrongKind

def writeBytes (named : Named) : List Value → Checked Value
  | a :: p :: d :: rest => do
    return .term (← Bytes.write (← aTerm a) (← address p) (← aTerm d) (order rest named))
  | _ => wrongKind

def readSymbol (n : Int) : Session Value := do
  if n ≤ 0 then violated
  let addr := Term.const "addr" (.bitvec 64)
  let a := Term.const "a" (.array [.bitvec 64] (.bitvec 8))
  let d ← Kernel.define "select64" [a, addr] (← Bytes.read a (.term addr) n.toNat)
  return .symbol d.symbol

/-! ## Fixed point -/

def fixedSort (call : Call) (width exponent : Int) : Session Value := do
  if width ≤ 0 then illFormed
  let d ← newWrapper ("Fixed_" ++ toString width ++ "_" ++ toString exponent) "val" (.bitvec width.toNat)
  let _ ← runLocal call "fixed" [("S", .sort d.sort), ("exp", .int exponent)] "
let x: S
overload to_real (x) := toReal(signed(x.val)) * real(2) ** exp
S.exp := exp
"
  return .sort d.sort

def written (theory : String) (params : List String) (body : String) : Native := fun call args _ => do
  if args.length ≠ params.length then wrongKind
  evalText call theory (params.zip args) body

def natives : Natives := [
  ("bitvec.BitVecSort", onceForNumber "bitvec.BitVecSort" fun call n => do
    if n ≤ 0 then illFormed
    let S : Srt := .bitvec n.toNat
    let _ ← runLocal call "bitvec" [("S", .sort S), ("N", .int n)] Text.bitFacts
    return .sort S),
  ("bitvec.BitVecNVal", call2 fun _ x n => do wrap (← integerSequence (← anInt x) (← anInt n))),
  ("bitvec.fromBV", call1 fun _ x => do wrap (← sequenceOfBits ((← singleBits (← aTerm x)).map literalPart))),
  ("bitvec.toBV", call2 fun call x n => do toWidth call x (← anInt n)),
  ("bitvec.BitVecNConst", fun _ args _ => do
    match args with
    | [.text x, n] =>
      let a := Term.const (← Text.checkName x) (.array [.int] (.bitvec 1))
      let bits ← (List.range (← anInt n).toNat).mapM fun (i : Nat) => a.select [.int i]
      wrap (← sequenceOfBits bits)
    | _ => wrongKind),
  ("bitvec.BVNot", call1 fun _ x => complement x),
  ("bitvec.SelectConcat", fun _ args named => liftM (readBytes named args)),
  ("bitvec.StoreConcat", fun _ args named => liftM (writeBytes named args)),
  ("bitvec.select64", onceForNumber "bitvec.select64" fun _ n => readSymbol n),
  ("bitvec.PopCount", onTerm bitCount),
  ("fixed.FixedSort", once "fixed.FixedSort" fun call args => do
    match args with
    | [w, e] => fixedSort call (← anInt w) (← anInt e)
    | _ => wrongKind),
  ("float.IsFinite", written "float" ["x"] "isNormal(x) or isSubnormal(x) or isZero(x)"),
  ("float.NoOverflow", written "float" ["m", "x", "s"] "IsFinite(roundTo(m, x, s))"),
  ("float.in_range", written "float" ["x"] "-max_real <= x and x <= max_real"),
  ("float.is_finite", written "float" ["x"] "in_range(floatValue(x))"),
  ("float.no_overflow", written "float" ["m", "x"] "in_range(round(m, x))")]

end SortedLogic.Theory.Words

import SortedLogic.Builtin
import SortedLogic.Quantify

/-!
# Terms on bit patterns

Of two sides of an equation or of a signed comparison the literal is written first.
-/

namespace SortedLogic.Bits

def word (v : Int) (width : Nat) : Checked Term :=
  if width = 0 then .error .illFormed else .ok (.bits v width)

def width? (t : Term) : Option Nat :=
  match t.sort with
  | .bitvec w => some w
  | _ => none

def widthOf (t : Term) : Checked Nat :=
  match width? t with
  | some w => .ok w
  | none => .error .noField

def binary (name : String) (a b : Term) : Checked Term :=
  match a.sort, b.sort with
  | .bitvec w, .bitvec v =>
    if w = v then .ok (.app (.builtin name [.bitvec w, .bitvec w] (.bitvec w)) [a, b]) else .error .illFormed
  | _, _ => .error .illFormed

def compare (name : String) (a b : Term) : Checked Term :=
  match a.sort, b.sort with
  | .bitvec w, .bitvec v =>
    if w = v then .ok (.app (.builtin name [.bitvec w, .bitvec w] .bool) [a, b]) else .error .illFormed
  | _, _ => .error .illFormed

def unary (name : String) (a : Term) : Checked Term :=
  match a.sort with
  | .bitvec w => .ok (.app (.builtin name [.bitvec w] (.bitvec w)) [a])
  | _ => .error .illFormed

def add : Term → Term → Checked Term := binary "bvadd"
def sub : Term → Term → Checked Term := binary "bvsub"
def neg : Term → Checked Term := unary "bvneg"
def complement : Term → Checked Term := unary "bvnot"

def withNumber (f : Term → Term → Checked Term) (a : Term) (n : Int) : Checked Term := do
  f a (← word n (← widthOf a))

def literalFirst (a b : Term) : Term × Term := if b.outranks a then (b, a) else (a, b)

def equal (a b : Term) : Checked Term :=
  let (a, b) := literalFirst a b
  a.eq b

def different (a b : Term) : Checked Term :=
  let (a, b) := literalFirst a b
  a.neq b

def signedLess (a b : Term) : Checked Term :=
  if b.outranks a then compare "bvsgt" b a else compare "bvslt" a b

def signedLessEq (a b : Term) : Checked Term :=
  if b.outranks a then compare "bvsge" b a else compare "bvsle" a b

def zeroExtend (n : Nat) (a : Term) : Checked Term :=
  match a.sort with
  | .bitvec w => .ok (.app (.builtin "zero_extend" [.bitvec w] (.bitvec (w + n)) [n]) [a])
  | _ => .error .illFormed

def signExtend (n : Nat) (a : Term) : Checked Term :=
  match a.sort with
  | .bitvec w => .ok (.app (.builtin "sign_extend" [.bitvec w] (.bitvec (w + n)) [n]) [a])
  | _ => .error .illFormed

/-! ## Overflow -/

/-- The sum of two numbers without sign fits in the width. -/
def addFits (a b : Term) : Checked Term := do
  let w ← widthOf a
  let sum ← add (← zeroExtend 1 a) (← zeroExtend 1 b)
  (← Builtin.extract w w sum).eq (.bits 0 1)

/-- The sum of two positive numbers with sign is positive. -/
def signedAddFits (a b : Term) : Checked Term := do
  let zero ← word 0 (← widthOf a)
  let sum ← add a b
  (← Term.and [← compare "bvslt" zero a, ← compare "bvslt" zero b]).implies (← compare "bvslt" zero sum)

/-- The second one is the least number and the first one negative, or the sum with the negated second one is not too large. -/
def signedSubFits (a b : Term) : Checked Term := do
  let w ← widthOf b
  let least ← binary "bvshl" (← word 1 w) (← word ((w : Int) - 1) w)
  let sum ← signedAddFits a (← neg b)
  Term.ite (← b.eq least) (← compare "bvslt" a (← word 0 (← widthOf a))) sum

end SortedLogic.Bits

/-! ## Patterns in arrays of bytes -/

namespace SortedLogic.Bytes

/-- Where a pattern starts: at a term, or at a number that takes the width of the addresses. -/
inductive Address where
  | term (t : Term)
  | number (n : Int)

inductive Order where
  | lastFirst | firstFirst
  deriving DecidableEq

variable (a : Term)

def places : Checked Srt :=
  match a.sort with
  | .array [s] _ => .ok s
  | _ => .error .illFormed

def Address.index : Address → Checked Term
  | .term t => .ok t
  | .number n => do
    match ← places a with
    | .bitvec w => Bits.word n w
    | .int => .ok (.int n)
    | _ => .error .illFormed

def shift (name arithmetic : String) (t : Term) (n : Int) : Checked Term :=
  match t.sort with
  | .bitvec _ => Bits.withNumber (Bits.binary name) t n
  | .int => .ok (.app (.builtin arithmetic [.int, .int] .int) [t, .int n])
  | .real => .ok (.app (.builtin arithmetic [.real, .real] .real) [t, .rat n])
  | _ => .error .wrongKind

def Address.plus (n : Int) : Address → Checked Address
  | .term t => .term <$> shift "bvadd" "+" t n
  | .number m => return .number (m + n)

def Address.minus (n : Int) : Address → Checked Address
  | .term t => .term <$> shift "bvsub" "-" t n
  | .number m => return .number (m - n)

def readAt (p : Address) : Checked Term := do a.select [← p.index a]

def placeOf (order : Order) (p : Address) (n i : Nat) : Checked Address :=
  match order with
  | .lastFirst => do (← (← p.plus n).minus i).minus 1
  | .firstFirst => p.plus i

def read (p : Address) (n : Nat) (order : Order := .lastFirst) : Checked Term :=
  if n = 0 then .error .violated
  else if n = 1 then readAt a p
  else do
    let bytes ← (List.range n).mapM fun i => do readAt a (← placeOf order p n i)
    Builtin.concatAll bytes

def store (a i v : Term) : Checked Term :=
  match a.sort with
  | .array [d] r =>
    if i.sort = d && v.sort = r then .ok (.app (.builtin "store" [a.sort, d, r] a.sort) [a, i, v])
    else .error .illFormed
  | _ => .error .illFormed

/-- The byte that goes to the place `i`. With the first byte first the bounds of the part stand the wrong way round. -/
def byteOf (order : Order) (data : Term) (i : Nat) : Checked Term :=
  match order with
  | .lastFirst => Builtin.extract (8 * i + 7) (8 * i) data
  | .firstFirst => Builtin.extract (8 * i) (8 * i + 7) data

/-- The array with a pattern written at an address, from the lowest place up. -/
def write (p : Address) (data : Term) (order : Order := .lastFirst) : Checked Term := do
  let width ← Bits.widthOf data
  if width % 8 ≠ 0 then throw .violated
  (List.range (width / 8)).foldlM (fun a (i : Nat) => do
    store a (← (← p.plus i).index a) (← byteOf order data i)) a

end SortedLogic.Bytes

namespace SortedLogic.Term

/-! ## Sequences -/

def emptySeq (s : Srt) : Term := .app (.builtin "seq.empty" [] s) []

def unitSeq (t : Term) : Term := .app (.builtin "seq.unit" [t.sort] (.seq t.sort)) [t]

def requireSeq (t : Term) : Checked Unit := Checked.guard t.sort.isSeq .illFormed

def joinSeq (a b : Term) : Checked Term := do
  requireSeq a
  op (.builtin "seq.++" [a.sort, a.sort] a.sort) [a, b]

def joinSeqs : List Term → Checked Term
  | [] => .error .illFormed
  | [t] => .ok t
  | t :: ts => do joinSeq t (← joinSeqs ts)

def lengthSeq (s : Term) : Checked Term := do
  requireSeq s
  op (.builtin "seq.len" [s.sort] .int) [s]

def sliceSeq (s start count : Term) : Checked Term := do
  requireSeq s
  op (.builtin "seq.extract" [s.sort, .int, .int] s.sort) [s, start, count]

def containsSeq (s t : Term) : Checked Term := do
  requireSeq s
  op (.builtin "seq.contains" [s.sort, s.sort] .bool) [s, t]

def elementSeq (s i : Term) : Checked Term := do
  let some e := s.sort.element? | throw .illFormed
  op (.builtin "seq.nth" [s.sort, .int] e) [s, i]

def mapSeq (f s : Term) : Checked Term :=
  match f.sort, s.sort with
  | .array [d] r, .seq e =>
    if d = e then op (.builtin "seq.map" [f.sort, s.sort] (.seq r)) [f, s] else .error .illFormed
  | _, _ => .error .illFormed

/-! ## Sets -/

def setElement? (t : Term) : Option Srt :=
  match t.sort with
  | .array [s] .bool => some s
  | _ => none

def setOp (name : String) (a b : Term) : Checked Term := do
  let some _ := setElement? a | throw .illFormed
  op (.builtin name [a.sort, a.sort] a.sort) [a, b]

def setUnion : Term → Term → Checked Term := setOp "union"
def setInter : Term → Term → Checked Term := setOp "intersection"
def setMinus : Term → Term → Checked Term := setOp "setminus"

def setComplement (a : Term) : Checked Term := do
  let some _ := setElement? a | throw .illFormed
  op (.builtin "complement" [a.sort] a.sort) [a]

def setSubset (a b : Term) : Checked Term := do
  let some _ := setElement? a | throw .illFormed
  op (.builtin "subset" [a.sort, a.sort] .bool) [a, b]

/-! ## Patterns -/

def emptyPattern (s : Srt) : Term := .app (.builtin "re.empty" [] s) []
def fullPattern (s : Srt) : Term := .app (.builtin "re.all" [] s) []

def literalPattern (s : Term) : Checked Term := do
  requireSeq s
  op (.builtin "seq.to.re" [s.sort] (.regex s.sort)) [s]

def patternOp (name : String) (a b : Term) : Checked Term := do
  let .regex _ := a.sort | throw .illFormed
  op (.builtin name [a.sort, a.sort] a.sort) [a, b]

def patternMap (name : String) (a : Term) : Checked Term := do
  let .regex _ := a.sort | throw .illFormed
  op (.builtin name [a.sort] a.sort) [a]

def acceptedBy (s r : Term) : Checked Term := op (.builtin "seq.in.re" [s.sort, .regex s.sort] .bool) [s, r]

end SortedLogic.Term

import SortedLogic.Search
import SortedLogic.Term.Bits

/-!
# Instructions of a register machine

An instruction is carried out by small operations on places in memory: a space, an offset and a number of bytes.
-/

namespace SortedLogic.Machine

structure Place where
  space : String
  offset : Int
  size : Nat
  deriving DecidableEq

def Place.isConst (p : Place) : Bool := p.space = "const"

inductive Unary where
  | copy | negate | complement | not
  deriving DecidableEq

inductive Binary where
  | add | sub | xor | and | or | shiftLeft | shiftRight | signedShiftRight | mul | div | rem | signedDiv | signedRem
  | differ | notEqual | equal | carry | signedCarry | signedBorrow | signedLess | signedLessEq | less | lessEq
  deriving DecidableEq

inductive Opcode where
  | mark | load | store | branch | branchIf | signExtend
  | piece
  | popcount
  | unary (u : Unary)
  | binary (b : Binary)
  | other (name : String)
  deriving DecidableEq

def Opcode.ofName : String → Opcode
  | "IMARK" => .mark
  | "LOAD" => .load
  | "STORE" => .store
  | "BRANCH" => .branch
  | "CBRANCH" => .branchIf
  | "INT_SEXT" => .signExtend
  | "SUBPIECE" => .piece
  | "POPCOUNT" => .popcount
  | "COPY" => .unary .copy
  | "INT_2COMP" => .unary .negate
  | "INT_NEGATE" => .unary .complement
  | "BOOL_NEGATE" => .unary .not
  | "INT_ADD" => .binary .add
  | "INT_SUB" => .binary .sub
  | "INT_XOR" => .binary .xor
  | "INT_AND" | "BOOL_AND" => .binary .and
  | "INT_OR" | "BOOL_OR" => .binary .or
  | "INT_LEFT" => .binary .shiftLeft
  | "INT_RIGHT" => .binary .shiftRight
  | "INT_SRIGHT" => .binary .signedShiftRight
  | "INT_MULT" => .binary .mul
  | "INT_DIV" => .binary .div
  | "INT_REM" => .binary .rem
  | "INT_SDIV" => .binary .signedDiv
  | "INT_SREM" => .binary .signedRem
  | "BOOL_XOR" => .binary .differ
  | "INT_NOTEQUAL" => .binary .notEqual
  | "INT_EQUAL" => .binary .equal
  | "INT_CARRY" => .binary .carry
  | "INT_SCARRY" => .binary .signedCarry
  | "INT_SBORROW" => .binary .signedBorrow
  | "INT_SLESS" => .binary .signedLess
  | "INT_SLESSEQUAL" => .binary .signedLessEq
  | "INT_LESS" => .binary .less
  | "INT_LESSEQUAL" => .binary .lessEq
  | name => .other name

structure Operation where
  code : Opcode
  output : Option Place
  inputs : List Place
  deriving DecidableEq

structure Instruction where
  address : Int
  length : Int
  mnemonic : String
  body : String
  operations : List Operation
  deriving DecidableEq

abbrev Image := List Instruction

def hexText (n : Int) : String :=
  (if n < 0 then "-" else "") ++ "0x" ++ String.ofList (Nat.toDigits 16 n.natAbs)

def Instruction.text (i : Instruction) : String :=
  hexText i.address ++ "/" ++ toString i.length ++ ": " ++ i.mnemonic ++ " " ++ i.body

/-! ## The memory of the machine -/

def addressWidth : Nat := 64

def spaceSort : Srt := .array [.bitvec addressWidth] (.bitvec 8)

def memoryDatatype : Datatype :=
  Datatype.make "MemState" [("MemState", [("ram", spaceSort), ("register", spaceSort), ("unique", spaceSort)])]

def memorySort : Srt := memoryDatatype.sort

def spaceNames : List String := ["ram", "register", "unique"]

namespace Memory

def pack : Symbol := ⟨"MemState", [spaceSort, spaceSort, spaceSort], memorySort, .constructor⟩

def accessor (name : String) (i : Nat) : Symbol := ⟨name, [memorySort], spaceSort, .accessor "MemState" i⟩

variable (m : Term)

def space (name : String) : Checked Term :=
  match spaceNames.findIdx? (· = name) with
  | some i => .ok (.app (accessor name i) [m])
  | none => .error .noField

def spaces : List Term :=
  match m with
  | .app f args => if f.isConstructor then args else symbolic
  | _ => symbolic
where
  symbolic : List Term := spaceNames.zipIdx.map fun (name, i) => .app (accessor name i) [m]

def replace (name : String) (a : Term) : Term :=
  .app pack ((spaceNames.zip (spaces m)).map fun (n, old) => if n = name then a else old)

def read (m : Term) (p : Place) : Checked Term :=
  if p.isConst then Bits.word p.offset (8 * p.size)
  else match space m p.space with
    | .ok a => Bytes.read a (.term (.bits p.offset addressWidth)) p.size
    | .error _ => .error (.invalid (some ("Unknown memory space: " ++ p.space)))

def write (m : Term) (p : Place) (v : Term) : Checked Term := do
  if p.isConst then throw .violated
  let a ← Bytes.write (← space m p.space) (.term (.bits p.offset addressWidth)) v
  return replace m p.space a

def readRam (at' : Bytes.Address) (size : Nat) : Checked Term := do
  Bytes.read (← space m "ram") at' size

def writeRam (at' : Bytes.Address) (v : Term) : Checked Term := do
  return replace m "ram" (← Bytes.write (← space m "ram") at' v)

end Memory

/-- The operation number `index` of the instruction at an address. -/
structure Counter where
  address : Int
  index : Nat
  deriving DecidableEq

inductive Next where
  | goto (c : Counter)
  | choice (condition : Term) (taken passed : Counter)

/-! ## Values -/

def one : Term := .bits 1 8
def zero : Term := .bits 0 8

def flag (c : Term) : Checked Term := c.ite one zero

def Unary.value (u : Unary) (x : Term) : Checked Term :=
  match u with
  | .copy => .ok x
  | .negate => Bits.neg x
  | .complement => Bits.complement x
  | .not => do (← Bits.equal x one).ite zero one

def Binary.value (b : Binary) (x y : Term) : Checked Term :=
  match b with
  | .add => Bits.add x y
  | .sub => Bits.sub x y
  | .xor => Bits.binary "bvxor" x y
  | .and => Bits.binary "bvand" x y
  | .or => Bits.binary "bvor" x y
  | .shiftLeft => Bits.binary "bvshl" x y
  | .shiftRight => Bits.binary "bvlshr" x y
  | .signedShiftRight => Bits.binary "bvashr" x y
  | .mul => Bits.binary "bvmul" x y
  | .div => Bits.binary "bvudiv" x y
  | .rem => Bits.binary "bvurem" x y
  | .signedDiv => Bits.binary "bvsdiv" x y
  | .signedRem => Bits.binary "bvsrem" x y
  | .differ => do (← Bits.equal x y).ite zero one
  | .notEqual => do flag (← Bits.different x y)
  | .equal => do flag (← Bits.equal x y)
  | .carry => do flag (← (← Bits.addFits x y).not)
  | .signedCarry => do flag (← (← Bits.signedAddFits x y).not)
  | .signedBorrow => do flag (← (← Bits.signedSubFits x y).not)
  | .signedLess => do flag (← Bits.signedLess x y)
  | .signedLessEq => do flag (← Bits.signedLessEq x y)
  | .less => do flag (← Bits.compare "bvult" x y)
  | .lessEq => do flag (← Bits.compare "bvule" x y)

def fit (have' want : Nat) (t : Term) : Checked Term :=
  if have' < want then Bits.zeroExtend (want - have') t
  else if want < have' then (if want = 0 then .error .illFormed else Builtin.extract (want - 1) 0 t)
  else .ok t

def countOnes (x : Term) (width : Nat) : Checked Term := do
  (List.range width).foldlM (fun sum (i : Nat) => do
    let bit ← Bits.withNumber (Bits.binary "bvand") (← Bits.withNumber (Bits.binary "bvashr") x i) 1
    Bits.add sum bit) (← Bits.word 0 width)

/-! ## Operations on memory -/

namespace Operation
variable (o : Operation)

def result : Checked Place :=
  match o.output with
  | some p => .ok p
  | none => .error .violated

def input (i : Nat) : Checked Place := do
  let some p := o.inputs[i]? | throw .outOfRange
  .ok p

def argument (m : Term) (i : Nat) : Checked Term := do Memory.read m (← o.input i)

def unary (u : Unary) (m : Term) : Checked Term := do
  let out ← o.result
  Memory.write m out (← u.value (← o.argument m 0))

def binary (b : Binary) (m : Term) : Checked Term := do
  let out ← o.result
  let x ← o.argument m 0
  let y ← o.argument m 1
  Memory.write m out (← b.value x y)

def signExtend (o : Operation) (m : Term) : Checked Term := do
  let out ← o.result
  let x ← o.argument m 0
  let source ← o.input 0
  if out.size < source.size then throw .illFormed
  Memory.write m out (← Bits.signExtend (8 * (out.size - source.size)) x)

def piece (m : Term) : Checked Term := do
  let out ← o.result
  let x ← o.argument m 0
  let skip ← o.input 1
  if !skip.isConst then throw .violated
  if skip.offset < 0 || out.size = 0 then throw .illFormed
  let low := 8 * skip.offset.toNat
  Memory.write m out (← Builtin.extract (8 * out.size + low - 1) low x)

def popcount (m : Term) : Checked Term := do
  let out ← o.result
  let x ← o.argument m 0
  let source ← o.input 0
  let sum ← countOnes x (8 * source.size)
  Memory.write m out (← fit (8 * source.size) (8 * out.size) sum)

def load (m : Term) : Checked Term := do
  let out ← o.result
  let start ← o.argument m 1
  let source ← o.input 0
  if !source.isConst then
    throw (.invalid (some ("Expected constant space in LOAD, got " ++ source.space ++ ", LOAD")))
  Memory.write m out (← Memory.readRam m (.term start) out.size)

def store (m : Term) : Checked Term := do
  let v ← o.argument m 2
  let start ← o.argument m 1
  if (← o.input 0).space ≠ "ram" then throw .violated
  Memory.writeRam m (.term start) v

end Operation

/-! ## Control -/

namespace Image
variable (im : Image)

def instructionAt (address : Int) : Checked Instruction := do
  let some i := im.find? (·.address = address) | throw .violated
  .ok i

def operationsAt (address : Int) : Checked (List Operation) := do
  let i ← instructionAt im address
  if i.operations.isEmpty then throw .violated
  return i.operations

def operationAt (c : Counter) : Checked Operation := do
  match (← operationsAt im c.address)[c.index]? with
  | some o => return o
  | none => throw .outOfRange

/-- A later operation of the instruction, or the first one of the instruction that follows. -/
def after (c : Counter) : Checked Counter := do
  if c.index + 1 ≥ (← operationsAt im c.address).length then
    return ⟨c.address + (← instructionAt im c.address).length, 0⟩
  return ⟨c.address, c.index + 1⟩

def target (o : Operation) (c : Counter) : Checked Counter := do
  let p ← o.input 0
  if p.isConst then
    let index := (c.index : Int) + p.offset
    let count := (← operationsAt im c.address).length
    if index = count then after im ⟨c.address, count⟩
    else if index < 0 || index ≥ count then
      throw (.invalid (some ("Lowlevel Error. Bad intra-instruction branch: " ++ toString index)))
    else return ⟨c.address, index.toNat⟩
  else if p.space = "ram" then return ⟨p.offset, 0⟩
  else throw (.invalid (some ("Unknown branch target: " ++ p.space)))

def execute (o : Operation) (m : Term) (c : Counter) : Checked (Term × Next) :=
  let andOn (m : Checked Term) : Checked (Term × Next) := do
    let m ← m
    return (m, .goto (← after im c))
  match o.code with
  | .mark => andOn (.ok m)
  | .load => andOn (o.load m)
  | .store => andOn (o.store m)
  | .branch => do return (m, .goto (← target im o c))
  | .branchIf => do
    let condition ← Bits.withNumber Term.neq (← o.argument m 1) 0
    return (m, .choice condition (← target im o c) (← after im c))
  | .signExtend => andOn (o.signExtend m)
  | .piece => andOn (o.piece m)
  | .popcount => andOn (o.popcount m)
  | .unary u => andOn (o.unary u m)
  | .binary b => andOn (o.binary b m)
  | .other _ => .error (.unsupported (some "Opcode not implemented: "))

end Image

/-! ## Following all paths -/

structure Path where
  memory : Term
  counter : Counter
  budget : Int
  conditions : List Term

structure Outcome where
  memory : Term
  counter : Counter
  conditions : List Term
  branched : Bool

def choiceTerms (condition : Term) (taken passed : Counter) : Checked (Term × Term) := do
  return (← condition.ite (.int taken.address) (.int passed.address), ← condition.ite (.int taken.index) (.int passed.index))

def counterOf : List Term → Checked Counter
  | [a, i] =>
    match a.int?, i.int? with
    | some a, some i => .ok ⟨a, i.toNat⟩
    | _, _ => .error .violated
  | _ => .error .violated

structure Spread where
  counter : Counter
  budget : Int
  paths : List Path := []
  outcomes : List Outcome := []

/-- The budget shrinks when the address differs from that of the counter that was looked at before. -/
def Spread.follow (memory : Term) (conditions : List Term) (address index : Term) (s : Spread) (c : Counter) :
    Checked Spread := do
  let budget := if s.counter.address ≠ c.address then s.budget - 1 else s.budget
  let conditions := conditions ++ [← address.eq (.int c.address), ← index.eq (.int c.index)]
  if budget > 0 then return { s with counter := c, budget, paths := ⟨memory, c, budget, conditions⟩ :: s.paths }
  else return { s with counter := c, budget, outcomes := s.outcomes ++ [⟨memory, c, conditions, true⟩] }

def Path.step (im : Image) (find : Models.Finder) (p : Path) : Checked (List Path × List Outcome) := do
  let o ← Image.operationAt im p.counter
  let (memory, next) ← Image.execute im o p.memory p.counter
  match next with
  | .goto c =>
    let budget := if p.counter.address ≠ c.address then p.budget - 1 else p.budget
    if budget > 0 then return ([⟨memory, c, budget, p.conditions⟩], [])
    else return ([], [⟨memory, c, p.conditions, false⟩])
  | .choice condition taken passed =>
    let (address, index) ← choiceTerms condition taken passed
    let found ← Models.allValues find 3 [address, index]
    let counters ← found.mapM counterOf
    let s ← counters.foldlM (Spread.follow p.memory p.conditions address index) ⟨p.counter, p.budget, [], []⟩
    return (s.paths, s.outcomes)

def follow (im : Image) (find : Models.Finder) : Nat → List Path → List Outcome → Checked (List Outcome)
  | _, [], outcomes => .ok outcomes
  | 0, _ :: _, _ => .error .tooDeep
  | fuel + 1, p :: rest, outcomes => do
    let (paths, ended) ← p.step im find
    follow im find fuel (paths ++ rest) (outcomes ++ ended)

def maxSteps : Nat := 20000

/-- All ends of paths from an address on, until `budget` instructions have been left. -/
def explore (im : Image) (find : Models.Finder) (memory : Term) (address budget : Int) : Checked (List Outcome) :=
  follow im find maxSteps [⟨memory, ⟨address, 0⟩, budget, []⟩] []

/-! ## Memories to try -/

def sparse (memory : List (String × Nat × Nat)) : Term :=
  .app Memory.pack (spaceNames.map fun name =>
    memory.foldl (fun a (space, address, v) =>
      if space = name then
        .app (.builtin "store" [spaceSort, .bitvec addressWidth, .bitvec 8] spaceSort)
          [a, .bits address addressWidth, .bits v 8]
      else a) (Builtin.constArray (.bitvec addressWidth) zero))

def cellsOf (m : Term) (t : Term) : List (String × Nat) :=
  ((t.subterms true).filterMap fun
    | .app f [.app g [u], .app i []] =>
      if f.isOp "select" && u = m then
        match i.role with
        | .bits a => some (g.name, a)
        | _ => none
      else none
    | _ => none).eraseDups

def bytesOf (t : Term) : List Nat :=
  ((t.subterms true).flatMap fun u =>
    match u.bits? with
    | some (v, w) => (List.range ((w + 7) / 8)).flatMap fun i =>
        let b := v / Nat.pow 256 i % 256
        [b, (b + 1) % 256, (b + 255) % 256]
    | none => []).eraseDups

def candidates (m : Term) (ts : List Term) : List Term :=
  let ts := ts.map Ground.simplify
  let cells := (ts.flatMap (cellsOf m)).eraseDups
  let bytes := (0 :: 1 :: 127 :: 128 :: 255 :: ts.flatMap bytesOf).eraseDups
  let single := cells.flatMap fun (s, a) => (List.range 256).map fun v => sparse [(s, a, v)]
  let uniform := bytes.map fun v => sparse (cells.map fun (s, a) => (s, a, v))
  let pairs := cells.flatMap fun (s, a) => cells.flatMap fun (r, b) =>
    if (s, a) = (r, b) then [] else bytes.flatMap fun v => bytes.map fun w => sparse [(s, a, v), (r, b, w)]
  sparse [] :: single ++ uniform ++ pairs

def memoryFinder (m : Term) : Models.Finder := fun formulas expressions =>
  (candidates m expressions).findSome? fun v =>
    let see (t : Term) : Term := Ground.simplify (t.replaceAll [(m, v)])
    if formulas.all fun p => see p = .tt then some (expressions.map see) else none

end SortedLogic.Machine

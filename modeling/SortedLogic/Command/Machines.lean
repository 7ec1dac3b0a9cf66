import SortedLogic.Command.Quantifiers
import SortedLogic.Machine

/-!
# Commands on machine programs
-/

namespace SortedLogic.Command.Machines
open Machine
variable (naming : Naming) (r : Request)

def readPlace (d : Data) : Place := ⟨(d.item 0).asText, (d.item 1).asInt, (d.item 2).asInt.toNat⟩

def readOperation (d : Data) : Operation where
  code := .ofName (d.str "op")
  output := if (d.get "out").isNull then none else some (readPlace (d.get "out"))
  inputs := (d.all "in").map readPlace

def readInstruction (d : Data) : Instruction where
  address := d.num "addr"
  length := d.num "length"
  mnemonic := d.str "mnem"
  body := d.str "body"
  operations := (d.all "ops").map readOperation

def readImage : Image := (r.all "insns").map readInstruction

def startMemory : Term := .const "mem" memorySort

def counter (c : Counter) : Data := .pair (.int c.address) (nat c.index)

def next : Next → Checked Data
  | .goto c => .ok (counter c)
  | .choice condition taken passed => do
    let (a, i) ← choiceTerms condition taken passed
    return .pair (term a) (term i)

def operations : Answer :=
  let im := readImage r
  let one (m : Term) (d : Data) : Session (Term × Checked Data) := do
    let c : Counter := ⟨(d.item 0).asInt, (d.item 1).asInt.toNat⟩
    let (m', n) ← im.execute (← im.operationAt c) m c
    return (if r.flag "chain" then m' else m, .ok (.record [("ok", if m' = m then .null else term m'), ("pc", ← next n)]))
  answers one (fun _ => fun | .ok a => a | .error f => .record (faultFields naming f)) startMemory (r.all "run")

def readAddress : Session Bytes.Address :=
  match r.get "at" with
  | .int n => return .number n
  | d => .term <$> r.readTerm d

def memory : Answer := .list <$> Quantifiers.steps naming r (step r) startMemory
where
  step (r : Request) (m : Term) (d : Data) : Session (Term × Data) := do
    let r := r.at' d
    let written (m : Term) : Term × Data := (m, term m)
    match d.str "do" with
    | "get" => return (m, term (← Memory.read m (readPlace (d.get "node"))))
    | "set" => return written (← Memory.write m (readPlace (d.get "node")) (← r.term "v"))
    | "get_ram" => return (m, term (← Memory.readRam m (← readAddress r) (d.num "size").toNat))
    | "set_ram" => return written (← Memory.writeRam m (← readAddress r) (← r.term "v"))
    | _ => noKey

def run : Answer := do
  let found ← explore (readImage r) (memoryFinder startMemory) startMemory (r.num "addr") (r.num "max_insns")
  return .sorted found fun o => .record [("mem", term o.memory), ("pc", counter o.counter),
    ("cond", terms o.conditions), ("state", .bool !o.branched)]

def instruction (d : Data) : Checked Data := .ok (.text (readInstruction (d.get "insn")).text)

end SortedLogic.Command.Machines

import SortedLogic.Data
import SortedLogic.Kernel
import SortedLogic.SmtLib
import SortedLogic.Text.Numeral

/-!
# Modules of a circuit as functions

A module is a function from an input and a state to an output and a state.
-/

namespace SortedLogic.Netlist

def synthesisScript (fileName moduleName : String) : String :=
  "\n    read_verilog -formal " ++ fileName ++ ";\n    #hierarchy; \n    #proc; \n    #opt; \n"
    ++ "    #memory -nordff -nomap; \n    #opt -fast;\n\n    prep -top " ++ moduleName
    ++ ";\n\n    #clk2fflogic;\n    \n    \n    async2sync;\n"
    ++ "    formalff -setundef -clk2ff -hierarchy; # -ff2anyinit not supported in functional smt?\n"
    ++ "    opt_clean;\n\n    #dffunmap; \n    \n    write_functional_smt2 functional_" ++ moduleName ++ ".smt2\n    "

def synthesisCommand (fileName moduleName : String) : List String :=
  ["yowasp-yosys", "-p", synthesisScript fileName moduleName]

structure Transition where
  inputs : Srt
  outputs : Srt
  states : Srt
  initial : List Term
  definition : Definition

def question : Symbol := ⟨"module_semantics", [.bool], .bool, .free⟩

def withQuestion (text name : String) : String :=
  text ++ "(assert (module_semantics (exists ((inputs " ++ name ++ "_Inputs) (state " ++ name ++ "_State) (out (Pair "
    ++ name ++ "_Outputs " ++ name ++ "_State))) (= out (" ++ name ++ " inputs state)))))"

def Transition.read (text name : String) : Session Transition := do
  let initial := (← SmtLib.Script.read text).assertions
  let asked ← SmtLib.assertions (withQuestion text name) [question]
  let some (.app _ [.bind .exists vars body]) := asked.getLast? | violated
  let consts := vars.map fun (x, s) => Term.const x s
  let ([inputs, state, out], .app e [o, value]) := (consts, Term.instantiate consts.reverse body) | violated
  if !e.isOp "=" || o ≠ out then violated
  let definition ← Kernel.define name [inputs, state] value false
  return ⟨inputs.sort, out.sort, state.sort, initial, definition⟩

/-! ## Metadata of a netlist -/

abbrev Table (α : Type) := List (String × α)

def Table.set {α : Type} : Table α → String → α → Table α := Data.setField

structure Memory where
  addressWidth : Int
  dataWidth : Int
  readPorts : Int
  writePorts : Int
  isAsync : Bool

structure FreeValue where
  location : String
  name : Option String

structure Module where
  inputs : List String := []
  outputs : List String := []
  registers : List String := []
  memories : Table Memory := []
  wires : List String := []
  widths : Table Int := []
  clocks : Table String := []
  cells : Table String := []
  asserts : Table String := []
  assumes : Table String := []
  covers : Table String := []
  maximized : List String := []
  minimized : List String := []
  anyConsts : Table FreeValue := []
  anySeqs : Table FreeValue := []
  allConsts : Table FreeValue := []
  allSeqs : Table FreeValue := []
  freeWidths : Table Int := []
  witness : List Data := []

structure Metadata where
  top : Option String := none
  current : Option String := none
  modules : Table Module := []

namespace Metadata

def add (names : List String) (x : String) : List String := if names.contains x then names else names ++ [x]

variable (m : Metadata) (ws : List String)

def change (f : String → Module → Checked Module) : Checked Metadata := do
  let some k := m.current | noKey
  let some d := m.modules.lookup k | noKey
  return { m with modules := m.modules.set k (← f k d) }

def word (i : Nat) : Checked String := ws[i]?.getDM outOfRange

def number (i : Nat) : Checked Int := do (Text.integer? (← word ws i)).getDM (invalid "invalid literal")

def signal (join : Module → String → Module) : Checked Metadata :=
  m.change fun _ d => do
    let x ← word ws 2
    let d := join d x
    return { d with widths := d.widths.set x (← number ws 3) }

def property (mark : String) (put : Module → String → String → Module) : Checked Metadata := do
  let text ← if ws.length > 4 then do pure ((← word ws 4) ++ " (" ++ (← word ws 3) ++ ")") else word ws 3
  m.change fun k d => return put d (k ++ mark ++ " " ++ (← word ws 2)) text

def freeValue (put : Module → String → FreeValue → Module) : Checked Metadata := do
  let v : FreeValue := ⟨← word ws 4, ws[5]?⟩
  m.change fun _ d => do
    let x ← word ws 2
    let d := put d x v
    return { d with freeWidths := d.freeWidths.set x (← number ws 3) }

def member (join : Module → String → Module) : Checked Metadata := m.change fun _ d => return join d (← word ws 2)

def clock : Checked Metadata :=
  (ws.drop 3).foldlM (fun m edge => do
    let x ← word ws 2
    m.change fun _ d =>
      let known := (d.clocks.lookup x).getD edge
      return { d with clocks := d.clocks.set x (if known = edge then edge else "event") }) m

def witnessKinds : List String :=
  ["cell", "mem", "posedge", "negedge", "input", "reg", "init", "seq", "blackbox"]

def afterTwoWords (line : List Char) : List Char :=
  let skip (cs : List Char) := (cs.dropWhile Text.isBlank).dropWhile fun c => !Text.isBlank c
  (skip (skip line)).dropWhile Text.isBlank

def witness (line : List Char) : Checked Metadata := do
  let rest := afterTwoWords line
  if rest.isEmpty then outOfRange
  match Data.parse (String.ofList rest) with
  | .error message => throw (.badObject message)
  | .ok d@(.record _) =>
    if witnessKinds.contains (d.str "type") then m.change fun _ e => return { e with witness := e.witness ++ [d] }
    else return m
  | .ok _ => noField

def opening : String := "; yosys-smt2-"

def comment (line : List Char) : Checked Metadata := do
  let ws := Text.words (String.ofList line)
  match String.ofList ((line.drop opening.length).takeWhile fun c => !Text.isBlank c) with
  | "module" =>
    let x ← word ws 2
    return { m with current := some x, modules := m.modules.set x {} }
  | "cell" =>
    let kind ← word ws 2
    m.change fun _ d => return { d with cells := d.cells.set (← word ws 3) kind }
  | "topmod" => return { m with top := some (← word ws 2) }
  | "input" => m.signal ws fun d x => { d with inputs := add d.inputs x }
  | "output" => m.signal ws fun d x => { d with outputs := add d.outputs x }
  | "register" => m.signal ws fun d x => { d with registers := add d.registers x }
  | "wire" => m.signal ws fun d x => { d with wires := add d.wires x }
  | "memory" =>
    let v : Memory := ⟨← number ws 3, ← number ws 4, ← number ws 5, ← number ws 6, (← word ws 7) = "async"⟩
    m.change fun _ d => return { d with memories := d.memories.set (← word ws 2) v }
  | "clock" => m.clock ws
  | "assert" => m.property ws "_a" fun d x t => { d with asserts := d.asserts.set x t }
  | "cover" => m.property ws "_c" fun d x t => { d with covers := d.covers.set x t }
  | "assume" => m.property ws "_u" fun d x t => { d with assumes := d.assumes.set x t }
  | "maximize" => m.member ws fun d x => { d with maximized := add d.maximized x }
  | "minimize" => m.member ws fun d x => { d with minimized := add d.minimized x }
  | "anyconst" => m.freeValue ws fun d x v => { d with anyConsts := d.anyConsts.set x v }
  | "anyseq" => m.freeValue ws fun d x v => { d with anySeqs := d.anySeqs.set x v }
  | "allconst" => m.freeValue ws fun d x v => { d with allConsts := d.allConsts.set x v }
  | "allseq" => m.freeValue ws fun d x v => { d with allSeqs := d.allSeqs.set x v }
  | "witness" => m.witness line
  | _ => return m

def linesFrom : List Char → List Char → List (List Char)
  | [], [] => []
  | acc, [] => [acc.reverse]
  | acc, '\r' :: '\n' :: cs => ('\n' :: acc).reverse :: linesFrom [] cs
  | acc, c :: cs =>
    if c = '\n' || c = '\r' then ('\n' :: acc).reverse :: linesFrom [] cs else linesFrom (c :: acc) cs

def read (text : String) : Checked Metadata :=
  (linesFrom [] text.toList).foldlM (fun m line => if opening.toList.isPrefixOf line then m.comment line else .ok m) {}

end Metadata
end SortedLogic.Netlist

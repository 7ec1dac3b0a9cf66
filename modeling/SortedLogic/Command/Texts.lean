import SortedLogic.Grammar
import SortedLogic.Netlist
import SortedLogic.Node
import SortedLogic.Print.Layout
import SortedLogic.Solver

/-!
# Commands on texts

Parsing, metadata of netlists, what solvers print, identifiers, and nodes with identity.
-/

namespace SortedLogic.Command.Texts

def tree : Grammar.Tree → Data
  | .token kind text => .pair (.text kind) (.text text)
  | .node rule children => .record [("node", .text rule), ("children", .list (children.map tree))]

variable (naming : Fault → String) (d : Data)

def parse : Checked Data := do
  let result := match d.str "grammar" with
    | "tptp_term" => Grammar.FirstOrder.parse (d.str "text")
    | "trs" => Grammar.RuleSystem.parse (d.str "text")
    | _ => Grammar.HornClause.parse (d.str "text")
  let some t := result | noParse
  .ok (tree t)

def acceptNested : Checked Data :=
  if Grammar.Nested.accepts (d.str "text") then .ok (.bool true) else noParse

/-! ## Netlists -/

def names (xs : List String) : Data := .ofTexts (xs.mergeSort fun a b => a ≤ b)

def tableOf {α : Type} (f : α → Data) (t : Netlist.Table α) : Data := .each t fun (k, v) => .pair (.text k) (f v)

def memory (m : Netlist.Memory) : Data :=
  .list [.int m.addressWidth, .int m.dataWidth, .int m.readPorts, .int m.writePorts, .bool m.isAsync]

def freeValue (v : Netlist.FreeValue) : Data := .pair (.text v.location) (.orNull .text v.name)

def netlistModule (m : Netlist.Module) : Data :=
  .record ([("inputs", names m.inputs), ("outputs", names m.outputs), ("registers", names m.registers),
    ("memories", tableOf memory m.memories), ("wires", names m.wires), ("wsize", tableOf .int m.widths),
    ("clocks", tableOf .text m.clocks), ("cells", tableOf .text m.cells), ("asserts", tableOf .text m.asserts),
    ("assumes", tableOf .text m.assumes), ("covers", tableOf .text m.covers), ("maximize", names m.maximized),
    ("minimize", names m.minimized), ("anyconsts", tableOf freeValue m.anyConsts),
    ("anyseqs", tableOf freeValue m.anySeqs), ("allconsts", tableOf freeValue m.allConsts),
    ("allseqs", tableOf freeValue m.allSeqs), ("asize", tableOf .int m.freeWidths),
    ("witness", .list m.witness)].filter fun (_, v) => !v.items.isEmpty)

def metadata : Checked Data := do
  let m ← Netlist.Metadata.read (d.str "text")
  return .record [("top", Data.orNull .text m.top), ("modules", tableOf netlistModule m.modules)]

/-! ## Solvers -/

def status : Checked Data := return .text (← Solver.statusVerdict (d.str "text")).name

def core : Checked Data := .ofTexts <$> Solver.coreNames (d.str "text")

def proofLine (l : Solver.ProofLine) : Data := .list [.int l.number, .text l.statement, .text l.rule]

def proofLines : Checked Data := .ok (.each (Solver.proofLines (d.str "text")) proofLine)

def verdict : Solver.Verdict :=
  match d.asText with
  | "sat" => .sat
  | "unsat" => .unsat
  | _ => .unknown

def combined : Checked Data :=
  return .text (← Solver.combine ((d.all "results").map verdict) (d.get "strict").asBool).name

def identifier : Checked Data := .ok (.pair (.bool (Print.isIdentifier (d.str "s"))) (.bool (Print.isName (d.str "s"))))

def crate : Checked Data := .ok (.text (Print.crateSource (d.str "mod") (d.str "fun") (d.str "code")))

/-! ## Nodes -/

structure Nodes where
  next : Nat := 0
  named : List (String × Node) := []

def Nodes.find (s : Nodes) (d : Data) : Checked Node := do
  let some n := s.named.lookup d.asText | noKey
  return n

def Nodes.keep (s : Nodes) (d : Data) (n : Node) : Nodes :=
  { s with next := s.next + 2, named := if d.has "as" then (d.str "as", n) :: s.named else s.named }

def nodeStep (s : Nodes) (d : Data) : Checked (Nodes × Data) := do
  let name := d.str "name"
  let find (k : String) : Checked Node := s.find (d.get k)
  let findAll (k : String) : Checked (List Node) := (d.all k).mapM s.find
  match d.str "do" with
  | "sort" => return (s.keep d (.sort s.next name (d.get "kind").render), .pair (.text name) (d.get "kind"))
  | "function" =>
    let f ← Node.makeFunction s.next name (← findAll "sig")
    return (s.keep d f, .list [.text f.name, .int f.domain.length, .text f.range.name])
  | "domain" =>
    let n ← Node.pick (← find "f").domain (d.num "i")
    return (s.keep d n, .text n.name)
  | "app" =>
    let e ← Node.apply s.next (← find "f") (← findAll "args")
    return (s.keep d e, .pair (.text e.name) (.int e.args.length))
  | "const" =>
    let e := Node.const s.next name (← find "sort")
    return (s.keep d e, .pair (.text e.name) (.text e.range.name))
  | "consts" =>
    let _ ← find "sort"
    return (s, .ofTexts (Text.words (d.str "names")))
  | "fresh" =>
    let hint := if d.has "prefix" then d.str "prefix" else "c"
    let e := Node.const s.next (hint ++ "!0") (← find "sort")
    return (s.keep d e, .text e.name)
  | "arg" =>
    let n ← Node.pick (← find "e").args (d.num "i")
    return (s.keep d n, .text n.name)
  | "children" => return (s, .ofTexts ((← find "e").args.map Node.name))
  | "eq" => return (s, .bool ((← find "a").same (← find "b")))
  | _ => return (s, .bool (← (← find "a").equal (← find "b")))

def nodeSteps : Nodes → List Data → List Data
  | _, [] => []
  | s, d :: ds =>
    match nodeStep s d with
    | .ok (s, a) => .record [("ok", a)] :: nodeSteps s ds
    | .error f => .record [("error", .text (naming f))] :: nodeSteps s ds

def nodes : Checked Data := .ok (.list (nodeSteps naming {} (d.all "steps")))

end SortedLogic.Command.Texts

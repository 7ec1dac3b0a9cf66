import SortedLogic.Command.Printers
import SortedLogic.Command.Rewriting
import SortedLogic.Netlist
import SortedLogic.Solver

/-!
# Commands that start other programs

What the programs print and how they end is part of the request.
-/

namespace SortedLogic.Command.Programs
open Solver

def commands (cs : List (List String)) : Data := .each cs .ofTexts

variable (naming : Naming) (r : Request)

def codes (d : Data) : List Int := (d.all "codes").map Data.asInt
def output : String := r.str "stdout"

def succeeded : Checked Unit := Checked.guard ((codes r.input).headD 0 = 0) .programFailed

/-! ## Solvers -/

def readLimit : Data → Limit
  | .int n => .whole n
  | .bool b => .whole (if b then 1 else 0)
  | .decimal m e => .decimal (mkRat m (Nat.pow 10 e))
  | _ => .unusable

def report (r : Report) : Data :=
  .record ([("status", .text r.verdict.name), ("cmds", commands r.commands)]
    ++ r.file.toList.map fun ls => ("file", Printers.document ls))

def proofLine (l : ProofLine) : Data := .list [nat l.number, .text l.statement, .text l.rule]

def nothing : Data := .record []

def step (c : Client) (d : Data) : Session (Client × Checked Data) := do
  let q := r.at' d
  match d.str "do" with
  | "add" => return (← c.add (← q.term "t"), .ok nothing)
  | "track" => return (← c.addNamed (← q.term "t") (d.str "name"), .ok nothing)
  | "set" => return (← c.setLimit (d.str "option") (readLimit (d.get "value")), .ok nothing)
  | "check" => do
    let strict := if d.has "strict" then some (q.flag "strict") else none
    let (c, done) ← (liftM (c.check (← theWorld) (output r) (r.str "stderr") strict) : Session _)
    return (c, report <$> done)
  | "query" => do
    let (c, answers, cmds, file) ← (liftM (c.ask (← theWorld) (← q.term "t") (output r)) : Session _)
    return (c, .ok (.record [("answers", .ofTexts answers), ("cmds", commands cmds), ("file", Printers.document file)]))
  | "core" => return (c, .ok (.record [("core", .ofTexts (← c.core))]))
  | "proof" => do
    let shown := match ← c.proof with
      | .inl ls => .each ls proofLine
      | .inr s => .text s
    return (c, .ok (.record [("proof", shown)]))
  | _ => noKey

def solver : Answer := do
  let some kind := Kind.ofName? (r.str "solver") | noField
  answers (step r) (fun _ done => .record (outcome naming done)) { kind } (r.all "steps")

def bounds : Answer := do
  let adds ← r.terms "add"
  let formula ← Print.Gappa.formula (.app .and adds)
  let file ← if (r.get "bound").isNull then pure formula
    else do pure (" " ++ formula ++ " -> " ++ (← Print.Gappa.real (← r.term "bound")) ++ " in ?")
  return .record [("cmds", commands [["gappa/src/gappa", "/tmp/gappa.g"]]), ("file", .text ("\x7b" ++ file ++ "\x7d")),
    ("out", .text (output r))]

def termination : Answer := do
  let vs ← r.terms "vs"
  let eqs ← r.terms "eqs"
  let show' (t : Term) : Session Labelled := Print.Tptp.term "fof" false [] t
  let names ← vs.mapM show'
  let rules ← eqs.mapM fun e => do
    let .app f [a, b] := e | violated
    if !f.isOp "=" then violated
    return (⟨false, (← show' a) ++ .ofString " -> " ++ (← show' b)⟩ : Line)
  succeeded r
  let file : List Line := ⟨false, .ofString "(VARS " ++ Labelled.joined " " names ++ .ofString ")"⟩
    :: .plain "(RULES" :: rules ++ [.plain ")"]
  let limit := if r.has "timeout" then r.num "timeout" else 1
  return .record [("file", Printers.document file),
    ("cmds", commands [["java", "-ea", "-jar", "aprove.jar", "-m", "wst", "-t", toString limit, "-p", "plain",
      "/tmp/aprove.trs"]])]

def launcher (d : Data) : Checked Data :=
  .ok (.each (d.all "runs") fun run =>
    let l := launch ((run.item 0).items.map Data.asText) (run.item 1).asInt
    .record [("cmds", commands l.command.toList), ("exit", .orNull .int l.code), ("out", .text l.output)])

/-! ## Scripts -/

def problemOfScript : Answer := do
  let p ← Printers.problemOf (← SmtLib.assertions (r.str "text"))
  return Printers.document (← p.tptp (← theWorld) (Printers.formatOf r "tff"))

def scriptOfProblem : Answer := do
  succeeded r
  return .record [("cmds", commands [["TPTP4X/tptp4X", "-f", "smt2", r.str "file"]]),
    ("constraints", terms (← SmtLib.assertions (output r)))]

def completeScript : Answer := do
  Rewriting.rules (← Rewrite.Completion.huet {} (Rewriting.order r) (← SmtLib.assertions (r.str "text")))

def circuit : Answer := do
  let name := r.str "name"
  succeeded r
  let t ← Netlist.Transition.read (r.str "text") name
  return .record [("cmds", commands [Netlist.synthesisCommand "a.v" name]),
    ("sorts", .each [t.inputs, t.outputs, t.states] sort), ("init", terms t.initial),
    ("trans", symbol t.definition.symbol), ("defn", term t.definition.law.thm)]

def project (d : Data) : Checked Data :=
  let name := d.str "name"
  let source := Print.crateSource name (d.str "fun") (d.str "code")
  .ok (.list (go name source (codes d) .null (d.all "steps")))
where
  go (name source : String) (codes : List Int) (file : Data) : List Data → List Data
    | [] => []
    | step :: rest =>
      let builds := step.asText = "compile"
      let done := if builds then Print.crateBuild name codes else Print.crateInit name codes
      let file := if builds then .text source else file
      .record (outcome naming (done.result.map fun _ => .null) ++ [("cmds", commands done.commands), ("file", file)])
        :: go name source done.codes file rest

end SortedLogic.Command.Programs

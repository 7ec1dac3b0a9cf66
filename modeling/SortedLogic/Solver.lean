import SortedLogic.Data
import SortedLogic.Print.Tptp
import SortedLogic.Text.Numeral

/-!
# What solvers print

The verdicts, cores and proofs that solvers print.
-/

namespace SortedLogic.Solver

inductive Verdict where
  | sat | unsat | unknown
  deriving DecidableEq

def Verdict.name : Verdict → String
  | .sat => "sat"
  | .unsat => "unsat"
  | .unknown => "unknown"

def holds (part : List Char) : List Char → Bool
  | [] => part.isEmpty
  | c :: cs => part.isPrefixOf (c :: cs) || holds part cs

def containsText (text part : String) : Bool := holds part.toList text.toList

def printed (output : String) (texts : List (String × Verdict)) : Option Verdict :=
  (texts.find? fun (t, _) => containsText output t).map (·.2)

def statusVerdict (output : String) : Checked Verdict :=
  (printed output [("SZS status Unsatisfiable", .unsat), ("SZS status Satisfiable", .sat),
    ("SZS status GaveUp", .unknown)]).getDM (failed "Unexpected return from solver")

def betweenMarks (mark text : String) : Option String := (text.splitOn mark)[1]?

def coreNames (output : String) : Checked (List String) :=
  match betweenMarks "unsat\n" output with
  | none => outOfRange
  | some s => (Text.words (String.ofList (s.toList.filter fun c => c ≠ '(' && c ≠ ')'))).mapM Text.checkName

structure ProofLine where
  number : Nat
  statement : String
  rule : String

def statementAndRule (cs : List Char) : Option (List Char × List Char × List Char) := do
  let '.' :: ' ' :: rest := cs | none
  let (statement, '[' :: after) := rest.span (· ≠ '[') | none
  let (rule, ']' :: left) := after.span (· ≠ ']') | none
  if statement.getLast? = some ' ' ∧ 1 < statement.length ∧ rule ≠ [] then some (statement.dropLast, rule, left) else none

def proofLinesFrom : Nat → List Char → List ProofLine
  | 0, _ | _, [] => []
  | fuel + 1, c :: rest =>
    match (c :: rest).span fun c => (Text.digitValue? c).isSome with
    | ([], _) => proofLinesFrom fuel rest
    | (digits, after) =>
      match statementAndRule after with
      | some (s, r, left) =>
        ⟨(Text.number? digits).getD 0, String.ofList s, String.ofList r⟩ :: proofLinesFrom fuel left
      | none => proofLinesFrom fuel after

def proofLines (output : String) : List ProofLine := proofLinesFrom (output.length + 1) output.toList

def combine (verdicts : List Verdict) (strict : Bool) : Checked Verdict :=
  let sat := verdicts.contains .sat
  let unsat := verdicts.contains .unsat
  if sat && unsat || strict && !(verdicts.all fun v => some v = verdicts.head?) then
    failed "Inconsistent results from solvers"
  else .ok (if unsat then .unsat else if sat then .sat else .unknown)

/-! ## Solvers that are other programs -/

inductive Backend where
  | vampire | vampireHigherOrder | eprover | zipperposition | leo | twee | nanocop
  deriving DecidableEq

inductive Language where
  | smtLib
  | tptp (form : String)
  deriving DecidableEq

inductive Limit where
  | whole (n : Int)
  | decimal (q : Rat)
  | unusable

def Limit.units (l : Limit) (unit add : Int) : Checked String :=
  match l with
  | .whole n => .ok (toString (n.fdiv unit + add))
  | .decimal q => .ok (toString ((q / unit).floor + add) ++ ".0")
  | .unusable => wrongKind

namespace Backend

def language : Backend → Language
  | .vampire => .smtLib
  | .twee => .tptp "tff"
  | .nanocop => .tptp "fof"
  | _ => .tptp "thf"

def file (b : Backend) : String :=
  "/tmp/" ++ match b with
    | .vampire => "vampire.smt2"
    | .vampireHigherOrder => "vampire.p"
    | .eprover => "eprover.p"
    | .zipperposition => "zipperposition.p"
    | .leo => "leo3.p"
    | .twee => "twee.p"
    | .nanocop => "nanocopi.p"

variable (b : Backend)

def limitArguments : Option Limit → Checked (List String)
  | none => .ok []
  | some l => do
    match b with
    | .vampire | .vampireHigherOrder => return ["-t", (← l.units 100 0) ++ "d"]
    | .eprover => return ["--cpu-limit=" ++ (← l.units 1000 1)]
    | .zipperposition => return ["--timeout", ← l.units 1000 1]
    | .leo => return ["-t", ← l.units 1000 1]
    | .twee => return []
    | .nanocop => return (← l.units 1000 1).toList.map (String.ofList [·])

def command : List String :=
  match b with
  | .vampire => ["vampire", b.file, "--mode", "smtcomp", "--input_syntax", "smtlib2"]
  | .vampireHigherOrder =>
    ["vampire-ho", b.file, "--mode", "portfolio", "--schedule", "snake_slh", "--input_syntax", "tptp"]
  | .eprover => ["eprover-ho", "--auto-schedule=8", b.file]
  | .zipperposition => ["zipperposition", "--mode", "best", b.file]
  | .leo => ["java", "-jar", "leo3.jar", b.file]
  | .twee => ["twee", "--tstp", b.file]
  | .nanocop => ["nanoCoP-i20/nanocopi.sh", b.file]

def questionCommand : List String :=
  ["vampire", b.file, "--mode", "casc", "--question_answering", "synthesis", "--proof", "off", "--input_syntax",
    "smtlib2"]

def commandFor (limit : Option Limit) (named : Bool) : Checked (List String) := do
  let mode := if b = .vampire then ["--output_mode", if named then "ucore" else "smtcomp"] else []
  return b.command ++ (← b.limitArguments limit) ++ mode

def verdict (output errors : String) : Checked Verdict :=
  match b with
  | .vampire => .ok ((printed output [("unsat\n", .unsat), ("% SZS status Unsatisfiable", .unsat), ("sat\n", .sat),
      ("% SZS status Satisfiable", .sat)]).getD .unknown)
  | .nanocop => .ok ((printed output [("intuitionistically Satisfiable", .sat),
      ("intuitionistically Unsatisfiable", .unsat)]).getD .unknown)
  | .eprover => if errors.isEmpty then statusVerdict output else failed "Eprover error"
  | _ => statusVerdict output

end Backend

inductive Kind where
  | single (b : Backend)
  | several (bs : List Backend)
  | clausal
  | none

def Kind.ofName? (name : String) : Option Kind :=
  [("Vampire", single .vampire), ("VampireTHF", .single .vampireHigherOrder), ("EProverTHF", .single .eprover),
   ("Zipperposition", .single .zipperposition), ("LeoIII", .single .leo), ("Twee", .single .twee),
   ("NanoCopI", .single .nanocop), ("SAT", .clausal), ("Multi", .several [.vampireHigherOrder, .eprover, .leo]),
   ("Base", .none)].findSome? fun (x, k) => if name = x ++ "Solver" then some k else Option.none

structure Client where
  kind : Kind
  problem : Print.Problem := {}
  limit : Option Limit := none
  printed : Option String := none
  refuted : Bool := false

structure Report where
  verdict : Verdict
  commands : List (List String)
  file : Option (List Line) := none

namespace Client
variable (w : World) (c : Client)

def add (t : Term) : Checked Client :=
  match c.kind with
  | .clausal =>
    if t.sort = .bool then .ok { c with problem := { c.problem with assumed := c.problem.assumed ++ [t] } }
    else illFormed
  | _ => do return { c with problem := ← c.problem.add t }

def unlessClausal (x : Checked Client) : Checked Client :=
  match c.kind with
  | .clausal => noField
  | _ => x

def addNamed (t : Term) (name : String) : Checked Client :=
  c.unlessClausal do return { c with problem := ← c.problem.addNamed t name }

def setLimit (option : String) (l : Limit) : Checked Client :=
  c.unlessClausal (.ok (if option = "timeout" then { c with limit := some l } else c))

def problemFile (b : Backend) : Fresh (List Line) :=
  match b.language with
  | .smtLib => do return (← c.problem.smtLib w) ++ [.plain "(check-sat)"]
  | .tptp form => c.problem.tptp w form

def run (b : Backend) (output errors : String) : Fresh (List Line × List String × Checked Verdict) := do
  let file ← problemFile w c b
  let command ← b.commandFor c.limit !c.problem.named.isEmpty
  return (file, command, b.verdict output errors)

def check (output errors : String) (strict : Option Bool) : Fresh (Client × Checked Report) := do
  match c.kind, strict with
  | .several bs, strict => do
    let runs ← bs.mapM fun b => run w c b output errors
    let verdict := do combine (← runs.mapM (·.2.2)) (strict.getD false)
    return (c, do return ⟨← verdict, runs.map (·.2.1), none⟩)
  | _, some _ => wrongKind
  | .single b, none => do
    let (file, command, verdict) ← run w c b output errors
    let refuted := c.refuted || (match verdict with | .ok .unsat => true | _ => false)
    return ({ c with printed := some output, refuted }, do return ⟨← verdict, [command], some file⟩)
  | .clausal, none =>
    let verdict := (Solver.printed output [("s SATISFIABLE", .sat), ("s UNSATISFIABLE", .unsat)]).getD .unknown
    return ({ c with printed := some output },
      .ok ⟨verdict, [["kissat/build/kissat", "--relaxed", "/tmp/sat.cnf"]], none⟩)
  | .none, none => throw (.unsupported none)

def ask (question : Term) (output : String) :
    Fresh (Client × List String × List (List String) × List Line) := do
  match c.kind with
  | .single .vampire => do
    let file ← c.problem.smtLib w
    let q ← Print.SmtLib.term w [] question
    let asked := SExpr.list [Print.SmtLib.word "assert-not", q]
    let file := file ++ [⟨false, asked.labelled ++ .ofString "(check-sat)"⟩]
    let timed ← Backend.vampire.limitArguments c.limit
    let answers := (Text.lines output).filter fun l => containsText l "% SZS answers Tuple"
    return ({ c with printed := some output }, answers, [Backend.vampire.questionCommand ++ timed], file)
  | _ => noField

def core : Checked (List String) :=
  match c.kind, c.printed with
  | .single .vampire, some output => if c.refuted then coreNames output else noField
  | .single .vampire, none => .error (if c.refuted then .violated else .noField)
  | .clausal, _ => noField
  | _, _ => .error (.unsupported none)

def proof : Checked (List ProofLine ⊕ String) :=
  match c.kind, c.printed with
  | .single .vampire, some output => .ok (.inl (proofLines output))
  | .single .vampire, none => violated
  | .clausal, _ => noField
  | _, some output => .ok (.inr output)
  | _, none => failed "No proof available"

end Client

/-! ## Starting solvers by name -/

structure Launch where
  command : Option (List String) := none
  code : Option Int := none
  output : String := ""

def usage : String :=
  "Usage: python3 -m kdrag.solvers (install | vampire | vampire-ho | eprover | twee | nanocopi | prover9 | kissat) [args...]\n"

def programs : List (String × List String) :=
  [("vampire", ["vampire"]), ("vampire-ho", ["vampire-ho"]), ("eprover", ["eprover-ho"]), ("twee", ["twee"]),
   ("nanocopi", ["nanoCoP-i20/nanocopi.sh"]), ("prover9", ["Prover9/bin/prover9"]), ("kissat", ["kissat/build/kissat"]),
   ("aprove", ["java", "-ea", "-jar", "aprove.jar"])]

def hexByte (n : Nat) : List Char := (Nat.toDigits 16 (n / 16)) ++ (Nat.toDigits 16 (n % 16))

def quotedWord (s : String) : String :=
  let mark := if s.toList.contains '\x27' && !s.toList.contains '"' then '"' else '\x27'
  let escaped := s.toList.flatMap fun c =>
    if c = '\\' || c = mark then ['\\', c]
    else if c = '\n' || c = '\t' || c = '\r' then Data.escapeChar c
    else if c.toNat < 32 || (127 ≤ c.toNat && c.toNat ≤ 160) || c.toNat = 173 then '\\' :: 'x' :: hexByte c.toNat
    else [c]
  String.ofList (mark :: escaped ++ [mark])

def quotedList (ws : List String) : String := "[" ++ ", ".intercalate (ws.map quotedWord) ++ "]"

def signals : List String :=
  ["HUP", "INT", "QUIT", "ILL", "TRAP", "ABRT", "BUS", "FPE", "KILL", "USR1", "SEGV", "USR2", "PIPE", "ALRM", "TERM",
    "STKFLT", "CHLD", "CONT", "STOP", "TSTP", "TTIN", "TTOU", "URG", "XCPU", "XFSZ", "VTALRM", "PROF", "WINCH", "IO",
    "PWR", "SYS"]

def signal? (n : Nat) : Option String :=
  if n = 34 then some "RTMIN" else if n = 64 then some "RTMAX" else if n = 0 then none else signals[n - 1]?

def ending (code : Int) : String :=
  if 0 ≤ code then "returned non-zero exit status " ++ toString code ++ "."
  else match signal? code.natAbs with
    | some name => "died with <Signals.SIG" ++ name ++ ": " ++ toString code.natAbs ++ ">."
    | none => "died with unknown signal " ++ toString code.natAbs ++ "."

def launch (words : List String) (code : Int) : Launch :=
  match words with
  | [] => { code := some 1, output := usage }
  | name :: args =>
    match programs.lookup name with
    | none => { code := some 1, output := "Unknown command: " ++ name ++ "\n" ++ usage }
    | some program =>
      let command := program ++ args
      if code = 0 then { command := some command }
      else
        { command := some command
          code := some code
          output := "Error running command " ++ program.headD "" ++ ": Command '" ++ quotedList command
            ++ "' " ++ ending code ++ "\n" }

end SortedLogic.Solver

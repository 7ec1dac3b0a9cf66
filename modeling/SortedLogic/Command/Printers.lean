import SortedLogic.C
import SortedLogic.Command.Basic
import SortedLogic.Print.Verilog
import SortedLogic.Print.Infix
import SortedLogic.Print.Tptp

/-!
# Commands that print

Sorts, terms and problems in the languages of compilers and of other provers.
-/

namespace SortedLogic.Command.Printers
variable (r : Request)

def ofSort (print : Srt → Checked String) : Answer := return .text (← print (← r.sort "sort"))

def ofTerm (print : Term → Checked String) : Answer := return .text (← print (← r.term "t"))

def cType : Answer := ofSort r fun s => return (← C.Ty.ofSort s).render

def rustType : Answer := ofSort r fun s => do
  match ← C.Ty.ofSort s with
  | .bool => return "bool"
  | .word w => return "u" ++ toString w

def leanType : Answer := ofSort r fun s => .ok (Print.leanType s)
def tptpSort : Answer := ofSort r fun s => .ok (Print.Tptp.sort s)
def hasFiniteSize : Answer := return .bool (← r.sort "sort").isFinite

def cExpr : Answer := do
  let context ← r.terms "ctx"
  let known ← (r.all "sig").mapM r.readSymbol
  return .text (← C.Expr.ofTerm context known (← r.term "t")).render

def readFunction : Session C.Function := do
  if r.has "f" then
    let f ← r.symbol "f"
    let some d := (← theWorld).definition? f | noKey
    C.Function.ofTerm d.name d.args d.body
  else C.Function.ofTerm (r.str "name") (← r.terms "args") (← r.term "body")

def cFunction : Answer := return .text (← readFunction r).render

def cRun : Answer := do
  let f ← readFunction r
  if !f.accepted then throw .programFailed
  let call (args : Data) : Answer := return .int (← f.call (args.items.map fun
    | .bool b => if b then 1 else 0
    | d => d.asInt))
  .list <$> (r.all "calls").mapM call

def leanTerm : Answer := ofTerm r (Print.leanTerm [])
def verilogTerm : Answer := ofTerm r fun t => return (← Print.Verilog.Expr.ofTerm t).render
def verilogSignal : Answer := ofTerm r fun t => return (← Print.Verilog.Port.ofTerm t).render

def verilogModule : Answer := do
  let ins ← r.terms "ins"
  let outs ← r.pairs "outs" r.readTerm r.readTerm
  return .text (← Print.Verilog.Module.ofTerms (r.str "name") ins outs).render

def gappaReal : Answer := ofTerm r Print.Gappa.real
def gappaFormula : Answer := ofTerm r Print.Gappa.formula

def unspelled (s : String) : Data := .text (String.ofList (Print.Tptp.unspelled s.toList))

def labelled (l : Labelled) : Data := unspelled l.render

def document (ls : List Line) : Data := unspelled (Line.render ls)

def formatOf (default : String) : String := if r.has "format" then r.str "format" else default

def tptpTerm : Answer := do
  let theories := if r.has "theories" then r.flag "theories" else true
  return labelled (← Print.Tptp.term (formatOf r "thf") theories [] (← r.term "t"))

def smtLibTerm : Answer := return labelled (← Print.SmtLib.term (← theWorld) [] (← r.term "t")).labelled

def smtLibDeclaration : Answer := return labelled (Print.SmtLib.declaration (← r.symbol "f")).labelled

def smtLibDatatypes : Answer := do
  let ss ← (r.all "sorts").mapM r.readSort
  return labelled (← Print.SmtLib.datatypes (← theWorld) ss)

def problemOf (ts : List Term) : Session Print.Problem :=
  ts.foldlM (fun (p : Print.Problem) t => (liftM (p.add t) : Session _)) {}

def readProblem : Session Print.Problem := do
  let adds ← r.terms "add"
  let tracks ← r.pairs "track" r.readTerm fun d => return d.asText
  tracks.foldlM (fun (p : Print.Problem) (t, n) => (liftM (p.addNamed t n) : Session _)) (← problemOf adds)

def smtLibProblem : Answer := do
  let p ← readProblem r
  return document (← p.smtLib (← theWorld))

def tptpProblem : Answer := do
  let p ← readProblem r
  return document (← p.tptp (← theWorld) (formatOf r "thf"))

def collect : Answer := do
  let ts ← r.terms "ts"
  return .record [("sorts", .sorted (Print.collectSorts ts) sort), ("decls", .sorted (Print.collectSymbols ts) symbol)]

def theoremMarkup : Answer := ofTerm r fun t => return "&#8870;" ++ Print.Infix.text t

def calculationStart : Answer := ofTerm r fun t => return "... == " ++ Print.Infix.text t

end SortedLogic.Command.Printers

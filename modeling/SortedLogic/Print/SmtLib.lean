import SortedLogic.Print.Labelled
import SortedLogic.World

/-!
# Terms and problems in SMT-LIB

Operations that the language knows keep their name; every other symbol is labelled.
-/

namespace SortedLogic.Print

def predefined : List String :=
  ["=", "if", "and", "or", "not", "=>", "select", "store", ">", "<", ">=", "<=", "+", "-", "*", "/", "is",
   "Int", "Real", "abs", "distinct", "true", "false"]

namespace SmtLib

def word (s : String) : SExpr Piece := .word (.text s)

def symbol (f : Symbol) : SExpr Piece := .word (.symbol f.name f)

def sort (s : Srt) : SExpr Piece := s.sexpr.map .text

def predefinedHead (w : World) (f : Symbol) : Checked (SExpr Piece) :=
  if f.name = "if" then .ok (word "ite")
  else if f.name = "is" then
    match (f.domain.head?).bind w.datatype? with
    | none => violated
    | some d =>
      match d.constructors.find? (·.recognizer = f) with
      | some c => .ok (.list [word "_", word "is", symbol c.symbol])
      | none => .ok (word f.name)
  else .ok (word f.name)

def binderWord : Binder → String
  | .forall => "forall"
  | .exists => "exists"
  | .lambda => "lambda"

def constant (f : Symbol) : SExpr Piece :=
  if f.name = "and" then word "true"
  else if f.name = "or" then word "false"
  else if predefined.contains f.name then word f.name
  else symbol f

def application (w : World) (f : Symbol) (args : List (SExpr Piece)) : Checked (SExpr Piece) :=
  if args.isEmpty then .ok (constant f)
  else do
    let head ← if predefined.contains f.name then predefinedHead w f else pure (symbol f)
    return .list (head :: args)

def binder (k : Binder) (vars : List (SExpr Piece × Srt)) (body : SExpr Piece) : SExpr Piece :=
  .list [word (binderWord k), .list (vars.map fun (x, s) => .list [x, sort s]), body]

def dialect (w : World) : Dialect (SExpr Piece) where
  symbol := symbol
  atom? t := if t.isValue then some (t.expr.map .text) else none
  app := application w
  bind k vars body := .ok (binder k vars body)

def term (w : World) : List Symbol → Term → Fresh (SExpr Piece) := (dialect w).term

def declaration (f : Symbol) : SExpr Piece :=
  .list [word "declare-fun", symbol f, .list (f.domain.map sort), sort f.range]

def datatype (d : Datatype) : SExpr Piece :=
  let cons := d.constructors.map fun c =>
    .list (symbol c.symbol :: c.accessors.map fun a => .list [symbol a, word a.range.render])
  .list [word "declare-datatypes", .list [.list [word d.name, word "0"]], .list [.list (word "" :: cons)]]

def datatypes (w : World) (ss : List Srt) : Checked Labelled := do
  let ds ← ss.mapM fun s =>
    match w.datatype? s with
    | some d => .ok ((datatype d).labelled ++ .ofString "\n")
    | none => noField
  return ds.flatten

end SmtLib

def plainSorts : Srt → List Srt
  | .array (d :: _) r => plainSorts d ++ plainSorts r
  | s => [s]

def collectSorts (ts : List Term) : List Srt := ((ts.flatMap Term.sorts).flatMap plainSorts).eraseDups

def collectSymbols (ts : List Term) : List Symbol := (ts.flatMap Term.symbols).eraseDups

def datatypeSymbols (d : Datatype) : List Symbol :=
  d.constructors.flatMap fun c => c.symbol :: c.recognizer :: c.accessors

structure Problem where
  assumed : List Term := []
  named : List (Term × String) := []

namespace Problem
variable (p : Problem)

def terms : List Term := p.assumed ++ p.named.map (·.1)

def add (t : Term) : Checked Problem :=
  if t.sort = .bool then .ok { p with assumed := p.assumed ++ [t] } else violated

def addNamed (t : Term) (name : String) : Checked Problem :=
  if t.sort = .bool then .ok { p with named := p.named ++ [(t, name)] } else violated

variable (w : World)

def declaredSymbols : List Symbol :=
  let known := ((collectSorts p.terms).filterMap w.datatype?).flatMap datatypeSymbols
  (collectSymbols p.terms).filter fun f => !known.contains f && !predefined.contains f.name

def knownSorts : List String := ["Int", "Real", "Bool"]

def sortDeclarations : List (SExpr Piece) :=
  (collectSorts p.terms).filterMap fun s =>
    match w.datatype? s with
    | some d => some (SmtLib.datatype d)
    | none =>
      if knownSorts.contains s.name then none
      else some (.list [SmtLib.word "declare-sort", SmtLib.word s.name, SmtLib.word "0"])

def symbolDeclarations : List (SExpr Piece) :=
  (p.declaredSymbols w).map SmtLib.declaration

structure Script where
  sorts : List (SExpr Piece)
  symbols : List (SExpr Piece)
  assertions : List (SExpr Piece)

def Script.lines (s : Script) : List Line :=
  let line (isDeclaration : Bool) (x : SExpr Piece) : Line := ⟨isDeclaration, x.labelled⟩
  .plain "(set-logic ALL)" :: s.sorts.map (line true) ++ .plain ";;declarations" :: s.symbols.map (line true)
    ++ .plain ";;axioms" :: s.assertions.map (line false)

open SmtLib (word) in
def script : Fresh Script := do
  let assumed ← p.assumed.mapM fun t => do return .list [word "assert", ← SmtLib.term w [] t]
  let named ← p.named.mapM fun (t, name) => do
    return .list [word "assert", .list [word "!", ← SmtLib.term w [] t, word ":named", word name]]
  return ⟨p.sortDeclarations w, p.symbolDeclarations w, assumed ++ named⟩

def smtLib : Fresh (List Line) := return (← p.script w).lines

end Problem
end SortedLogic.Print

import SortedLogic.Fresh
import SortedLogic.Text.SExpr

/-!
# Text with labelled symbols

In languages without overloading a symbol is written as its name and a number, by first appearance.
-/

namespace SortedLogic

inductive Piece where
  | text (s : String)
  | symbol (name : String) (f : Symbol)
  deriving DecidableEq

def Piece.renderWith (order : List Symbol) : Piece → String
  | .text s => s
  | .symbol name f => name ++ "_" ++ toString (order.idxOf f)

abbrev Labelled := List Piece

namespace Labelled

instance : Coe String Labelled := ⟨fun s => [.text s]⟩

def ofString (s : String) : Labelled := [.text s]

def joined (sep : String) : List Labelled → Labelled
  | [] => []
  | [l] => l
  | l :: ls => l ++ .text sep :: joined sep ls

def plain (l : Labelled) : String :=
  String.join (l.map fun
    | .text s => s
    | .symbol name _ => name ++ "_")

def symbols (l : Labelled) : List Symbol :=
  (l.filterMap fun
    | .text _ => none
    | .symbol _ f => some f).eraseDups

def renderWith (order : List Symbol) (l : Labelled) : String := String.join (l.map (Piece.renderWith order))

def render (l : Labelled) : String := l.renderWith l.symbols

end Labelled

def SExpr.labelled (x : SExpr Piece) : Labelled := x.flat .text

structure Dialect (α : Type) where
  symbol : Symbol → α
  atom? : Term → Option α
  app : Symbol → List α → Checked α
  bind : Binder → List (α × Srt) → α → Checked α

namespace Dialect
variable {α : Type}

mutual
def term (d : Dialect α) (vars : List Symbol) : Term → Fresh α
  | .var i _ =>
    match vars[i]? with
    | some v => return d.symbol v
    | none => violated
  | .app f args => do
    match d.atom? (.app f args) with
    | some a => return a
    | none => d.app f (← terms d vars args)
  | .bind k bound body => do
    let vs := (← Term.freshVars (fun x => Text.stem (Text.upper x)) bound).filterMap Term.head?
    let body ← term d (vs.reverse ++ vars) body
    d.bind k (vs.map fun v => (d.symbol v, v.range)) body

def terms (d : Dialect α) (vars : List Symbol) : List Term → Fresh (List α)
  | [] => return []
  | t :: ts => return (← term d vars t) :: (← terms d vars ts)
end
end Dialect

structure Line where
  isDeclaration : Bool
  text : Labelled

namespace Line

def plain (s : String) : Line := ⟨false, .ofString s⟩

def sortRuns : List Line → List Line → List Line
  | run, [] => sorted run
  | run, l :: ls => if l.isDeclaration then sortRuns (run ++ [l]) ls else sorted run ++ l :: sortRuns [] ls
where
  sorted (run : List Line) : List Line := run.mergeSort fun a b => a.text.plain ≤ b.text.plain

def render (ls : List Line) : String :=
  (Labelled.joined "\n" ((sortRuns [] ls).map (·.text))).render

end Line
end SortedLogic

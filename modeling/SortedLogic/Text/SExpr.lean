import SortedLogic.Term

/-!
# Terms as s-expressions

The head and the arguments in parentheses. Bound variables are shown by the names of their binders.
-/

namespace SortedLogic

inductive SExpr (α : Type) where
  | word (a : α)
  | list (items : List (SExpr α))

namespace SExpr
variable {α β : Type}

mutual
def flat (mark : String → α) : SExpr α → List α
  | .word a => [a]
  | .list xs => mark "(" :: (flats mark xs ++ [mark ")"])

def flats (mark : String → α) : List (SExpr α) → List α
  | [] => []
  | x :: xs => flat mark x ++ more mark xs

def more (mark : String → α) : List (SExpr α) → List α
  | [] => []
  | x :: xs => mark " " :: (flat mark x ++ more mark xs)
end

mutual
def map (f : α → β) : SExpr α → SExpr β
  | .word a => .word (f a)
  | .list xs => .list (mapAll f xs)

def mapAll (f : α → β) : List (SExpr α) → List (SExpr β)
  | [] => []
  | x :: xs => map f x :: mapAll f xs
end

def words (ss : List String) : SExpr String := .list (ss.map .word)

def text (x : SExpr String) : String := String.join (x.flat id)

end SExpr

namespace Text

def isSymbolChar (c : Char) : Bool :=
  c.isAlphanum || "~!@$%^&*_-+=<>.?/".toList.contains c

def quotedName (s : String) : String :=
  if s.toList.all isSymbolChar && !(s.toList.headD '0').isDigit then s else "|" ++ s ++ "|"

end Text

namespace Srt

mutual
def sexpr : Srt → SExpr String
  | .bool => .word "Bool"
  | .int => .word "Int"
  | .real => .word "Real"
  | .string => .word "String"
  | .char => .word "Unicode"
  | .roundingMode => .word "RoundingMode"
  | .bitvec w => .words ["_", "BitVec", toString w]
  | .float e s => .words ["_", "FloatingPoint", toString e, toString s]
  | .array ds r => .list (.word "Array" :: sexprs ds ++ [sexpr r])
  | .seq s => .list [.word "Seq", sexpr s]
  | .regex s => .list [.word "RegEx", sexpr s]
  | .datatype n | .uninterpreted n => .word (Text.quotedName n)

def sexprs : List Srt → List (SExpr String)
  | [] => []
  | s :: ss => sexpr s :: sexprs ss
end
end Srt

namespace Text

def hexPadded (width n : Nat) : String :=
  let ds := Nat.toDigits 16 n
  String.ofList (List.replicate (width - ds.length) '0' ++ ds)

def binaryPadded (width n : Nat) : String :=
  let ds := Nat.toDigits 2 n
  String.ofList (List.replicate (width - ds.length) '0' ++ ds)

def bitsText (w v : Nat) : String :=
  if w % 4 = 0 then "#x" ++ hexPadded (w / 4) v else "#b" ++ binaryPadded w v

def intExpr (v : Int) : SExpr String :=
  if v < 0 then .words ["-", toString (-v)] else .word (toString v)

def ratExpr (q : Rat) : SExpr String :=
  let n := q.num.natAbs
  let body := if q.den = 1 then .word (toString n ++ ".0")
    else .words ["/", toString n ++ ".0", toString q.den ++ ".0"]
  if q.num < 0 then .list [.word "-", body] else body

def doubledQuotes (s : String) : String :=
  String.ofList (s.toList.flatMap fun c => if c = '"' then ['"', '"'] else [c])

end Text

namespace Term

def headExpr (f : Symbol) : SExpr String :=
  match f.role with
  | .recognizer c => .words ["_", "is", Text.quotedName c]
  | .builtin [] =>
    if f.name = "if" then .word "ite"
    else if f.name = "const" then .list [.word "as", .word "const", f.range.sexpr]
    else .word f.name
  | .builtin is => .words ("_" :: f.name :: is.map fun i => toString i)
  | _ => .word (Text.quotedName f.name)

mutual
def exprWith (names : List String) : Term → SExpr String
  | .var i _ =>
    match names[i]? with
    | some x => .word (Text.quotedName x)
    | none => .words [":var", toString (i - names.length)]
  | .app f args =>
    match f.role with
    | .int v => Text.intExpr v
    | .rat q => Text.ratExpr q
    | .bits v =>
      match f.range with
      | .bitvec w => .word (Text.bitsText w v)
      | _ => .word (toString v)
    | .text s => .word ("\"" ++ Text.doubledQuotes s ++ "\"")
    | _ => if args.isEmpty then headExpr f else .list (headExpr f :: exprsWith names args)
  | .bind k vars body =>
    let word := match k with
      | .forall => "forall"
      | .exists => "exists"
      | .lambda => "lambda"
    .list [.word word, .list (vars.map fun (x, s) => .list [.word (Text.quotedName x), s.sexpr]),
      exprWith ((vars.map (·.1)).reverse ++ names) body]

def exprsWith (names : List String) : List Term → List (SExpr String)
  | [] => []
  | t :: ts => exprWith names t :: exprsWith names ts
end

def expr (t : Term) : SExpr String := t.exprWith []

def sexpr (t : Term) : String := t.expr.text

end Term
end SortedLogic

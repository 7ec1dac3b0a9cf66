import SortedLogic.Print.Layout
import SortedLogic.Term

/-!
# Terms in operator notation

Operations are written between their arguments, with as few parentheses as the ranks allow.
-/

namespace SortedLogic.Print.Infix

inductive Style where
  | between (sign : String) (rank : Nat) (tight : Bool)
  | before (sign : String)
  | function (name : String)

variable (f : Symbol)

def functionName : String :=
  match f.role with
  | .builtin _ =>
    match f.name with
    | "true" => "True"
    | "false" => "False"
    | "distinct" => "Distinct"
    | "if" => "If"
    | "and" => "And"
    | "or" => "Or"
    | "xor" => "Xor"
    | "not" => "Not"
    | "=>" => "Implies"
    | "to_real" => "ToReal"
    | "to_int" => "ToInt"
    | "bvudiv" => "UDiv"
    | "bvsrem" => "SRem"
    | "bvurem" => "URem"
    | "bvule" => "ULE"
    | "bvult" => "ULT"
    | "bvuge" => "UGE"
    | "bvugt" => "UGT"
    | "bvlshr" => "LShR"
    | "concat" | "seq.++" | "re.++" => "Concat"
    | "bv2int" => "BV2Int"
    | "select" => "Select"
    | "store" => "Store"
    | "const" => "K"
    | n => n
  | _ => f.name

def style : Style :=
  match f.role with
  | .builtin _ =>
    match f.name, f.arity with
    | "-", 1 | "bvneg", _ => .before "-"
    | "bvnot", _ => .before "~"
    | "*", _ | "bvmul", _ => .between "*" 2 true
    | "/", _ | "div", _ | "bvsdiv", _ => .between "/" 2 true
    | "mod", _ | "bvsmod", _ => .between "%" 2 true
    | "+", _ | "bvadd", _ => .between "+" 3 false
    | "-", _ | "bvsub", _ => .between "-" 3 false
    | "bvshl", _ => .between "<<" 4 false
    | "bvashr", _ => .between ">>" 4 false
    | "bvand", _ => .between "&" 5 false
    | "bvxor", _ => .between "^" 6 false
    | "bvor", _ => .between "|" 7 false
    | "<", _ | "bvslt", _ => .between "<" 8 false
    | "<=", _ | "bvsle", _ => .between "<=" 8 false
    | ">", _ | "bvsgt", _ => .between ">" 8 false
    | ">=", _ | "bvsge", _ => .between ">=" 8 false
    | "=", _ => .between "==" 8 false
    | _, _ => .function (functionName f)
  | _ => .function f.name

def rank? : Style → Option Nat
  | .between _ r _ => some r
  | .before _ => some 1
  | .function _ => none

def headOf : Term → Option Symbol
  | .app f (_ :: _) => some f
  | _ => none

def rankOf? (t : Term) : Option Nat :=
  match headOf t with
  | some f => if f.isOp "^" then some 0 else rank? (style f)
  | none => none

def parenthesized (d : Doc) : Doc := .concat [.text "(", .indent 1 d, .text ")"]

def isAssociative : Bool :=
  ["bvor", "bvxor", "bvand", "+", "bvadd", "*", "bvmul"].contains f.name

def isSum : Bool := f.isOp "+" || f.isOp "bvadd"
def isDifference : Bool := (f.isOp "-" && f.arity ≠ 1) || f.isOp "bvsub"

def sortDoc : Srt → Doc
  | .bool => .text "Bool"
  | .int => .text "Int"
  | .real => .text "Real"
  | .string => .text "String"
  | .char => .text "Char"
  | .roundingMode => .text "RoundingMode"
  | .bitvec w => Doc.applied "BitVec" [.text (toString w)]
  | .float e s => Doc.applied "FPSort" [.text (toString e), .text (toString s)]
  | .array (d :: _) r => Doc.applied "Array" [sortDoc d, sortDoc r]
  | .array [] r => sortDoc r
  | .seq s => Doc.applied "Seq" [sortDoc s]
  | .regex s => Doc.applied "ReSort" [sortDoc s]
  | .datatype n | .uninterpreted n => .text n

def ratText (q : Rat) : String :=
  if q.den = 1 then toString q.num else toString q.num ++ "/" ++ toString q.den

def wrapArg (rank : Nat) (first : Bool) (t : Term) (d : Doc) : Doc :=
  match t with
  | .bind .. => parenthesized d
  | _ =>
    match rankOf? t with
    | none => d
    | some r =>
      let free := r < rank || (match headOf t with
        | some g => (isSum f && isDifference g) || (isDifference f && first && isSum g)
        | none => false)
      if free then d else parenthesized d

def isChained (first : Bool) (t : Term) : Bool :=
  match headOf t with
  | some g => g.isOp f.name && g.arity = f.arity && (isAssociative f || (first && isDifference f))
  | none => false

def powerArg (t : Term) (d : Doc) : Doc :=
  if (rankOf? t).isSome || t.rat?.any (fun q => q.den ≠ 1) then parenthesized d else d

def unaryArg (t : Term) (d : Doc) : Doc :=
  match t with
  | .bind .. => parenthesized d
  | _ =>
    match rankOf? t, headOf t with
    | some r, some g => if (g.name ≠ f.name || g.arity ≠ f.arity) && 1 ≤ r then parenthesized d else d
    | _, _ => d

structure Shown where
  doc : Doc
  chain : List Doc := []

def chainOf (f : Symbol) (rank : Nat) : Bool → List Term → List Shown → List Doc
  | first, t :: ts, d :: ds =>
    (if isChained f first t then d.chain else [wrapArg f rank first t d.doc]) ++ chainOf f rank false ts ds
  | _, _, _ => []

def operation (indices : List Nat) (args : List Term) (parts : List Shown) : Shown :=
  let docs := parts.map Shown.doc
  let numbers := indices.map fun i => Doc.text (toString i)
  match f.name, args, docs with
  | "^", [a, b], [x, y] => ⟨.group (Doc.separated "**" "" [powerArg a x, powerArg b y]), []⟩
  | "distinct", [_, _], _ => ⟨.group (Doc.separated " !=" " " (chainOf f 100000 true args parts)), []⟩
  | "select", _, [a, i] => ⟨.concat [a, .indent 2 (.concat [.text "[", i, .text "]"])], []⟩
  | "const", _, _ =>
    match f.range with
    | .array (d :: _) _ => ⟨Doc.applied "K" (sortDoc d :: docs), []⟩
    | _ => ⟨Doc.applied "K" docs, []⟩
  | "extract", _, _ => ⟨Doc.applied "Extract" (numbers ++ docs), []⟩
  | "sign_extend", _, _ => ⟨Doc.applied "SignExt" (numbers ++ docs), []⟩
  | "zero_extend", _, _ => ⟨Doc.applied "ZeroExt" (numbers ++ docs), []⟩
  | _, _, _ =>
    match style f with
    | .between s rank tight =>
      let chain := chainOf f rank true args parts
      ⟨.group (Doc.separated (if tight then s else " " ++ s) (if tight then "" else " ") chain), chain⟩
    | .before s =>
      ⟨.concat [.text s, .indent s.length (match args, docs with
        | [a], [d] => unaryArg f a d
        | _, ds => .concat ds)], []⟩
    | .function n => ⟨Doc.applied n docs, []⟩

def shown (names : List String) : Term → Shown
  | .var i _ =>
    match names.reverse[i]? with
    | some x => ⟨.text x, []⟩
    | none => ⟨Doc.applied "Var" [.text (toString i)], []⟩
  | .bind k vars body =>
    let head := match k with
      | .forall => "ForAll"
      | .exists => "Exists"
      | .lambda => "Lambda"
    let binders := match vars.map fun (x, _) => Doc.text x with
      | [x] => x
      | xs => Doc.bracketed xs
    ⟨Doc.applied head [binders, (shown (names ++ vars.map (·.1)) body).doc], []⟩
  | .app f args =>
    let parts := args.map (shown names)
    match f.role with
    | .int v => ⟨.text (toString v), []⟩
    | .rat q => ⟨.text (ratText q), []⟩
    | .bits v => ⟨.text (toString v), []⟩
    | .text s => ⟨.text ("\"" ++ s ++ "\""), []⟩
    | .recognizer c => ⟨Doc.applied "is" (.text c :: parts.map Shown.doc), []⟩
    | .builtin indices => if args.isEmpty then ⟨.text (functionName f), []⟩ else operation f indices args parts
    | _ => if args.isEmpty then ⟨.text f.name, []⟩ else ⟨Doc.applied f.name (parts.map Shown.doc), []⟩

def text (t : Term) : String := (shown [] t).doc.render

end SortedLogic.Print.Infix

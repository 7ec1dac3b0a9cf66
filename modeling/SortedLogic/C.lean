import SortedLogic.Print.Layout
import SortedLogic.Term.Build

/-!
# Expressions of C

The part of C that words and truth values need: built from terms, checked as a strict compiler does, and run.
-/

namespace SortedLogic.C

inductive Ty where
  | bool
  | word (width : Nat)
  deriving DecidableEq

inductive Unary where
  | not | complement | negate
  deriving DecidableEq

inductive Binary where
  | add | sub | mul | lt | le | gt | ge | bitAnd | bitOr | bitXor
  deriving DecidableEq

inductive Chain where
  | and | or
  deriving DecidableEq

inductive Expr where
  | name (x : String)
  | literal (value : Nat)
  | bool (value : Bool)
  | unary (op : Unary) (a : Expr)
  | binary (op : Binary) (a b : Expr)
  | chain (op : Chain) (args : List Expr)
  | cond (c a b : Expr)
  | call (f : String) (args : List Expr)

structure Function where
  name : String
  params : List (Ty × String)
  result : Ty
  body : Expr

/-! ## Text -/

def Ty.render : Ty → String
  | .bool => "bool"
  | .word w => "uint" ++ toString w ++ "_t"

def Unary.render : Unary → String
  | .not => "!"
  | .complement => "~"
  | .negate => "-"

def Binary.render : Binary → String
  | .add => "+"
  | .sub => "-"
  | .mul => "*"
  | .lt => "<"
  | .le => "<="
  | .gt => ">"
  | .ge => ">="
  | .bitAnd => "&"
  | .bitOr => "|"
  | .bitXor => "^"

def Chain.render : Chain → String
  | .and => " && "
  | .or => " || "

namespace Expr

mutual
def render : Expr → String
  | .name x => x
  | .literal v => "0b" ++ String.ofList (Nat.toDigits 2 v)
  | .bool b => if b then "true" else "false"
  | .unary op a => "(" ++ op.render ++ render a ++ ")"
  | .binary op a b => "(" ++ render a ++ " " ++ op.render ++ " " ++ render b ++ ")"
  | .chain op args => "(" ++ op.render.intercalate (renderAll args) ++ ")"
  | .cond c a b => "(" ++ render c ++ " ? " ++ render a ++ " : " ++ render b ++ ")"
  | .call f args => f ++ "(" ++ ", ".intercalate (renderAll args) ++ ")"

def renderAll : List Expr → List String
  | [] => []
  | e :: es => render e :: renderAll es
end
end Expr

def Function.render (f : Function) : String :=
  "#include <stdint.h>\n#include <stdbool.h>\n" ++ f.result.render ++ " " ++ f.name ++ "("
    ++ ", ".intercalate (f.params.map fun (t, x) => t.render ++ " " ++ x)
    ++ ")\x7b\n    return " ++ f.body.render ++ ";\n\x7d\n"

/-! ## Terms as expressions of C -/

def widths : List Nat := [8, 16, 32, 64]

def Ty.ofSort : Srt → Checked Ty
  | .bool => .ok .bool
  | .bitvec w =>
    if widths.contains w then .ok (.word w)
    else unsupported "No support for arbitrary C int sizes"
  | _ => unsupported "Cannot convert"

def checkedName (f : Symbol) : Checked String :=
  if Print.isName f.name then .ok f.name else violated

def comparison? : String → Option Binary
  | "bvuge" => some .ge
  | "bvult" => some .lt
  | "bvule" => some .le
  | "bvugt" => some .gt
  | _ => none

def arithmetic? : String → Option Binary
  | "bvadd" => some .add
  | "bvsub" => some .sub
  | "bvmul" => some .mul
  | "|" => some .bitOr
  | "&" => some .bitAnd
  | "^" => some .bitXor
  | _ => none

def boolOf (f : Symbol) (args : List Expr) : Checked Expr :=
  if f = .tt then .ok (.bool true)
  else if f = .ff then .ok (.bool false)
  else if f.isOp "and" then .ok (.chain .and args)
  else if f.isOp "or" then .ok (.chain .or args)
  else match args with
    | [a] => if f.isOp "not" then .ok (.unary .not a) else unsupported "Unsupported boolean expression"
    | _ =>
      match comparison? f.name with
      | some op => do
        let [a, b] := args | violated
        .ok (.binary op a b)
      | none =>
        if ["bvsge", "bvslt", "bvsle", "bvsgt"].contains f.name then
          unsupported "Signed comparison not supported"
        else unsupported "Unsupported boolean expression"

def wordOf (f : Symbol) (args : List Expr) : Checked Expr :=
  match f.role, args with
  | .bits v, _ => .ok (.literal v)
  | _, [a] =>
    if f.name = "bvnot" then .ok (.unary .complement a)
    else if f.name = "bvneg" then .ok (.unary .negate a)
    else unsupported ("Unsupported unary operation: " ++ f.name)
  | _, [a, b] =>
    match arithmetic? f.name with
    | some op => .ok (.binary op a b)
    | none => unsupported ("Unsupported binary operation: " ++ f.name)
  | _, _ => unsupported ("Unsupported bitvector operation with " ++ toString args.length ++ " arguments: " ++ f.name)

mutual
def Expr.ofTerm (context : List Term) (known : List Symbol) : Term → Checked Expr
  | .app f args => do
    let t := Term.app f args
    let type ← Ty.ofSort t.sort
    if context.contains t then return .name (← checkedName f)
    let args ← Expr.ofTerms context known args
    if known.contains f then return .call (← checkedName f) args
    match f.isOp "if", args with
    | true, [c, a, b] => return .cond c a b
    | _, _ =>
      match type with
      | .bool => boolOf f args
      | .word _ => wordOf f args
  | .var i s => do
    let _ ← Ty.ofSort s
    if context.contains (.var i s) then illFormed else unsupported "Unsupported expression type:"
  | .bind k vars body => do
    let t := Term.bind k vars body
    let _ ← Ty.ofSort t.sort
    if context.contains t then illFormed else unsupported "Unsupported expression type:"

def Expr.ofTerms (context : List Term) (known : List Symbol) : List Term → Checked (List Expr)
  | [] => .ok []
  | t :: ts => return (← Expr.ofTerm context known t) :: (← Expr.ofTerms context known ts)
end

def headOf : Term → Checked Symbol
  | .app f _ => .ok f
  | _ => illFormed

/-- The function with the given parameters and body. A call of `name` with the same sorts is one of a known function. -/
def Function.ofTerm (name : String) (args : List Term) (body : Term) : Checked Function := do
  if !Print.isName name then violated
  let heads ← args.foldlM (fun acc a => do
    let f ← headOf a
    if Print.isName f.name then return acc ++ [f] else violated) []
  if !args.all Term.isConst then violated
  let self : Symbol := ⟨"name", args.map Term.sort, body.sort, .free⟩
  let result ← Ty.ofSort body.sort
  let types ← args.mapM fun a => Ty.ofSort a.sort
  let body ← Expr.ofTerm args [self] body
  return ⟨name, types.zip (heads.map (·.name)), result, body⟩

/-! ## The value of a C expression -/

structure Arith where
  signed : Bool
  width : Nat
  deriving DecidableEq

namespace Arith

def int : Arith := ⟨true, 32⟩
def unsigned : Arith := ⟨false, 32⟩
def long : Arith := ⟨true, 64⟩
def unsignedLong : Arith := ⟨false, 64⟩

def ofTy : Ty → Arith
  | .bool => int
  | .word w => if w < 32 then int else ⟨false, w⟩

def ofLiteral (v : Nat) : Arith :=
  if v < Nat.pow 2 31 then int else if v < Nat.pow 2 32 then unsigned else if v < Nat.pow 2 63 then long
  else unsignedLong

def meet (a b : Arith) : Arith :=
  if a.width = b.width then ⟨a.signed && b.signed, a.width⟩
  else if a.width < b.width then b else a

def wrap (t : Arith) (v : Int) : Int :=
  if t.signed then Int.bmod v (Nat.pow 2 t.width) else v.emod (Int.pow 2 t.width)

end Arith

abbrev Value := Arith × Int

def Value.truth (b : Bool) : Value := (.int, if b then 1 else 0)
def Value.isTrue (v : Value) : Bool := v.2 ≠ 0

def Unary.apply : Unary → Value → Value
  | .not, v => .truth (!v.isTrue)
  | .complement, (t, v) => (t, t.wrap (-v - 1))
  | .negate, (t, v) => (t, t.wrap (-v))

def bitwise (op : Nat → Nat → Nat) (t : Arith) (a b : Int) : Int :=
  t.wrap (op (a.emod (Int.pow 2 t.width)).toNat (b.emod (Int.pow 2 t.width)).toNat)

def Binary.apply (op : Binary) (x y : Value) : Value :=
  let t := x.1.meet y.1
  let a := t.wrap x.2
  let b := t.wrap y.2
  match op with
  | .add => (t, t.wrap (a + b))
  | .sub => (t, t.wrap (a - b))
  | .mul => (t, t.wrap (a * b))
  | .bitAnd => (t, bitwise (· &&& ·) t a b)
  | .bitOr => (t, bitwise (· ||| ·) t a b)
  | .bitXor => (t, bitwise (· ^^^ ·) t a b)
  | .lt => .truth (a < b)
  | .le => .truth (a ≤ b)
  | .gt => .truth (a > b)
  | .ge => .truth (a ≥ b)

def Ty.store : Ty → Int → Int
  | .bool, v => if v = 0 then 0 else 1
  | .word w, v => v.emod (Int.pow 2 w)

def Value.widen (v : Value) (t : Arith) : Value := (v.1.meet t, (v.1.meet t).wrap v.2)

namespace Expr

def type (env : List (String × Ty)) (result : Ty) : Expr → Arith
  | .name x => .ofTy ((env.lookup x).getD .bool)
  | .literal v => .ofLiteral v
  | .bool _ | .chain _ _ => .int
  | .unary .not _ => .int
  | .unary _ a => type env result a
  | .binary op a b =>
    match op with
    | .lt | .le | .gt | .ge => .int
    | _ => (type env result a).meet (type env result b)
  | .cond _ a b => (type env result a).meet (type env result b)
  | .call _ _ => .ofTy result

mutual
def eval (f : Function) (env : List (String × Ty × Int)) (self : List Int → Checked Int) : Expr → Checked Value
  | .name x =>
    match env.lookup x with
    | some (t, v) => .ok (.ofTy t, v)
    | none => .error .programFailed
  | .literal v => .ok (.ofLiteral v, v)
  | .bool b => .ok (.truth b)
  | .unary op a => op.apply <$> eval f env self a
  | .binary op a b => return op.apply (← eval f env self a) (← eval f env self b)
  | .chain op args => .truth <$> evalChain f env self op args
  | .cond c a b => do
    let types := f.params.map fun (t, x) => (x, t)
    if (← eval f env self c).isTrue then
      return (← eval f env self a).widen (b.type types f.result)
    else return (← eval f env self b).widen (a.type types f.result)
  | .call _ args => do
    let vs ← evalAll f env self args
    return (.ofTy f.result, ← self (vs.map (·.2)))

def evalChain (f : Function) (env : List (String × Ty × Int)) (self : List Int → Checked Int) (op : Chain) :
    List Expr → Checked Bool
  | [] => .ok (op = .and)
  | e :: es => do
    let b := (← eval f env self e).isTrue
    match op with
    | .and => if b then evalChain f env self op es else return false
    | .or => if b then return true else evalChain f env self op es

def evalAll (f : Function) (env : List (String × Ty × Int)) (self : List Int → Checked Int) : List Expr → Checked (List Value)
  | [] => .ok []
  | e :: es => return (← eval f env self e) :: (← evalAll f env self es)
end
end Expr

def Function.run (f : Function) : (depth : Nat) → List Int → Checked Int
  | 0, _ => tooDeep
  | depth + 1, args => do
    let env := (f.params.zip args).map fun ((t, x), v) => (x, t, t.store v)
    let (_, v) ← f.body.eval f env (f.run depth)
    return f.result.store v

def Function.call (f : Function) (args : List Int) : Checked Int := do
  if args.length ≠ f.params.length then wrongKind
  if (f.params.zip args).all fun ((t, _), v) => t.store v = v then f.run 1000 args
  else throw .overflow

/-! ## What a strict compiler accepts -/

namespace Expr

mutual
def mentions (x : String) : Expr → Bool
  | .name y => x = y
  | .literal _ | .bool _ => false
  | .unary _ a => mentions x a
  | .binary _ a b => mentions x a || mentions x b
  | .chain _ args | .call _ args => mentionsAny x args
  | .cond c a b => mentions x c || mentions x a || mentions x b

def mentionsAny (x : String) : List Expr → Bool
  | [] => false
  | e :: es => mentions x e || mentionsAny x es
end

def constant? : Expr → Option Value
  | .literal v => some (.ofLiteral v, v)
  | .bool b => some (.truth b)
  | .unary op a => do some (op.apply (← constant? a))
  | .binary op a b => do some (op.apply (← constant? a) (← constant? b))
  | _ => none

def isTruth : Expr → Bool
  | .bool _ | .chain _ _ | .unary .not _ | .binary .lt _ _ | .binary .le _ _ | .binary .gt _ _
  | .binary .ge _ _ => true
  | _ => false

variable (env : List (String × Ty))

/-- The range of an expression of its own width: for a variable that of its declared type. -/
def declared? (result : Ty) : Expr → Option Ty
  | .name x => env.lookup x
  | .call _ _ => some result
  | _ => none

def mayChange (env : List (String × Ty)) (result target : Ty) : Expr → Bool
  | .cond _ a b => mayChange env result target a || mayChange env result target b
  | e =>
    if e.isTruth then false
    else match e.constant? with
      | some (_, v) => target.store v ≠ v
      | none =>
        match target, e.declared? env result with
        | .bool, _ => false
        | .word _, some .bool => false
        | .word w, some (.word v) => decide (w < v)
        | .word w, none =>
          let t := e.type env result
          decide (w < t.width) || t.signed

def asTarget (t : Arith) : Option Ty := if t.signed then none else some (.word t.width)

def neverNegative (env : List (String × Ty)) (result : Ty) : Expr → Bool
  | .cond _ a b => neverNegative env result a && neverNegative env result b
  | e =>
    match e.constant?, e.declared? env result with
    | some (_, v), _ => decide (0 ≤ v)
    | none, some _ => true
    | none, none => e.isTruth || !(e.type env result).signed

def isComplement : Expr → Bool
  | .unary .complement _ => true
  | _ => false

def decidedBy (op : Binary) (unsigned : Bool) (narrow : Option Nat) (v : Int) : Bool :=
  let low := decide (v ≤ 0)
  let high := match narrow with
    | some w => decide (Int.pow 2 w - 1 ≤ v)
    | none => false
  match op with
  | .lt | .ge => (unsigned || narrow.isSome) && low
  | .gt | .le => high
  | _ => false

def Binary.flip : Binary → Binary
  | .lt => .gt
  | .gt => .lt
  | .le => .ge
  | .ge => .le
  | op => op

def narrowWidth (result : Ty) (e : Expr) : Option Nat :=
  match e.declared? env result with
  | some (.word w) => if w < 32 then some w else none
  | _ => none

def comparisonWarns (result : Ty) (op : Binary) (a b : Expr) : Bool :=
  let ta := a.type env result
  let tb := b.type env result
  let signs := (ta.meet tb).signed = false
    && ((ta.signed && !neverNegative env result a) || (tb.signed && !neverNegative env result b))
  let known := match a.constant?, b.constant? with
    | some _, some _ => false
    | none, some (_, v) => decidedBy op (!ta.signed) (narrowWidth env result a) v
    | some (_, v), none => decidedBy (Binary.flip op) (!tb.signed) (narrowWidth env result b) v
    | none, none => a.render = b.render
  let promoted := (ta.meet tb).signed && (a.isComplement != b.isComplement)
  signs || known || promoted

mutual
def warns (env : List (String × Ty)) (result : Ty) (self : String) : Expr → Bool
  | .name _ | .literal _ | .bool _ => false
  | .unary _ a => warns env result self a
  | .binary op a b =>
    warns env result self a || warns env result self b ||
    (match op with
    | .lt | .le | .gt | .ge => comparisonWarns env result op a b
    | _ =>
      match asTarget ((a.type env result).meet (b.type env result)) with
      | some t => mayChange env result t a || mayChange env result t b
      | none => false)
  | .chain _ args => args.isEmpty || anyWarns env result self args
  | .cond c a b =>
    warns env result self c || warns env result self a || warns env result self b ||
    (match asTarget ((a.type env result).meet (b.type env result)) with
    | some t => mayChange env result t a || mayChange env result t b
    | none => false)
  | .call f args => f ≠ self || anyWarns env result self args

def anyWarns (env : List (String × Ty)) (result : Ty) (self : String) : List Expr → Bool
  | [] => false
  | e :: es => warns env result self e || anyWarns env result self es
end
end Expr

def Function.accepted (f : Function) : Bool :=
  let env := f.params.map fun (t, x) => (x, t)
  let names := f.params.map (·.2)
  names.eraseDups = names && names.all (fun x => f.body.mentions x) && !f.body.warns env f.result f.name
    && !f.body.mayChange env f.result f.result

end SortedLogic.C

import SortedLogic.Fresh

/-!
# Terms and modules in Verilog

Words and truth values have the operators of the language; a module computes each output from the inputs.
-/

namespace SortedLogic.Print.Verilog

inductive Op where
  | and | or | xor | le | lt | ge | gt | add | sub | mul | eq | ne | shl | shr | sar | both | either | join

def Op.ofName? : String → Option Op
  | "bvand" => some .and
  | "bvor" => some .or
  | "bvxor" => some .xor
  | "bvule" => some .le
  | "bvult" => some .lt
  | "bvuge" => some .ge
  | "bvugt" => some .gt
  | "bvadd" => some .add
  | "bvsub" => some .sub
  | "bvmul" => some .mul
  | "=" => some .eq
  | "distinct" => some .ne
  | "bvshl" => some .shl
  | "bvlshr" => some .shr
  | "bvashr" => some .sar
  | _ => none

def Op.render : Op → String
  | .and => " & "
  | .or => " | "
  | .xor => " ^ "
  | .le => " <= "
  | .lt => " < "
  | .ge => " >= "
  | .gt => " > "
  | .add => " + "
  | .sub => " - "
  | .mul => " * "
  | .eq => " == "
  | .ne => " != "
  | .shl => " << "
  | .shr => " >> "
  | .sar => " >>> "
  | .both => " && "
  | .either => " || "
  | .join => ", "

inductive Expr where
  | number (width? : Option Nat) (value : Nat)
  | bit (value : Bool)
  | name (x : String)
  | index (a i : Expr)
  | choice (c a b : Expr)
  | not (a : Expr)
  | complement (a : Expr)
  | binary (op : Op) (a b : Expr)
  | parens (a : Expr)
  | braces (a : Expr)

def Expr.render : Expr → String
  | .number w v => (w.map (toString · ++ "'d")).getD "" ++ toString v
  | .bit b => if b then "1'b1" else "1'b0"
  | .name x => x
  | .index a i => a.render ++ "[" ++ i.render ++ "]"
  | .choice c a b => c.render ++ " ? " ++ a.render ++ " : " ++ b.render
  | .not a => "!" ++ a.render
  | .complement a => "~" ++ a.render
  | .binary op a b => a.render ++ op.render ++ b.render
  | .parens a => "(" ++ a.render ++ ")"
  | .braces a => "\x7b" ++ a.render ++ "\x7d"

def unknown {α : Type} : Checked α := failed "Unknown expression:"

def app (f : Symbol) (args : List Expr) : Checked Expr :=
  match f.role, args with
  | .bits v, _ => .ok (.number (match f.range with | .bitvec w => some w | _ => none) v)
  | _, [] => .ok (if f = .tt then .bit true else if f = .ff then .bit false else .name f.name)
  | _, a :: rest =>
    if f.isOp "select" then
      match rest with
      | i :: _ => .ok (.index a i)
      | [] => outOfRange
    else if f.name = "ite" then
      match rest with
      | b :: c :: _ => .ok (.parens (.choice a b c))
      | _ => outOfRange
    else if f.name = "and" then .ok (.parens (rest.foldl (.binary .both) a))
    else if f.name = "or" then .ok (.parens (rest.foldl (.binary .either) a))
    else if f.name = "not" then .ok (.parens (.not a))
    else match Op.ofName? f.name, rest with
      | some op, [b] => .ok (.parens (.binary op a b))
      | some _, _ => violated
      | none, _ =>
        if f.name = "bvnot" then
          if rest.isEmpty then .ok (.parens (.complement a)) else violated
        else if f.name = "concat" then .ok (.braces (rest.foldl (.binary .join) a))
        else unknown

mutual
def Expr.ofTerm : Term → Checked Expr
  | .app f args => do app f (← Expr.ofTerms args)
  | _ => unknown

def Expr.ofTerms : List Term → Checked (List Expr)
  | [] => .ok []
  | t :: ts => return (← Expr.ofTerm t) :: (← Expr.ofTerms ts)
end

structure Port where
  name : String
  width? : Option Nat

def Port.render (p : Port) : String :=
  (p.width?.map fun w => "[" ++ toString ((w : Int) - 1) ++ ":0] ").getD "" ++ p.name

def Port.ofTerm : Term → Checked Port
  | .app f [] =>
    match f.range with
    | .bool => .ok ⟨f.name, none⟩
    | .bitvec w => .ok ⟨f.name, some w⟩
    | _ => failed "Unknown sort:"
  | _ => violated

structure Module where
  name : String
  inputs : List Port
  outputs : List (Port × Expr)

def keepLast (outs : List (Term × Term)) : List (Term × Term) :=
  outs.foldl (fun acc (k, v) =>
    if acc.any (·.1 = k) then acc.map fun (l, u) => if l = k then (l, v) else (l, u)
    else acc ++ [(k, v)]) []

def Module.ofTerms (name : String) (ins : List Term) (outs : List (Term × Term)) : Checked Module := do
  let outs := keepLast outs
  if ins.eraseDups.length ≠ ins.length then violated
  if ins.any fun v => outs.any (·.1 = v) then violated
  if outs.any fun (k, v) => k.sort ≠ v.sort then failed "Output"
  let outputs ← outs.mapM fun (k, _) => Port.ofTerm k
  let inputs ← ins.mapM Port.ofTerm
  let values ← outs.mapM fun (_, v) => Expr.ofTerm v
  return ⟨name, inputs, outputs.zip values⟩

def Module.render (m : Module) : String :=
  let ports := m.inputs.map ("input " ++ ·.render) ++ m.outputs.map ("output " ++ ·.1.render)
  let assigns := m.outputs.map fun (p, e) => "assign " ++ p.name ++ " = " ++ e.render ++ ";"
  "// Generated by knuckledragger\nmodule " ++ m.name ++ " (\n   " ++ ",\n   ".intercalate ports ++ "\n);\n"
    ++ "\n".intercalate assigns ++ "\nendmodule\n"

end SortedLogic.Print.Verilog

/-! ## Formulas of real arithmetic for Gappa -/

namespace SortedLogic.Print.Gappa

def decimals (d : Nat) : (places : Nat) → (n : Nat) → List Char × Nat
  | 0, n => ([], n)
  | places + 1, n =>
    if n = 0 then ([], 0)
    else
      let (cs, rest) := decimals d places (10 * n % d)
      (Char.ofNat (48 + 10 * n / d) :: cs, rest)

def decimal? (q : Rat) : Option String :=
  let n := q.num.natAbs
  let (cs, rest) := decimals q.den 10 (n % q.den)
  if rest ≠ 0 then none
  else
    let sign := if q.num < 0 then "-" else ""
    let whole := sign ++ toString (n / q.den)
    some (if cs.isEmpty then whole else whole ++ "." ++ String.ofList cs)

def unsupported {α : Type} : Checked α := invalid "Unsupported expression for Gappa:"

def real : Term → Checked String
  | .var _ s => if s = .real then unsupported else violated
  | .bind .. => violated
  | .app f args =>
    if f.range ≠ .real then violated
    else match f.role with
      | .rat q =>
        match decimal? q with
        | some s => .ok s
        | none => invalid "Gappa only supports finite decimal constants:"
      | _ =>
        if f.name = "-" then noField
        else if f.name = "abs" then wrongKind
        else do
          let args ← args.mapM real
          match f.name, args with
          | "+", _ => return "(" ++ " + ".intercalate args ++ ")"
          | "*", _ => return "(" ++ " * ".intercalate args ++ ")"
          | "/", [a, b] => return "(" ++ a ++ " / " ++ b ++ ")"
          | _, _ => return if f.domain.isEmpty then f.name else f.name ++ "(" ++ ",".intercalate args ++ ")"

def comparison (name : String) (a b : Term) : Checked String := do
  let l ← real a
  let r ← real b
  if name = "=" || b.rat?.isSome then return "(" ++ l ++ " " ++ name ++ " " ++ r ++ ")"
  else return "(" ++ l ++ " - " ++ r ++ " " ++ name ++ " 0)"

def formula : Term → Checked String
  | .var _ s => if s = .bool then unsupported else violated
  | .bind k _ _ =>
    if k = .lambda then violated
    else invalid "Gappa does not support quantifiers:"
  | .app f args =>
    if f.range ≠ .bool then violated
    else if f.isOp "and" then return "(" ++ " /\\ ".intercalate (← args.mapM formula) ++ ")"
    else if f.isOp "or" then return "(" ++ "\\/ ".intercalate (← args.mapM formula) ++ ")"
    else match f.isOp "not", f.isOp "=>", args with
      | true, _, [a] => return "(not " ++ (← formula a) ++ ")"
      | _, true, [a, b] => return "(" ++ (← formula a) ++ " -> " ++ (← formula b) ++ ")"
      | _, _, [a, b] =>
        if ["<=", "<", ">=", ">", "="].contains f.name then comparison f.name a b else unsupported
      | _, _, _ => unsupported

end SortedLogic.Print.Gappa

/-! ## Terms in the notation of Lean -/

namespace SortedLogic.Print

def leanType : Srt → String
  | .bitvec w => "(BitVec " ++ toString w ++ ")"
  | .seq s => "(Array " ++ leanType s ++ ")"
  | .array (d :: _) r => "(" ++ leanType d ++ " -> " ++ leanType r ++ ")"
  | s => s.name

def isAlphabetic (c : Char) : Bool :=
  c.isAlpha || c = 'ª' || c = 'µ' || c = 'º' || ('À' ≤ c && c ≤ 'ÿ' && c ≠ '×' && c ≠ '÷')

def binderSign : Binder → String
  | .forall => "∀ "
  | .exists => "∃ "
  | .lambda => "λ "

def leanApp (f : Symbol) (args : List String) : Checked String :=
  match f.role with
  | .int v => .ok (toString v)
  | .bits v =>
    match f.range with
    | .bitvec w => .ok (toString v ++ "#" ++ toString w)
    | _ => .ok (toString v)
  | _ =>
    if f.isOp "select" then
      match args with
      | [a, i] => .ok ("(" ++ a ++ " " ++ i ++ ")")
      | _ => violated
    else
      match f.isOp "if", args with
      | true, [c, a, b] => .ok ("(if " ++ c ++ " then " ++ a ++ " else " ++ b ++ ")")
      | _, [] => .ok f.name
      | _, [a, b] =>
        match f.name.toList.head? with
        | none => outOfRange
        | some c =>
          if isAlphabetic c then .ok ("(" ++ f.name ++ " " ++ a ++ " " ++ b ++ ")")
          else .ok ("(" ++ a ++ " " ++ f.name ++ " " ++ b ++ ")")
      | _, _ =>
        if f.name.isEmpty then outOfRange
        else .ok ("(" ++ f.name ++ " " ++ " ".intercalate args ++ ")")

def leanTerm (names : List String) : Term → Checked String
  | .var i _ =>
    match names[i]? with
    | some x => .ok x
    | none => unsupported "Cannot convert"
  | .app f args => do leanApp f (← args.mapM (leanTerm names))
  | .bind k vars body => do
    let xs := vars.map (·.1)
    return binderSign k ++ " ".intercalate xs ++ ", " ++ (← leanTerm (xs.reverse ++ names) body)

end SortedLogic.Print

import SortedLogic.Print.Infix
import SortedLogic.Rewrite.Step

/-!
# Rules as statements on tables

A relation is a table, and a rule a statement: the first place of a variable stands for it, every later one is a condition.
-/

namespace SortedLogic.Relational

structure Column where
  row : String
  place : Nat
  deriving DecidableEq

inductive Operand where
  | column (c : Column)
  | term (t : Term)

structure Source where
  table : String
  row : String
  deriving DecidableEq

structure Condition where
  left : Operand
  right : Operand

structure Insert where
  table : String
  selected : List Operand
  sources : List Source
  conditions : List Condition

/-! ## From rules -/

structure Body where
  places : List (Term × Column) := []
  sources : List Source := []
  conditions : List Condition := []

namespace Body

def place? (b : Body) (v : Term) : Option Column := (b.places.find? (·.1 = v)).map (·.2)

def argument (b : Body) (isVariable : Bool) (c : Column) (t : Term) : Body :=
  if isVariable then
    match b.place? t with
    | some first => { b with conditions := b.conditions ++ [⟨.column first, .column c⟩] }
    | none => { b with places := b.places ++ [(t, c)] }
  else { b with conditions := b.conditions ++ [⟨.column c, .term t⟩] }

end Body

/-- Both sides are converted to a common sort, and refused where there is none. -/
def isAmong (t : Term) : List Term → Checked Bool
  | [] => return false
  | v :: vs => do
    let (a, b) ← t.coerce v
    if a = b then return true else isAmong t vs

def Body.arguments (vars : List Term) (row : String) : Nat → List Term → Body → Checked Body
  | _, [], b => return b
  | n, t :: ts, b => do
    let isVariable ← isAmong t vars
    Body.arguments vars row (n + 1) ts (b.argument isVariable ⟨row, n⟩ t)

/-- The alias of a row is the name of the table followed by the number of sources before it. -/
def Body.atom (vars : List Term) (b : Body) (t : Term) : Checked Body :=
  match t with
  | .app f args =>
    if f.isOp "=" then invalid "Equality not supported"
    else if f.isOp "not" then invalid "Negation not supported"
    else if f.isOp "or" then invalid "Disjunction not supported"
    else if f.isOp "true" then .ok b
    else
      let row := f.name ++ toString b.sources.length
      Body.arguments vars row 0 args { b with sources := b.sources ++ [⟨f.name, row⟩] }
  | _ => invalid "Unsupported expression:"

def conjuncts : Term → List Term
  | .app f args => if f.isOp "and" then args.reverse.flatMap conjuncts else [.app f args]
  | t => [t]

def Body.ofTerm (vars : List Term) (t : Term) : Checked Body :=
  (conjuncts t).foldlM (Body.atom vars) {}

def Body.select (vars : List Term) (b : Body) (t : Term) : Checked Operand := do
  if ← isAmong t vars then
    match b.place? t with
    | some c => return .column c
    | none => invalid "Variable"
  else return .term t

def Insert.ofRule (r : Rewrite.HornRule) : Checked Insert := do
  let b ← Body.ofTerm r.vars r.hyp
  let .app f args := r.conc | illFormed
  return ⟨f.name, ← args.mapM (b.select r.vars), b.sources, b.conditions⟩

/-! ## Their text -/

def columnName (n : Nat) : String := "x" ++ toString n
def Column.text (c : Column) : String := c.row ++ "." ++ columnName c.place

def Operand.text : Operand → String
  | .column c => c.text
  | .term t => Print.Infix.text t

def Source.text (s : Source) : String := s.table ++ " AS " ++ s.row
def Condition.text (c : Condition) : String := c.left.text ++ " = " ++ c.right.text

def clause (word separator : String) (parts : List String) : String :=
  if parts.isEmpty then "" else word ++ " " ++ separator.intercalate parts

def Insert.text (s : Insert) : String :=
  let selected := s.selected.zipIdx.map fun (o, n) => o.text ++ " AS " ++ columnName n
  "\n    INSERT OR IGNORE INTO " ++ s.table ++ " SELECT DISTINCT " ++ ", ".intercalate selected
    ++ "\n    " ++ clause "FROM" ", " (s.sources.map Source.text)
    ++ "\n    " ++ clause "WHERE" " AND " (s.conditions.map Condition.text) ++ "\n    "

/-! ## Running statements -/

abbrev Cell := Option Int

abbrev Row := List Cell

structure Table where
  name : String
  width : Nat
  rows : List Row := []

abbrev Database := List Table

def key (name : String) : String := name.toLower

/-! ## Names -/

def reserved : List String :=
  ["add", "all", "alter", "and", "as", "autoincrement", "between", "case", "check", "collate", "commit", "constraint",
    "create", "default", "deferrable", "delete", "distinct", "drop", "else", "escape", "except", "exists", "foreign", "from",
    "group", "having", "if", "in", "index", "insert", "intersect", "into", "is", "isnull", "join", "limit", "not", "notnull",
    "null", "on", "or", "order", "primary", "references", "returning", "select", "set", "table", "then", "to",
    "transaction", "union", "unique", "update", "using", "values", "when", "where", "nothing"]

def isNameStart (c : Char) : Bool := c.isAlpha || c = '_' || c.toNat ≥ 128
def isNamePart (c : Char) : Bool := isNameStart c || c.isDigit || c = '$'

def isName (s : String) : Bool :=
  match s.toList with
  | [] => false
  | c :: cs => isNameStart c && cs.all isNamePart && !reserved.contains (key s)

namespace Database

def table? (db : Database) (name : String) : Option Table := db.find? fun t => key t.name = key name

def declare (db : Database) (name : String) (width : Nat) : Checked Database :=
  if !isName name || width = 0 then .error .badStatement
  else if (db.table? name).isSome then .ok db
  else .ok (db ++ [⟨name, width, []⟩])

end Database

/-! ## Values of operands -/

structure Frame where
  row : String
  width : Nat
  cells : Row

variable (env : List Frame)

def cellAt (c : Column) : Checked Cell := do
  let [r] := env.filter (fun r => key r.row = key c.row && c.place < r.width) | throw .badStatement
  .ok ((r.cells[c.place]?).join)

def placeOf? (name : String) : Option Nat :=
  match name.toList with
  | c :: cs =>
    match (String.ofList cs).toNat? with
    | some n => if (c = 'x' || c = 'X') && columnName n = "x" ++ String.ofList cs then some n else none
    | none => none
  | [] => none

def named (name : String) : Checked Cell :=
  match placeOf? name with
  | none => .error .badStatement
  | some n =>
    match env.filter fun r => n < r.width with
    | [r] => .ok ((r.cells[n]?).join)
    | _ => .error .badStatement

def both (f : Int → Int → Cell) (a b : Cell) : Cell := do f (← a) (← b)

def truth (b : Bool) : Cell := some (if b then 1 else 0)

def quotient (a b : Int) : Cell := if b = 0 then none else some (a.tdiv b)

def remainder (a b : Int) : Cell := if b = 0 then none else some (a.tmod b)

def operation? (f : Symbol) : Option (Cell → Cell → Cell) :=
  match f.name with
  | "+" | "bvadd" => some (both fun a b => some (a + b))
  | "-" | "bvsub" => some (both fun a b => some (a - b))
  | "*" | "bvmul" => some (both fun a b => some (a * b))
  | "/" | "div" | "bvsdiv" => some (both quotient)
  | "mod" | "bvsmod" => some (both remainder)
  | "<" | "bvslt" => some (both fun a b => truth (a < b))
  | "<=" | "bvsle" => some (both fun a b => truth (a ≤ b))
  | ">" | "bvsgt" => some (both fun a b => truth (b < a))
  | ">=" | "bvsge" => some (both fun a b => truth (b ≤ a))
  | "=" => some (both fun a b => truth (a = b))
  | "distinct" => some (both fun a b => truth (a ≠ b))
  | _ => none

def applyOperation (f : Symbol) (args : List Cell) : Checked Cell :=
  match f.name, args with
  | "-", [a] | "bvneg", [a] => .ok (a.map (-·))
  | "not", [a] => .ok (a.map fun b => if b = 0 then 1 else 0)
  | _, a :: b :: rest => do
    let some g := operation? f | throw .badStatement
    if rest.isEmpty || f.name = "+" || f.name = "*" then .ok (rest.foldl g (g a b)) else .error .badStatement
  | _, _ => .error .badStatement

def numeral? (t : Term) : Option Cell :=
  match t.int?, t.rat? with
  | some n, _ => some (some n)
  | none, some q => some (quotient q.num q.den)
  | none, none =>
    match t with
    | .app f [] => if f.isOp "true" then some (truth true) else if f.isOp "false" then some (truth false) else none
    | _ => none

def valueOf (env : List Frame) : Term → Checked Cell
  | .app f args =>
    match numeral? (.app f args) with
    | some c => .ok c
    | none =>
      match f.role, args with
      | .builtin _, args => do applyOperation f (← args.mapM (valueOf env))
      | _, [] => named env f.name
      | _, _ => .error .badStatement
  | _ => .error .badStatement

def Operand.value : Operand → Checked Cell
  | .column c => cellAt env c
  | .term t => valueOf env t

/-! ## Running -/

def product : List (Source × Table) → List (List Frame)
  | [] => [[]]
  | (s, t) :: rest => t.rows.flatMap fun cells => (product rest).map (⟨s.row, t.width, cells⟩ :: ·)

def blank (sources : List (Source × Table)) : List Frame :=
  sources.map fun (s, t) => ⟨s.row, t.width, []⟩

def Condition.holds (c : Condition) : Checked Bool := do
  return match ← c.left.value env, ← c.right.value env with
    | some a, some b => a = b
    | _, _ => false

def Insert.rowAt (s : Insert) (env : List Frame) : Checked (Option Row) := do
  let row ← s.selected.mapM (Operand.value env)
  let met ← s.conditions.mapM (Condition.holds env)
  return if met.all id then some row else none

def Insert.tables (s : Insert) (db : Database) : Checked (List (Source × Table)) :=
  s.sources.mapM fun src => do
    let some t := db.table? src.table | throw .badStatement
    .ok (src, t)

def Insert.rows (s : Insert) (db : Database) : Checked (List Row) := do
  let sources ← s.tables db
  let _ ← s.rowAt (blank sources)
  return ((← (product sources).mapM s.rowAt).filterMap id).eraseDups

def Table.insert (t : Table) (row : Row) : Table :=
  if row.all Option.isSome && t.rows.contains row then t else { t with rows := t.rows ++ [row] }

def Insert.run (s : Insert) (db : Database) : Checked Database :=
  match db.table? s.table with
  | none => .error .badStatement
  | some target => do
    if s.selected.isEmpty || s.selected.length ≠ target.width then throw .badStatement
    if !(isName s.table) || s.sources.any (fun src => !isName src.row) then throw .badStatement
    let rows ← s.rows db
    return db.map fun t => if t.name = target.name then rows.foldl Table.insert t else t

end SortedLogic.Relational

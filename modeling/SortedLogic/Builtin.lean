import SortedLogic.Term.Build

/-!
# Builtin operations by name

The names under which a reader writes the operations, and the symbol of each name at given argument sorts.
-/

namespace SortedLogic.Builtin

def bitOps : List String :=
  ["bvadd", "bvsub", "bvmul", "bvand", "bvor", "bvxor", "bvshl", "bvlshr", "bvashr", "bvudiv", "bvsdiv",
   "bvsrem", "bvurem"]

def bitComparisons : List String :=
  ["bvult", "bvule", "bvugt", "bvuge", "bvslt", "bvsle", "bvsgt", "bvsge"]

def comparisons : List String := ["<", "<=", ">", ">="]

/-- The symbol of a name at the given argument sorts. Names that take any number of arguments have a
symbol of two places. -/
def symbol? (name : String) (sorts : List Srt) : Option Symbol :=
  match sorts with
  | [] =>
    if name = "and" then some .and else if name = "or" then some .or
    else if name = "distinct" then some (.distinct []) else none
  | s :: rest =>
    if name = "distinct" then some (.distinct sorts)
    else if name = "and" then some .and
    else if name = "or" then some .or
    else if (name = "+" || name = "*") && s.isArith then some (.builtin name [s, s] s)
    else match rest with
      | [] =>
        if name = "neg" && s.isArith then some (.builtin "-" [s] s)
        else if name = "not" then some .not
        else if name = "to_real" then some .toReal
        else if name = "to_int" then some (.builtin "to_int" [.real] .int)
        else match s with
          | .bitvec w =>
            if name = "bvnot" || name = "bvneg" then some (.builtin name [s] s)
            else if name = "bv2int" then some (.builtin name [.bitvec w] .int)
            else none
          | _ => none
      | [r] =>
        if name = "=" then some (.eq s)
        else if name = "=>" then some .implies
        else if name = "xor" then some (.builtin "xor" [.bool, .bool] .bool)
        else if name = "/" then some (.builtin "/" [.real, .real] .real)
        else if name = "div" || name = "mod" then some (.builtin name [.int, .int] .int)
        else if comparisons.contains name && s.isArith then some (.builtin name [s, s] .bool)
        else if name = "-" && s.isArith then some (.builtin "-" [s, s] s)
        else if name = "**" && s.isArith then some (.builtin "^" [s, s] s)
        else match s, r with
          | .bitvec w, .bitvec v =>
            if bitOps.contains name then some (.builtin name [s, s] s)
            else if bitComparisons.contains name then some (.builtin name [s, s] .bool)
            else if name = "concat" then some (.builtin name [s, r] (.bitvec (w + v)))
            else none
          | .array domains range, _ =>
            if name = "select" then some (.builtin name (s :: domains) range) else none
          | _, _ => none
      | _ =>
        match s with
        | .array domains range =>
          if name = "select" then some (.builtin name (s :: domains) range)
          else if name = "store" then some (.builtin name (s :: domains ++ [range]) s)
          else none
        | _ => if name = "ite" then rest.head?.map .ite else none

def isVariadic (name : String) : Bool :=
  name = "+" || name = "*" || name = "and" || name = "or" || name = "distinct"

def concatAll : List Term → Checked Term
  | [] => .error .illFormed
  | t :: ts => ts.foldlM (fun a b =>
      match symbol? "concat" [a.sort, b.sort] with
      | some f => Term.op f [a, b]
      | none => .error .illFormed) t

/-- Applies the operation of that name to the arguments as they are written. Numbers of two sorts meet in
the wider one. -/
def apply (name : String) (args : List Term) : Checked Term :=
  if name = "concat" then concatAll args
  else if isVariadic name then do
    let args ← Term.coerceAll args
    match symbol? name (args.map Term.sort) with
    | some f =>
      if name = "distinct" then Term.op f args
      else Term.opAll f (f.domain.headD .bool) args
    | none => .error .illFormed
  else do
    let args ← match name, args with
      | "=", [a, b] => do let (a, b) ← a.coerce b; pure [a, b]
      | "ite", [c, a, b] => do let (a, b) ← a.coerce b; pure [c, a, b]
      | _, _ =>
        match args with
        | [a, b] => if a.sort.isArith && b.sort.isArith then do
            let (a, b) ← a.coerce b; pure [a, b] else pure args
        | _ => pure args
    match symbol? name (args.map Term.sort) with
    | some f => do
      if args.length = f.arity then Term.op f (← Term.castAll f.domain args) else .error .illFormed
    | none => .error .illFormed

def extract (high low : Nat) (t : Term) : Checked Term :=
  match t.sort with
  | .bitvec w =>
    if low ≤ high ∧ high < w then
      .ok (.app (.builtin "extract" [.bitvec w] (.bitvec (high - low + 1)) [high, low]) [t])
    else .error .illFormed
  | _ => .error .illFormed

def constArray (domain : Srt) (v : Term) : Term :=
  .app (.builtin "const" [v.sort] (.array [domain] v.sort)) [v]

def writtenName (f : Symbol) : String :=
  match f.role with
  | .builtin _ =>
    if f.name = "if" then "ite"
    else if f.name = "^" then "**"
    else if f.name = "-" && f.arity = 1 then "neg"
    else if f.name = "const" then "K"
    else f.name
  | _ => f.name

end SortedLogic.Builtin

import SortedLogic.Subterm

/-!
# Ground evaluation

The builtin operations on literals. Integer division is Euclidean; division by zero stays as it is written.
-/

namespace SortedLogic.Ground

def signed (v w : Nat) : Int := if 2 * v < Nat.pow 2 w then v else (v : Int) - Int.pow 2 w

def signedDiv (a b w : Nat) : Int :=
  if b = 0 then (if signed a w < 0 then 1 else -1) else Int.tdiv (signed a w) (signed b w)

def signedRem (a b w : Nat) : Int :=
  if b = 0 then signed a w else Int.tmod (signed a w) (signed b w)

def bitOp? (name : String) (a b w : Nat) : Option Term :=
  let val (v : Int) : Option Term := some (.bits v w)
  let bool (p : Bool) : Option Term := some (.bool p)
  match name with
  | "bvadd" => val (a + b)
  | "bvsub" => val ((a : Int) - b)
  | "bvmul" => val (a * b)
  | "bvand" => val (Nat.land a b)
  | "bvor" => val (Nat.lor a b)
  | "bvxor" => val (Nat.xor a b)
  | "bvshl" => val (if w ≤ b then 0 else a * Nat.pow 2 b)
  | "bvlshr" => val (if w ≤ b then 0 else a / Nat.pow 2 b)
  | "bvashr" => val (if w ≤ b then (if signed a w < 0 then -1 else 0) else (signed a w).fdiv (Int.pow 2 b))
  | "bvudiv" => val (if b = 0 then -1 else a / b)
  | "bvurem" => val (if b = 0 then a else a % b)
  | "bvsdiv" => val (signedDiv a b w)
  | "bvsrem" => val (signedRem a b w)
  | "bvult" => bool (a < b)
  | "bvule" => bool (a ≤ b)
  | "bvugt" => bool (b < a)
  | "bvuge" => bool (b ≤ a)
  | "bvslt" => bool (signed a w < signed b w)
  | "bvsle" => bool (signed a w ≤ signed b w)
  | "bvsgt" => bool (signed b w < signed a w)
  | "bvsge" => bool (signed b w ≤ signed a w)
  | _ => none

def intOp? (name : String) (a b : Int) : Option Term :=
  match name with
  | "-" => some (.int (a - b))
  | "div" => if b = 0 then none else some (.int (a / b))
  | "mod" => if b = 0 then none else some (.int (a % b))
  | "^" => if 0 ≤ b then some (.int (Int.pow a b.toNat)) else none
  | "<" => some (.bool (a < b))
  | "<=" => some (.bool (a ≤ b))
  | ">" => some (.bool (b < a))
  | ">=" => some (.bool (b ≤ a))
  | _ => none

def ratOp? (name : String) (a b : Rat) : Option Term :=
  match name with
  | "-" => some (.rat (a - b))
  | "/" => if b = 0 then none else some (.rat (a / b))
  | "^" =>
    if b.den = 1 ∧ 0 ≤ b.num then some (.rat (Rat.pow a b.num.toNat))
    else if b.den = 1 ∧ a ≠ 0 then some (.rat (1 / Rat.pow a (-b.num).toNat)) else none
  | "<" => some (.bool (a < b))
  | "<=" => some (.bool (a ≤ b))
  | ">" => some (.bool (b < a))
  | ">=" => some (.bool (b ≤ a))
  | _ => none

variable (f : Symbol)

def unaryOp? (t : Term) : Option Term :=
  match t.int?, t.rat?, t.bits? with
  | some v, _, _ =>
    if f.name = "-" then some (.int (-v)) else if f.name = "to_real" then some (.rat v) else none
  | _, some q, _ =>
    if f.name = "-" then some (.rat (-q)) else if f.name = "to_int" then some (.int q.floor) else none
  | _, _, some (v, w) =>
    match f.name, f.role with
    | "bvnot", _ => some (.bits (-1 - (v : Int)) w)
    | "bvneg", _ => some (.bits (-(v : Int)) w)
    | "bv2int", _ => some (.int v)
    | "extract", .builtin [high, low] => some (.bits (v / Nat.pow 2 low) (high - low + 1))
    | "zero_extend", .builtin [n] => some (.bits v (w + n))
    | "sign_extend", .builtin [n] => some (.bits (signed v w) (w + n))
    | _, _ => none
  | none, none, none => none

def binaryOp? (a b : Term) : Option Term :=
  match a.int?, b.int? with
  | some x, some y => intOp? f.name x y
  | _, _ =>
    match a.rat?, b.rat? with
    | some x, some y => ratOp? f.name x y
    | _, _ =>
      match a.bits?, b.bits? with
      | some (x, w), some (y, v) =>
        if f.name = "concat" then some (.bits (x * Nat.pow 2 v + y) (w + v)) else bitOp? f.name x y w
      | _, _ => none

variable (args : List Term)

def fold? : Option Term :=
  match f.role with
  | .builtin _ =>
    if f.name = "+" || f.name = "*" then
      let mul := f.name = "*"
      match args.mapM Term.int? with
      | some vs =>
        if f.range = .int then some (.int (if mul then vs.foldl (· * ·) 1 else vs.foldl (· + ·) 0)) else none
      | none =>
        match args.mapM Term.rat? with
        | some qs => some (.rat (if mul then qs.foldl (· * ·) 1 else qs.foldl (· + ·) 0))
        | none => none
    else match args with
      | [a] => unaryOp? f a
      | [a, b] => binaryOp? f a b
      | _ => none
  | _ => none

def equal? (a b : Term) : Option Bool :=
  if a = b then some true else if a.isValue && b.isValue then some false else none

def flatten : List Term :=
  args.flatMap fun
    | .app g bs => if g = f then bs else [.app g bs]
    | t => [t]

def collectNumbers : Term :=
  let args := flatten f args
  let (nums, rest) := args.partition fun t => t.int?.isSome || t.rat?.isSome
  let unit : Term := (fold? f (if nums.isEmpty then [] else nums)).getD (.int 0)
  let unit := if nums.isEmpty && f.range == .real then .rat (if f.name = "*" then 1 else 0) else unit
  let isOne := unit.int? = some 1 || unit.rat? = some 1
  let isZero := unit.int? = some 0 || unit.rat? = some 0
  if rest.isEmpty then unit
  else if f.name = "*" && isZero then unit
  else
    let args := if (f.name = "*" && isOne) || (f.name = "+" && isZero) then rest else unit :: rest
    match args with
    | [t] => t
    | _ => .app f args

def reduceHead : Term :=
  let t : Term := .app f args
  match f.role with
  | .accessor c i =>
    match args with
    | [.app g bs] => if g.isConstructor && g.name = c then bs.getD i t else t
    | _ => t
  | .recognizer c =>
    match args with
    | [.app g _] => if g.isConstructor then .bool (g.name = c) else t
    | _ => t
  | .builtin _ =>
    match f.name, args with
    | "and", _ =>
      if args.contains .ff then .ff
      else match args.filter (· ≠ .tt) with
        | [] => .tt
        | [a] => a
        | as => .app f as
    | "or", _ =>
      if args.contains .tt then .tt
      else match args.filter (· ≠ .ff) with
        | [] => .ff
        | [a] => a
        | as => .app f as
    | "not", [a] =>
      match a.bool?, a with
      | some b, _ => .bool (!b)
      | none, .app g [b] => if g = .not then b else t
      | none, _ => t
    | "=>", [a, b] =>
      if a = .ff || b = .tt then .tt else if a = .tt then b else t
    | "xor", [a, b] =>
      match a.bool?, b.bool? with
      | some x, some y => .bool (x != y)
      | _, _ => t
    | "=", [a, b] => ((equal? a b).map Term.bool).getD t
    | "distinct", [a, b] => ((equal? a b).map fun e => Term.bool (!e)).getD t
    | "if", [c, a, b] => if c = .tt then a else if c = .ff then b else if a = b then a else t
    | "+", _ | "*", _ => collectNumbers f args
    | "select", [a, i] =>
      match a with
      | .app g [v] => if g.isOp "const" then v else t
      | .app g [b, j, v] =>
        if g.isOp "store" then
          match equal? i j with
          | some true => v
          | some false =>
            match b with
            | .app h [u] => if h.isOp "const" then u else .app f [b, i]
            | _ => .app f [b, i]
          | none => t
        else t
      | _ => t
    | _, _ => (fold? f args).getD t
  | _ => t

/-- Simplifies from the inside out; an applied lambda is opened and simplified again. -/
def simplifyWith : Nat → Term → Term
  | 0, t => t
  | fuel + 1, t =>
    match t with
    | .var .. => t
    | .bind k vars body => .bind k vars (simplifyWith fuel body)
    | .app f args =>
      let args := args.map (simplifyWith fuel)
      match f.isOp "select", args with
      | true, .bind .lambda _ body :: is =>
        simplifyWith fuel (Term.unbind is.reverse body)
      | _, _ =>
        match reduceHead f args with
        | .app g bs => if g.isOp "select" && (Term.app g bs) ≠ .app f args
            then simplifyWith fuel (.app g bs) else .app g bs
        | u => u

def simplify (t : Term) : Term := simplifyWith (20 * t.size + 200) t

end SortedLogic.Ground

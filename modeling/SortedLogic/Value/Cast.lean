import SortedLogic.Symbolic.Calculus
import SortedLogic.Value.Basic

/-!
# Values as terms

A plain value beside a term becomes a literal of the term's sort; two plain values become literals of their own kinds.
-/

namespace SortedLogic

namespace Text

def digitsValue (cs : List Char) : Nat := cs.foldl (fun n c => 10 * n + (c.toNat - 48)) 0

def rational? (s : String) : Option Rat :=
  let cs := s.toList.dropWhile (· = ' ')
  let (negative, cs) := match cs with
    | '-' :: rest => (true, rest)
    | _ => (false, cs)
  let whole := cs.takeWhile Char.isDigit
  let n : Rat := (digitsValue whole : Nat)
  let signed (q : Rat) : Rat := if negative then -q else q
  let power? : List Char → Option Rat
    | [] => some 1
    | e :: rest =>
      if e = 'e' || e = 'E' then
        let (down, ds) := match rest with
          | '-' :: ds => (true, ds)
          | '+' :: ds => (false, ds)
          | ds => (false, ds)
        if ds.isEmpty || !ds.all Char.isDigit then none
        else some (Binary64.tenTo (if down then -(digitsValue ds : Int) else digitsValue ds))
      else none
  match cs.dropWhile Char.isDigit with
  | '/' :: ds =>
    if ds.isEmpty || !ds.all Char.isDigit || digitsValue ds = 0 then none
    else some (signed (n / ((digitsValue ds : Nat) : Rat)))
  | '.' :: rest =>
    let ds := rest.takeWhile Char.isDigit
    (power? (rest.dropWhile Char.isDigit)).map fun p =>
      signed ((n + ((digitsValue ds : Nat) : Rat) / (Nat.pow 10 ds.length : Rat)) * p)
  | rest => (power? rest).map fun p => signed (n * p)

end Text

namespace Value

def asInt : Value → Checked Int
  | .bool b => .ok (if b then 1 else 0)
  | .int n => .ok n
  | .float x =>
    match Binary64.trunc? x with
    | some n => .ok n
    | none => if x.isNaN then .error (.invalid none) else .error .overflow
  | .text s => do
    let some q := Text.rational? s | illFormed
    if q.den = 1 then .ok q.num else illFormed
  | _ => illFormed

def asRat : Value → Checked Rat
  | .int n => .ok n
  | .ratio q => .ok q
  | .float x => do
    let some q := Text.rational? (Binary64.text x) | illFormed
    .ok q
  | .text s => do
    let some q := Text.rational? s | illFormed
    .ok q
  | _ => illFormed

def toSort (s : Srt) : Value → Checked Term
  | .term t => t.castTo s
  | v =>
    match s with
    | .int => .int <$> v.asInt
    | .real => .rat <$> v.asRat
    | .bitvec w => return .bits (← v.asInt) w
    | .bool =>
      match v with
      | .bool b => .ok (.bool b)
      | _ => illFormed
    | _ => illFormed

def toTerm : Value → Checked Term
  | .bool b => .ok (.bool b)
  | .int n => .ok (.int n)
  | v@(.float _) => .rat <$> v.asRat
  | .text s => .ok (.text s)
  | .term t => .ok t
  | _ => illFormed

def coerce (a b : Value) : Checked (Term × Term) :=
  match a, b with
  | .term t, .term u => t.coerce u
  | .term t, .text s => if t.sort.isSeq then t.coerce (.text s) else return (t, ← toSort t.sort (.text s))
  | .text s, .term u => if u.sort.isSeq then (Term.text s).coerce u else return (← toSort u.sort (.text s), u)
  | .term t, v => return (t, ← toSort t.sort v)
  | v, .term u => return (← toSort u.sort v, u)
  | _, _ => do (← a.toTerm).coerce (← b.toTerm)

def coerceAll (vs : List Value) : Checked (List Term) :=
  match vs.filterMap term? with
  | [] => do Term.coerceAll (← vs.mapM toTerm)
  | t :: ts => do
    let s ← ts.foldlM (fun s u => Term.joinSorts s u.sort) t.sort
    vs.mapM (toSort s)

def conjunction (vs : List Value) : Checked Term := do Term.opAll .and .bool (← coerceAll vs)
def disjunction (vs : List Value) : Checked Term := do Term.opAll .or .bool (← coerceAll vs)
def implication (a b : Value) : Checked Term := do (← toSort .bool a).implies (← toSort .bool b)

def choice (c a b : Value) : Checked Term := do
  let c ← toSort .bool c
  let (a, b) ← coerce a b
  c.ite a b

/-- Applies a symbol to values; a single list holds all the arguments. -/
def applySymbol (f : Symbol) (args : List Value) : Checked Term := do
  let args := match args with
    | [.list xs] | [.tuple xs] => xs
    | _ => args
  if args.length ≠ f.arity then illFormed
  f.apply (← (f.domain.zip args).mapM fun (s, v) => toSort s v)

/-! ## Symbolic values -/

def toSymbolic? : Value → Option Symbolic
  | .symbolic e => some e
  | .int n => some (.number n)
  | .ratio q => some (.number q)
  | .bool b => some (.truth b)
  | _ => none

def toSymbolic (v : Value) : Checked Symbolic := do
  let some e := v.toSymbolic? | throw (.invalid none)
  .ok e

def eitherSymbolic : Value → Value → Bool
  | .symbolic _, _ => true
  | _, .symbolic _ => true
  | _, _ => false

def relateSymbolic (sign : String) (holds : Ordering → Bool) (a b : Symbolic) : Value :=
  match Symbolic.sub a b with
  | .number q => .symbolic (.truth (holds (Symbolic.compareRats q 0)))
  | _ => .symbolic (.comparison sign a b)

def equateSymbolic (a b : Symbolic) : Symbolic :=
  match Symbolic.sub a b with
  | .number q => .truth (q = 0)
  | _ => .equation a b

end Value

def Symbolic.Operation.run (op : Symbolic.Operation) (args : List Value) : Checked Value := do
  match op, ← args.mapM Value.toSymbolic with
  | .function f, [x] => return .symbolic (Symbolic.applyFunction f x)
  | .equal, [a, b] => return .symbolic (Value.equateSymbolic a b)
  | _, _ => wrongKind

/-- Carries out an operation of calculus on a function, which is given at a symbol, with its bounds. -/
def Symbolic.Operation.runAt (op : Symbolic.Operation) (x : String) (body : Value) (bounds : List Value) :
    Checked Value := do
  let e ← body.toSymbolic
  match op, ← bounds.mapM Value.toSymbolic with
  | .derivative, [] => return .symbolic (.lambda [x] (Symbolic.unevaluatedDerivative x e))
  | .integral, [a, b] => do
    let some F := Symbolic.antiderivative? x e | throw (.unsupported none)
    return .symbolic (Symbolic.sub (Symbolic.substitute [(x, b)] F) (Symbolic.substitute [(x, a)] F))
  | .summation, [a, b] => do
    let some s := Symbolic.summation? x a b e | throw (.unsupported none)
    return .symbolic s
  | _, _ => wrongKind

end SortedLogic

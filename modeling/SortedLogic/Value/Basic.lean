import SortedLogic.Datatype
import SortedLogic.Number
import SortedLogic.Proof
import SortedLogic.Symbolic.Basic

/-!
# Numbers of three kinds

Integers, fractions and numbers of 64 bits. An operation on two kinds is done in the wider one.
-/

namespace SortedLogic

inductive Number where
  | int (n : Int)
  | ratio (q : Rat)
  | float (x : Float)

namespace Number

def toFloat : Number → Checked Float
  | .int n => do
    let some x := Binary64.ofInt? n | throw .overflow
    .ok x
  | .ratio q => do
    let some x := Binary64.ofRat? q | throw .overflow
    .ok x
  | .float x => .ok x

def rat? : Number → Option Rat
  | .int n => some n
  | .ratio q => some q
  | .float _ => none

def isZero : Number → Bool
  | .int n => n = 0
  | .ratio q => q = 0
  | .float x => x == 0

def lift (onInt : Int → Int → Int) (onRat : Rat → Rat → Rat) (onFloat : Float → Float → Float) (a b : Number) : Checked Number :=
  match a, b with
  | .int m, .int n => .ok (.int (onInt m n))
  | _, _ =>
    match a.rat?, b.rat? with
    | some p, some q => .ok (.ratio (onRat p q))
    | _, _ => do return .float (onFloat (← a.toFloat) (← b.toFloat))

def add : Number → Number → Checked Number := lift (· + ·) (· + ·) (· + ·)
def sub : Number → Number → Checked Number := lift (· - ·) (· - ·) (· - ·)
def mul : Number → Number → Checked Number := lift (· * ·) (· * ·) (· * ·)

def neg : Number → Number
  | .int n => .int (-n)
  | .ratio q => .ratio (-q)
  | .float x => .float (-x)

def div (a b : Number) : Checked Number :=
  if b.isZero then .error .divisionByZero
  else match a, b with
    | .int m, .int n => do
      let some x := Binary64.ofRat? (mkRat m 1 / mkRat n 1) | throw .overflow
      .ok (.float x)
    | _, _ =>
      match a.rat?, b.rat? with
      | some p, some q => .ok (.ratio (p / q))
      | _, _ => do return .float ((← a.toFloat) / (← b.toFloat))

def floorDiv (a b : Number) : Checked Number :=
  if b.isZero then .error .divisionByZero
  else match a, b with
    | .int m, .int n => .ok (.int (m.fdiv n))
    | _, _ =>
      match a.rat?, b.rat? with
      | some p, some q => .ok (.int (p / q).floor)
      | _, _ => do return .float ((← a.toFloat) / (← b.toFloat)).floor

def mod (a b : Number) : Checked Number :=
  if b.isZero then .error .divisionByZero
  else match a, b with
    | .int m, .int n => .ok (.int (m.fmod n))
    | _, _ =>
      match a.rat?, b.rat? with
      | some p, some q => .ok (.ratio (p - q * ((p / q).floor : Int)))
      | _, _ => do
        let x ← a.toFloat
        let y ← b.toFloat
        return .float (x - y * (x / y).floor)

def floatPow (x y : Float) : Checked Number :=
  if x == 0 && y < 0 then .error .divisionByZero
  else if x < 0 && y.floor != y then wrongKind
  else
    let r := Float.pow x y
    if r.isInf && !x.isInf && !y.isInf then .error .overflow else .ok (.float r)

def ratPow (q : Rat) (n : Int) : Checked Number :=
  if 0 ≤ n then .ok (.ratio (Rat.pow q n.toNat))
  else if q = 0 then .error .divisionByZero
  else .ok (.ratio (Rat.pow (1 / q) n.natAbs))

def pow (a b : Number) : Checked Number :=
  match a, b with
  | .int m, .int n =>
    if 0 ≤ n then .ok (.int (Int.pow m n.toNat))
    else do floatPow (← a.toFloat) (← b.toFloat)
  | _, _ =>
    match a.rat?, b.rat? with
    | some p, some q =>
      if q.den = 1 then
        match a with
        | .int m => if 0 ≤ q.num then .ok (.int (Int.pow m q.num.toNat)) else ratPow p q.num
        | _ => ratPow p q.num
      else do floatPow (← a.toFloat) (← b.toFloat)
    | _, _ => do floatPow (← a.toFloat) (← b.toFloat)

def compare? (a b : Number) : Option Ordering :=
  let exact (p q : Rat) : Ordering := if p < q then .lt else if p = q then .eq else .gt
  match a.rat?, b.rat? with
  | some p, some q => some (exact p q)
  | some p, none => floats p b false
  | none, some q => (floats q a true)
  | none, none =>
    match a, b with
    | .float x, .float y => if x < y then some .lt else if x == y then some .eq else if x > y then some .gt else none
    | _, _ => none
where
  floats (p : Rat) (y : Number) (swapped : Bool) : Option Ordering :=
    match y with
    | .float y =>
      if y.isNaN then none
      else
        let o : Ordering := if y.isInf then (if y > 0 then .lt else .gt)
          else
            let q := Binary64.toRat y
            if p < q then .lt else if p = q then .eq else .gt
        some (if swapped then o.swap else o)
    | _ => none

end Number

/-! ## Values -/

inductive Symbolic.Operation where
  | function (name : String)
  | equal | derivative | integral | summation
  deriving DecidableEq

inductive Value where
  | null
  | bool (b : Bool)
  | int (n : Int)
  | ratio (q : Rat)
  | float (x : Float)
  | text (s : String)
  | list (xs : List Value)
  | tuple (xs : List Value)
  | term (t : Term)
  | symbol (f : Symbol)
  | sort (s : Srt)
  | proof (p : Proof)
  /-- A value of a datatype: the constructor with the names and values of its fields. -/
  | record (constructor : String) (fields : List (String × Value))
  /-- A lambda in an environment; if it is `lenient`, terms without a value stand for themselves. -/
  | closure (lam : Term) (globals locals : List (String × Value)) (lenient : Bool)
  | constant (v : Value)
  | symbolic (e : Symbolic)
  | calculation (op : Symbolic.Operation)
  | table (entries : List (Value × Value))
  /-- A function of a theory, by name, with the arguments that it already has. -/
  | native (name : String) (given : List Value)
  /-- An operation that the sort of its first argument chooses. -/
  | overloaded (name : String)
  /-- Something that is known by its kind, and the datatype that it makes. -/
  | object (kind : String) (plan : Option Datatype)
  | structureClass (name : String)
  | member (cls : String) (parts : List (String × Value))

namespace Value

def ofNumber : Number → Value
  | .int n => .int n
  | .ratio q => .ratio q
  | .float x => .float x

def number? : Value → Option Number
  | .bool b => some (.int (if b then 1 else 0))
  | .int n => some (.int n)
  | .ratio q => some (.ratio q)
  | .float x => some (.float x)
  | _ => none

def int? : Value → Option Int
  | .bool b => some (if b then 1 else 0)
  | .int n => some n
  | _ => none

def term? : Value → Option Term
  | .term t => some t
  | _ => none

def isTerm (v : Value) : Bool := v.term?.isSome

def row? : Value → Option (List Value)
  | .tuple xs => some xs
  | .record _ fields => some (fields.map (·.2))
  | _ => none

end Value
end SortedLogic

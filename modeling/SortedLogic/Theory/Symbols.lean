import SortedLogic.Reflect
import SortedLogic.Symbolic.Series
import SortedLogic.Symbolic.Simplify
import SortedLogic.Symbolic.Solve
import SortedLogic.Theory.Evaluate

/-!
# Symbolic algebra on terms

A term over the reals is read as a symbolic expression, which is worked on and read back from left to right.
-/

namespace SortedLogic.Theory.Symbols
open Symbolic (antiderivative? expand factor limit? neg one pow powerOf product simplify solve? sub sumOf termsAt)
open Vocabulary (anInt call1 call2 call3)

/-! ## From terms -/

def symbolNames : List String :=
  ("abcdefghijklmnopqrstuvwxyzABCDEFGHIJKLMNOPQRSTUVWXYZ".toList.map fun c => String.singleton c) ++
  ["alpha", "beta", "gamma", "delta", "epsilon", "zeta", "eta", "theta", "iota", "kappa", "lamda", "mu", "nu", "xi",
   "omicron", "pi", "rho", "sigma", "tau", "upsilon", "phi", "chi", "psi", "omega"]

def functionNames : List (String × String) :=
  [("sin", "sin"), ("cos", "cos"), ("tan", "tan"), ("exp", "exp"), ("ln", "log"), ("log", "log"), ("acos", "acos"),
   ("asin", "asin"), ("atan", "atan")]

def meanings : List (String × Value) :=
  [("=", .calculation .equal), ("deriv", .calculation .derivative), ("integrate", .calculation .integral),
   ("summation", .calculation .summation)] ++
  (functionNames.map fun (x, f) => (x, .calculation (.function f))) ++ symbolNames.map fun x => (x, .symbolic (.symbol x))

def readFrom : Nat → List (String × Value) → Term → Session Value
  | 0, _, _ => tooDeep
  | fuel + 1, locals, t => do
    match ← Reflect.eval ⟨meanings, false⟩ locals t with
    | .closure lam _ _ _ =>
      let (xs, body) ← lam.openFresh
      let names := xs.map fun x => ((x.bindingName?).map (·.1)).getD ""
      let own := names.map fun x => (x, Value.symbolic (.symbol (Reflect.symbolName x)))
      let body ← readFrom fuel (own ++ locals) body
      return .symbolic (.lambda (names.map Reflect.symbolName) (← body.toSymbolic))
    | v => return v

def readTerm (t : Term) : Session Value := readFrom 50 [] t

def read : Value → Session Value
  | .term t => readTerm t
  | _ => invalid "Cannot evaluate"

def readExpression (v : Value) : Session Symbolic := do (← read v).toSymbolic

/-! ## Back to terms -/

/-- Fractions become a function of their parts, the base of the logarithm a symbol, and functions of symbols have names. -/
def spelled : Symbolic → Symbolic
  | .number q => if q.den = 1 then .number q else .apply "RatVal" [.number (q.num : Rat), .number (q.den : Rat)]
  | .euler => .symbol "e"
  | .lambda vs b => .apply "KD_Lambda" [.apply "" (vs.map .symbol), spelled b]
  | .sum ts => sumOf (ts.map spelled)
  | .product fs => Symbolic.productOf (fs.map spelled)
  | .power b e => pow (spelled b) (spelled e)
  | .apply f xs => Symbolic.applyAll f (xs.map spelled)
  | .equation a b => .equation (spelled a) (spelled b)
  | .comparison s a b => .comparison s (spelled a) (spelled b)
  | e => e

def aboveAndBelow (fs : List Symbolic) : List Symbolic × List Symbolic :=
  let split := fs.map fun f =>
    match f with
    | .power b (.number q) => if q < 0 then (none, some (powerOf b (.number (-q)))) else (some f, none)
    | f => (some f, none)
  (split.filterMap (·.1), split.filterMap (·.2))

def relationOf : String → Relation
  | "<" => .lt
  | "<=" => .le
  | ">" => .gt
  | ">=" => .ge
  | _ => .eq

def valueAt (call : Call) : Nat → Symbolic → Session Value
  | 0, _ => tooDeep
  | n + 1, e =>
    match e with
    | .number q => return .int q.num
    | .symbol x => return .term (.const x .real)
    | .circleRatio => theoryName "real" "pi"
    | .infinity => return .float (1 / 0)
    | .negativeInfinity => return .float (-1 / 0)
    | .unsignedInfinity | .undefined => return .float (0 / 0)
    | .truth b => return .bool b
    | .apply "RatVal" [.number p, .number q] => return .term (.rat (p / q))
    | .apply "KD_Lambda" [.apply "" vs, body] => do
      let xs := vs.filterMap fun
        | .symbol x => some (Term.const x .real)
        | _ => none
      let body ← valueAt call n body
      return .term (← (← body.toTerm).lambda xs)
    | .apply "Order" [u] => do
      return .term (← Value.applySymbol ⟨"Order", [.real], .real, .free⟩ [← valueAt call n u])
    | .apply f [u] => do
      let u ← valueAt call n u
      if f = "log" then throw (.unbound f)
      call (← theoryName "real" f) [u] []
    | .power b x => do operator call .pow (← valueAt call n b) (← valueAt call n x)
    | .product fs => do
      let (c, _) := (product fs).factors
      let (above, below) := aboveAndBelow (product fs).orderedFactors
      let size := if c < 0 then -c else c
      let above := if size = 1 then above else .number size :: above
      let above := if above.isEmpty then [one] else above
      let values ← above.mapM (valueAt call n)
      let values ← match values with
        | v :: vs => do if c < 0 then pure ((← negate call v) :: vs) else pure (v :: vs)
        | [] => pure []
      let top ← joined .mul values
      match below with
      | [] => return top
      | bs => operator call .div top (← joined .mul (← bs.mapM (valueAt call n)))
    | .sum ts => do
      match termsAt (Symbolic.sum ts).depth ts with
      | [] => return .int 0
      | t :: rest =>
        let first ← valueAt call n t
        rest.foldlM (fun acc t => do
          if t.isNegative then operator call .sub acc (← valueAt call n (neg t))
          else operator call .add acc (← valueAt call n t)) first
    | .equation a b => do relate call .eq (← valueAt call n a) (← valueAt call n b)
    | .comparison s a b => do relate call (relationOf s) (← valueAt call n a) (← valueAt call n b)
    | _ => throw (.unsupported none)
where
  joined (op : Value.Op) : List Value → Session Value
    | [] => return .int 1
    | v :: vs => vs.foldlM (operator call op) v

variable (call : Call)

def written (e : Symbolic) : Session Value :=
  let e := spelled e
  valueAt call e.depth e

def found {α : Type} : Option α → Session α
  | some a => return a
  | none => throw (.unsupported none)

/-! ## Arguments -/

/-- Numbers and texts stay, terms are read, tuples are gone through, and anything else is left out. -/
def readArguments : Nat → List Value → Session (List Value)
  | 0, _ => tooDeep
  | fuel + 1, vs => do
    let parts ← vs.mapM fun v => do
      match v with
      | .int _ | .bool _ | .text _ | .float _ => return [v]
      | .term t => return [← readTerm t]
      | .tuple xs => return [.tuple (← readArguments fuel xs)]
      | _ => return []
    return parts.flatten

def symbolOf : Value → Session String
  | .symbolic (.symbol x) => return x
  | .text x => return x
  | _ => throw (.invalid none)

def flatten : Nat → List Value → List Value
  | 0, _ => []
  | fuel + 1, vs => vs.flatMap fun v =>
    match v with
    | .tuple xs | .list xs => flatten fuel xs
    | v => [v]

def derivativeCounts : List Value → Session (List (String × Nat))
  | [] => return []
  | .tuple [v, .int k] :: rest => do return (← symbolOf v, k.toNat) :: (← derivativeCounts rest)
  | v :: .int k :: rest => do return (← symbolOf v, k.toNat) :: (← derivativeCounts rest)
  | v :: rest => do return (← symbolOf v, 1) :: (← derivativeCounts rest)

def onlySymbol (e : Symbolic) : Session String := do
  let [x] := e.symbols | throw (.invalid none)
  return x

def constantName : Value → Session String
  | .term (.app f []) => return f.name
  | .term (.app f _) => return f.name
  | _ => noField

/-! ## Operations -/

def differentiate (v : Value) (args : List Value) : Session Value := do
  let e ← readExpression v
  let args ← readArguments 10 args
  let counts ← if args.isEmpty then pure [(← onlySymbol e, 1)] else derivativeCounts args
  let d := counts.foldl (fun e (x, k) => (List.range k).foldl (fun e _ => Symbolic.derivative x e) e) e
  written call d

def valueOrLimit (x : String) (place F : Symbolic) : Session Symbolic :=
  if place.isInfinite then found (limit? x place F) else return Symbolic.substitute [(x, place)] F

def integrate (v : Value) (args : List Value) : Session Value := do
  let e ← readExpression v
  match flatten 10 (← readArguments 10 args) with
  | [x] => do
    written call (← found (antiderivative? (← symbolOf x) e))
  | [x, a] => do
    let x ← symbolOf x
    let F ← found (antiderivative? x e)
    written call (← valueOrLimit x (← a.toSymbolic) F)
  | [x, a, b] => do
    let x ← symbolOf x
    let F ← found (antiderivative? x e)
    let upper ← valueOrLimit x (← b.toSymbolic) F
    written call (sub upper (← valueOrLimit x (← a.toSymbolic) F))
  | _ => throw (.invalid none)

def sum (v : Value) (args : List Value) : Session Value := do
  let e ← readExpression v
  let args ← readArguments 10 args
  let s ← args.foldlM (fun e a => do
    match a with
    | .tuple [x, a, b] => do
      found (Symbolic.summation? (← symbolOf x) (← a.toSymbolic) (← b.toSymbolic) e)
    | _ => throw (.invalid none)) e
  written call s

def argument (args : List Value) (named : Named) (i : Nat) (name : String) (default : Value) : Value :=
  match args[i]? with
  | some v => v
  | none => ((named.find? (·.1 = name)).map (·.2)).getD default

def series (args : List Value) (named : Named) : Session Value := do
  let e ← readExpression (argument args named 0 "e" .null)
  let x ← match argument args named 1 "x" .null with
    | .null => onlySymbol e
    | v => constantName v
  let place ← (argument args named 2 "x0" (.int 0)).toSymbolic
  let n ← anInt (argument args named 3 "n" (.int 6))
  written call (← found (Symbolic.seriesAt? x place n.toNat e))

def limit (call : Call) (v x place : Value) : Session Value := do
  let x ← constantName x
  let e ← readExpression v
  written call (← found (limit? x (← place.toSymbolic) e))

def equationOf : Value → Session (Option Symbolic)
  | .symbolic (.equation a b) => return some (sub a b)
  | .symbolic (.truth true) => return none
  | .symbolic (.truth false) => return some one
  | v => some <$> v.toSymbolic

def solve (call : Call) (constraints unknowns : Value) : Session Value := do
  match constraints, unknowns with
  | .list cs, .list vs =>
    let es ← cs.mapM fun c => do equationOf (← read c)
    let xs ← vs.mapM fun v => do symbolOf (← read v)
    let solutions ← found (solve? xs (es.filterMap id))
    return .list (← solutions.mapM fun s => do
      return .table (← s.mapM fun (x, e) => do
        return (← written call (.symbol x), ← written call e)))
  | _, _ => violated

def simplified (v : Value) : Session Value := do
  let e ← readExpression v
  match ← relate call .eq v (← written call (simplify e)) with
  | .term t => return .proof (.byAxiom t)
  | _ => violated

def onExpressions (f : Symbolic → Symbolic) : Native := call1 fun call v => do written call (f (← readExpression v))

def natives : Natives := [
  ("real.symbolic.read", call1 fun _ v => read v),
  ("real.symbolic.write", fun call args _ =>
    match args with
    | [.symbolic e] => written call e
    | [.term _] => illFormed
    | [_] => noField
    | _ => wrongKind),
  ("real.symbolic.spell", fun _ args _ =>
    match args with
    | [.symbolic e] => return .symbolic (spelled e)
    | [.term _] => illFormed
    | [_] => noField
    | _ => wrongKind),
  ("real.symbolic.fresh", fun _ args _ =>
    match args with
    | [] => do return .symbolic (.symbol (← Reflect.newSymbol))
    | _ => wrongKind),
  ("real.symbolic.expand", onExpressions expand),
  ("real.symbolic.factor", onExpressions factor),
  ("real.symbolic.simplify", onExpressions simplify),
  ("real.symbolic.simp", call1 fun call v => simplified call v),
  ("real.symbolic.arguments", fun _ args _ =>
    match args with
    | [.list vs] | [.tuple vs] => .tuple <$> readArguments 10 vs
    | _ => wrongKind),
  ("real.symbolic.diff", fun call args _ =>
    match args with
    | v :: rest => differentiate call v rest
    | [] => wrongKind),
  ("real.symbolic.integrate", fun call args _ =>
    match args with
    | v :: rest => integrate call v rest
    | [] => wrongKind),
  ("real.symbolic.sum", fun call args _ =>
    match args with
    | v :: rest => sum call v rest
    | [] => wrongKind),
  ("real.symbolic.series", series),
  ("real.symbolic.limit", call3 fun call v x place => limit call v x place),
  ("real.symbolic.solve", call2 fun call cs vs => solve call cs vs)]

def symbolicAlgebra : String := "
function read write spell fresh expand factor simplify simp arguments diff integrate sum series limit solve
"

end SortedLogic.Theory.Symbols

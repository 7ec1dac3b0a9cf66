import SortedLogic.Theory.Bounds

/-!
# Functions of the modal theories

Operations on values are lifted to signals, functions of time.
-/

namespace SortedLogic.Theory.Signals
open Vocabulary

/-! ## Worlds -/

def worldly (params : List String) (body : String) : Native := fun call args _ => do
  if args.length ≠ params.length then wrongKind
  evalText call "logic.intuitionistic" (params.zip args) body

def pointwise (join : List Value → Checked Term) : Native := fun call args _ => do
  let here ← args.mapM fun p => evalText call "logic.intuitionistic" [("p", p)] "p.val[w]"
  let body ← join here
  evalText call "logic.intuitionistic" [("body", .term body)] "Prop(fun w: body)"

variable (call : Call)

def growing (s : Srt) : Session Value := do
  let set ← aSort (← call (.native "set.Set" []) [.sort s] [])
  let world ← aSort (← theoryName "logic.intuitionistic" "World")
  let d ← Datatype.declareRecord ("I_" ++ s.render) [("val", .array [world] set)]
  let x := Term.const "x" d.sort
  let condition ← termText call "logic.intuitionistic" [("x", .term x)]
    "every w u where acc(w, u): x.val[w] <= x.val[u]"
  Datatype.registerWellFormed d (some (x, condition))
  return .sort d.sort

/-! ## Time -/

def theory : String := "logic.temporal"

def signalsOver (s : Srt) : Session Srt := do
  aSort (← call (.native "logic.temporal.TSort" []) [.sort s] [])

def signalMethods : List (String × String) :=
  [("sub", "signal.sub"), ("mul", "signal.mul"), ("div_", "signal.div"), ("and_", "signal.and"), ("or_", "signal.or"),
   ("invert", "logic.temporal.Not"), ("eq", "logic.temporal.Eq"), ("ne", "logic.temporal.NEq"),
   ("getitem", "signal.at")]

def signalSort (s : Srt) : Session Value := do
  let d ← newWrapper ("T_" ++ s.name) "val" (.array [.int] s)
  if ((← theWorld).method? "add" s).isSome then
    let _ ← runLocal call theory [("S", .sort d.sort), ("I", .sort .int)] "
let x y: S
let t: I
overload add (x, y) := S(fun t: x.val[t] + y.val[t])
"
  for (op, name) in signalMethods do
    changeWorld (·.register op d.sort (.native name))
  return .sort d.sort

def newTime : Session Named := do
  return [("t", .term (← (liftM (freshConst "t" .int) : Session Term)))]

def atNewTime (locals : Named) (body : String) : Session Value := do
  evalText call theory (locals ++ (← newTime)) body

def constant (v : Value) : Session Value := do
  let t ← v.toTerm
  let s ← signalsOver call t.sort
  call (.sort s) [.term (Builtin.constArray .int t)] []

def truthSignal (v : Value) : Session Unit := do
  let tb ← aSort (← theoryName theory "TBool")
  if (← aTerm v).sort ≠ tb then violated

def liftTwo (s : Srt) (op : Value → Value → Session Value) (x y : Value) : Session Value := do
  if (← aTerm x).sort ≠ s then violated
  let y' ← y.toTerm
  let y ← if y'.sort = s then pure (Value.term y') else constant call (.term y')
  if (← aTerm y).sort ≠ s then wrongKind
  let t ← (liftM (freshConst "t" .int) : Session Term)
  let a ← evalText call theory [("x", x), ("t", .term t)] "x.val[t]"
  let b ← evalText call theory [("x", y), ("t", .term t)] "x.val[t]"
  let body ← (← op a b).toTerm
  call (.sort s) [.term (← body.lambda [t])] []

def liftOperator (op : Value.Op) : Native := call2 fun call x y => do
  liftTwo call (← aTerm x).sort (operator call op) x y

def junction (op : Value.Op) (empty : Bool) : Native := fun call args _ => do
  args.forM truthSignal
  match args with
  | [] => constant call (.term (.bool empty))
  | p :: ps => ps.foldlM (operator call op) p

def fromNowOn (x : Value) (body : String) : Session Value := do
  let t ← (liftM (freshConst "t" .int) : Session Term)
  let dt ← (liftM (freshConst "dt" .int) : Session Term)
  evalText call theory [("x", x), ("t", .term t), ("dt", .term dt), ("S", .sort (← aTerm x).sort)] body

def given? (name : String) (rest : List Value) (named : Named) : Option Value :=
  match rest, named.find? (·.1 = name) with
  | v :: _, _ => some v
  | [], some (_, v) => some v
  | [], none => none

def always : Native := fun call args named => do
  match args with
  | x :: rest =>
    truthSignal x
    let x ← match given? "vs" rest named with
      | none | some .null => pure x
      | some (.list vs) =>
        let same ← vs.mapM fun v => call (.native "logic.temporal.UNCHANGED" []) [v] []
        let all ← call (.native "logic.temporal.And" []) same []
        call (.native "logic.temporal.Or" []) [x, all] []
      | some _ => wrongKind
    fromNowOn call x "S(fun t: (every dt where dt >= 0: x.val[t + dt]))"
  | [] => wrongKind

def constantsOf (sort : String) (xs : List String) : Session (List Value) := do
  let s ← aSort (← theoryName theory sort)
  xs.mapM fun x => return .term (.const (← Text.checkName x) s)

def named1 (sort : String) : Native := fun _ args _ => do
  let [.text x] := args | wrongKind
  let [v] := ← constantsOf sort [x] | wrongKind
  return v

def namedMany (sort : String) : Native := fun _ args _ => do
  let [.text xs] := args | wrongKind
  .list <$> constantsOf sort (xs.splitOn " ")

def timed (params : List String) (body : String) : Native := fun call args _ => do
  if args.length ≠ params.length then wrongKind
  atNewTime call (params.zip args) body

def next : Native := call1 fun call x => do
  atNewTime call [("x", x), ("S", .sort (← aTerm x).sort)] "S(fun t: x.val[t + 1])"

def eventually : Native := call1 fun call x => do
  truthSignal x
  fromNowOn call x "S(fun t: (exists dt where dt >= 0: x.val[t + dt]))"

def choose : Native := call3 fun call c x y => do
  let s := (← aTerm x).sort
  if s ≠ (← aTerm y).sort then violated
  truthSignal c
  atNewTime call [("c", c), ("x", x), ("y", y), ("S", .sort s)] "S(fun t: if(c.val[t], x.val[t], y.val[t]))"

def natives : Natives := [
  ("logic.intuitionistic.And", pointwise Value.conjunction),
  ("logic.intuitionistic.Or", pointwise Value.disjunction),
  ("logic.intuitionistic.Implies", worldly ["p", "q"] "Prop(fun w: (every u where acc(w, u): p.val[u] => q.val[u]))"),
  ("logic.intuitionistic.Not", worldly ["p"] "Implies(p, FALSE)"),
  ("logic.intuitionistic.Valid", worldly ["p"] "forall w: p.val[w]"),
  ("logic.intuitionistic.Sort", onceForSort "logic.intuitionistic.Sort" growing),
  ("logic.intuitionistic.Const", fun _ args _ =>
    if args.length = 2 then throw (.unsupported none) else wrongKind),
  ("logic.temporal.lift_unop", fun _ args _ =>
    if args.length = 2 then return .native "signal.one" args else wrongKind),
  ("logic.temporal.lift_binop", fun _ args _ =>
    if args.length = 2 then return .native "signal.two" args else wrongKind),
  ("signal.one", call3 fun call s op x => do atNewTime call [("S", s), ("op", op), ("x", x)] "S(fun t: op(x.val))"),
  ("signal.two", fun call args _ => do
    match args with
    | [s, op, x, y] => liftTwo call (← aSort s) (fun a b => call op [a, b] []) x y
    | _ => wrongKind),
  ("signal.sub", liftOperator .sub),
  ("signal.mul", liftOperator .mul),
  ("signal.div", liftOperator .div),
  ("signal.and", liftOperator .bitAnd),
  ("signal.or", liftOperator .bitOr),
  ("signal.at", call2 fun call x t => do index call (← part x "val") t),
  ("logic.temporal.Not", timed ["x"] "TBool(fun t: not x.val[t])"),
  ("logic.temporal.Eq", timed ["x", "y"] "TBool(fun t: x.val[t] = y.val[t])"),
  ("logic.temporal.NEq", timed ["x", "y"] "TBool(fun t: x.val[t] != y.val[t])"),
  ("logic.temporal.TSort", onceForSort "logic.temporal.TSort" signalSort),
  ("logic.temporal.is_T", pure1 fun x => do return .bool ((← aTerm x).sort.name.startsWith "T_")),
  ("logic.temporal.Bool", named1 "TBool"),
  ("logic.temporal.Bools", namedMany "TBool"),
  ("logic.temporal.Int", named1 "TInt"),
  ("logic.temporal.Ints", namedMany "TInt"),
  ("logic.temporal.TLift", call1 fun call v => constant call v),
  ("logic.temporal.And", junction .bitAnd true),
  ("logic.temporal.Or", junction .bitOr false),
  ("logic.temporal.Next", next),
  ("logic.temporal.X", next),
  ("logic.temporal.Always", always),
  ("logic.temporal.G", always),
  ("logic.temporal.Eventually", eventually),
  ("logic.temporal.F", eventually),
  ("logic.temporal.If", choose),
  ("logic.temporal.Implies", call2 fun call x y => do
    liftTwo call (← aTerm x).sort (fun a b => do return .term (← Value.implication a b)) x y),
  ("logic.temporal.UNCHANGED", call1 fun call p => evalText call theory [("p", p)] "Eq(Next(p), p)"),
  ("logic.temporal.Valid", call1 fun call p => evalText call theory [("p", p)] "p.val[0]")]

end SortedLogic.Theory.Signals

import SortedLogic.Theory.Evaluate

/-!
# Constructions

Functions that build a sort with its facts, once for the same arguments.
-/

namespace SortedLogic.Theory
open Vocabulary

def Index.of? : Value → Option Index
  | .sort s => some (.sort s)
  | .int n => some (.number n)
  | .bool b => some (.number (if b then 1 else 0))
  | _ => none

variable (name : String)

def once (run : Call → List Value → Session Value) : Native := fun call args _ => do
  match args.mapM Index.of? with
  | none => run call args
  | some key =>
    match (← theWorld).construction? name key with
    | some v => return v
    | none =>
      let v ← run call args
      changeWorld fun w => { w with constructions := (name, key, v) :: w.constructions }
      return v

def onceForSort (run : Call → Srt → Session Value) : Native :=
  once name fun call args =>
    match args with
    | [.sort s] => run call s
    | [_] => noField
    | _ => wrongKind

def onceForNumber (run : Call → Int → Session Value) : Native :=
  once name fun call args => do
    let [v] := args | wrongKind
    let some n := v.int? | wrongKind
    run call n

def newDatatype (cons : Srt → List (String × Vars)) : Session Datatype := do
  let name ← Text.checkName (Kernel.datatypeName (← theWorld) name)
  let d := Datatype.make name (cons (.datatype name))
  Kernel.declare d
  return d

def newWrapper (name field : String) (s : Srt) : Session Datatype := do
  let d ← Datatype.declareRecord name [(field, s)]
  Datatype.registerWellFormed d none
  return d

def constructorOf (s : Srt) (c : String) : Session Symbol := do
  match ((← theWorld).datatype? s).bind (·.constructor? c) with
  | some k => return k.symbol
  | none => noField

def predicate (w : World) (P : Value) (t : Term) : Checked Term := do (← Value.callPlain w P [.term t]).toTerm

def predicateAt (w : World) (P : Value) (t : Term) : Checked Term := do (← Value.index w P (.term t)).toTerm

/-! ## Functions of the theory of real numbers -/

namespace Bounds

def sqrtUpper (w : World) (x : Value) : Nat → Checked Value
  | 0 => Value.operator w .add x (.int 1)
  | n + 1 => do
    let y ← sqrtUpper w x n
    let q ← Value.operator w .div x y
    Value.operator w .div (← Value.operator w .add y q) (.int 2)

def sqrtLower (w : World) (n : Nat) (x : Value) : Checked Value := do
  Value.operator w .div x (← sqrtUpper w x n)

def steps (v : Value) : Checked Nat :=
  match v with
  | .term _ => illFormed
  | v => do
    let n ← anInt v
    if n < 0 then violated else return n.toNat

/-- Sums, differences and products of reals become applications of defined symbols, to the first two arguments. -/
def abstractArith (sum difference product : Symbol) : Nat → Term → Checked Term
  | 0, _ => tooDeep
  | _, .var i s => .ok (.var i s)
  | fuel + 1, .app f args =>
    let binary (g : Symbol) : Checked Term := do
      let a :: b :: _ := args | illFormed
      let a ← abstractArith sum difference product fuel a
      g.apply [a, ← abstractArith sum difference product fuel b]
    if f = .builtin "+" [.real, .real] .real then binary sum
    else if f = .builtin "-" [.real, .real] .real then binary difference
    else if f = .builtin "*" [.real, .real] .real then binary product
    else do f.apply (← args.mapM (abstractArith sum difference product fuel))
  | _, .bind .. => failed "unimplemented case in abstract_arith"

def prove (facts : String → Session Value) (names : List String) : Native := fun _ args named => do
  let thm ← match args with
    | v :: _ => (liftM v.toTerm : Session Term)
    | [] => wrongKind
  let given := match args.drop 1, named.find? (·.1 = "by") with
    | v :: _, _ => some v
    | [], some (_, v) => some v
    | [], none => none
  let lists ← names.mapM facts
  let proofs := (given.toList ++ lists).flatMap fun v =>
    match v with
    | .list ps => ps.filterMap fun p => match p with | .proof p => some p | _ => none
    | _ => []
  .proof <$> Kernel.prove thm proofs

def natives : Natives := [
  ("real.rlemma", prove (theoryName "real") ["real_db", "real_simp"]),
  ("logic.zf.slemma", prove (theoryName "logic.zf") ["zf_db"]),
  ("real.abstract_arith", call1 fun _ t => do
    match ← theoryName "real" "add", ← theoryName "real" "sub", ← theoryName "real" "mul" with
    | .symbol a, .symbol s, .symbol m =>
      let t ← aTerm t
      .term <$> abstractArith a s m (t.size + 1) t
    | _, _, _ => wrongKind),
  ("real.sqrt_upper", call2 fun _ x n => do sqrtUpper (← theWorld) x (← steps n)),
  ("real.sqrt_lower", call2 fun _ n x => do sqrtLower (← theWorld) (← steps n) x),
  ("real.sqrt_bnd", call1 fun _ _ => illFormed),
  ("real.sin_lower", call2 fun call n x => do
    let k ← steps n
    let power ← operator call .pow x (.int k)
    index call power (.int 0))]

end Bounds

namespace Numbers

def scheme (build : World → Term → Value → Session Term) : Native := call2 fun _ x P => do
  return .proof (.byAxiom (← build (← theWorld) (← x.toTerm) P))

def natives : Natives := [
  ("int.induct_nat", scheme fun w x P => Induction.upward x (predicate w P)),
  ("int.induct_nat_strong", scheme fun w x P => Induction.upwardStrong x (predicate w P)),
  ("int.induct", scheme fun w x P => Induction.bothWays x (predicate w P) (predicateAt w P)),
  ("logic.peano.induct", call2 fun call y P => do
    let thm ← termText call "logic.peano" [("y", y), ("P", P)]
      "every y where P(zero) and (every x where P(x): P(succ(x))): P(y)"
    return .proof (.byAxiom thm))]

end Numbers
end SortedLogic.Theory

import SortedLogic.Datatype.Record
import SortedLogic.Rewrite.Unfold

/-!
# Samples of the values of a sort

For each sort a value for every number, so that small numbers give values of many shapes.
-/

namespace SortedLogic.Testing

def integers : List Int := [0, 1, -1, 2, 5, -3, 7, -12, 10, 100, -37, 4096]
def fractions : List Rat := [0, 1, -1, 1 / 2, -3 / 2, 2, 7 / 3, -10, 25, 1 / 100, 99 / 7, -5]
def texts : List String := ["", "a", "0", "ab", "zz", "hello", " ", "A1", "b", "aab", "x y", "0000"]

def pick {α : Type} [Inhabited α] (xs : List α) (n : Nat) : α := xs.getD (n % xs.length) default

def arrayOf (d r : Srt) (default : Term) (stores : List (Term × Term)) : Term :=
  stores.foldl (fun a (i, v) => .app (.builtin "store" [.array [d] r, d, r] (.array [d] r)) [a, i, v])
    (Builtin.constArray d default)

def emptySeq (s : Srt) : Term := .app (.builtin "seq.empty" [] (.seq s)) []
def unitSeq (t : Term) : Term := .app (.builtin "seq.unit" [t.sort] (.seq t.sort)) [t]
def joined (s : Srt) (ts : List Term) : Term :=
  match ts.map unitSeq with
  | [] => emptySeq s
  | u :: us => us.foldl (fun a b => .app (.builtin "seq.++" [.seq s, .seq s] (.seq s)) [a, b]) u

def isRecursive (datatypes : List Datatype) (d : Datatype) (c : Constructor) : Bool :=
  c.symbol.domain.any (Datatype.occurs datatypes d.sort)

/-- Constructors without arguments stand for themselves; the arguments of every other one are given to the last one of its
datatype. -/
def sample (datatypes : List Datatype) : Nat → Srt → Nat → Checked Term
  | 0, _, _ => tooDeep
  | fuel + 1, s, n =>
    match s with
    | .bool => .ok (.bool (n % 2 = 1))
    | .int => .ok (.int (pick integers n))
    | .real => .ok (.rat (pick fractions n))
    | .string => .ok (.text (pick texts n))
    | .array (d :: _) r => do
      let v ← sample datatypes fuel r n
      let stores ← (List.range (n % 3)).mapM fun i => do
        return (← sample datatypes fuel d (n + i), ← sample datatypes fuel r (n + i + 1))
      return arrayOf d r v stores
    | .seq e => do
      let ts ← (List.range (n % 4)).mapM fun i => sample datatypes fuel e (n + i)
      return joined e ts
    | .datatype _ =>
      match datatypes.find? (·.sort = s) with
      | none => unsupported "Don't know how to generate values for"
      | some d => do
        let (recursive, plain) := d.constructors.partition (isRecursive datatypes d)
        let small := fuel < 6 || n % 3 = 0 || recursive.isEmpty
        let c := if small && !plain.isEmpty then pick plain (n / 2) else pick (recursive ++ plain) n
        let args ← c.symbol.domain.zipIdx.mapM fun (r, i) => sample datatypes fuel r (n / 2 + i)
        if args.isEmpty then return .app c.symbol []
        let some last := d.constructors.getLast? | illFormed
        last.symbol.apply args
    | _ => unsupported "Don't know how to generate values for"

def sampleDepth : Nat := 12

/-! ## Testing a universal formula -/

def instances : Nat := 12

def valuesAt (datatypes : List Datatype) (sorts : List Srt) (i : Nat) : Checked (List Term) :=
  sorts.zipIdx.mapM fun (s, j) => sample datatypes sampleDepth s (i * (j + 1) + 3 * j)

def rounds : Nat := 1000

def checkInstance (p : Term) : Session Unit := do
  let t ← (← Rewrite.simp rounds false p).1
  if t = .tt then return ()
  if Prover.unsat (← theWorld).datatypes [← t.not] then return ()
  violated

def check (thm : Term) : Session Unit := do
  match thm with
  | .bind .forall vars body =>
    for i in List.range instances do
      let values ← valuesAt (← theWorld).datatypes (vars.map (·.2)) i
      checkInstance (← Term.applyBody vars body values)
  | _ => violated

end SortedLogic.Testing

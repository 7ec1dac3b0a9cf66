import SortedLogic.Term.Bits

/-!
# Induction schemes

Formulas that say: what holds at the start and is handed on at each step holds everywhere.
-/

namespace SortedLogic.Induction

abbrev Predicate := Term → Checked Term

def numberLike (t : Term) (n : Int) : Checked Term :=
  match t.sort with
  | .int => .ok (.int n)
  | .real => .ok (.rat n)
  | .bitvec w => .ok (.bits n w)
  | _ => .error .wrongKind

def compare (sign : String) (t u : Term) : Checked Term :=
  Term.op (.builtin sign [t.sort, t.sort] .bool) [t, u]

def nonNegative (t : Term) : Checked Term := do
  match t.sort with
  | .bitvec _ => compare "bvsge" t (← numberLike t 0)
  | _ => compare ">=" t (← numberLike t 0)

def successor (n : Term) : Term := .app (.builtin "+" [.int, .int] .int) [n, .int 1]
def predecessor (n : Term) : Term := .app (.builtin "-" [.int, .int] .int) [n, .int 1]

def upward (x : Term) (P : Predicate) : Session Term := do
  let n ← freshConst "n" .int
  let start ← P (.int 0)
  let step ← forallWhere [n] [← nonNegative n, ← P n, ← P (successor n)]
  let hyps ← Term.and [start, step, ← nonNegative x]
  hyps.implies (← P x)

/-- From steps that may use all smaller numbers to `P x`. The condition on `x` is the end of the step. -/
def upwardStrong (x : Term) (P : Predicate) : Session Term := do
  let n ← freshConst "n" .int
  let m ← freshConst "m" .int
  let before ← forallWhere [m] [← nonNegative m, ← compare "<" m n, ← P m]
  let step ← forallWhere [n] [← nonNegative n, before, ← P n, ← nonNegative x]
  step.implies (← P x)

def bothWays (x : Term) (P Q : Predicate) : Session Term := do
  let n ← freshConst "n" .int
  let down ← forallWhere [n] [← compare "<=" n (.int 0), ← Q n, ← Q (predecessor n)]
  let start ← P (.int 0)
  let up ← forallWhere [n] [← nonNegative n, ← Q n, ← Q (successor n)]
  (← Term.and [down, start, up]).implies (← P x)

def fromBack (x : Term) (P : Predicate) : Session Term := do
  match x.sort.element? with
  | none => throw .violated
  | some e =>
    let hd ← freshConst "hd" e
    let tl ← freshConst "tl" x.sort
    let step ← forallWhere [hd, tl] [← P tl, ← P (← (Term.unitSeq hd).joinSeq tl)]
    (← Term.and [← P (.emptySeq x.sort), step]).implies (← P x)

/-- True of all sequences exactly if of the empty and the single ones and kept by joining. -/
def byJoining (element : Srt) (P : Predicate) : Session Term := do
  let z ← freshConst "z" element
  let s : Srt := .seq element
  let x ← freshConst "c" s
  let y ← freshConst "c" s
  let single ← forallWhere [z] [← P (.unitSeq z)]
  let joined ← forallWhere [x, y] [← P x, ← P y, ← P (← x.joinSeq y)]
  let parts ← Term.and [← P (.emptySeq s), single, joined]
  equate parts (← forallWhere [x] [← P x])

end SortedLogic.Induction

import SortedLogic.Kernel
import SortedLogic.Text.SExpr

/-!
# Unfolding definitions

One sweep from the inside out replaces defined symbols by their bodies (`unfold`) or applied lambdas by theirs (`beta`). Binders
are opened with constants of their own names.
-/

namespace SortedLogic.Rewrite
open Prod.Lex (left)
open Term (openWith size size_pos sizes)

/-- What a traced step of unfolding rests on: the law at the arguments, and the law itself. -/
def lawsAt (d : Definition) (args : List Term) : Checked (List Proof) :=
  if d.law.thm.isBind then do
    return [← Kernel.call d.law (args.map .term), d.law]
  else .ok [d.law]

mutual
/-- Unfolds the symbols for which `defs` has a definition. The theorems that justify it are noted only if
`traced`. -/
def unfold (defs : Symbol → Option Definition) (traced : Bool) : Term → Traced Term
  | .var i s => return .var i s
  | .app f args => do
    let args ← unfoldAll defs traced args
    match defs f with
    | some d =>
      let t ← d.body.substitute (d.args.zip args)
      if traced then Traced.note (← lawsAt d args)
      return t
    | none => f.apply args
  | .bind k vars body => do
    let vs := Term.namedVars vars
    let body ← unfold defs traced (openWith vs body)
    Term.bindConsts k vs body
termination_by t => (t.size, 0)
decreasing_by
  · apply left; simp [size]
  · apply left; simp [size, Term.size_openWith_namedVars]

def unfoldAll (defs : Symbol → Option Definition) (traced : Bool) : List Term → Traced (List Term)
  | [] => return []
  | t :: ts => return (← unfold defs traced t) :: (← unfoldAll defs traced ts)
termination_by ts => (sizes ts, 1)
decreasing_by
  · exact .right' _ (by simp only [sizes]; omega) (by omega)
  · apply left
    have := size_pos t
    simp only [sizes]; omega
end

def onlyOf (defs : Symbol → Option Definition) : Option (List Symbol) → Symbol → Option Definition
  | none, f => defs f
  | some fs, f => if fs.contains f then defs f else none

mutual
def beta : Term → Checked Term
  | .var .. => .error (.failed (some "Unexpected term"))
  | .app f args =>
    match args with
    | .bind .lambda vars body :: is =>
      if f.isOp "select" then do Term.applyBody vars body (← betaAll is)
      else do f.apply (← betaAll (.bind .lambda vars body :: is))
    | args => do f.apply (← betaAll args)
  | .bind k vars body => do
    let vs := Term.namedVars vars
    Term.bindConsts k vs (← beta (openWith vs body))
termination_by t => (t.size, 0)
decreasing_by
  · apply left; simp [size, sizes]; omega
  · apply left; simp [size, sizes]
  · apply left; simp [size]
  · apply left; simp [size, Term.size_openWith_namedVars]

def betaAll : List Term → Checked (List Term)
  | [] => .ok []
  | t :: ts => return (← beta t) :: (← betaAll ts)
termination_by ts => (sizes ts, 1)
decreasing_by
  · exact .right' _ (by simp only [sizes]; omega) (by omega)
  · apply left
    have := size_pos t
    simp only [sizes]; omega
end

def fullSimp (defs : Symbol → Option Definition) (simplify : Term → Term) : Nat → Term → Checked Term
  | 0, _ => .error .tooDeep
  | fuel + 1, t => do
    let t ← (unfold defs false t).outcome.1
    let u := simplify t
    if u = t then return t else fullSimp defs simplify fuel u

def shorter (best t : Term) : Term :=
  if t.sexpr.length < best.sexpr.length then t else best

/-- At most `rounds` times; the shortest term is the result. The trace holds the laws, and an equation for each simplification
that changed the term. -/
def simpFrom (defs : Symbol → Option Definition) (simplify : Term → Term) (traced : Bool) :
    Nat → Term → Term → List Proof → Session (Checked Term × List Proof)
  | 0, _, best, trace => return (.ok best, trace)
  | rounds + 1, t, best, trace => do
    let (t, laws) := (unfold defs traced t).outcome
    let trace := trace ++ laws
    match t with
    | .error f => return (.error f, trace)
    | .ok t =>
      let u := simplify t
      let best := shorter (shorter best t) u
      if u = t then return (.ok best, trace)
      let equal ← if traced then
          tryCatch (do return Except.ok [← Kernel.prove (← t.eq u) []]) fun f => return Except.error f
        else pure (Except.ok [])
      match equal with
      | .error f => return (.error f, trace)
      | .ok equal => simpFrom defs simplify traced rounds u best (trace ++ equal)

def simp (rounds : Nat) (traced : Bool) (t : Term) : Session (Checked Term × List Proof) := do
  let w ← theWorld
  simpFrom w.definition? w.simplify traced rounds t t []

def defEq (a b : Term) : Session Bool := do
  let a ← (← simp 3 false a).1
  let b ← (← simp 3 false b).1
  a.alphaEq b

end SortedLogic.Rewrite

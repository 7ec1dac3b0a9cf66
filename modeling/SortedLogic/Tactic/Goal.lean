import SortedLogic.Relation
import SortedLogic.Rewrite.Step
import SortedLogic.Rewrite.Unfold

/-!
# Goals and proof attempts

A proof attempt is a stack of goals with the lemmas collected on the way to the theorem. Goals whose contexts have one number
share it: removing a hypothesis removes it for all of them, also in saved states.
-/

namespace SortedLogic.Tactic

/-- Hypotheses under a number that tells which goals share them. -/
structure Context where
  number : Nat
  hyps : List Term
  deriving DecidableEq

structure Goal where
  sig : List Term := []
  context : Context
  goal : Term
  deriving DecidableEq

namespace Goal

def hyps (g : Goal) : List Term := g.context.hyps

def without (g : Goal) (number i : Nat) : Goal :=
  if g.context.number = number then { g with context := { g.context with hyps := g.hyps.eraseIdx i } } else g

end Goal

structure Snapshot where
  goals : List Goal
  lemmas : List Proof

structure Attempt where
  thm : Term
  goals : List Goal
  lemmas : List Proof := []
  saved : List Snapshot := []
  next : Nat := 1

namespace Attempt

def start (thm : Term) : Attempt := { thm, goals := [{ context := ⟨0, []⟩, goal := thm }] }

/-- What stands for a goal where none is left: a formula that is true at sight. -/
def done : Goal :=
  { context := ⟨0, []⟩, goal := .app .or [.tt, .const "KNUCKLEDRAGGER_EMPTYGOAL" .bool] }

def top (a : Attempt) : Goal := a.goals.headD done

/-- Removes the hypothesis at a position from a context, wherever it is shared. -/
def clearShared (number i : Nat) (a : Attempt) : Attempt :=
  { a with
    goals := a.goals.map (·.without number i)
    saved := a.saved.map fun s => { s with goals := s.goals.map (·.without number i) } }

def save (a : Attempt) : Attempt := { a with saved := ⟨a.goals, a.lemmas⟩ :: a.saved }

end Attempt

/-- Computations on a proof attempt in a world. A refusal keeps what was done before it. -/
abbrev TacticM := ExceptT Fault (StateM (World × Attempt))

instance : MonadLift Session TacticM where
  monadLift x := ExceptT.mk fun (w, a) =>
    let (r, w) := (ExceptT.run x).run w
    (r, (w, a))

def theAttempt : TacticM Attempt := ExceptT.mk fun s => (.ok s.2, s)

def changeAttempt (f : Attempt → Attempt) : TacticM Unit := ExceptT.mk fun (w, a) => (.ok (), (w, f a))

/-! ## Positions that may count from the end -/

/-- The place of a position, where a negative one counts from the end. -/
def place (length : Nat) (i : Int) : Int := if i < 0 then i + length else i

variable (xs : List Term)

def item (i : Int) : Checked Term :=
  let j := place xs.length i
  match (if j < 0 then none else xs[j.toNat]?) with
  | some t => .ok t
  | none => .error .outOfRange

def before (i : Int) : List Term := xs.take (place xs.length i).toNat

def fromPlace (i : Int) : List Term := xs.drop (place xs.length i).toNat

/-- The position after it is counted anew, so after the last position from the end stands the first. -/
def splice (i : Int) (ts : List Term) : List Term := before xs i ++ ts ++ fromPlace xs (i + 1)

/-! ## Proving with help -/

/-- The formula below its universal quantifiers, opened with constants of the names that were written. -/
def stripForalls : Nat → Term → Term
  | fuel + 1, .bind .forall vars body => stripForalls fuel (Term.openWith (Term.namedVars vars) body)
  | _, t => t

def unfoldTimes : Nat → Term → Session (Term × List Proof)
  | 0, t => return (t, [])
  | n + 1, t => do
    let (r, laws) := (Rewrite.unfold (← theWorld).definition? true t).outcome
    let u ← r
    let (u, more) ← unfoldTimes n u
    return (u, laws ++ more)

def withUnfolding (thm : Term) (by' : List Proof) (times : Nat) : Session (List Proof) := do
  let (u, laws) ← unfoldTimes times thm
  if u = thm then return by'
  let e ← equate thm u
  return by' ++ [← Kernel.prove e laws]

/-- A quantified theorem that fails is tried without its quantifiers, which only succeeds where a name was captured, and is
refused then too. -/
def proveUnfolding (thm : Term) (by' : List Proof) (o : Kernel.Options) (times : Nat) : Session Proof := do
  let by' ← withUnfolding thm by' times
  tryCatch (Kernel.prove thm by' o) fun
    | .unprovable => do
      if thm.isBind then
        let _ ← Kernel.prove (stripForalls thm.size thm) by' o
        throw (.failed (some "Worked with quantifier stripped. Something is going awry"))
      throw .unprovable
    | f => throw f

def forallIntro (thm : Term) (body : Term → List Term → Session Proof) : Session Proof := do
  let .bind .forall .. := thm | throw .violated
  let (vs, ab) ← Kernel.herb thm
  let .app _ (goal :: _) := ab.thm | throw .violated
  Kernel.modus ab (← body goal vs)

/-- The options of `prove`: how often definitions are unfolded first, and which proofs help once the quantified variables are
new constants. -/
structure Help extends Kernel.Options where
  unfold : Option Nat := none
  instances : Option (List Term → Session (List Proof)) := none

/-- The kernel's own rule has no help. -/
def Help.plain (o : Help) : Checked Kernel.Options :=
  if o.unfold.isSome || o.instances.isSome then .error .wrongKind else .ok o.toOptions

def prove (thm : Term) (by' : List Proof) (o : Help := {}) : Session Proof :=
  match o.instances with
  | none => proveUnfolding thm by' o.toOptions (o.unfold.getD 0)
  | some here => forallIntro thm fun goal vs => do
    proveUnfolding goal (by' ++ (← here vs)) o.toOptions (o.unfold.getD 0)

def simplified (t : Term) : Session Proof := do
  let (u, trace) ← Rewrite.simp 3 true t
  Kernel.prove (← t.eq (← u)) trace

/-- Equates a term with what one sweep of rewriting makes of it, as an instance of the theorems. -/
def rewritten (t : Term) (by' : List Proof) : Session Proof := do
  let rules ← by'.mapM fun p => (liftM (Rewrite.Rule.ofTerm p.thm none) : Session Rewrite.Rule)
  let (u, _) ← (liftM (Rewrite.once rules t) : Session (Term × Rewrite.Trace))
  return .byProofs (← t.eq u) by'

/-- A universal theorem at terms in the variables `vs`, closed over them again. -/
def substituted (pf : Proof) (vs ts : List Term) : Session Proof := do
  match pf.thm with
  | .bind _ vars body =>
    let closed ← (← Term.applyBody vars body ts).quantify .forall vs
    let (ws, ab) ← Kernel.herb closed
    let ts ← ts.mapM fun t => (liftM (t.substitute (vs.zip ws)) : Session Term)
    Kernel.modus ab (← Kernel.instan ts pf)
  | _ => throw .violated

/-! ## Calculations -/

structure Calculation where
  vars : List Term
  lhs : Term
  current : Term
  assumptions : List Term
  relation : Relation := .eq
  proof : Proof

namespace Calculation

def mayFollow (r s : Relation) : Bool :=
  r = s || r = .eq || (r = .le && s = .lt) || (r = .ge && s = .gt)

def close (vars assumptions : List Term) (body : Term) : Checked Term := do
  let body ← match assumptions with
    | [] => pure body
    | [a] => a.implies body
    | as => do (← Term.and as).implies body
  if vars.isEmpty then return body else body.quantify .forall vars

def start (vars : List Term) (lhs : Term) (assumptions : List Term) : Session Calculation := do
  let thm ← close vars assumptions (← lhs.eq lhs)
  return { vars, lhs, current := lhs, assumptions, proof := ← Kernel.prove thm [] }

def setRelation (c : Calculation) (r : Relation) : Checked Calculation :=
  if mayFollow c.relation r then .ok { c with relation := r } else .error .unprovable

/-- Relates the current term to the next one, then the first one to it with what was shown before. -/
def advance (c : Calculation) (rhs : Term) (by' : List Proof) (o : Help := {}) : Session Calculation := do
  let w ← theWorld
  let link ← close c.vars c.assumptions (← w.relate c.relation c.current rhs)
  let here ← Kernel.prove link by' (← o.plain)
  let thm ← close c.vars c.assumptions (← w.relate c.relation c.lhs rhs)
  return { c with current := rhs, proof := ← prove thm [here, c.proof] o }

/-- In the relation that is named or else the one before. A refusal keeps what was reached, and a new relation with it. -/
def step (c : Calculation) (r : Option Relation) (rhs : Term) (by' : List Proof) (o : Help := {}) :
    Session (Calculation × Option Fault) :=
  match r.elim (.ok c) c.setRelation with
  | .error f => return (c, some f)
  | .ok c => tryCatch (do return (← c.advance rhs by' o, none)) fun f => return (c, some f)

end Calculation
end SortedLogic.Tactic

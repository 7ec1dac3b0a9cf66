import SortedLogic.Proof
import SortedLogic.Unification

/-!
# Rules

Rewrite rules, and Horn rules with a hypothesis and a conclusion. Both are read off theorems, whose universal variables become
new constants.
-/

namespace SortedLogic.Rewrite

structure Rule where
  vars : List Term
  lhs : Term
  rhs : Term
  proof : Option Proof := none

namespace Rule

def openForalls : Nat → List Term → Term → Fresh (List Term × Term)
  | fuel + 1, vs, .bind .forall vars body => do
    let (ws, body) ← (Term.bind .forall vars body).openFresh
    openForalls fuel (vs ++ ws) body
  | _, _, .bind _ _ _ => throw (.notRule "Not a universal quantifier")
  | _, vs, t => return (vs, t)

def ofTerm (thm : Term) (proof : Option Proof) : Fresh Rule := do
  let (vs, t) ← openForalls thm.size [] thm
  match t with
  | .app f [l, r] =>
    if f.isOp "=" then return ⟨vs, l, r, proof⟩ else throw (.notRule "Not an equation")
  | _ => throw (.notRule "Not an equation")

def ofProof (pf : Proof) : Fresh Rule := ofTerm pf.thm (some pf)

def freshen (r : Rule) : Fresh Rule := do
  let vs ← r.vars.mapM fun v =>
    match v.bindingName? with
    | some (x, s) => freshConst x s
    | none => throw .illFormed
  let σ := r.vars.zip vs
  return { r with vars := vs, lhs := ← r.lhs.substitute σ, rhs := ← r.rhs.substitute σ }

def toTerm (r : Rule) : Checked Term := do
  let e ← r.lhs.eq r.rhs
  if r.vars.isEmpty then return e else e.quantify .forall r.vars

end Rule

structure HornRule where
  vars : List Term
  hyp : Term
  conc : Term
  proof : Option Proof := none

namespace HornRule

/-- Reads `forall xs. hyp => conc`; a theorem without hypothesis has the hypothesis true. -/
def ofTerm (thm : Term) (proof : Option Proof) : Fresh HornRule := do
  let (vs, t) ← match thm with
    | .bind .forall .. => thm.openFresh
    | _ => pure ([], thm)
  match t with
  | .app f [h, c] =>
    if f.isOp "=>" then return ⟨vs, h, c, proof⟩ else atom vs t
  | _ => atom vs t
where
  atom (vs : List Term) (t : Term) : Fresh HornRule :=
    if t.sort = .bool || t.isBind then return ⟨vs, .tt, t, proof⟩ else throw .violated

variable (r : HornRule)

def freshen : Fresh HornRule := do
  let vs ← r.vars.mapM fun v =>
    match v.bindingName? with
    | some (x, s) => freshConst (Text.stem x) s
    | none => throw .illFormed
  let σ := r.vars.zip vs
  return { r with vars := vs, hyp := ← r.hyp.substitute σ, conc := ← r.conc.substitute σ }

def toTerm : Checked Term := do
  let e ← r.hyp.implies r.conc
  if r.vars.isEmpty then return e else e.quantify .forall r.vars

def backward (goal : Term) (overloads : Srt → Bool := fun _ => false) : Fresh (Option (Substitution × Term)) := do
  match ← Term.pmatch r.vars r.conc goal overloads with
  | some σ => return some (σ, ← r.hyp.substitute σ)
  | none => return none

def forward (fact : Term) (overloads : Srt → Bool := fun _ => false) : Fresh (Option Term) := do
  match ← Term.pmatch r.vars r.hyp fact overloads with
  | some σ => some <$> r.conc.substitute σ
  | none => return none

end HornRule

/-! ## Rewriting -/

abbrev Trace := List (Rule × Substitution)

def Rule.rewrite (r : Rule) (t : Term) (overloads : Srt → Bool := fun _ => false) : Fresh (Option (Term × Substitution)) := do
  match ← Term.pmatch r.vars r.lhs t overloads with
  | some σ => return some (← r.rhs.substitute σ, σ)
  | none => return none

def sweepRoot : List Rule → Term → Trace → Fresh (Term × Trace)
  | [], t, trace => return (t, trace)
  | r :: rs, t, trace => do
    match ← r.rewrite t with
    | some (u, σ) => sweepRoot rs u (trace ++ [(r, σ)])
    | none => sweepRoot rs t trace

mutual
def once (rules : List Rule) : Term → Fresh (Term × Trace)
  | .app f args => do
    let args ← onceAll rules args
    sweepRoot rules (← f.apply args) []
  | t => return (t, [])

def onceAll (rules : List Rule) : List Term → Fresh (List Term)
  | [] => return []
  | t :: ts => do
    let (t, _) ← once rules t
    return t :: (← onceAll rules ts)
end

def slowlyFrom (rules : List Rule) : Nat → Term → Trace → Fresh (Term × Trace)
  | 0, _, _ => throw .tooDeep
  | fuel + 1, t, trace => do
    let (u, steps) ← once rules t
    if u = t then return (u, trace ++ steps) else slowlyFrom rules fuel u (trace ++ steps)

def firstAtRoot (overloads : Srt → Bool) : List Rule → Term → Fresh (Option (Term × Rule × Substitution))
  | [], _ => return none
  | r :: rs, t => do
    match ← r.rewrite t overloads with
    | some (u, σ) => return some (u, r, σ)
    | none => firstAtRoot overloads rs t

mutual
/-- Normalizes the arguments, then rewrites at the root and starts again. -/
def normalizeWith (overloads : Srt → Bool) (rules : Symbol → List Rule) : Nat → Term → Fresh (Term × Trace)
  | 0, _ => throw .tooDeep
  | fuel + 1, .app f args => do
    let (args, trace) ← normalizeAllWith overloads rules fuel args
    let t ← f.apply args
    match ← firstAtRoot overloads (rules f) t with
    | some (u, r, σ) =>
      let (v, more) ← normalizeWith overloads rules fuel u
      return (v, trace ++ (r, σ) :: more)
    | none => return (t, trace)
  | _, t => return (t, [])

def normalizeAllWith (overloads : Srt → Bool) (rules : Symbol → List Rule) : Nat → List Term → Fresh (List Term × Trace)
  | _, [] => return ([], [])
  | 0, _ => throw .tooDeep
  | fuel + 1, t :: ts => do
    let (t, trace) ← normalizeWith overloads rules fuel t
    let (ts, more) ← normalizeAllWith overloads rules fuel ts
    return (t :: ts, trace ++ more)
end

/-- The limit that rewriting is run with. -/
def depth : Nat := 3000

variable (rules : List Rule)

def withHead (f : Symbol) : List Rule := rules.filter (·.lhs.head? = some f)

/-- Rewrites to normal form, with so many steps nested at most. Every left side has to be an application. -/
def normalizeWithin (limit : Nat) (rules : List Rule) (t : Term) (overloads : Srt → Bool := fun _ => false) :
    Fresh (Term × Trace) := do
  if !rules.all (·.lhs.isApp) then throw .illFormed
  normalizeWith overloads (withHead rules) limit t

def slowly (t : Term) : Fresh (Term × Trace) := slowlyFrom rules depth t []

def index : Checked (List (Symbol × Rule)) :=
  rules.foldlM (fun acc r =>
    match r.lhs with
    | .app f _ =>
      if acc.any (·.1 = f) then .ok (acc.map fun (g, q) => if g = f then (g, r) else (g, q))
      else .ok (acc ++ [(f, r)])
    | _ => .error .illFormed) []

mutual
/-- All ways to rewrite an instance of `t` in one place other than a variable, each with the terms for
the variables. -/
def narrow (vs : List Term) (lhs rhs : Term) : Term → Checked (List (Term × Substitution))
  | t@(.app f args) =>
    if vs.contains t then .ok []
    else do
      let here ← Term.unify vs t lhs
      let below ← narrowArgs vs lhs rhs f [] args
      return (here.map fun σ => (rhs, σ)).toList ++ below
  | t =>
    if vs.contains t then .ok []
    else do
      let _ ← Term.unify vs t lhs
      .error .illFormed

def narrowArgs (vs : List Term) (lhs rhs : Term) (f : Symbol) (before : List Term) :
    List Term → Checked (List (Term × Substitution))
  | [] => .ok []
  | a :: rest => do
    let found ← narrow vs lhs rhs a
    let here ← found.mapM fun (s, σ) => do
      return (← f.apply (before ++ s :: rest), σ)
    return here ++ (← narrowArgs vs lhs rhs f (before ++ [a]) rest)
end
end SortedLogic.Rewrite

import SortedLogic.Search
import SortedLogic.Tactic.Goal

/-!
# Tactics

Each tactic replaces the goal on top by goals from which it follows, and adds the lemmas that say so. A refused tactic may
already have taken the goal off or added lemmas.
-/

namespace SortedLogic.Tactic

def refuse {α : Type} (message : String) : TacticM α := throw (.invalid (some message))

def addLemmas (ps : List Proof) : TacticM Unit := changeAttempt fun a => { a with lemmas := a.lemmas ++ ps }

def topGoal : TacticM Goal := return (← theAttempt).top

def currentGoal : TacticM Goal := do
  match (← theAttempt).goals with
  | g :: _ => return g
  | [] => throw .outOfRange

def take : TacticM Goal := do
  let g ← currentGoal
  changeAttempt fun a => { a with goals := a.goals.tail }
  return g

def put (g : Goal) : TacticM Unit := changeAttempt fun a => { a with goals := g :: a.goals }

def replaceTop (g : Goal) : TacticM Unit := do
  let _ ← take
  put g

def newContext (hyps : List Term) : TacticM Context := do
  let n := (← theAttempt).next
  changeAttempt fun a => { a with next := n + 1 }
  return ⟨n, hyps⟩

def withHyps (g : Goal) (hyps : List Term) : TacticM Goal := return { g with context := ← newContext hyps }

def underHyps (hyps : List Term) (conc : Term) : Checked Term := do (← Term.and hyps).implies conc

/-! ## Binders and connectives -/

def fixes : TacticM (List Term) := do
  let g ← currentGoal
  match g.goal with
  | .bind .forall .. =>
    let _ ← take
    let (vs, pf) ← (liftM (Kernel.herb g.goal : Fresh _) : Session (List Term × Proof))
    addLemmas [pf]
    match pf.thm with
    | .app _ (body :: _) => put { g with sig := g.sig ++ vs, goal := body }
    | _ => throw .violated
    return vs
  | _ => refuse "fixes tactic failed. Not a forall"

def fix : TacticM (List Term) := do
  let vs ← fixes
  if vs.length > 1 then refuse "fix tactic failed. More than one variable in quantifier"
  return vs

def intros : TacticM (List Term) := do
  let g ← topGoal
  if g.goal.isForall then fixes
  else do
    let g ← take
    match g.goal with
    | .app f [h, c] =>
      if f.isOp "=>" then put { ← withHyps g (g.hyps ++ [h]) with goal := c }
      else disjunction g
    | .app f [h] =>
      if f.isOp "not" then put { ← withHyps g (g.hyps ++ [h]) with goal := .ff }
      else disjunction g
    | _ => disjunction g
    return []
where
  /-- A disjunction whose first part is a negation is an implication. -/
  disjunction (g : Goal) : TacticM Unit :=
    match g.goal with
    | .app f (.app n [h] :: rest) => do
      if f.isOp "or" && n.isOp "not" then
        let c ← match rest with
          | [c] => pure c
          | cs => (liftM (Term.or cs : Checked _) : Session Term)
        put { ← withHyps g (g.hyps ++ [h]) with goal := c }
      else refuse "Intros failed."
    | .app f [] => if f.isOp "or" then throw .illFormed else refuse "Intros failed."
    | _ => refuse "Intros failed."

def einstan (n : Int) : TacticM (List Term) := do
  let g ← currentGoal
  let h ← (liftM (item g.hyps n) : Session Term)
  match h with
  | .bind .exists .. =>
    let _ ← take
    let (vs, pf) ← (liftM (Kernel.einstan h : Fresh _) : Session (List Term × Proof))
    addLemmas [pf]
    match pf.thm with
    | .app _ [_, body] =>
      put { ← withHyps g (splice g.hyps n [body]) with sig := g.sig ++ vs }
    | _ => throw .violated
    return vs
  | _ => refuse "Einstan failed. Not an exists"

def instan (n : Int) (ts : List Term) : TacticM Unit := do
  let g ← currentGoal
  let h ← (liftM (item g.hyps n) : Session Term)
  if !h.isForall then refuse "Instan failed. Not a forall"
  let pf ← (liftM (Kernel.instan2 ts h) : Session Proof)
  addLemmas [pf]
  match pf.thm with
  | .app _ [_, body] => replaceTop (← withHyps g (g.hyps ++ [body]))
  | _ => throw .violated

/-- Compares two functions at a place where they differ if they differ at all. -/
def ext : TacticM (List Term) := do
  let g ← topGoal
  match Kernel.sides? g.goal with
  | none => refuse "Ext failed. Goal is not an equality"
  | some (l, r) =>
    match l.sort with
    | .array domains _ =>
      let _ ← take
      let place : Term := .app (.builtin "array-ext" [l.sort, l.sort] (domains.headD .int)) [l, r]
      let x ← (liftM (freshConst "c" place.sort) : Session Term)
      let same ← (liftM (do (← l.select [x]).eq (← r.select [x]) : Checked Term) : Session Term)
      let here ← (equate x place : Session Term)
      let both ← (equate g.goal same : Session Term)
      addLemmas [← (Kernel.prove (← (liftM (here.implies both) : Session Term)) [] : Session Proof)]
      put { ← withHyps g (g.hyps ++ [here]) with goal := same }
      return [x]
    | _ => refuse "Ext failed. Goal is not an array equality"

/-- The pairs of positions of which the second is smaller, by the first and then by the second. -/
def earlierPairs (ts : List Term) : List (Term × Term) :=
  ts.zipIdx.flatMap fun (t, i) => (ts.take i).map fun u => (u, t)

def split : TacticM Unit := do
  let g ← currentGoal
  match g.goal with
  | .app f args =>
    if f.isOp "and" then
      let _ ← take
      args.reverse.forM fun c => put { g with goal := c }
    else if f.isOp "=" then
      let _ ← take
      match args with
      | [a, b] =>
        put { g with goal := ← (liftM (a.implies b) : Session Term) }
        put { g with goal := ← (liftM (b.implies a) : Session Term) }
      | _ => throw .illFormed
    else if f.isOp "distinct" then
      let _ ← take
      (earlierPairs args).forM fun (a, b) => do
        put { ← withHyps g (g.hyps ++ [← (liftM (a.eq b) : Session Term)]) with goal := .ff }
    else refuse "Unexpected case in goal for split tactic"
  | _ => refuse "Unexpected case in goal for split tactic"

def splitAt (i : Int) : TacticM Unit := do
  let g ← currentGoal
  let i := place g.hyps.length i
  let h ← (liftM (item g.hyps i) : Session Term)
  match h with
  | .app f args =>
    if f.isOp "or" then
      let _ ← take
      args.forM fun c => do put (← withHyps g (splice g.hyps i [c]))
    else if f.isOp "and" then
      let _ ← take
      put (← withHyps g (splice g.hyps i args))
    else refuse "Split failed"
  | _ => refuse "Split failed"

def choose (name : String) (part : List Term → Checked Term) : TacticM Unit := do
  let g ← currentGoal
  match g.goal with
  | .app f args =>
    if f.isOp "or" then replaceTop { g with goal := ← (liftM (part args) : Session Term) }
    else refuse (name ++ " failed. Not an or")
  | _ => refuse (name ++ " failed. Not an or")

def left (n : Int) : TacticM Unit :=
  choose "Left" fun args =>
    match (if n < 0 then none else args[n.toNat]?) with
    | some t => .ok t
    | none => .error .illFormed

def right : TacticM Unit :=
  choose "Right" fun args =>
    match args.getLast? with
    | some t => .ok t
    | none => .error .illFormed

def provide (ts : List Term) : TacticM Unit := do
  let g ← currentGoal
  if !g.goal.isExists then throw .violated
  let pf ← (liftM (Kernel.forget2 ts g.goal) : Session Proof)
  addLemmas [pf]
  match pf.thm with
  | .app _ (body :: _) => replaceTop { g with goal := body }
  | _ => throw .violated

def cases (t : Term) : TacticM Unit := do
  let g ← topGoal
  if t.sort = .bool then
    let g ← take
    put (← withHyps g (g.hyps ++ [← (equate t .tt : Session Term)]))
    put (← withHyps g (g.hyps ++ [← (equate t .ff : Session Term)]))
  else
    let w ← (theWorld : Session World)
    match w.datatype? t.sort with
    | some d =>
      let _ ← take
      d.constructors.reverse.forM fun c => do
        let is ← (liftM (c.recognizer.apply [t]) : Session Term)
        put (← withHyps g (g.hyps ++ [← (equate is .tt : Session Term)]))
    | none => refuse "Cases failed. Not a bool or datatype"

/-! ## Equations and rewriting -/

def symm : TacticM Unit := do
  let g ← topGoal
  match Kernel.sides? g.goal with
  | some (a, b) => replaceTop { g with goal := ← (liftM (b.eq a) : Session Term) }
  | none => refuse "Symm tactic failed. Not an equality"

def eqTo (rhs : Term) (by' : List Proof) (o : Help := {}) : TacticM Unit := do
  let g ← topGoal
  match Kernel.sides? g.goal with
  | some (a, b) =>
    let e ← (equate b rhs : Session Term)
    let thm ← (liftM (underHyps g.hyps e) : Session Term)
    let o ← (liftM o.plain : Session Kernel.Options)
    addLemmas [← (Kernel.prove thm by' o : Session Proof)]
    replaceTop { g with goal := ← (liftM (a.eq rhs) : Session Term) }
  | none => refuse "Eq tactic failed. Not an equality"

inductive Source where
  | proof (p : Proof)
  | hyp (n : Int)

def Source.thm (s : Source) (g : Goal) : Checked Term :=
  match s with
  | .proof p => .ok p.thm
  | .hyp n => item g.hyps n

def values (σ : Substitution) (vs : List Term) : Checked (List Term) :=
  vs.mapM fun v =>
    match σ.get? v with
    | some t => .ok t
    | none => .error .noKey

/-- Puts an instance of the right side in the place of the subterm that the left side matched. -/
def exchange (source : Source) (thm : Term) (vs : List Term) (at' : Option Int) (g : Goal) (target old r : Term)
    (σ : Substitution) : TacticM Unit := do
  let _ ← take
  let new ← (liftM (r.substitute σ) : Session Term)
  let target ← (liftM (target.substitute [(old, new)]) : Session Term)
  if thm.isForall then
    let ts ← (liftM (values σ vs) : Session (List Term))
    addLemmas [← (liftM (Kernel.instan2 ts thm) : Session Proof)]
  match source with
  | .proof p => addLemmas [p]
  | .hyp _ => pure ()
  match at' with
  | none => put { g with goal := target }
  | some i =>
    let i := if i = -1 then (g.hyps.length : Int) - 1 else i
    put (← withHyps g (splice g.hyps i [target]))

def rewrite (source : Source) (at' : Option Int) (reversed : Bool) : TacticM Unit := do
  let g ← currentGoal
  let thm ← (liftM (source.thm g) : Session Term)
  let (vs, body) ← match thm with
    | .bind .forall .. => (liftM (thm.openFresh : Fresh _) : Session (List Term × Term))
    | _ => pure ([], thm)
  match Kernel.sides? body with
  | none => refuse "Rewrite tactic failed. Not an equality"
  | some (l, r) =>
    let (l, r) := if reversed then (r, l) else (l, r)
    let target ← match at' with
      | none => pure g.goal
      | some i => (liftM (item g.hyps i) : Session Term)
    let w ← (theWorld : Session World)
    match ← (liftM (Term.pmatchAnywhere vs l target false w.overloads : Fresh _) : Session (Option (Term × Substitution))) with
    | none => refuse "Rewrite tactic failed to apply lemma"
    | some (old, σ) => exchange source thm vs at' g target old r σ

def unfolded (only : Option (List Symbol)) (t : Term) : TacticM Term := do
  let w ← (theWorld : Session World)
  let (r, laws) := (Rewrite.unfold (Rewrite.onlyOf w.definition? only) true t).outcome
  addLemmas laws
  (liftM r : Session Term)

def unfoldGoal (fs : List Symbol) : TacticM Unit := do
  let g ← topGoal
  let t ← unfolded (if fs.isEmpty then none else some fs) g.goal
  let _ ← take
  put { g with goal := t }

def unfoldAt (fs : List Symbol) (i : Int) : TacticM Unit := do
  let g ← topGoal
  let h ← (liftM (item g.hyps i) : Session Term)
  let t ← unfolded (some fs) h
  let _ ← take
  let i := if i = -1 then (g.hyps.length : Int) - 1 else i
  put (← withHyps g (splice g.hyps i [t]))

def simpGoal (unfolding : Bool) : TacticM Unit := do
  let g ← topGoal
  if unfolding then
    let (r, laws) ← (Rewrite.simp 3 true g.goal : Session (Checked Term × List Proof))
    addLemmas laws
    replaceTop { g with goal := ← (liftM r : Session Term) }
  else
    let t := (← (theWorld : Session World)).simplify g.goal
    let e ← (equate g.goal t : Session Term)
    addLemmas [← (Kernel.prove e [] : Session Proof)]
    replaceTop { g with goal := t }

def simpAt (i : Int) : TacticM Unit := do
  let g ← topGoal
  let h ← (liftM (item g.hyps i) : Session Term)
  let t := (← (theWorld : Session World)).simplify h
  if t = h then refuse "Simplify failed. Ctx is already simplified."
  let e ← (equate h t : Session Term)
  addLemmas [← (Kernel.prove e [] : Session Proof)]
  replaceTop (← withHyps g (splice g.hyps i [t]))

/-! ## Backward reasoning -/

def apply (source : Source) : TacticM Unit := do
  let g ← topGoal
  let thm ← (liftM (source.thm g) : Session Term)
  let rule ← (liftM (Rewrite.HornRule.ofTerm thm none : Fresh _) : Session Rewrite.HornRule)
  let w ← (theWorld : Session World)
  match ← (liftM (rule.backward g.goal w.overloads : Fresh _) : Session (Option (Substitution × Term))) with
  | none => refuse "Apply tactic failed to apply lemma"
  | some (σ, new) =>
    if !rule.vars.isEmpty then
      let ts ← (liftM (values σ rule.vars) : Session (List Term))
      let pf ← match source with
        | .proof p => (liftM (Kernel.instan ts p) : Session Proof)
        | .hyp _ => (liftM (Kernel.instan2 ts thm) : Session Proof)
      addLemmas [pf]
    replaceTop { g with goal := new }

/-- By the scheme that is given, or else by that of the sort. -/
def induct (x : Term) (scheme : Option (Term → Term → Session Proof) := none) : TacticM Unit := do
  let g ← topGoal
  let P ← (liftM (g.goal.lambda [x]) : Session Term)
  let pf ← ((scheme.getD Kernel.induct) x P : Session Proof)
  addLemmas [pf]
  apply (.proof pf)
  let g ← topGoal
  match g.goal with
  | .app f args =>
    if f.isOp "and" then
      let g ← take
      args.reverse.forM fun c => put { g with goal := c }
  | _ => pure ()

def auto (by' : List Proof) (o : Help := {}) : TacticM Unit := do
  let g ← currentGoal
  let thm ← (liftM (underHyps g.hyps g.goal) : Session Term)
  addLemmas [← (prove thm by' o : Session Proof)]
  let _ ← take

def newGoal (new : Term) (by' : List Proof) (o : Help := {}) : TacticM Unit := do
  let g ← topGoal
  let thm ← (liftM (underHyps (g.hyps ++ [new]) g.goal) : Session Term)
  addLemmas [← (prove thm by' o : Session Proof)]
  replaceTop { g with goal := new }

def have' (conc : Term) (by' : List Proof) (o : Help := {}) : TacticM Unit := do
  let g ← take
  let thm ← (liftM (underHyps g.hyps conc) : Session Term)
  let o ← (liftM o.plain : Session Kernel.Options)
  addLemmas [← (Kernel.prove thm by' o : Session Proof)]
  put (← withHyps g (g.hyps ++ [conc]))

def assumption : TacticM Unit := do
  let g ← take
  if g.hyps.contains g.goal then return
  refuse "Assumption tactic failed"

def assumeGoal : TacticM Unit := do
  let g ← take
  addLemmas [← (Kernel.assume g.goal [] : Session Proof)]

def generalize (vs : List Term) : TacticM Unit := do
  let g ← take
  let t ← (liftM (g.goal.quantify .forall vs) : Session Term)
  addLemmas [← (liftM (Kernel.instan2 vs t) : Session Proof)]
  put { g with goal := t }

def «show» (thm : Term) : TacticM Unit := do
  if thm ≠ (← topGoal).goal then refuse "Goal does not match"

/-- Removes a hypothesis from the context of the goal, for all goals that share it. -/
def clear (n : Int) : TacticM Unit := do
  let g ← currentGoal
  let _ ← (liftM (item g.hyps n) : Session Term)
  changeAttempt (Attempt.clearShared g.context.number (place g.hyps.length n).toNat)

/-! ## The whole attempt -/

def push : TacticM Unit := changeAttempt Attempt.save

def pop : TacticM Unit := do
  match (← theAttempt).saved with
  | [] => throw .violated
  | s :: rest => changeAttempt fun a => { a with goals := s.goals, lemmas := s.lemmas, saved := rest }

def search (at' : Option Int) (library : Search.Library) : TacticM (List String) := do
  let g ← topGoal
  let t ← match at' with
    | none => pure g.goal
    | some i => (liftM (item g.hyps i) : Session Term)
  let hits ← (liftM (Search.all [.term t] library : Fresh _) : Session (List Search.Hit))
  return hits.map (·.1)

def qed (by' : List Proof) (o : Kernel.Options := {}) : TacticM Proof := do
  let a ← theAttempt
  (Kernel.prove a.thm (by' ++ a.lemmas) o : Session Proof)

end SortedLogic.Tactic

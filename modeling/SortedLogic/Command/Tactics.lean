import SortedLogic.Command.Basic
import SortedLogic.Tactic.Steps

/-!
# Commands of the tactics

Proof attempts and calculations. After each step the open goals are shown, the top of the stack last.
-/

namespace SortedLogic.Command.Tactics
open SortedLogic.Tactic

/-! ## The text of a goal -/

def constantText (t : Term) : String :=
  if t = .tt then "True" else if t = .ff then "False" else nameOf t

def listText (separator : String) (ts : List Term) : String :=
  "[" ++ separator.intercalate (ts.map constantText) ++ "]"

def listed (ts : List Term) : String :=
  let line := listText ", " ts
  if line.length ≤ 80 then line else listText ",\n " ts

def goalText (g : Goal) : String :=
  let hyps := listed g.hyps
  let goal := constantText g.goal
  let body := if hyps.length + goal.length ≤ 75 then hyps ++ " ?|- " ++ goal else hyps ++ "\n?|- " ++ goal
  if g.sig.isEmpty then body
  else
    let line := listText ", " g.sig
    if (listed g.sig).length + body.length ≥ 80 then line ++ ";\n" ++ body else line ++ " ; " ++ body

def attemptText (a : Attempt) : String :=
  match a.goals with
  | [] => "Nothing to do. Hooray!"
  | g :: _ => goalText g

/-! ## Attempts -/

def goal (g : Goal) : Data :=
  .record [("sig", terms g.sig), ("ctx", terms g.hyps), ("goal", term g.goal)]

def stateFields (a : Attempt) : Data.Fields :=
  [("goals", .each a.goals.reverse goal), ("lemmas", nat a.lemmas.length)]

def source (s : Derivation) (d : Data) : Session Source :=
  if d.has "pf" then .proof <$> s.proof (d.get "pf") else return .hyp (d.num "n")

def position? (d : Data) : Option Int :=
  match d.get "at" with
  | .int i => some i
  | _ => none

def quiet (x : TacticM Unit) : TacticM (List Term × Data) := do
  x
  return ([], .null)

def introducing (x : TacticM (List Term)) : TacticM (List Term × Data) := do
  let vs ← x
  return (vs, terms vs)

def step (s : Derivation) (d : Data) : TacticM (List Term × Data) := do
  let r := s.request d
  let n := d.num "n"
  let by' : TacticM (List Proof) := (s.proofsAt d "by" : Session _)
  let source : TacticM Source := (source s d : Session _)
  let get (k : String) : TacticM Term := (r.term k : Session _)
  let getAll (k : String) : TacticM (List Term) := (r.terms k : Session _)
  -- at a hypothesis, or else at the goal
  let either (inside : Int → TacticM Unit) (goal : TacticM Unit) := quiet (((position? d).map inside).getD goal)
  match d.str "do" with
  | "fixes" => introducing fixes
  | "fix" => introducing fix
  | "intros" =>
    let vs ← intros
    return (vs, if vs.isEmpty then .null else terms vs)
  | "einstan" => introducing (einstan n)
  | "ext" => introducing ext
  | "right" => quiet right
  | "symm" => quiet symm
  | "assumption" => quiet assumption
  | "admit" => quiet assumeGoal
  | "push" => quiet push
  | "pop" => quiet pop
  | "left" => quiet (left n)
  | "simp" => either simpAt (simpGoal (r.flag "unfold"))
  | "cases" => quiet (cases (← get "t"))
  | "auto" => quiet (auto (← by'))
  | "instan" => quiet (instan n (← getAll "ts"))
  | "split" => either splitAt split
  | "exists" => quiet (provide (← getAll "ts"))
  | "rw" | "rewrite" => quiet (rewrite (← source) (position? d) (r.flag "rev"))
  | "eq" => quiet (eqTo (← get "rhs") (← by'))
  | "newgoal" => quiet (newGoal (← get "goal") (← by'))
  | "unfold" =>
    let fs ← ((d.all "decls").mapM r.readSymbol : Session _)
    either (unfoldAt fs) (unfoldGoal fs)
  | "apply" => quiet (apply (← source))
  | "induct" => quiet (induct (← get "x"))
  | "clear" => quiet (clear n)
  | "generalize" => quiet (generalize (← getAll "vs"))
  | "show" => quiet («show» (← get "thm"))
  | "have" => quiet (have' (← get "conc") (← by'))
  | "search" =>
    let library ← (r.library "db" : Session _)
    return ([], .ofTexts (← search (position? d) library))
  | "qed" => return ([], term (← qed (← by')).thm)
  | _ => return ([], .text (attemptText (← theAttempt)))

def attemptStep : Derivation × Attempt → Data → Session ((Derivation × Attempt) × Checked Data)
  | (s, a), d => ExceptT.mk fun w =>
    match (ExceptT.run (step s d)).run (w, a) with
    | (.ok (vs, answer), w, a) => (.ok ((s.keep d none vs, a), .ok answer), w)
    | (.error f, w, a) => (.ok ((s, a), .error f), w)

def attempt (naming : Naming) : Handler := fun r => do
  let goal ← r.term "goal"
  let proofs ← r.library "axioms"
  let shown (s : Derivation × Attempt) (done : Checked Data) : Data := .record (outcome naming done ++ stateFields s.2)
  let (answers, _, a) ← runSteps attemptStep shown (⟨proofs, r.scope⟩, Attempt.start goal) (r.all "steps")
  let summary : Data := .record [("lemmas", terms (a.lemmas.map Proof.thm)), ("copy", .bool true),
    ("empty", .bool a.goals.isEmpty)]
  return .list (answers ++ [summary])

/-! ## Calculations -/

def calculationFields (c : Calculation) : Data.Fields :=
  [("mode", .text c.relation.sign), ("iterm", term c.current)]

def relationOf (d : Data) : Option Relation :=
  [("le", Relation.le), ("lt", .lt), ("ge", .ge), ("gt", .gt)].lookup (d.str "do")

def calculationStep (s : Derivation) (c : Calculation) (d : Data) : Session (Calculation × Checked Data) := do
  let (c, refused) ← c.step (relationOf d) (← (s.request d).term "rhs") (← s.proofsAt d "by")
  return (c, match refused with
    | some f => .error f
    | none => .ok (term c.proof.thm))

def calculation (naming : Naming) : Handler := fun r => do
  let names ← r.vars "vars"
  let r := r.withVars names
  let lhs ← r.term "lhs"
  let assumptions ← r.terms "assume"
  let proofs ← r.library "axioms"
  let c ← Calculation.start (constants names) lhs assumptions
  let shown (c : Calculation) (done : Checked Data) : Data := .record (outcome naming done ++ calculationFields c)
  let (steps, _) ← runSteps (calculationStep ⟨proofs, r.scope⟩) shown c (r.all "steps")
  return .list (term c.proof.thm :: steps)

end SortedLogic.Command.Tactics

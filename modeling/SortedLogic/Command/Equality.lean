import SortedLogic.Command.Basic
import SortedLogic.EGraph

/-!
# Commands on equality graphs
-/

namespace SortedLogic.Command.Equality

structure State where
  graph : EGraph
  aside : List (String × EGraph) := []

def classes (g : EGraph) : Data := .sorted g.classes sortedTerms

def leastMember (g : EGraph) (t : Term) : Data :=
  ((Data.sort ((g.terms.filter (g.same t)).map term)).head?).getD .null

def optionalText : Data → Option String
  | .text s => some s
  | _ => none

def readCosts (d : Data) : Term → Int
  | .app f _ => if d.has f.name then d.num f.name else 1
  | _ => 1

def act {α : Type} (a : EGraph.Action α) (show' : α → Data) (s : State) : Checked Data × State :=
  let (answer, g) := a s.graph
  (show' <$> answer, { s with graph := g })

def ask (answer : EGraph → Checked Data) (s : State) : Checked Data × State := (answer s.graph, s)

def nothing : Unit → Data := fun _ => .null

def step (unsat : EGraph.Refuter) (r : Request) : Session (State → Checked Data × State) := do
  let t : Session Term := r.term "t"
  let pair : Session (Term × Term) := do return (← r.term "t1", ← r.term "t2")
  let vars : Session Vars := r.vars "vs"
  match r.str "do" with
  | "add" => return act (EGraph.add (← t)) nothing
  | "union" => do
    let (t, u) ← pair
    let addFirst := !r.has "add" || r.flag "add"
    return act (EGraph.union unsat t u addFirst (optionalText (r.get "reason"))) .bool
  | "rebuild" => return act (EGraph.rebuild unsat) nothing
  | "same" => do
    let (t, u) ← pair
    return ask fun g => .ok (.bool (g.same t u))
  | "is_eq" => do
    let (t, u) ← pair
    return act (EGraph.isEq unsat t u) .bool
  | "in_terms" => return act (EGraph.isKnown unsat (← t)) .bool
  | "rw" => do
    let vars ← vars
    let inner := r.withVars vars
    let lhs ← inner.term "lhs"
    let rhs ← inner.term "rhs"
    let at' (ts : List Term) : Checked (Term × Term) := do
      return (← lhs.substitute ((constants vars).zip ts), ← rhs.substitute ((constants vars).zip ts))
    return act (EGraph.rewrite unsat (vars.map (·.2)) at') nothing
  | "ematch" => do
    let vars ← vars
    let pattern ← (r.withVars vars).term "pat"
    return fun s =>
      act (EGraph.ematch unsat (constants vars) pattern) (.sorted · fun ts => .each ts (leastMember s.graph)) s
  | "iter" => do
    let vars ← vars
    return ask fun g => .ok (nat (g.tuples (vars.map (·.2))).length)
  | "extract" => do
    let t ← t
    return ask fun g => return term (← g.extract (readCosts (r.get "costs")) t)
  | "get_proof" => do
    let (t, u) ← pair
    let shown : Term × Term × Option String → Data := fun (a, b, why) => .list [term a, term b, .orNull .text why]
    return ask fun g => return .sorted (← g.reasons unsat t u) shown
  | "eclasses" =>
    return ask fun g => .ok (.sorted g.nodes fun ns =>
      .sorted (EGraph.headCounts ns) fun (f, n) => .pair (.text f.name) (nat n))
  | "simplify" => return act (EGraph.simplify (← theWorld).simplify) nothing
  | "dot" =>
    return ask fun g =>
      let d := g.diagram
      .ok (.record [("labels", .sorted d.labels .text), ("edges", nat d.edges), ("clusters", nat d.clusters)])
  | "copy" => return fun s => (.ok .null, ⟨s.graph.copy, (r.str "as", s.graph) :: s.aside⟩)
  | "switch" =>
    return fun s => match s.aside.lookup (r.str "to") with
      | some g => (.ok .null, { s with graph := g })
      | none => (noKey, s)
  | _ => noKey

def equalityGraph (naming : Naming) : Handler := fun r => do
  let w ← theWorld
  let unsat : EGraph.Refuter := ⟨w.unsat w.datatypes, w.has⟩
  let shown (s : State) (done : Checked Data) : Data :=
    .record (outcome naming done ++ [("classes", classes s.graph)])
  answers (fun s d => return ((← step unsat (r.at' d)) s).swap) shown ⟨{ keepsReasons := r.flag "proof" }, []⟩
    (r.all "steps")

end SortedLogic.Command.Equality

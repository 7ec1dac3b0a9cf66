import SortedLogic.Print.Infix
import SortedLogic.Term.Build

/-!
# Equality graphs

A set of terms, closed under subterms, with a partition into classes: a map from a term to another one of its class. A solver
decides which further classes belong together.
-/

namespace SortedLogic

inductive Assertion.Record where
  /-- It is used, and never named as a reason. -/
  | anonymous
  /-- It is named as a reason, and what was said about it is not known here. -/
  | forgotten
  | said (left right : Term) (reason : Option String)

structure Assertion where
  equation : Term
  known : Assertion.Record

def Assertion.isAnonymous (a : Assertion) : Bool :=
  match a.known with
  | .anonymous => true
  | _ => false

def Assertion.said? (a : Assertion) : Checked (Option (Term × Term × Option String)) :=
  match a.known with
  | .anonymous => .ok none
  | .forgotten => .error .noKey
  | .said t u reason => .ok (some (t, u, reason))

def Assertion.forget (a : Assertion) : Assertion :=
  match a.known with
  | .said .. => { a with known := .forgotten }
  | _ => a

structure EGraph where
  terms : List Term := []
  parent : List (Term × Term) := []
  /-- For each sort, the terms that stand for the classes of that sort. -/
  roots : List (Srt × List Term) := []
  assertions : List Assertion := []
  keepsReasons : Bool := false

namespace EGraph

/-- Operations change the graph and may be refused; what they changed before stays. -/
abbrev Action := ExceptT Fault (StateM EGraph)

/-- A solver, which says that formulas cannot hold together, and the sorts whose terms have equations (`eq`) or inequations
(`ne`) of their own. What these give is no formula for it. -/
structure Refuter where
  unsat : List Term → Bool
  overloads : String → Srt → Bool := fun _ _ => false

instance : CoeFun Refuter fun _ => List Term → Bool := ⟨Refuter.unsat⟩

def graph : Action EGraph := fun g => (.ok g, g)
def change (f : EGraph → EGraph) : Action Unit := fun g => (.ok (), f g)

/-! ## Classes -/

def parent? (parent : List (Term × Term)) (t : Term) : Option Term :=
  (parent.find? (·.1 = t)).map (·.2)

def findFrom (parent : List (Term × Term)) : Nat → Term → Term
  | 0, t => t
  | fuel + 1, t =>
    match parent? parent t with
    | some u => findFrom parent fuel u
    | none => t

variable (g : EGraph)

def find (t : Term) : Term := findFrom g.parent g.parent.length t

def same (t u : Term) : Bool := g.find t = g.find u

def rootsOf (s : Srt) : List Term := ((g.roots.find? (·.1 = s)).map (·.2)).getD []

def changeRoots (f : List Term → List Term) (s : Srt) : List (Srt × List Term) → List (Srt × List Term)
  | [] => [(s, f [])]
  | (r, ts) :: rest => if r = s then (r, f ts) :: rest else (r, ts) :: changeRoots f s rest

def addRoot (t : Term) : EGraph :=
  { g with roots := changeRoots (fun ts => if ts.contains t then ts else ts ++ [t]) t.sort g.roots }

def join (t u : Term) : EGraph :=
  { g with
    parent := g.parent ++ [(g.find t, g.find u)]
    roots := changeRoots (·.filter (· ≠ g.find t)) t.sort g.roots }

def classes : List (List Term) :=
  (g.terms.map g.find).eraseDups.map fun r => g.terms.filter fun t => g.find t = r

mutual
def add : Term → Action Unit
  | .app f args => do
    let t := Term.app f args
    if !(← graph).terms.contains t then
      change fun g => { g.addRoot t with terms := g.terms ++ [t] }
      addAll args
  | _ => throw .violated

def addAll : List Term → Action Unit
  | [] => return ()
  | t :: ts => do
    add t
    addAll ts
end

/-! ## Questions to the solver -/

def equations : List Term := g.assertions.map Assertion.equation

variable (unsat : Refuter)

def refutes (p : Term) : Bool := unsat (g.equations ++ [p])

def equation (t u : Term) : Checked Term := if unsat.overloads "eq" t.sort then illFormed else t.eq u

def separation (t u : Term) : Checked Term := if unsat.overloads "ne" t.sort then illFormed else t.neq u

def isEq (t u : Term) : Action Bool := do
  let g ← graph
  if g.same t u then return true else return g.refutes unsat (← separation unsat t u)

def isKnown (t : Term) : Action Bool := do
  let g ← graph
  if g.terms.contains t then return true
  let apart ← (g.rootsOf t.sort).mapM fun r => (liftM (separation unsat t r) : Action Term)
  g.refutes unsat <$> Term.and apart

/-! ## Equations -/

def union (t u : Term) (addFirst : Bool) (reason : Option String) : Action Bool := do
  if addFirst then
    add t
    add u
  if (← graph).same t u then return false
  change (·.join t u)
  let equation ← equation unsat t u
  change fun g =>
    { g with
      assertions := g.assertions ++ [⟨equation, if g.keepsReasons then .said t u reason else .anonymous⟩] }
  return true

def closePair (t u : Term) : Action Unit := do
  let g ← graph
  if !g.same t u && g.refutes unsat (← separation unsat t u) then change (·.join t u)

def closeRoots (unsat : Refuter) (before : List Term) : List Term → Action Unit
  | [] => return ()
  | t :: ts => do
    before.forM (closePair unsat t)
    closeRoots unsat (before ++ [t]) ts

def rebuild : Action Unit := do
  (← graph).roots.forM fun (_, ts) => closeRoots unsat [] ts

/-! ## Matching -/

def choices {α : Type} : List (List α) → List (List α)
  | [] => [[]]
  | xs :: rest => xs.flatMap fun x => (choices rest).map (x :: ·)

def tuples (ss : List Srt) : List (List Term) := choices (ss.map g.rootsOf)

def ematch (vs : List Term) (pattern : Term) : Action (List (List Term)) := do
  ((← graph).tuples (vs.map Term.sort)).filterM fun ts => do
    isKnown unsat (← (liftM (pattern.substitute (vs.zip ts)) : Action Term))

/-- Equates the two terms that `f` makes of class representatives of the sorts, wherever the first one is known. -/
def rewrite (ss : List Srt) (f : List Term → Checked (Term × Term)) : Action Unit := do
  ((← graph).tuples ss).forM fun ts => do
    let (l, r) ← (liftM (f ts) : Action (Term × Term))
    if ← isKnown unsat l then
      add r
      let _ ← union unsat l r true none

def simplify (simpler : Term → Term) : Action Unit := do
  let pairs := (← graph).terms.filterMap fun t => if simpler t = t then none else some (t, simpler t)
  pairs.forM fun (t, u) => do
    add u
    if !(← graph).same t u then change (·.join t u)

/-! ## Copies -/

def copy : EGraph :=
  { g with assertions := g.assertions.map Assertion.forget, keepsReasons := false }

/-! ## Why two terms are equal

The equations that an equality needs. Equations are left out one after the other as long as the rest still
suffices, so no equation of the answer can be spared. -/

def shrink (unsat : Refuter) (goal : Term) (kept : List Assertion) : List Assertion → List Assertion
  | [] => kept
  | a :: rest =>
    if !a.isAnonymous && unsat ((kept ++ rest).map Assertion.equation ++ [goal]) then shrink unsat goal kept rest
    else shrink unsat goal (kept ++ [a]) rest

def reasons (t u : Term) : Checked (List (Term × Term × Option String)) := do
  let goal ← separation unsat t u
  if !g.refutes unsat goal then throw .violated
  return (← (shrink unsat goal [] g.assertions).mapM Assertion.said?).filterMap id

/-! ## The cheapest term of a class -/

structure Best where
  root : Term
  cost : Int
  term : Term

def best? (bs : List Best) (root : Term) : Option Best := bs.find? (·.root = root)

def improve (bs : List Best) (b : Best) : List Best :=
  if (best? bs b.root).isSome then bs.map fun a => if a.root = b.root then b else a else bs ++ [b]

variable (cost : Term → Int)

def costOf (g : EGraph) (bs : List Best) (t : Term) : Option Int := do
  let cs ← t.children.mapM fun c => (best? bs (g.find c)).map Best.cost
  return cost t + cs.foldl (· + ·) 0

def consider (g : EGraph) (state : List Best × Bool) (t : Term) : List Best × Bool :=
  match costOf cost g state.1 t with
  | none => state
  | some n =>
    let r := g.find t
    if (best? state.1 r).all (n < ·.cost) then (improve state.1 ⟨r, n, t⟩, true) else state

def sweep (g : EGraph) (bs : List Best) : List Best × Bool :=
  g.terms.foldl (consider cost g) (bs, false)

def settle (cost : Term → Int) (g : EGraph) : Nat → List Best → List Best
  | 0, bs => bs
  | fuel + 1, bs =>
    match sweep cost g bs with
    | (bs, true) => settle cost g fuel bs
    | (bs, false) => bs

def assemble (g : EGraph) (bs : List Best) : Nat → Term → Checked Term
  | 0, _ => .error .tooDeep
  | fuel + 1, t =>
    match best? bs (g.find t) with
    | none => .error .noKey
    | some b =>
      match b.term with
      | .app f args => do f.apply (← args.mapM (assemble g bs fuel))
      | u => .ok u

/-- The cheapest term of the class. Each sweep that changes something makes one more class final, and the terms chosen for a
term and its arguments are of different classes. -/
def extract (g : EGraph) (t : Term) : Checked Term :=
  assemble g (settle cost g (g.terms.length + 1) []) (g.terms.length + 1) t

/-! ## Views of an equality graph -/

structure Node where
  head : Symbol
  args : List Term
  deriving DecidableEq

def nodeOf? (g : EGraph) : Term → Option Node
  | .app f args => some ⟨f, args.map g.find⟩
  | _ => none

def nodes (g : EGraph) : List (List Node) :=
  g.classes.map fun ts => (ts.filterMap g.nodeOf?).eraseDups

def headCounts (ns : List Node) : List (Symbol × Nat) :=
  (ns.map Node.head).eraseDups.map fun f => (f, (ns.filter (·.head = f)).length)

def Node.label (n : Node) : String :=
  if n.head.name = "Int" || n.head.name = "Real" then Print.Infix.text (.app n.head [])
  else n.head.name

structure Diagram where
  labels : List String
  edges : Nat
  clusters : Nat

def diagram (g : EGraph) : Diagram :=
  let all := g.nodes.flatten
  ⟨all.map Node.label, all.foldl (fun k n => k + n.args.length) 0, g.nodes.length⟩

end EGraph
end SortedLogic

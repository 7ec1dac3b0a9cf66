import Std.Data.HashMap
import SortedLogic.Datatype
import SortedLogic.Ground

/-!
# The prover

A decision procedure for formulas without quantifiers: connectives, equality with congruence, datatypes, and the builtin
operations on literals.

All subterms become nodes of one graph. `saturate` merges classes as the rules demand; `search` decides truth values, then
constructors, until every branch is contradictory or one is complete.
-/

namespace SortedLogic.Prover
open Std (HashMap)

def nameless : Term → Term
  | .var i s => .var i s
  | .app f args => .app f (args.map nameless)
  | .bind k vars body => .bind k (vars.map fun (_, s) => ("", s)) (nameless body)

inductive Head where
  | symbol (f : Symbol)
  | closed (t : Term)
  deriving DecidableEq

def Head.sort : Head → Srt
  | .symbol f => f.range
  | .closed t => t.sort

structure Graph where
  heads : Array Head
  nodes : Array (Nat × List Nat)
  parent : Array Nat
  byKey : HashMap (List Nat) Nat

namespace Graph

def findFrom (parent : Array Nat) : Nat → Nat → Nat
  | 0, i => i
  | fuel + 1, i =>
    let p := parent.getD i i
    if p = i then i else findFrom parent fuel p

variable (g : Graph)

def find (i : Nat) : Nat := findFrom g.parent g.parent.size i

def merge (i j : Nat) : Graph :=
  let a := g.find i
  let b := g.find j
  if a = b then g
  else if a < b then { g with parent := g.parent.setIfInBounds b a }
  else { g with parent := g.parent.setIfInBounds a b }

def internHead (h : Head) : Nat × Graph :=
  match g.heads.findIdx? (· = h) with
  | some i => (i, g)
  | none => (g.heads.size, { g with heads := g.heads.push h })

def intern (h : Head) (args : List Nat) : Nat × Graph :=
  let (k, g) := g.internHead h
  match g.byKey[k :: args]? with
  | some i => (i, g)
  | none =>
    let i := g.nodes.size
    (i, { g with
      nodes := g.nodes.push (k, args), parent := g.parent.push i, byKey := g.byKey.insert (k :: args) i })

def head (i : Nat) : Head := g.heads.getD (g.nodes.getD i (0, [])).1 (.closed .tt)

def args (i : Nat) : List Nat := (g.nodes.getD i (0, [])).2

def empty : Graph :=
  let g : Graph := ⟨#[], #[], #[], {}⟩
  let (_, g) := g.intern (.symbol .tt) []
  let (_, g) := g.intern (.symbol .ff) []
  g

def apart (g : Graph) (s : Srt) : List Nat → List Nat × Graph
  | [] => ([], g)
  | i :: rest =>
    let (here, g) := rest.foldl (fun (acc, g) j =>
      let (e, g) := intern g (.symbol (.eq s)) [i, j]
      let (n, g) := g.intern (.symbol .not) [e]
      (n :: acc, g)) (([] : List Nat), g)
    let (later, g) := apart g s rest
    (here ++ later, g)

mutual
def addTerm (g : Graph) : Term → Nat × Graph
  | .app f args =>
    let (ids, g) := addTerms g args
    if f.isOp "distinct" then
      let (ns, g) := g.apart (f.domain.headD .bool) ids
      g.intern (.symbol .and) ns
    else g.intern (.symbol f) ids
  | t => g.intern (.closed (nameless t)) []

def addTerms (g : Graph) : List Term → List Nat × Graph
  | [] => ([], g)
  | t :: ts =>
    let (i, g) := addTerm g t
    let (is, g) := addTerms g ts
    (i :: is, g)
end
end Graph

structure Facts where
  roots : Array Nat
  literal : Array (Option Nat)
  constructor : Array (Option Nat)

namespace Facts

def root (k : Facts) (i : Nat) : Nat := k.roots.getD i i
def literal? (k : Facts) (i : Nat) : Option Nat := k.literal.getD (k.root i) none
def constructor? (k : Facts) (i : Nat) : Option Nat := k.constructor.getD (k.root i) none

def truth? (k : Facts) (i : Nat) : Option Bool :=
  if k.root i = k.root 0 then some true else if k.root i = k.root 1 then some false else none

end Facts

variable (g : Graph)

/-- Reads off what is known, with the merges that constructors force. Refused (`none`) on a contradiction. -/
def facts? : Option (Facts × List (Nat × Nat)) := do
  let n := g.nodes.size
  let roots := (Array.range n).map g.find
  if roots.getD 0 0 = roots.getD 1 1 then none
  let start : Facts := ⟨roots, Array.replicate n none, Array.replicate n none⟩
  (List.range n).foldlM (fun (k, merges) i =>
    match g.head i with
    | .symbol f =>
      let r := k.root i
      if f.isLiteral then
        match k.literal.getD r none with
        | none => some ({ k with literal := k.literal.setIfInBounds r (some i) }, merges)
        | some j => if g.head j = .symbol f then some (k, merges) else none
      else if f.isConstructor then
        match k.constructor.getD r none with
        | none => some ({ k with constructor := k.constructor.setIfInBounds r (some i) }, merges)
        | some j =>
          if g.head j = .symbol f then some (k, (g.args i).zip (g.args j) ++ merges) else none
      else some (k, merges)
    | .closed _ => some (k, merges)) (start, [])

variable (k : Facts)

def junction (i : Nat) (args : List Nat) (on : Bool) : List (Nat × Nat) :=
  let yes := if on then 0 else 1
  let no := if on then 1 else 0
  if args.any (k.truth? · = some on) then [(i, yes)]
  else
    let open' := args.filter (k.truth? · = none)
    if open'.isEmpty then [(i, no)]
    else if k.truth? i = some (!on) then open'.map (·, no)
    else match k.truth? i, open' with
      | some _, [a] => [(a, yes)]
      | _, _ => []

def connective (i : Nat) (f : Symbol) (args : List Nat) : List (Nat × Nat) :=
  let flip (b : Bool) : Nat := if b then 1 else 0
  match f.name, args with
  | "and", _ => junction k i args false
  | "or", _ => junction k i args true
  | "not", [a] =>
    (match k.truth? a with | some b => [(i, flip b)] | none => []) ++
    (match k.truth? i with | some b => [(a, flip b)] | none => [])
  | "=>", [a, b] =>
    if k.truth? a = some false || k.truth? b = some true then [(i, 0)]
    else if k.truth? a = some true then [(i, b)]
    else if k.truth? b = some false then
      (match k.truth? i with | some v => [(a, flip v)] | none => [])
    else if k.truth? i = some false then [(a, 0), (b, 1)] else []
  | "xor", [a, b] =>
    match k.truth? a, k.truth? b, k.truth? i with
    | some x, some y, _ => [(i, flip (x == y))]
    | some x, none, some v => [(b, flip (x == v))]
    | none, some y, some v => [(a, flip (y == v))]
    | _, _, _ => if k.root a = k.root b then [(i, 1)] else []
  | "=", [a, b] =>
    if k.root a = k.root b then [(i, 0)]
    else if k.truth? i = some true then [(a, b)]
    else if f.domain.headD .int = .bool then
      match k.truth? a, k.truth? b, k.truth? i with
      | some x, some y, _ => [(i, flip (x != y))]
      | some x, none, some false => [(b, flip x)]
      | none, some y, some false => [(a, flip y)]
      | _, _, _ => []
    else
      match k.literal? a, k.literal? b, k.constructor? a, k.constructor? b with
      | some x, some y, _, _ => if x = y then [] else [(i, 1)]
      | _, _, some x, some y => if g.head x = g.head y then [] else [(i, 1)]
      | _, _, _, _ => []
  | "if", [c, a, b] =>
    match k.truth? c with
    | some true => [(i, a)]
    | some false => [(i, b)]
    | none => if k.root a = k.root b then [(i, a)] else []
  | _, _ => []

def inspection (i : Nat) (f : Symbol) (args : List Nat) : List (Nat × Nat) :=
  match f.role, args with
  | .recognizer c, [a] =>
    match k.constructor? a with
    | some j =>
      match g.head j with
      | .symbol h => [(i, if h.name = c then 0 else 1)]
      | .closed _ => []
    | none => []
  | .accessor c p, [a] =>
    match k.constructor? a with
    | some j =>
      match g.head j with
      | .symbol h => if h.name = c then ((g.args j)[p]?.map fun x => (i, x)).toList else []
      | .closed _ => []
    | none => []
  | _, _ => []

/-- The literal that an operation has on arguments whose classes hold literals. -/
def folded? (f : Symbol) (args : List Nat) : Option Symbol := do
  if args.isEmpty then none
  let lits ← args.mapM fun a => do
    match g.head (← k.literal? a) with
    | .symbol l => some (Term.app l [])
    | .closed _ => none
  match Ground.fold? f lits with
  | some (.app l []) => some l
  | _ => none

def congruences : List (Nat × Nat) :=
  ((List.range g.nodes.size).foldl (fun (seen, merges) i =>
    let (h, args) := g.nodes.getD i (0, [])
    if args.isEmpty then (seen, merges)
    else
      let key := h :: args.map k.root
      match seen[key]? with
      | some j => (seen, (i, j) :: merges)
      | none => (seen.insert key i, merges)) (({} : HashMap (List Nat) Nat), ([] : List (Nat × Nat)))).2

def acyclic : Bool :=
  let classes := (List.range g.nodes.size).filter fun i =>
    k.root i = i && (k.constructor? i).isSome
  let rec prune : Nat → List Nat → List Nat
    | 0, cs => cs
    | fuel + 1, cs =>
      let rest := cs.filter fun c =>
        ((k.constructor? c).map g.args |>.getD []).any fun a => cs.contains (k.root a)
      if rest.length = cs.length then cs else prune fuel rest
  (prune (classes.length + 1) classes).isEmpty

/-- Applies all rules until nothing changes. Gives nothing back on a contradiction. -/
def saturate : Nat → Graph → Option (Graph × Facts)
  | 0, g => (facts? g).map fun (k, _) => (g, k)
  | fuel + 1, g => do
    let (k, merges) ← facts? g
    let step := (List.range g.nodes.size).foldl (fun (acc : List (Nat × Nat) × Graph) i =>
      let (merges, g) := acc
      match g.head i with
      | .closed _ => (merges, g)
      | .symbol f =>
        let args := g.args i
        match f.role with
        | .builtin _ =>
          let merges := connective g k i f args ++ merges
          match folded? g k f args with
          | some l =>
            let (j, g) := g.intern (.symbol l) []
            ((i, j) :: merges, g)
          | none => (merges, g)
        | _ => (inspection g k i f args ++ merges, g)) (merges ++ congruences g k, g)
    let (merges, g') := step
    let g'' := merges.foldl (fun g (i, j) => g.merge i j) g'
    let changed := g''.nodes.size != g.nodes.size || merges.any fun (i, j) => g'.find i != g'.find j
    if changed then saturate fuel g'' else if acyclic g k then some (g, k) else none

def isFinite (datatypes : List Datatype) : Nat → Srt → Bool
  | _, .bool => true
  | _, .bitvec w => w ≤ 4
  | 0, _ => false
  | fuel + 1, s =>
    match datatypes.find? (·.sort = s) with
    | some d => d.constructors.all fun c => c.symbol.domain.all (isFinite datatypes fuel)
    | none => false

def openTruth? : Option Nat :=
  (List.range g.nodes.size).find? fun i => (g.head i).sort = .bool && (k.truth? i).isNone

variable (datatypes : List Datatype)

def openValue? (g : Graph) (k : Facts) : Option (Nat × Datatype) :=
  let inspected := (List.range g.nodes.size).filterMap fun i =>
    match g.head i with
    | .symbol f =>
      match f.role with
      | .recognizer _ | .accessor .. => (g.args i).head?.map k.root
      | _ => none
    | .closed _ => none
  (List.range g.nodes.size).findSome? fun i => do
    let s := (g.head i).sort
    if !s.isDatatype || (k.constructor? i).isSome then none
    let d ← datatypes.find? (·.sort = s)
    if inspected.contains (k.root i) || isFinite datatypes datatypes.length s then some (i, d) else none

def giveConstructor (i : Nat) (c : Constructor) : Graph :=
  let (fields, g) := c.accessors.foldl (fun (fs, g) a =>
    let (j, g) := Graph.intern g (.symbol a) [i]
    (fs ++ [j], g)) (([] : List Nat), g)
  let (v, g) := g.intern (.symbol c.symbol) fields
  g.merge i v

/-- Is there no way to complete the graph? Decides one node after the other. -/
def refutes (datatypes : List Datatype) : Nat → Graph → Bool
  | 0, _ => false
  | fuel + 1, g =>
    match saturate (4 * g.nodes.size + 40) g with
    | none => true
    | some (g, k) =>
      match openTruth? g k with
      | some i => refutes datatypes fuel (g.merge i 0) && refutes datatypes fuel (g.merge i 1)
      | none =>
        match openValue? datatypes g k with
        | some (i, d) => d.constructors.all fun c => refutes datatypes fuel (giveConstructor g i c)
        | none => false

def unsat (formulas : List Term) : Bool :=
  let (ids, g) := Graph.empty.addTerms formulas
  let g := ids.foldl (fun g i => g.merge i 0) g
  refutes datatypes (4 * g.nodes.size + 64) g

def openGoal : Nat → Term → Fresh Term
  | fuel + 1, .bind .forall vars body => do
    let vs ← Term.freshVars Text.stem vars
    openGoal fuel (Term.openWith vs body)
  | _, t => return t

/-- `x = array-ext l r ⇒ (l = r) = (l[x] = r[x])`, which holds of all functions. -/
def extensional : Term → Bool
  | .app i [.app e [x, .app p [l, r]], .app b [.app e' [l', r'], .app e'' [.app s [l'', x'], .app s' [r'', x'']]]] =>
    i.isOp "=>" && p.isOp "array-ext" && [e, b, e', e''].all (·.isOp "=") && [s, s'].all (·.isOp "select") &&
      [l', l''].all (· = l) && [r', r''].all (· = r) && [x', x''].all (· = x)
  | _ => false

/-- Does the first relation, which holds between the first two terms, carry the second one on from the middle term? -/
def carries (g f : Symbol) : Bool :=
  f = g || g.isOp "=" || [("<=", "<"), (">=", ">"), ("bvsle", "bvslt"), ("bvsge", "bvsgt")].any fun (weak, strict) =>
    g.isOp weak && f.isOp strict

def ends (f : Symbol) (a b : Term) : List (Term × Term) := if f.isOp "=" then [(a, b), (b, a)] else [(a, b)]

/-- Transitivity below one list of variables and under one assumption: from the second and the third to the first. -/
def chained : Term → Term → Term → Bool
  | .bind k vs goal, .bind k' vs' p, .bind k'' vs'' q =>
    [k', k''].all (· = k) && [vs', vs''].all (· = vs) && chained goal p q
  | .app f [a, c], .app f' [x, y], .app g [x', y'] =>
    if f.isOp "=>" then f' = f && g = f && x = a && x' = a && chained c y y'
    else f' = f && carries g f && (ends f a c).any fun (a, c) => (ends g x' y').any fun (a', b) =>
      a' = a && (ends f x y).contains (b, c)
  | _, _, _ => false

def isChain (goal : Term) : List Term → Bool
  | [p, q] => chained goal p q
  | _ => false

/-- A universal goal may be a hypothesis as it stands; otherwise it is shown for new constants. -/
def entails (hyps : List Term) (goal : Term) : Fresh Bool := do
  if extensional goal || isChain goal hyps then return true
  if goal.isForall && unsat datatypes (.app .not [goal] :: hyps) then return true
  let goal ← openGoal goal.size goal
  return unsat datatypes (.app .not [goal] :: hyps)

end SortedLogic.Prover

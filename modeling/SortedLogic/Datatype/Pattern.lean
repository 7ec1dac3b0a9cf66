import SortedLogic.Kernel
import SortedLogic.Matching

/-!
# Matching on datatypes

A pattern is a term of constructors, literals, defined constants and variables. In definitions by equations every recursive call
has to be on a part of the first pattern.
-/

namespace SortedLogic.Datatype

structure Match where
  conditions : List Term := []
  values : Substitution := []

def isComparedLiteral (t : Term) : Bool :=
  t.int?.isSome || t.rat?.isSome || t = .tt || t = .ff

def Match.requireEq (w : World) (m : Match) (x t : Term) : Checked Match :=
  return { m with conditions := m.conditions ++ [← w.equate x t] }

/-- The constructor of a pattern; an unknown one counts as the last of its datatype. -/
def constructorOf (w : World) (f : Symbol) : Checked Constructor :=
  match w.datatype? f.range with
  | none => .error .illFormed
  | some d =>
    match d.constructors.find? (·.symbol = f), d.constructors.getLast? with
    | some c, _ | none, some c => .ok c
    | none, none => .error .illFormed

mutual
/-- Matches `x` against a pattern. The last field of a constructor is matched first. -/
def matchPattern (w : World) (x : Term) (m : Match) : Term → Checked Match
  | .app f args =>
    if f.isConstructor then do
      let c ← constructorOf w f
      let here ← c.recognizer.apply [x]
      matchFields w x { m with conditions := m.conditions ++ [here] } c.accessors args
    else
      let pattern : Term := .app f args
      if isComparedLiteral pattern then m.requireEq w x pattern
      else if !args.isEmpty then .error (.invalid (some "Not a supported pattern"))
      else if w.isDefined f then m.requireEq w x pattern
      else match m.values.get? pattern with
        | some t => do
          let m ← m.requireEq w x t
          return { m with values := m.values.set pattern x }
        | none => .ok { m with values := m.values.set pattern x }
  | _ => .error (.invalid (some "Not a supported pattern"))

def matchFields (w : World) (x : Term) (m : Match) : List Symbol → List Term → Checked Match
  | a :: accessors, p :: patterns => do
    let m ← matchFields w x m accessors patterns
    matchPattern w (← a.apply [x]) m p
  | _, _ => .ok m
end

/-- Matches several terms, each against its own pattern. A variable of several patterns keeps the last
value. -/
def matchAll (w : World) (cases : List (Term × Term)) : Checked Match :=
  cases.foldlM (fun m (x, pattern) => do
    let here ← matchPattern w x {} pattern
    return ⟨m.conditions ++ here.conditions, here.values.foldl (fun σ (v, t) => Substitution.set σ v t) m.values⟩) {}

def matchValue (x : Term) (cases : List (Term × Term)) (default? : Option Term) : Session Term := do
  let w ← theWorld
  let cases ← cases.mapM fun (pattern, body) => do
    let m ← matchPattern w x {} pattern
    let body ← if m.values.isEmpty then pure body else liftM (body.substitute m.values)
    let condition ← match m.conditions with
      | [] => pure Term.tt
      | [c] => pure c
      | cs => liftM (Term.and cs)
    pure (condition, some body)
  chain cases default?

/-- Is every call of `f` in `t` on a part of the pattern of the first argument? -/
def checkCalls (f : Symbol) (patterns : List Term) (t : Term) : Checked Unit := do
  for call in ← Term.calls f t do
    match call.children.head?, patterns.head? with
    | some a, some p =>
      if !(← Term.occurs a p) then
        throw (.invalid (some "Recursive call not structurally recursive on first argument"))
    | none, _ => throw .illFormed
    | some _, none => throw .outOfRange

def readEquation (w : World) (f : Symbol) (args : List Term) (e : Term) : Checked ((Term × Term) × Term) := do
  match Kernel.sides? e with
  | none => throw (.invalid (some "Case is not an equality"))
  | some (lhs, rhs) =>
    match lhs with
    | .app g patterns =>
      if g ≠ f then
        throw (.invalid (some "Left-hand side does not match previous function declaration"))
      let m ← matchAll w (args.zip patterns)
      let law ← e.quantify .forall (m.values.map (·.1))
      let condition ← Term.and m.conditions
      let value ← rhs.substitute m.values
      checkCalls f patterns rhs
      return ((condition, value), law)
    | _ => throw .illFormed

def defineByEquations (es : List Term) : Session (Definition × List Term) := do
  match es with
  | [] => throw .outOfRange
  | first :: _ =>
    match first.children.head? with
    | some (.app f _) =>
      let args ← f.domain.mapM fun s => (liftM (freshConst "c" s) : Session Term)
      let w ← theWorld
      let equations ← es.mapM fun e => (liftM (readEquation w f args e) : Session _)
      let body ← chain (equations.map fun ((c, t), _) => (c, some t)) none
      let d ← Kernel.define f.name args body
      return (d, equations.map (·.2))
    | _ => throw .illFormed

end SortedLogic.Datatype

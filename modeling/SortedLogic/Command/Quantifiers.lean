import SortedLogic.Command.Basic

/-!
# Commands on quantifiers and operations by sort

Quantifiers with conditions, chains of conditions, and methods for sorts.
-/

namespace SortedLogic.Command.Quantifiers
variable (naming : Naming) (r : Request)

def quantified (make : List Term → List Term → Session Term) : Answer := do
  let vars ← r.vars "vs"
  let args ← (r.withVars vars).terms "args"
  term <$> make (constants vars) args

def universal : Answer := quantified r forallWhere
def existential : Answer := quantified r existsWhere
def functional : Answer := quantified r lambdaWhere

def unique : Answer := quantified r fun vs args =>
  match vs with
  | v :: _ => existsUnique v args
  | [] => outOfRange

def call : Answer := return term (← callBinder (← r.term "t") (← r.terms "args"))

def cases : Answer := do
  let cs ← r.pairs "cases" r.readTerm fun d => some <$> r.readTerm d
  return term (← chain cs (← r.term? "default"))

def alternatives : Answer := do
  let cs ← (r.all "cases").mapM fun c => do (liftM (Term.and (← r.readTerms c)) : Session Term)
  term <$> Term.or cs

def caseSteps : Answer := do
  let (cs, d) ← (r.all "steps").foldlM (fun (acc : List Case × Option Term) s => do
    let (cs, d) := acc
    let get (k : String) : Session Term := r.readTerm (s.get k)
    if s.has "when" then return (cs ++ [(← get "when", none)], d)
    else if s.has "then" then
      let t ← get "then"
      match cs.getLast? with
      | some (c, _) => return (cs.dropLast ++ [(c, some t)], d)
      | none => outOfRange
    else return (cs, some (← get "otherwise"))) (([] : List Case), none)
  term <$> chain cs d

structure Table where
  name : Option String
  default : Option Symbol
  methods : List (Srt × Symbol) := []

def Table.register (t : Table) (s : Srt) (f : Symbol) : Table := { t with methods := Data.setField t.methods s f }

def Table.step (t : Table) (d : Data) : Session (Table × Data) := do
  let r := r.at' d
  let method? : Session (Option Symbol) := return t.methods.lookup (← r.sort "sort")
  match d.str "do" with
  | "register" =>
    let t := t.register (← r.sort "sort") (← r.symbol "f")
    return (t, nat t.methods.length)
  | "call" =>
    let args@(x :: _) := ← r.terms "args" | wrongKind
    match (t.methods.lookup x.sort).or t.default with
    | some f => return (t, term (← f.apply args))
    | none => unsupported "No implementation of"
  | "in" => return (t, .bool (← method?).isSome)
  | "get" =>
    let some f := ← method? | noKey
    return (t, .text f.name)
  | _ =>
    let vars ← r.vars "args"
    let body ← (r.withVars vars).term "body"
    let some name := t.name | violated
    let e ← Kernel.define name (constants vars) body
    let (_, s) :: _ := vars | outOfRange
    return (t.register s e.symbol, term e.law.thm)

def steps {σ : Type} (step : σ → Data → Session (σ × Data)) (s : σ) : Session (List Data) := Prod.fst <$>
  runSteps (plain step) (fun _ => fun
    | .ok a => .record [("ok", a)]
    | .error f => .record [("error", .text (naming f))]) s (r.all "steps")

def table : Answer := do
  let name := match r.get "name" with
    | .text s => some s
    | _ => none
  let default ← if (r.get "default").isNull then pure none else some <$> r.symbol "default"
  .list <$> steps naming r (Table.step r) { name, default }

end SortedLogic.Command.Quantifiers

import SortedLogic.Theory.Reader
import SortedLogic.Theory.Vocabulary

/-!
# Evaluating theory texts

An expression has a value in a context. A fact is taken as it is stated.
-/

namespace SortedLogic.Theory

structure Context where
  call : Call
  theory : String
  aliases : List (String × String) := []
  locals : Named := []
  inside : Bool := false

namespace Context

def find? (cx : Context) (w : World) (x : String) : Option Value :=
  cx.locals.lookup x <|> ((w.theory? cx.theory).getD []).lookup x <|> Vocabulary.names.lookup x

def lookup (cx : Context) (x : String) : Session Value := do (cx.find? (← theWorld) x).getDM (throw (.unbound x))

def lookupTerm (cx : Context) (x : String) : Session Term := do
  let .term t := ← cx.lookup x | illFormed
  return t

def withLocal (cx : Context) (x : String) (v : Value) : Context := { cx with locals := (x, v) :: cx.locals }

end Context

def theoryName (theory x : String) : Session Value := do
  ((((← theWorld).theory? theory).getD []).lookup x).getDM noField

def setTheoryName (theory x : String) (v : Value) : Session Unit :=
  changeWorld fun w =>
    let old := (w.theory? theory).getD []
    { w with theories := (theory, (x, v) :: old.filter (·.1 ≠ x)) :: w.theories.filter (·.1 ≠ theory) }

def decimalValue (s : String) : Checked Value := do
  let some x := (Text.rational? s).bind Binary64.ofRat? | noParse
  .ok (.float x)

mutual
def eval (cx : Context) : Expr → Session Value
  | .number n => return .int n
  | .decimal s => liftM (decimalValue s)
  | .text s => return .text s
  | .name x => cx.lookup x
  | .part (.name a) x =>
    match cx.aliases.lookup a with
    | some theory => theoryName theory x
    | none => do part (← cx.lookup a) x
  | .part e x => do part (← eval cx e) x
  | .call f args => do cx.call (← eval cx f) (← evals cx args) []
  | .index e places => do
    let e ← eval cx e
    match ← evals cx places with
    | [i] => index cx.call e i
    | is => index cx.call e (.tuple is)
  | .negate e => do negate cx.call (← eval cx e)
  | .invert e => do invert cx.call (← eval cx e)
  | .operator op a b => do operator cx.call op (← eval cx a) (← eval cx b)
  | .relate r a b => do relate cx.call r (← eval cx a) (← eval cx b)
  | .differ a b => do differ cx.call (← eval cx a) (← eval cx b)
  | .conjunction es => do return .term (← Value.conjunction (← evals cx es))
  | .disjunction es => do return .term (← Value.disjunction (← evals cx es))
  | .negation e => do
    let t ← (← eval cx e).toSort .bool
    .term <$> t.not
  | .implication a b => do return .term (← Value.implication (← eval cx a) (← eval cx b))
  | .bind q vars hyps body => do
    let vs ← vars.mapM cx.lookupTerm
    let hyps ← (← evals cx hyps).mapM fun v => (liftM v.toTerm : Session Term)
    let body ← (← eval cx body).toTerm
    .term <$> match q with
      | .every => forallWhere vs (hyps ++ [body])
      | .plain .lambda => body.lambda vs
      | .plain k => if k = .exists && !hyps.isEmpty then existsWhere vs (hyps ++ [body]) else body.quantify k vs
  | .list es => .list <$> evals cx es

def evals (cx : Context) : List Expr → Session (List Value)
  | [] => return []
  | e :: es => do return (← eval cx e) :: (← evals cx es)
end

variable (cx : Context)

def evalSort (e : Expr) : Session Srt := do
  let .sort s := ← eval cx e | wrongKind
  return s

def evalFormula (e : Expr) : Session Term := do (← eval cx e).toTerm

def assign (x : String) (v : Value) : Session Context := do
  if cx.inside then return cx.withLocal x v
  setTheoryName cx.theory x v
  return cx

def assignTarget (t : Target) (v : Value) : Session Context := do
  match t with
  | .none => return cx
  | .name x => assign cx x v
  | .part owner x => do
    let .sort s := ← cx.lookup owner | noField
    changeWorld (·.attach s x v)
    return cx

def symbolValue (f : Symbol) : Value := if f.domain.isEmpty then .term (.app f []) else .symbol f

def declareDatatype (d : Datatype) (inductive' : Bool) : Session Unit := do
  if inductive' then Kernel.declare d
  else changeWorld fun w => { w with datatypes := w.datatypes.filter (·.name ≠ d.name) ++ [d] }

def registerMethod (op : String) (s : Srt) (v : Value) : Session Unit := do
  match v with
  | .symbol f => changeWorld (·.register op s (.symbol f))
  | .native name [] => changeWorld (·.register op s (.native name))
  | _ => wrongKind

def defineOverload (op : String) (args : List Term) (body : Term) : Session Symbol := do
  let d ← Kernel.define op args body
  match args with
  | x :: _ => changeWorld (·.register op x.sort (.symbol d.symbol))
  | [] => outOfRange
  return d.symbol

def perform : Statement → Session Context
  | .alias x theory => return { cx with aliases := (x, theory) :: cx.aliases }
  | .constants xs s => do
    let s ← evalSort cx s
    xs.foldlM (fun cx x => assign cx x (.term (.const x s))) cx
  | .value t e => do assignTarget cx t (← eval cx e)
  | .sort x name => assign cx x (.sort (.uninterpreted name))
  | .symbol x name domain range => do
    let domain ← domain.mapM (evalSort cx)
    assign cx x (symbolValue ⟨name, domain, ← evalSort cx range, .free⟩)
  | .fresh x hint s => do
    let s ← evalSort cx s
    assign cx x (.term (← (liftM (freshConst hint s) : Session Term)))
  | .definition t name args body => do
    let vs ← args.mapM cx.lookupTerm
    let d ← Kernel.define name vs (← evalFormula cx body)
    assignTarget cx t (symbolValue d.symbol)
  | .overload op t args body => do
    let vs ← args.mapM cx.lookupTerm
    assignTarget cx t (.symbol (← defineOverload op vs (← evalFormula cx body)))
  | .template op args body => do
    let vs ← args.mapM cx.lookupTerm
    let body ← evalFormula cx body
    match vs with
    | x :: _ => changeWorld (·.register op x.sort (.template vs body))
    | [] => outOfRange
    return cx
  | .method op s v => do
    let s ← evalSort cx s
    registerMethod op s (← eval cx v)
    return cx
  | .datatype x name inductive' cons => do
    let name := Kernel.datatypeName (← theWorld) name
    let inner := cx.withLocal x (.sort (.datatype name))
    let cons ← cons.mapM fun c => do
      return (c.name, ← c.fields.mapM fun (f, s) => do return (f, ← evalSort inner s))
    let d := Datatype.make name cons
    declareDatatype d inductive'
    assign cx x (.sort d.sort)
  | .record x name fields condition => do
    let fields ← fields.mapM fun (f, s) => do return (f, ← evalSort cx s)
    let d ← Datatype.declareRecord name fields
    let condition ← condition.mapM fun (v, e) => do
      let x := Term.const v d.sort
      return (x, ← evalFormula (cx.withLocal v (.term x)) e)
    Datatype.registerWellFormed d condition
    assign cx x (.sort d.sort)
  | .fact basic t formula => do
    let thm ← evalFormula cx formula
    assignTarget cx t (.proof (if basic then .byAxiom thm else .byProofs thm []))
  | .functions xs => xs.foldlM (fun cx x => assign cx x (.native (cx.theory ++ "." ++ x) [])) cx
  | .operations xs => xs.foldlM (fun cx x => assign cx x (.overloaded x)) cx
  | .object x kind => do assign cx x (.object kind ((← theWorld).datatype? (.datatype x)))
  | .structureClass x => assign cx x (.structureClass x)
  | .structureAt cls key parts => do
    let .structureClass c := ← eval cx cls | wrongKind
    let key ← evals cx key
    let parts ← parts.mapM fun (x, e) => do return (x, ← eval cx e)
    let _ ← cx.call (.native "register" [.text c]) key parts
    return cx

def performAll (cx : Context) : List (String × Checked Statement) → Session Context
  | [] => return cx
  | (_, s) :: rest => do performAll (← perform cx (← s)) rest

def evalText (call : Call) (theory : String) (locals : Named) (text : String) : Session Value := do
  let e ← toEnd expr (← tokens text)
  eval { call, theory, locals } e

def termText (call : Call) (theory : String) (locals : Named) (text : String) : Session Term := do
  (← evalText call theory locals text).toTerm

def runLocal (call : Call) (theory : String) (locals : Named) (text : String) : Session Named := do
  return (← performAll { call, theory, locals, inside := true } (statements text)).locals

end SortedLogic.Theory

import SortedLogic.Induction

/-!
# The kernel

The rules that make proofs. Each checks its premises and notes the proofs it used. `prove` asks the prover, and `define` adds
the defining equation of a new symbol.
-/

namespace SortedLogic.Kernel

def require (b : Bool) : Checked Unit := Checked.guard b .violated

variable (ts : List Term)

/-- `forall xs. p` gives `p` at the terms. -/
def instan (pf : Proof) : Checked Proof :=
  match pf.thm with
  | .bind .forall vars body => do
    require (ts.length = vars.length)
    return .byAxiom (← Term.applyBody vars body ts) [.proof pf]
  | _ => .error .violated

variable (thm : Term)

/-- `(forall xs. p) => p` at the terms. -/
def instan2 : Checked Proof :=
  match thm with
  | .bind .forall vars body => do
    require (ts.length = vars.length)
    return .byAxiom (← thm.implies (← Term.applyBody vars body ts)) [.text "forall_elim"]
  | _ => .error .violated

/-- A theorem about terms gives one about some values. -/
def forget (pf : Proof) : Fresh Proof := do
  let vs ← ts.mapM fun t => freshConst "c" t.sort
  let body ← pf.thm.substitute (ts.zip vs)
  return .byAxiom (← body.quantify .exists vs) [.text "forget", .proof pf]

/-- `p` at the terms `=> exists xs. p`. -/
def forget2 : Checked Proof :=
  match thm with
  | .bind .exists vars body => do
    require (ts.length = vars.length)
    return .byAxiom (← (← Term.applyBody vars body ts).implies thm) [.text "exists_intro"]
  | _ => .error .violated

/-- `(exists xs. p) => p` for new constants. -/
def einstan : Fresh (List Term × Proof) :=
  match thm with
  | .bind .exists vars body => do
    let vs ← Term.freshVars Text.stem vars
    return (vs, .byAxiom (← thm.implies (Term.openWith vs body)) [.text "einstan"])
  | _ => throw .violated

variable (pf : Proof)

/-- `exists xs. p` gives `p` for new constants. -/
def skolem : Fresh (List Term × Proof) :=
  match pf.thm with
  | .bind .exists vars body => do
    let vs ← Term.freshVars Text.stem vars
    return (vs, .byAxiom (Term.openWith vs body) [.text "skolem", .proof pf])
  | _ => throw .violated

/-- `p` for new constants `=> forall xs. p`. -/
def herb : Fresh (List Term × Proof) :=
  match thm with
  | .bind .forall vars body => do
    let vs ← Term.freshVars Text.stem vars
    return (vs, .byAxiom (← (Term.openWith vs body).implies thm) [.text "herband"])
  | _ => throw .violated

/-- From `a => b` and `a` to `b`. The hypothesis has to be `a` as it is written. -/
def modus (ab a : Proof) : Checked Proof :=
  match ab.thm with
  | .app f [h, c] =>
    if f.isOp "=>" ∧ h = a.thm then .ok (.byAxiom c [.text "modus", .proof ab, .proof a])
    else .error .violated
  | _ => .error .violated

def proj (n : Int) : Checked Proof :=
  match pf.thm with
  | .app f args =>
    if f.isOp "and" then
      match (if n < 0 then none else args[n.toNat]?) with
      | some t => .ok (.byAxiom t [.text "proj", .proof pf, .number n])
      | none => .error .illFormed
    else .error .violated
  | _ => .error .violated

def andI (a b : Proof) : Checked Proof :=
  return .byAxiom (← Term.and [a.thm, b.thm]) [.text "andI", .proof a, .proof b]

def eqrefl (t : Term) : Checked Proof :=
  return .byAxiom (← t.eq t) [.text "eqrefl", .term t]

def sides? : Term → Option (Term × Term)
  | .app f [a, b] => if f.isOp "=" then some (a, b) else none
  | _ => none

def eqsym : Checked Proof :=
  match sides? pf.thm with
  | some (a, b) => return .byAxiom (← b.eq a) [.text "eqsym", .proof pf]
  | none => .error .violated

def eqtrans (p q : Proof) : Checked Proof :=
  match sides? p.thm, sides? q.thm with
  | some (a, b), some (b', c) => do
    require (b = b')
    return .byAxiom (← a.eq c) [.text "eqtrans", .proof p, .proof q]
  | _, _ => .error .violated

def cong (f : Symbol) (pfs : List Proof) : Checked Proof := do
  require (f.arity = pfs.length)
  match pfs.mapM fun p => sides? p.thm with
  | some eqs =>
    require (eqs.map (·.1.sort) = f.domain)
    let l ← f.apply (eqs.map (·.1))
    let r ← f.apply (eqs.map (·.2))
    return .byAxiom (← l.eq r) (.text "cong" :: .symbol f :: pfs.map .proof)
  | none => throw .violated

def subst (t : Term) : Session Proof := do
  match sides? pf.thm with
  | some (a, b) =>
    let u ← t.substitute [(a, b)]
    return .byAxiom (← equate t u) [.text "subst", .proof pf, .term t]
  | none => throw .violated

/-- An applied lambda is its body at the arguments. -/
def betaConv (lam : Term) (args : List Term) : Checked Proof :=
  match lam with
  | .bind k vars body => do
    require (args.length = vars.length)
    require (k = .lambda)
    return .byAxiom (← (← lam.select args).eq (← Term.applyBody vars body args))
  | t => .error t.notBinder

def consider (t : Term) : Fresh Proof := do
  let c ← freshConst "consider" t.sort
  return .byAxiom (← c.eq t)

inductive Argument where
  | term (t : Term)
  | proof (p : Proof)

def Argument.terms? (as : List Argument) : Option (List Term) :=
  as.mapM fun
    | .term t => some t
    | .proof _ => none

/-- What is asked for at each step is read off the first theorem: as many terms as it has variables, or a proof. -/
def callFrom (first : Term) : Nat → Proof → List Argument → Checked Proof
  | _, acc, [] => .ok acc
  | 0, acc, _ => .ok acc
  | fuel + 1, acc, a :: as =>
    match first with
    | .bind .forall vars _ => do
      let n := vars.length
      let here := (a :: as).take n
      let .bind .forall inner _ := acc.thm | throw .violated
      if here.length ≠ inner.length then throw .violated
      let some ts := Argument.terms? here | throw .illFormed
      callFrom first fuel (← instan ts acc) ((a :: as).drop n)
    | t =>
      if t.isImplies then
        match a with
        | .proof p => do callFrom first fuel (← modus acc p) as
        | .term _ => throw .violated
      else throw .wrongKind

def call (args : List Argument) : Checked Proof :=
  callFrom pf.thm args.length pf args

def assume (by' : List Proof) : Session Proof := do
  if (← theWorld).admitting then return .byProofs thm by' true
  else throw (.invalid none)

/-- How a proof is asked for: of another solver than the world's, which one with a limit on its time is, or of none. -/
structure Options where
  admitted : Bool := false
  solver : Option (List Datatype → List Term → Term → Fresh Bool) := none

def prove (by' : List Proof) (o : Options := {}) : Session Proof :=
  if o.admitted then assume thm by'
  else do
    let _ ← thm.not
    let w ← theWorld
    if ← (o.solver.getD w.entails) w.datatypes (by'.map Proof.thm) thm then return .byProofs thm by'
    else throw .unprovable

/-- The defining equation of a symbol. A lambda as body may be applied to new variables instead. -/
def definingLaw (f : Symbol) (args : List Term) (body : Term) (liftLambda : Bool) : Fresh Term := do
  let lhs ← f.apply args
  match liftLambda, body with
  | true, .bind .lambda vars inner =>
    let vs ← Term.freshVars Text.stem vars
    (← (← lhs.select vs).eq (Term.openWith vs inner)).quantify .forall (args ++ vs)
  | _, _ =>
    let e ← lhs.eq body
    if args.isEmpty then return e else e.quantify .forall args

def define (name : String) (args : List Term) (body : Term) (liftLambda : Bool := false) :
    Session Definition := do
  let name ← Text.checkName name
  let f : Symbol := ⟨name, args.map Term.sort, body.sort, .free⟩
  let thm ← definingLaw f args body liftLambda
  let d : Definition := ⟨name, f, args, body, .mk thm (.text "definition") false⟩
  changeWorld (·.define d)
  return d

def inductDatatypeBy (x : Term) (P : Term → Checked Term) : Session Proof := do
  match (← theWorld).datatype? x.sort with
  | none => throw .violated
  | some d =>
    let hyps ← d.constructors.mapM fun c => do
      let args ← (c.symbol.domain.zip c.accessors).mapM fun (s, a) =>
        (liftM (freshConst a.name s) : Session Term)
      let head ← P (← c.symbol.apply args)
      let body ← (args.filter (·.sort = x.sort)).mapM fun a => (liftM (P a) : Session Term)
      if args.isEmpty then pure head else forallWhere args (body ++ [head])
    let conc ← P x
    return .mk (← (← Term.and hyps).implies conc) (.text "induction_axiom_schema") false

def inductDatatype (x P : Term) : Session Proof := inductDatatypeBy x fun t => callPredicate P [t]

def induct (x P : Term) : Session Proof := do
  match (← theWorld).method? "induct" x.sort with
  | some .structuralInduction => inductDatatype x P
  | some .integerInduction =>
    return .mk (← Induction.bothWays x (fun t => callPredicate P [t]) fun t => P.select [t])
      (.text "integer_induction") false
  | _ => throw (.unsupported (some "No implementation of"))

def nameChoice (name : String) (k : Nat) : String := if k = 0 then name else name ++ "!" ++ toString k

/-- The name under which a new datatype is declared: the first choice that no datatype has. -/
def datatypeName (w : World) (name : String) : String :=
  let taken := w.datatypes.map (·.name)
  (((List.range (taken.length + 1)).map (nameChoice name)).find? fun n => !taken.contains n).getD name

def checkNames : List Constructor → List String → Checked Unit
  | [], _ => .ok ()
  | c :: cs, seen => do
    if seen.contains c.symbol.name then throw (.failed (some "Duplicate constructor name"))
    let seen ← c.accessors.foldlM (fun seen a =>
      if seen.contains a.name then Except.error (Fault.failed (some "Duplicate field name"))
      else .ok (a.name :: seen)) (c.symbol.name :: seen)
    checkNames cs seen

def declare (d : Datatype) : Session Unit := do
  if d.constructors.isEmpty then throw (.badSignature "Non-empty Datatypes expected")
  checkNames d.constructors []
  changeWorld fun w =>
    { (w.register "induct" d.sort .structuralInduction) with
      datatypes := w.datatypes.filter (·.name ≠ d.name) ++ [d] }

end SortedLogic.Kernel

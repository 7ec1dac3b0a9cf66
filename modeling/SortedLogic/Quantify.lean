import SortedLogic.World

/-!
# Quantifiers with conditions

Quantifiers over well-formed values, chains of conditions, and dispatch on the sort of the first argument.
-/

namespace SortedLogic

namespace Term

/-- Is `b` a literal beside a compound number or bitvector, a quantifier beside another formula, or of a known sort beside an
uninterpreted one? -/
def outranks (b a : Term) : Bool :=
  match a.sort with
  | .uninterpreted _ => (match b.sort with | .uninterpreted _ => b.isBind | _ => true)
  | s =>
    if a.isBind then false
    else if b.isBind then s == .bool
    else match s, b.sort with
      | .int, .int | .int, .real | .real, .int | .real, .real | .bitvec _, .bitvec _ =>
        isLiteralTerm b && !isLiteralTerm a
      | _, _ => false
where
  isLiteralTerm : Term → Bool
    | .app f _ => f.isLiteral
    | _ => false

end Term

def Method.apply (m : Method) (args : List Term) : Checked Term :=
  match m with
  | .symbol f => f.apply args
  | .template vars body =>
    if vars.length = args.length then body.substitute (vars.zip args) else .error .wrongKind
  | .record .. | .structuralInduction | .integerInduction | .native _ => .error .wrongKind

def dispatch (op : String) (args : List Term) : Session Term := do
  match args with
  | [] => throw .wrongKind
  | t :: _ =>
    match (← theWorld).method? op t.sort with
    | some m => m.apply args
    | none => throw (.unsupported (some "No implementation of"))

/-- An equation between two terms: the more special one goes first, and a sort may have its own notion. -/
def World.equate (w : World) (a b : Term) : Checked Term :=
  let (a, b) := if b.outranks a then (b, a) else (a, b)
  match w.method? "eq" a.sort with
  | some m => m.apply [a, b]
  | none => a.eq b

def World.separate (w : World) (a b : Term) : Checked Term :=
  let (a, b) := if b.outranks a then (b, a) else (a, b)
  match w.method? "ne" a.sort with
  | some m => m.apply [a, b]
  | none => a.neq b

def equate (a b : Term) : Session Term := do (← theWorld).equate a b
def separate (a b : Term) : Session Term := do (← theWorld).separate a b

/-- Refused for a record without a condition of its own whose fields have exactly one. -/
def World.wellFormedFrom (w : World) : Nat → Term → Checked Term
  | 0, _ => .error .tooDeep
  | fuel + 1, x =>
    match w.method? "wf" x.sort with
    | none => .error (.unsupported (some "No implementation of"))
    | some (.record condition fields) => do
      let own ← condition.toList.mapM fun (v, p) => p.substitute [(v, x)]
      let inner ← fields.mapM fun a => do w.wellFormedFrom fuel (← a.apply [x])
      match own, inner with
      | [], [_] => .error (.unsupported (some "No implementation of"))
      | [p], [] => .ok p
      | _, _ => Term.and (own ++ inner)
    | some m => m.apply [x]

def World.wellFormed (w : World) (x : Term) : Checked Term := w.wellFormedFrom (w.methods.length + 1) x

def wellFormed (vs : List Term) : Session (List Term) := do
  let w ← theWorld
  (vs.filter fun v => (w.method? "wf" v.sort).isSome).mapM fun v => liftM (w.wellFormed v)

/-- For all well-formed `vs`, the last formula follows from those before it. -/
def forallWhere (vs : List Term) (hyps_conc : List Term) : Session Term := do
  match hyps_conc.getLast? with
  | none => throw .outOfRange
  | some conc =>
    match (← wellFormed vs) ++ hyps_conc.dropLast with
    | [] => conc.quantify .forall vs
    | [h] => do (← h.implies conc).quantify .forall vs
    | hyps => do (← (← Term.and hyps).implies conc).quantify .forall vs

def existsWhere (vs : List Term) (concs : List Term) : Session Term := do
  match (← wellFormed vs) ++ concs with
  | [c] => c.quantify .exists vs
  | cs => do (← Term.and cs).quantify .exists vs

/-- The function that is the last term where the conditions hold, and anything elsewhere. -/
def lambdaWhere (xs : List Term) (args : List Term) : Session Term := do
  match args.getLast? with
  | none => throw .outOfRange
  | some body =>
    let undef ← freshSymbol "f" (xs.map Term.sort) body.sort
    match args.dropLast with
    | [] => body.lambda xs
    | [c] => do (← c.ite body (← undef.apply xs)).lambda xs
    | cs => do (← (← Term.and cs).ite body (← undef.apply xs)).lambda xs

def existsUnique (v : Term) (concs : List Term) : Session Term := do
  let y ← freshConst "y" v.sort
  let concs' ← concs.mapM fun c => c.substitute [(v, y)]
  let some' ← existsWhere [v] concs
  let same ← forallWhere [v, y] (concs ++ concs' ++ [← equate v y])
  Term.and [some', same]

def callBinder (t : Term) (args : List Term) : Checked Term :=
  match t with
  | .bind _ vars body =>
    if vars.length = args.length then Term.applyBody vars body args else .error .wrongKind
  | t => .error t.notBinder

def callPredicate (P : Term) (args : List Term) : Checked Term :=
  match P with
  | .bind .. => callBinder P args
  | _ => P.select args

abbrev Case := Term × Option Term

/-- The first case whose condition holds gives the value. Without a default the cases must be exhaustive. -/
def chain (cases : List Case) (default? : Option Term) : Session Term := do
  let s ← match default? with
    | some d => pure d.sort
    | none => findSort cases
  let last ← match default? with
    | some d => pure d
    | none =>
      let w ← theWorld
      let none' ← (← Term.or (cases.map (·.1))).not
      if w.unsat w.datatypes [none'] then liftM (freshConst "unreachable" s)
      else throw (.failed (some "Cases not exhaustive. Fix or give default"))
  cases.reverse.foldlM (fun acc (c, t) => do
    match t with
    | none => throw .illFormed
    | some t =>
      if t.sort ≠ s then throw (.failed (some "Sort"))
      let r ← c.ite t acc
      pure r) last
where
  findSort : List Case → Session Srt
    | [] => throw (.failed (some "Could not infer return sort"))
    | (c, t) :: rest =>
      if c.sort ≠ .bool then throw (.failed (some "Condition must be boolean"))
      else match t with
        | some t => return t.sort
        | none => findSort rest

end SortedLogic

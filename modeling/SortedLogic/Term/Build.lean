import SortedLogic.Fault
import SortedLogic.Term

/-!
# Binding

`lift` makes room for binders, `instantiate` replaces the outermost bound variables, `abstract` turns subterms into bound
variables, and `replace` exchanges subterms without capture.

`instantiate` and `abstract` leave every other loose variable with its number, which traversals that do not open a body rely on.
-/

namespace SortedLogic

namespace Term

mutual
/-- Adds `n` to the index of every variable that is not bound by the innermost `c` binders. -/
def lift (n c : Nat) : Term → Term
  | .var i s => if i < c then .var i s else .var (i + n) s
  | .app f args => .app f (lifts n c args)
  | .bind k vars body => .bind k vars (lift n (c + vars.length) body)

def lifts (n c : Nat) : List Term → List Term
  | [] => []
  | t :: ts => lift n c t :: lifts n c ts
end

mutual
/-- Replaces variable `d + i` by the `i`-th term, lifted over the `d` binders passed so far. -/
def instantiateAt (ts : List Term) (d : Nat) : Term → Term
  | .var i s =>
    if i < d then .var i s
    else match ts[i - d]? with
      | some t => lift d 0 t
      | none => .var i s
  | .app f args => .app f (instantiatesAt ts d args)
  | .bind k vars body => .bind k vars (instantiateAt ts (d + vars.length) body)

def instantiatesAt (ts : List Term) (d : Nat) : List Term → List Term
  | [] => []
  | u :: us => instantiateAt ts d u :: instantiatesAt ts d us
end

mutual
theorem size_lift (n : Nat) : ∀ (c : Nat) (t : Term), (lift n c t).size = t.size
  | c, .var i s => by by_cases h : i < c <;> simp [lift, h, size]
  | c, .app f args => by simp [lift, size, sizes_lifts n c args]
  | c, .bind k vars body => by simp [lift, size, size_lift n _ body]

theorem sizes_lifts (n : Nat) : ∀ (c : Nat) (ts : List Term), sizes (lifts n c ts) = sizes ts
  | _, [] => rfl
  | c, t :: ts => by simp [lifts, sizes, size_lift n c t, sizes_lifts n c ts]
end

mutual
theorem size_instantiateAt {us : List Term} (small : ∀ u ∈ us, u.size = 1) :
    ∀ (d : Nat) (t : Term), (instantiateAt us d t).size = t.size
  | d, .var i s => by
    simp only [instantiateAt]
    split
    · rfl
    · split
      · rename_i u hu
        rw [size_lift, small u (List.mem_of_getElem? hu)]
        simp [size]
      · rfl
  | d, .app f args => by simp [instantiateAt, size, sizes_instantiatesAt small d args]
  | d, .bind k vars body => by simp [instantiateAt, size, size_instantiateAt small _ body]

theorem sizes_instantiatesAt {us : List Term} (small : ∀ u ∈ us, u.size = 1) :
    ∀ (d : Nat) (ts : List Term), sizes (instantiatesAt us d ts) = sizes ts
  | _, [] => rfl
  | d, t :: ts => by
    simp [instantiatesAt, sizes, size_instantiateAt small d t, sizes_instantiatesAt small d ts]
end

def instantiate (ts : List Term) (t : Term) : Term := instantiateAt ts 0 t

mutual
/-- `instantiateAt` for a body that leaves its binder: variables bound further out move inward. -/
def unbindAt (ts : List Term) (d : Nat) : Term → Term
  | .var i s =>
    if i < d then .var i s
    else match ts[i - d]? with
      | some t => lift d 0 t
      | none => .var (i - ts.length) s
  | .app f args => .app f (unbindsAt ts d args)
  | .bind k vars body => .bind k vars (unbindAt ts (d + vars.length) body)

def unbindsAt (ts : List Term) (d : Nat) : List Term → List Term
  | [] => []
  | u :: us => unbindAt ts d u :: unbindsAt ts d us
end

def unbind (ts : List Term) (body : Term) : Term := unbindAt ts 0 body

/-- The value of a key in a list of pairs, the last pair of that key counting. -/
def lookupLast (pairs : List (Term × Term)) (t : Term) : Option Term :=
  (pairs.reverse.find? (·.1 = t)).map (·.2)

mutual
/-- Replaces the subterms that are keys of `pairs`, from the outside in and without capture. -/
def replaceAll (pairs : List (Term × Term)) : Term → Term
  | .var i s => (lookupLast pairs (.var i s)).getD (.var i s)
  | .app f args =>
    match lookupLast pairs (.app f args) with
    | some u => u
    | none => .app f (replacesAll pairs args)
  | .bind k vars body =>
    match lookupLast pairs (.bind k vars body) with
    | some u => u
    | none =>
      let n := vars.length
      .bind k vars (replaceAll (pairs.map fun (a, b) => (lift n 0 a, lift n 0 b)) body)

def replacesAll (pairs : List (Term × Term)) : List Term → List Term
  | [] => []
  | t :: ts => replaceAll pairs t :: replacesAll pairs ts
end

mutual
/-- Replaces the subterms that are keys of `pairs` by variables, `d` binders further in. -/
def abstractAt (pairs : List (Term × Nat)) (d : Nat) : Term → Term
  | .var i s =>
    match pairs.find? (·.1 = .var i s) with
    | some (_, j) => .var (d + j) s
    | none => .var i s
  | .app f args =>
    match pairs.find? (·.1 = .app f args) with
    | some (_, j) => .var (d + j) f.range
    | none => .app f (abstractsAt pairs d args)
  | .bind k vars body =>
    match pairs.find? (·.1 = .bind k vars body) with
    | some (_, j) => .var (d + j) (Term.bind k vars body).sort
    | none => .bind k vars (abstractAt pairs (d + vars.length) body)

def abstractsAt (pairs : List (Term × Nat)) (d : Nat) : List Term → List Term
  | [] => []
  | t :: ts => abstractAt pairs d t :: abstractsAt pairs d ts
end

/-- Turns the terms `vs` into bound variables, the last one into variable `0`. -/
def abstract (vs : List Term) (t : Term) : Term :=
  abstractAt vs.reverse.zipIdx 0 t

def substitute (pairs : List (Term × Term)) (t : Term) : Checked Term :=
  if pairs.all fun (a, b) => a.sort == b.sort then .ok (replaceAll pairs t) else .error .illFormed

def bindingName? : Term → Option (String × Srt)
  | .app f _ => some (f.name, f.range)
  | _ => none

/-- A constant that a quantifier may bind: one without meaning of its own. -/
def isBindable : Term → Bool
  | .app f [] => f.isFree
  | _ => false

def quantify (k : Binder) (vs : List Term) (body : Term) : Checked Term :=
  if vs.isEmpty || !vs.all isBindable || body.sort != .bool then .error .illFormed
  else .ok (.bind k (vs.filterMap bindingName?) (abstract vs body))

/-- The function of the terms `vs` that `t` shows. Any application can be abstracted. -/
def lambda (vs : List Term) (t : Term) : Checked Term :=
  if vs.isEmpty || !vs.all isApp then .error .illFormed
  else .ok (.bind .lambda (vs.filterMap bindingName?) (abstract vs t))

def bindConsts : Binder → List Term → Term → Checked Term
  | .lambda, vs, t => lambda vs t
  | k, vs, t => quantify k vs t

def freeIn (vs : List Term) (t : Term) : Checked Bool :=
  return (match ← lambda vs t with
    | .bind _ _ body => decide (body = t)
    | _ => false)

/-! ## Building terms -/

def indicator (b : Term) : Term := .app (.ite .int) [b, .int 1, .int 0]

/-- A truth value does not become a real in one step, and a sort without numbers has no notion of being one. -/
def castTo (s : Srt) (t : Term) : Checked Term :=
  if t.sort = s then .ok t
  else match s, t.sort with
    | .real, .int => .ok (.app .toReal [t])
    | .int, .bool => .ok (indicator t)
    | .real, .bool => .error .noField
    | .int, .real => .error .illFormed
    | .int, _ | .real, _ => .error .noField
    | .bitvec _, _ => .ok t
    | .float .., _ => .ok t
    | _, _ => .error .illFormed

def castAll : List Srt → List Term → Checked (List Term)
  | s :: ss, t :: ts => return (← castTo s t) :: (← castAll ss ts)
  | _, _ => .ok []

end Term

/-- Applies a symbol: one argument for each place, converted to the sort of the place. -/
def Symbol.apply (f : Symbol) (args : List Term) : Checked Term :=
  if args.length ≠ f.arity then .error .illFormed
  else do
    let args ← Term.castAll f.domain args
    if args.map Term.sort = f.domain then .ok (.app f args) else .error .illFormed

namespace Term

/-- Converts an argument that changed under a substitution. A truth value becomes a number of either sort, and a real an
integer. -/
def adapt (s : Srt) (t : Term) : Term :=
  match s, t.sort with
  | .int, .bool => .app (.ite .int) [t, .int 1, .int 0]
  | .real, .bool => .app (.ite .real) [t, .rat 1, .rat 0]
  | .real, .int => .app .toReal [t]
  | .int, .real => .app (.builtin "to_int" [.real] .int) [t]
  | _, _ => t

def placesOf (f : Symbol) (n : Nat) : List Srt :=
  if f.arity = n then f.domain else List.replicate n (f.domain.headD .bool)

def readapt (f : Symbol) (args : List Term) : Checked Term :=
  let places := placesOf f args.length
  let args := (places.zip args).map fun (s, t) => adapt s t
  if args.map sort = places then .ok (.app f args) else .error .illFormed

mutual
/-- `instantiateAt` for terms whose sorts need not be those of the variables. -/
def instantiateAdaptingAt (ts : List Term) (d : Nat) : Term → Checked Term
  | .var i s => .ok (instantiateAt ts d (.var i s))
  | .app f args => do
    let args' ← instantiatesAdaptingAt ts d args
    if args' = args then .ok (.app f args) else readapt f args'
  | .bind k vars body => .bind k vars <$> instantiateAdaptingAt ts (d + vars.length) body

def instantiatesAdaptingAt (ts : List Term) (d : Nat) : List Term → Checked (List Term)
  | [] => .ok []
  | u :: us => do return (← instantiateAdaptingAt ts d u) :: (← instantiatesAdaptingAt ts d us)
end

/-- Puts terms in the place of the variables of a binder, adapting terms of another sort. -/
def applyBody (vars : Vars) (body : Term) (ts : List Term) : Checked Term :=
  if vars.map (·.2) = ts.map sort then .ok (instantiate ts.reverse body)
  else instantiateAdaptingAt ts.reverse 0 body

def isSubsort : Srt → Srt → Bool
  | .bool, s => s.isArith
  | .int, .real => true
  | .bitvec v, .bitvec w => v < w
  | _, _ => false

def joinSorts (s r : Srt) : Checked Srt :=
  if s = r then .ok s
  else if isSubsort s r then .ok r
  else if isSubsort r s then .ok s
  else .error .illFormed

def coerce (a b : Term) : Checked (Term × Term) := do
  let s ← joinSorts a.sort b.sort
  return (← castTo s a, ← castTo s b)

def coerceAll (ts : List Term) : Checked (List Term) :=
  match ts with
  | [] => .ok []
  | t :: rest => do
    let s ← rest.foldlM (fun s u => joinSorts s u.sort) t.sort
    ts.mapM (castTo s)

def op (f : Symbol) (args : List Term) : Checked Term :=
  if args.map Term.sort = f.domain then .ok (.app f args) else .error .illFormed

def opAll (f : Symbol) (s : Srt) (args : List Term) : Checked Term :=
  if args.all (·.sort = s) then .ok (.app f args) else .error .illFormed

def eq (a b : Term) : Checked Term := do
  let (a, b) ← coerce a b
  op (.eq a.sort) [a, b]

def neq (a b : Term) : Checked Term := do
  let (a, b) ← coerce a b
  if a.sort = b.sort then .ok (.app (.distinct [a.sort, a.sort]) [a, b]) else .error .illFormed

def and (ts : List Term) : Checked Term := do opAll .and .bool (← coerceAll ts)
def or (ts : List Term) : Checked Term := do opAll .or .bool (← coerceAll ts)
def not (t : Term) : Checked Term := do op .not [← castTo .bool t]
def implies (a b : Term) : Checked Term := do op .implies [← castTo .bool a, ← castTo .bool b]

def ite (c a b : Term) : Checked Term := do
  let c ← castTo .bool c
  let (a, b) ← coerce a b
  op (.ite a.sort) [c, a, b]

def select (a : Term) (is : List Term) : Checked Term :=
  match a.sort with
  | .array domains range =>
    if is.length ≠ domains.length then .error .illFormed
    else do
      let is ← castAll domains is
      op (.builtin "select" (a.sort :: domains) range) (a :: is)
  | _ => .error .illFormed

end Term
end SortedLogic

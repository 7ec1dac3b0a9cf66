import SortedLogic.Fresh

/-!
# Subterms

Traversals list a term before its arguments and the last argument first. `occurs` refuses to look below a binder.
-/

namespace SortedLogic.Term

mutual
/-- Does `x` stand in `t`, outside all binders? A binder met before `x` is found is refused. -/
def occurs (x : Term) : Term → Checked Bool
  | .var i s => .ok (x = .var i s)
  | .app f args => if x = .app f args then .ok true else occursAny x args
  | .bind k vars body =>
    if x = .bind k vars body then .ok true
    else .error (.failed (some "occurs check quantifier unimplemented"))

def occursAny (x : Term) : List Term → Checked Bool
  | [] => .ok false
  | t :: ts => do if ← occurs x t then .ok true else occursAny x ts
end

def isStrictSubterm (x t : Term) : Checked Bool :=
  if x = t then .ok false else occurs x t

mutual
/-- All subterms, each before its own; the bodies of binders only if `inside`. -/
def subterms (inside : Bool) : Term → List Term
  | .var i s => [.var i s]
  | .app f args => .app f args :: subtermsOfAll inside args
  | .bind k vars body => .bind k vars body :: if inside then subterms inside body else []

/-- The subterms of the last term come first. -/
def subtermsOfAll (inside : Bool) : List Term → List Term
  | [] => []
  | t :: ts => subtermsOfAll inside ts ++ subterms inside t
end

def sorts (t : Term) : List Srt := (t.subterms true).map sort

def symbols (t : Term) : List Symbol :=
  ((t.subterms true).filterMap head?).eraseDups

/-- The applications of `f` in a term without variables and binders. -/
def calls (f : Symbol) (t : Term) : Checked (List Term) :=
  if (t.subterms false).all isApp then .ok ((t.subterms false).filter (·.head? = some f))
  else .error (.invalid (some "Expected an application term"))

def isFloatValue : Term → Bool
  | .app f [] => (f.isOp "+zero" || f.isOp "-zero" || f.isOp "+oo" || f.isOp "-oo" || f.isOp "NaN"
      || f.range == .roundingMode && !f.isFree)
  | .app f _ => f.isOp "fp"
  | _ => false

mutual
/-- Literals, and constructors applied to values. -/
def isValue : Term → Bool
  | .app f args =>
    f.isLiteral || f == .tt || f == .ff || isFloatValue (.app f args) || (f.isConstructor && areValues args)
  | _ => false

def areValues : List Term → Bool
  | [] => true
  | t :: ts => isValue t && areValues ts
end

/-- The constants of a term that `isDefined` does not claim. Nothing is collected below a constructor. -/
def freeVarsList (isDefined : Symbol → Bool) : Term → List Term
  | .var .. => []
  | .app f args =>
    if isValue (.app f args) || f.isConstructor then []
    else if args.isEmpty then (if isDefined f then [] else [.app f []])
    else args.reverse.flatMap (freeVarsList isDefined)
  | .bind _ _ body => freeVarsList isDefined body

mutual
def alphaEq : Term → Term → Checked Bool
  | .bind k vars a, .bind l wars b =>
    if k = l ∧ vars.length = wars.length then alphaEq a b else .ok false
  | .app f as, .app g bs => if f = g then alphaEqs as bs else .ok false
  | .var i s, .var j r => .ok (i = j ∧ s = r)
  | _, _ => .ok false

def alphaEqs : List Term → List Term → Checked Bool
  | [], _ => .ok true
  | _ :: _, [] => .error .illFormed
  | a :: as, b :: bs => do if ← alphaEq a b then alphaEqs as bs else .ok false
end

/-- The constants `x0`, `x1`, ... of the given sorts. -/
def canonicalVars (vars : Vars) : List Term :=
  vars.zipIdx.map fun ((_, s), i) => .const ("x" ++ toString i) s

mutual
/-- Renames the variables of every binder. Refused where such a name is already used in the body. -/
def alphaNorm : Term → Checked Term
  | .var i s => .ok (.var i s)
  | .app f args => do f.apply (← alphaNorms args)
  | .bind k vars body => do
    let body ← alphaNorm body
    let vs := canonicalVars vars
    if ← freeIn vs body then bindConsts k vs (openWith vs body) else throw .violated

def alphaNorms : List Term → Checked (List Term)
  | [] => .ok []
  | t :: ts => return (← alphaNorm t) :: (← alphaNorms ts)
end

def sameBinder : Term → Term → Checked Bool
  | .bind k _ _, .bind l _ _ => .ok (k = l)
  | .bind .., t | t, _ => .error t.notBinder

end SortedLogic.Term

import SortedLogic.Quantify
import SortedLogic.Rewrite.Step

/-!
# Term orders

The lexicographic path order and the order of Knuth and Bendix with all weights one. The constants `vs` count as variables.
-/

namespace SortedLogic

inductive Comparison where
  | equal | greater | notGreaterEqual
  deriving DecidableEq

abbrev Precedence := Symbol → Symbol → Bool

def Precedence.byName : Precedence := fun f g => g.name < f.name

namespace Term

mutual
def lpo (above : Precedence) (vs : List Term) (s t : Term) : Checked Comparison :=
  if vs.contains t then
    if s = t then .ok .equal
    else do if ← occurs t s then .ok .greater else .ok .notGreaterEqual
  else if vs.contains s then .ok .notGreaterEqual
  else match s, t with
    | .app f as, .app g bs => do
      if !(← allBelow above vs as (.app g bs)) then return .greater
      if f = g then
        if ← aboveAll above vs (.app f as) bs then lpoArgs above vs as bs
        else return .notGreaterEqual
      else if above f g then
        if ← aboveAll above vs (.app f as) bs then return .greater else return .notGreaterEqual
      else return .notGreaterEqual
    | _, _ => failed "Unexpected term"
termination_by (s.size + t.size, 0)
decreasing_by all_goals apply Prod.Lex.left; simp [size] <;> omega

def allBelow (above : Precedence) (vs : List Term) (ss : List Term) (t : Term) : Checked Bool :=
  match ss with
  | [] => .ok true
  | s :: ss => do
    if (← lpo above vs s t) = .notGreaterEqual then allBelow above vs ss t else return false
termination_by (sizes ss + t.size, 1)
decreasing_by
  · exact .right' _ (by simp only [sizes]; omega) (by omega)
  · have := size_pos s
    exact Prod.Lex.left _ _ (by simp only [sizes]; omega)

def aboveAll (above : Precedence) (vs : List Term) (s : Term) (ts : List Term) : Checked Bool :=
  match ts with
  | [] => .ok true
  | t :: ts => do
    if (← lpo above vs s t) = .greater then aboveAll above vs s ts else return false
termination_by (s.size + sizes ts, 1)
decreasing_by
  · exact .right' _ (by simp only [sizes]; omega) (by omega)
  · have := size_pos t
    exact Prod.Lex.left _ _ (by simp only [sizes]; omega)

def lpoArgs (above : Precedence) (vs : List Term) (ss ts : List Term) : Checked Comparison :=
  match ss, ts with
  | s :: ss, t :: ts => do
    match ← lpo above vs s t with
    | .equal => lpoArgs above vs ss ts
    | c => return c
  | _, _ => .ok .equal
termination_by (sizes ss + sizes ts, 1)
decreasing_by
  · exact .right' _ (by simp only [sizes]; omega) (by omega)
  · have := size_pos s
    exact Prod.Lex.left _ _ (by simp only [sizes]; omega)
end

mutual
/-- How often `v` occurs in a term as a variable, that is outside binders and not below another variable. -/
def countVar (vs : List Term) (v : Term) : Term → Nat
  | .app f args =>
    if vs.contains (.app f args) then (if v = .app f args then 1 else 0) else countVars vs v args
  | t => if vs.contains t ∧ v = t then 1 else 0

def countVars (vs : List Term) (v : Term) : List Term → Nat
  | [] => 0
  | t :: ts => countVar vs v t + countVars vs v ts
end

mutual
/-- The number of nodes outside binders; a binder counts as one. -/
def weight : Term → Nat
  | .app _ args => 1 + weights args
  | _ => 1

def weights : List Term → Nat
  | [] => 0
  | t :: ts => t.weight + weights ts
end

/-- Is `s` the symbol `f` applied again and again to `t`? -/
def isTower (f : Symbol) (t : Term) : Term → Checked Comparison
  | .app g [a] =>
    if Term.app g [a] = t then .ok .greater else if g = f then isTower f t a else .ok .notGreaterEqual
  | .app g args =>
    if Term.app g args = t then .ok .greater else if g = f then illFormed else .ok .notGreaterEqual
  | s => if s = t then .ok .greater else illFormed

/-- Counting looks each variable up by comparing it with itself, which is refused at a sort with an equality of its own unless the
variable is the whole term. -/
def uncountable (overloads : Srt → Bool) (vs : List Term) : Term → Bool
  | .app f args => !vs.contains (.app f args) && vs.any fun v => overloads v.sort && 0 < countVars vs v args
  | _ => false

mutual
def kbo (overloads : Srt → Bool) (above : Precedence) (vs : List Term) (s t : Term) : Checked Comparison :=
  if s = t then .ok .equal
  else if uncountable overloads vs s || uncountable overloads vs t then illFormed
  else if !vs.all fun v => countVar vs v t ≤ countVar vs v s then .ok .notGreaterEqual
  else if weight t < weight s then .ok .greater
  else if weight s < weight t then .ok .notGreaterEqual
  else if vs.contains t then
    match s with
    | .app f args => if f.arity = 1 then isTower f t (.app f args) else .ok .notGreaterEqual
    | _ => illFormed
  else if vs.contains s then .ok .notGreaterEqual
  else match s, t with
    | .app f as, .app g bs =>
      if f = g then kboArgs overloads above vs as bs
      else if above f g then .ok .greater
      else .ok .notGreaterEqual
    | _, _ => failed "Unexpected term"
termination_by (s.size, 0)
decreasing_by apply Prod.Lex.left; simp [size]

/-- Compares lists of arguments from the left; the first pair that differs decides, and one has to. -/
def kboArgs (overloads : Srt → Bool) (above : Precedence) (vs : List Term) (ss ts : List Term) : Checked Comparison :=
  match ss, ts with
  | s :: ss, t :: ts => do
    match ← kbo overloads above vs s t with
    | .equal => kboArgs overloads above vs ss ts
    | c => return c
  | _, _ => failed "Unexpected equality reached in kbo"
termination_by (sizes ss, 1)
decreasing_by
  · exact .right' _ (by simp only [sizes]; omega) (by omega)
  · have := size_pos s
    exact Prod.Lex.left _ _ (by simp only [sizes]; omega)
end
end Term
end SortedLogic

/-! ## Completion -/

namespace SortedLogic.Rewrite.Completion

abbrev Order := List Term → Term → Term → Checked Comparison

structure Limits where
  nesting : Nat := depth
  rounds : Nat := 1000

def lpo : Order := Term.lpo .byName
def kbo (overloads : Srt → Bool := fun _ => false) : Order := Term.kbo overloads .byName

def pairEquation (vs : List Term) (r : Rule) (t : Term) (σ : Substitution) : Session Term := do
  let a ← r.rhs.substitute σ
  let b ← t.substitute σ
  let left := vs.eraseDups.filter fun v => (σ.get? v).isNone
  let e ← equate a b
  if left.isEmpty then return e else e.quantify .forall left

/-- The overlaps of two rules. The second one is renamed if they share a variable. -/
def overlaps (r s : Rule) : Session (List Term) := do
  let s ← if r.vars.any s.vars.contains then liftM s.freshen else pure s
  let vs := r.vars ++ s.vars
  (← narrow vs s.lhs s.rhs r.lhs).mapM fun (t, σ) => pairEquation vs r t σ

def allPairs (rules : List Rule) : Session (List Term) :=
  return (← rules.mapM fun r => return (← rules.mapM (overlaps r)).flatten).flatten

def orient (order : Order) (e : Term) : Fresh Rule := do
  let r ← Rule.ofTerm e none
  if (← order r.vars r.lhs r.rhs) = .greater then return r
  else if (← order r.vars r.rhs r.lhs) = .greater then return { r with lhs := r.rhs, rhs := r.lhs }
  else failed "Cannot orient:"

variable (lim : Limits)

def simplify (rules : List Rule) (e : Term) : Fresh Term := do
  let r ← Rule.ofTerm e none
  let (lhs, _) ← normalizeWithin lim.nesting rules r.lhs
  let (rhs, _) ← normalizeWithin lim.nesting rules r.rhs
  { r with lhs, rhs }.toTerm

def isTrivial (e : Term) : Fresh Bool := do
  let r ← Rule.ofTerm e none
  return decide (r.lhs = r.rhs)

def addRules (lim : Limits) : List Term → List Rule → Fresh (List Rule × Bool)
  | [], rules => return (rules, false)
  | e :: es, rules => do
    let e ← simplify lim rules e
    if ← isTrivial e then addRules lim es rules
    else
      let r ← orient kbo e
      let (rules, _) ← addRules lim es (rules ++ [r])
      return (rules, true)

def basicFrom (lim : Limits) : Nat → List Rule → Session (List Rule)
  | 0, _ => tooDeep
  | fuel + 1, rules => do
    let (rules, added) ← addRules lim (← allPairs rules) rules
    if added then basicFrom lim fuel rules else return rules

/-- Completion that only adds rules. Derived equations are oriented by the order of Knuth and Bendix, whatever the given order.
-/
def basic (order : Order) (es : List Term) : Session (List Rule) := do
  let rules ← es.mapM fun e => (liftM (orient order e) : Session Rule)
  basicFrom lim lim.rounds rules

def insertRule (lim : Limits) (r : Rule) (rules : List Rule) : List Rule → List Rule → List Term → Fresh (List Rule × List Term)
  | [], kept, back => return (r :: kept, back)
  | q :: rest, kept, back => do
    let (lhs, _) ← normalizeWithin lim.nesting [r] q.lhs
    if lhs = q.lhs then
      let (rhs, _) ← normalizeWithin lim.nesting (rules ++ [r]) q.rhs
      insertRule lim r rules rest (kept ++ [{ q with rhs }]) back
    else
      insertRule lim r rules rest kept (back ++ [← { q with lhs }.toTerm])

def huetEquations (lim : Limits) (order : Order) : Nat → List Term → List Rule → Fresh (List Rule)
  | 0, _, _ => tooDeep
  | fuel + 1, es, rules => do
    match es.getLast? with
    | none => return rules
    | some e =>
      let es := es.dropLast
      let e ← simplify lim rules e
      if ← isTrivial e then huetEquations lim order fuel es rules
      else
        let r ← orient order e
        let (rules, back) ← insertRule lim r rules rules [] []
        huetEquations lim order fuel (es ++ back) rules

def openPairs (rules : List Rule) : Session (List Term) := do
  let pairs ← allPairs rules
  let simplified ← pairs.mapM fun e => (liftM (simplify lim rules e) : Session Term)
  simplified.filterM fun e => return !(← (liftM (isTrivial e) : Session Bool))

def huetFrom (lim : Limits) (order : Order) : Nat → List Term → List Rule → Session (List Rule)
  | 0, _, _ => tooDeep
  | fuel + 1, es, rules => do
    let rules ← (liftM (huetEquations lim order lim.rounds es rules) : Session (List Rule))
    let es ← openPairs lim rules
    if es.isEmpty then return rules else huetFrom lim order fuel es rules

def huet (order : Order) (es : List Term) : Session (List Rule) := huetFrom lim order lim.rounds es []

end SortedLogic.Rewrite.Completion

import SortedLogic.Command.Basic
import SortedLogic.Rewrite.Completion
import SortedLogic.Rewrite.Unfold

/-!
# Commands on rules

Unfolding, rewriting, rules, narrowing, term orders and completion.
-/

namespace SortedLogic.Command.Rewriting
open SortedLogic.Rewrite
variable (r : Request)

/-! ## Reading and writing rules -/

def readRule (d : Data) : Session Rule := do
  if d.has "axiom" then Rule.ofProof (.byAxiom (← (r.at' d).term "axiom"))
  else if d.has "lhs" then return ⟨← (r.at' d).terms "vs", ← (r.at' d).term "lhs", ← (r.at' d).term "rhs", none⟩
  else Rule.ofTerm (← r.readTerm d) none

def theRule : Session Rule := readRule r (r.get "rule")

def theRules : Session (List Rule) := (r.all "rules").mapM (readRule r)

def shownVars (vs : List Term) : Fresh Substitution := vs.mapM fun v => return (v, ← freshConst "V" v.sort)

def equationFields (r : Rule) : Fresh Data.Fields := do
  let σ ← shownVars r.vars
  return [("n", nat r.vars.length), ("lhs", term (← r.lhs.substitute σ)), ("rhs", term (← r.rhs.substitute σ))]

def rule (r : Rule) : Fresh Data := return .record (("pf", .bool r.proof.isSome) :: (← equationFields r))

def rules (rs : List Rule) : Answer := .list <$> rs.mapM fun r => liftM (rule r)

def equation (e : Term) : Fresh Data := return .record (← equationFields (← Rule.ofTerm e none))

def readHornRule (d : Data) : Session HornRule := do
  if d.has "axiom" then
    let pf := Proof.byAxiom (← (r.at' d).term "axiom")
    HornRule.ofTerm pf.thm (some pf)
  else if d.has "hyp" then return ⟨← (r.at' d).terms "vs", ← (r.at' d).term "hyp", ← (r.at' d).term "conc", none⟩
  else HornRule.ofTerm (← r.readTerm d) none

def theHornRule : Session HornRule := readHornRule r (r.get "rule")

def hornRule (r : HornRule) : Fresh Data := do
  let σ ← shownVars r.vars
  return .record [("n", nat r.vars.length), ("hyp", term (← r.hyp.substitute σ)),
    ("conc", term (← r.conc.substitute σ)), ("pf", .bool r.proof.isSome)]

def names (vs : List Term) : Data := .ofTexts (vs.map nameOf)

/-! ## Commands -/

def unfolded : Answer := do
  let t ← r.term "t"
  let only ← if (r.get "decls").isNull then pure none else some <$> (r.all "decls").mapM r.readSymbol
  let (t, trace) := (unfold (onlyOf (← theWorld).definition? only) true t).outcome
  return .record [("t", term (← t)), ("trace", terms (trace.map Proof.thm))]

def betaPass : Answer := return term (← beta (← r.term "t"))

def unlimited : Nat := 10000

def fullySimplified : Answer := do
  let t ← r.term "t"
  let w ← theWorld
  return term (← fullSimp w.definition? w.simplify unlimited t)

def simplified : Answer := do
  let rounds := if r.has "max_iter" then
    (match r.get "max_iter" with | .int n => n.toNat | _ => unlimited) else 3
  return term (← (← simp rounds false (← r.term "t")).1)

def definitionallyEqual : Answer := return .bool (← defEq (← r.term "t1") (← r.term "t2"))

def byParts (lhs rhs t : String) : Session (Option Term) := do
  let q : Rule := ⟨← r.terms "vs", ← r.term lhs, ← r.term rhs, none⟩
  return (← q.rewrite (← r.term t) (← theWorld).overloads).map (·.1)

def rewriteAtRoot : Answer := return .orNull term (← byParts r "lhs" "rhs" "t")

def applied : Answer := do
  match ← byParts r "head" "body" "goal" with
  | some t => if t.sort = .bool || t.isBind then return term t else violated
  | none => return .null

def ruleOf : Answer := do
  let d := r.get "t"
  if d.has "lhs" then throw (.notRule "Not an equation")
  rule (← readRule r d)

def ruleFreshened : Answer := do
  let q ← theRule r
  let q' ← q.freshen
  return .record [("rule", ← rule q'), ("fresh", .bool (q'.vars.all fun v => !q.vars.contains v)),
    ("names", names q'.vars)]

def ruleEquation : Answer := return term (← (← theRule r).toTerm)

def rewriteByRule : Answer := do
  let t ← r.term "t"
  let q ← theRule r
  let (t, trace) := match ← q.rewrite t with
    | some (u, σ) => (term u, [substitution σ])
    | none => (.null, [])
  return .record [("t", t), ("trace", .list trace)]

def rewriteOnce : Answer := do
  let t ← r.term "t"
  return term (← once (← theRules r) t).1

def rewriteSlowly : Answer := do
  let t ← r.term "t"
  return term (← slowly (← theRules r) t).1

def rewriteFully : Answer := do
  let t ← r.term "t"
  let (u, trace) ← normalizeWithin depth (← theRules r) t (← theWorld).overloads
  return .record [("t", term u), ("steps", nat trace.length)]

def indexed : Answer := return .each (← index (← theRules r)) fun (f, q) => .list [.text f.name, term q.lhs, term q.rhs]

def narrowed : Answer := do
  let found ← narrow (← r.terms "vs") (← r.term "lhs") (← r.term "rhs") (← r.term "t")
  return .each found fun (t, σ) => .pair (term t) (substitution σ)

def hornRuleOf : Answer := do hornRule (← readHornRule r (r.get "t"))
def hornRuleFormula : Answer := return term (← (← theHornRule r).toTerm)

def hornRuleFreshened : Answer := do
  let q ← (← theHornRule r).freshen
  return .record [("rule", ← hornRule q), ("names", names q.vars)]

def backward : Answer := do
  let q ← theHornRule r
  return .orNull (fun (σ, g) => .record [("subst", substitution σ), ("goal", term g)]) (← q.backward (← r.term "t"))

def forward : Answer := do
  let q ← theHornRule r
  return .orNull term (← q.forward (← r.term "t"))

def comparison : Comparison → Data
  | .equal => .text "EQ"
  | .greater => .text "GR"
  | .notGreaterEqual => .text "NGE"

def compared (order : Completion.Order) : Answer :=
  return comparison (← order (← r.terms "vs") (← r.term "t1") (← r.term "t2"))

def pathOrder : Answer := compared r Completion.lpo
def weightOrder : Answer := do compared r (Completion.kbo (← theWorld).overloads)
def order : Completion.Order := if r.str "order" = "lpo" then Completion.lpo else Completion.kbo

def allPairs : Answer := return .list (← (← Completion.allPairs (← theRules r)).mapM fun e => liftM (equation e))
def oriented : Answer := do rule (← Completion.orient (order r) (← r.term "t"))
def simplifiedEquation : Answer := do equation (← Completion.simplify {} (← theRules r) (← r.term "t"))
def isTrivial : Answer := return .bool (← Completion.isTrivial (← r.term "t"))
def completeBasic : Answer := do rules (← Completion.basic {} (order r) (← r.terms "E"))
def completeHuet : Answer := do rules (← Completion.huet {} (order r) (← r.terms "E"))
def sexprLength : Answer := return nat (← r.term "t").sexpr.length

end SortedLogic.Command.Rewriting

import SortedLogic.Command.Basic
import SortedLogic.Search

/-!
# Commands on terms

Matching, unification, equality up to bound names, traversal, search and values.
-/

namespace SortedLogic.Command.Terms
variable (r : Request)

def opened : List Term × Term → Data
  | (vs, body) => .record [("vs", namedSorts vs), ("body", term body)]

def openBinder : Answer := return opened (← (← r.term "t").openFresh)
def openBinderNamed : Answer := return opened (← (← r.term "t").openNamed)

def solved {m : Type → Type} [MonadLift m Session] (solve : World → List Term → Term → Term → m (Option Substitution))
    (a b : String) : Handler := fun r => do
  return .orNull substitution (← solve (← theWorld) (← r.terms "vs") (← r.term a) (← r.term b))

def matchTerm : Handler := solved (fun w vs p t => Term.pmatch vs p t w.overloads) "pat" "t"
def matchFirstOrder : Handler := solved (fun w vs p t => Term.pmatchFirstOrder vs p t w.overloads) "pat" "t"

def matchAnywhere : Answer := do
  let m ← Term.pmatchAnywhere (← r.terms "vs") (← r.term "pat") (← r.term "t") (r.flag "into_binder")
    (← theWorld).overloads
  return .orNull (fun (t, σ) => .record [("at", term t), ("subst", substitution σ)]) m

def unify : Handler := solved (fun _ => Term.unify) "p1" "p2"
def unifyLoose : Handler := solved (fun _ _ => Term.unifyLoose) "p1" "p2"

def ask (a b : String) (f : Term → Term → Checked Bool) : Answer := return .bool (← f (← r.term a) (← r.term b))

def freeIn : Answer := return .bool (← Term.freeIn (← r.terms "vs") (← r.term "t"))
def occurs : Answer := ask r "x" "t" Term.occurs
def isStrictSubterm : Answer := ask r "x" "t" Term.isStrictSubterm
def sameBinder : Answer := ask r "t1" "t2" Term.sameBinder
def alphaEq : Answer := ask r "t1" "t2" Term.alphaEq
def isValue : Answer := return .bool (← r.term "t").isValue
def alphaNorm : Answer := return term (← (← r.term "t").alphaNorm)
def calls : Answer := return terms (← Term.calls (← r.symbol "f") (← r.term "t"))
def subterms : Answer := return terms ((← r.term "t").subterms (r.flag "into_binder"))
def sorts : Answer := return .each (← r.term "t").sorts sort
def symbols : Answer := return .sorted (← r.term "t").symbols symbol

def generalize : Answer := do
  let (vs, p) ← Generalization.pattern (← theWorld).overloads (← r.terms "ts")
  return .record [("vs", terms vs), ("t", term p)]

def limit : Nat := 4096

def generate : Answer := do
  let s ← r.sort "sort"
  let w ← theWorld
  let x : Term := .const "x" s
  let p := r.get "pred"
  let preds ← if p.isNull then pure [] else do
    let v := (p.item 0).asText
    let t ← (r.withVars [(v, s)]).readTerm (p.item 1)
    pure [← t.substitute [(.const v s, x)]]
  let wf ← wellFormed [x]
  sortedTerms <$> Models.generate (.exhaustive w.datatypes) limit x (preds ++ wf)

def allValues : Answer := do
  let vs ← Models.allValues (.exhaustive (← theWorld).datatypes) limit [← r.term "t"]
  return sortedTerms vs.flatten

def checkConsistent : Answer := do
  Search.checkConsistent (← theWorld).datatypes (← r.terms "thms")
  return .text "sat"

def prune : Answer := return sortedTerms (← Search.prune (← theWorld).datatypes (← r.term "thm") (← r.terms "by"))

def hits (hs : List Search.Hit) : Data := .each hs fun (n, ts) => .pair (.text n) (.each ts (.orNull term))

def searchTerm : Answer := return hits (← Search.byTerm (← r.term "t") (← r.library "db"))
def searchSymbol : Answer := return hits (Search.bySymbol (← r.symbol "f") (← r.library "db"))

def search : Answer := do
  let lib ← r.library "db"
  let qs ← (r.all "es").mapM fun q => do
    if q.has "decl" then Search.Query.symbol <$> r.readSymbol (q.get "decl")
    else Search.Query.term <$> r.readTerm (q.get "term")
  hits <$> Search.all qs lib

end SortedLogic.Command.Terms

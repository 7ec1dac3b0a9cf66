import SortedLogic.Term.Build
import SortedLogic.Text.Latin

/-!
# Fresh names

Constants that occur nowhere else are drawn from a counter. They have the role `fresh` and the number in their name.
-/

namespace SortedLogic

/-- Computations that draw names and may be refused. A refusal keeps the names drawn so far. -/
abbrev Fresh := ExceptT Fault (StateM Nat)

instance : MonadLift Checked Fresh where
  monadLift x := ExceptT.mk (pure x)

def freshSymbol (hint : String) (domain : List Srt) (range : Srt) : Fresh Symbol := do
  let hint ← Text.checkName hint
  let n ← get
  set (n + 1)
  return ⟨hint ++ "!" ++ toString n, domain, range, .fresh⟩

def freshConst (hint : String) (s : Srt) : Fresh Term :=
  return .app (← freshSymbol hint [] s) []

namespace Term

def openWith (vs : List Term) (body : Term) : Term := instantiate vs.reverse body

/-- Asking a term that is no binder for the parts of one. A term of a datatype answers with nothing, which is of the wrong kind.
-/
def notBinder (t : Term) : Fault := if t.sort.isDatatype then .wrongKind else .noField

def freshVars (hint : String → String) (vars : Vars) : Fresh (List Term) :=
  vars.mapM fun (x, s) => freshConst (hint x) s

def openFresh : Term → Fresh (List Term × Term)
  | .bind _ vars body => do
    let vs ← freshVars (fun x => Text.stem (Text.upper x)) vars
    return (vs, openWith vs body)
  | t => throw t.notBinder

def namedVars (vars : Vars) : List Term := vars.map fun (x, s) => .const x s

theorem size_openWith_namedVars (vars : Vars) (body : Term) : (openWith (namedVars vars) body).size = body.size := by
  refine size_instantiateAt (fun u hu => ?_) 0 body
  simp only [namedVars, List.mem_reverse, List.mem_map] at hu
  obtain ⟨_, _, rfl⟩ := hu
  simp [const, size, sizes]

/-- Opens a binder with constants of the names that were written, which may capture. -/
def openNamed : Term → Checked (List Term × Term)
  | .bind _ vars body => .ok (namedVars vars, openWith (namedVars vars) body)
  | t => .error t.notBinder

end Term
end SortedLogic

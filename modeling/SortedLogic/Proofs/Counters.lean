import SortedLogic.Proofs.ByteMemory

/-!
# Counters stay in range

The next counters of a path are at the first operation of their instruction, or at one that was checked (`Path.step_inRange`).
-/

namespace SortedLogic.Machine
open List
open Checked (bind_eq_ok)
open Models (Finder)
universe u
variable {U : Type u} {Model : Frame U → Prop} {im : Image} {find : Finder} {b : Branch} {c : Counter} {counters : List Counter}
  {o : Operation} {ops : List Operation}

def Counter.InRange (im : Image) (c : Counter) : Prop := ∀ ops, im.operationsAt c.address = .ok ops → c.index < ops.length

theorem Counter.InRange.first (im : Image) (address : Int) : Counter.InRange im ⟨address, 0⟩ := by
  intro ops hit
  obtain ⟨i, -, hit⟩ := bind_eq_ok.1 hit
  by_cases empty : i.operations.isEmpty
  · cases (if_pos empty).symm.trans hit
  · cases (if_neg empty).symm.trans hit
    exact length_pos_of_ne_nil fun none => empty (none ▸ rfl)

theorem after_inRange {c' : Counter} (ok : im.after c = .ok c') : c'.InRange im := by
  obtain ⟨ops, hit, ok⟩ := bind_eq_ok.1 ok
  by_cases last : c.index + 1 ≥ ops.length
  · rw [if_pos last] at ok
    obtain ⟨i, -, ok⟩ := bind_eq_ok.1 ok
    cases ok
    exact .first im _
  rw [if_neg last] at ok
  cases ok
  intro ops' hit'
  cases hit.symm.trans hit'
  exact Nat.not_le.1 last

theorem target_inRange {c' : Counter} (ok : im.target o c = .ok c') : c'.InRange im := by
  obtain ⟨p, -, ok⟩ := bind_eq_ok.1 ok
  by_cases const : p.isConst
  · rw [if_pos const] at ok
    obtain ⟨ops, hit, ok⟩ := bind_eq_ok.1 ok
    by_cases last : c.index + p.offset = ops.length
    · exact after_inRange ((if_pos last).symm.trans ok)
    replace ok := (if_neg last).symm.trans ok
    by_cases outside : (c.index + p.offset < 0 || c.index + p.offset ≥ ops.length) = true
    · cases (if_pos outside).symm.trans ok
    cases (if_neg outside).symm.trans ok
    intro ops' hit'
    cases hit.symm.trans hit'
    simp only [Bool.or_eq_true, decide_eq_true_eq] at outside
    show (c.index + p.offset).toNat < ops.length
    omega
  · rw [if_neg const] at ok
    by_cases ram : p.space = "ram"
    · cases (if_pos ram).symm.trans ok
      exact .first im _
    · cases (if_neg ram).symm.trans ok

theorem Lists.mem_cases (lawful : ∀ F, Model F → Lawful F) (answers : Answers Model find) (lists : Lists find b counters)
    (mem : c ∈ counters) : c = b.taken ∨ c = b.passed := by
  have ⟨a, i, hit, terms, listed, read⟩ := lists
  cases first : find [] [a, i] with
  | none =>
    rw [Models.allValues, Models.allValuesFrom, first] at listed
    cases listed
    cases read
    cases mem
  | some =>
    obtain ⟨F, model, -⟩ := answers.sound _ _ _ _ _ terms first
    obtain ⟨G, -, -, ⟨lists', -⟩ | ⟨H, lists', -⟩⟩ := lists_exact lawful answers terms ⟨F, model⟩
    · cases lists.unique lists'
      exact mem_singleton.1 mem ▸ b.next_eq G
    cases lists.unique lists'
    obtain rfl | mem := mem_cons.1 mem
    · exact b.next_eq G
    · exact mem_singleton.1 mem ▸ b.next_eq H

theorem Path.step_inRange {p q : Path} {paths : List Path} {ended : List Outcome} (lawful : ∀ F, Model F → Lawful F)
    (answers : Answers Model find) (ok : p.step im find = .ok (paths, ended)) (mem : q ∈ paths) : q.counter.InRange im := by
  obtain ⟨o, m, next, -, executed, ⟨c, rfl, -, only⟩ | ⟨b, a, i, counters, s, rfl, terms, lists, followed, rfl, -⟩⟩ :=
    Path.step_eq_ok ok
  · obtain ⟨d, ⟨⟩, after | taken⟩ | ⟨-, -, -, ⟨⟩, -⟩ := execute_cases executed
    · exact only q mem ▸ after_inRange after
    · exact only q mem ▸ target_inRange taken
  · obtain ⟨-, ⟨⟩, -⟩ | ⟨-, -, -, ⟨⟩, -, taken, passed⟩ := execute_cases executed
    obtain ⟨ha, hi⟩ := choiceTerms_sort terms
    obtain old | mem := (Spread.foldlM_follow ha hi followed).1.2.2 q mem
    · cases old
    · obtain eq | eq := lists.mem_cases lawful answers mem
      · exact eq ▸ target_inRange taken
      · exact eq ▸ after_inRange passed

/-- Every path that an exploration meets is at an operation that there is, where its address has operations. -/
theorem visited_inRange {memory : Term} {address budget : Int} {p : Path} (lawful : ∀ F, Model F → Lawful F)
    (answers : Answers Model find) (visited : Visited im find ⟨memory, ⟨address, 0⟩, budget, []⟩ p)
    (here : im.operationsAt p.counter.address = .ok ops) :
    ∃ inside : p.counter.index < ops.length, im.operationAt p.counter = .ok ops[p.counter.index] := by
  have range : p.counter.InRange im := by
    cases visited with
    | start => exact .first im address
    | step _ done mem => exact Path.step_inRange lawful answers done mem
  have inside := range ops here
  refine ⟨inside, bind_eq_ok.2 ⟨ops, here, ?_⟩⟩
  rw [getElem?_eq_getElem inside]
  rfl

namespace Sample

/-- A branch to the end of its instruction, and the instruction that follows. -/
def passing : Image := [⟨0, 4, "", "", [⟨.branch, none, [⟨"const", 1, 8⟩]⟩]⟩, ⟨4, 4, "", "", [mark]⟩]

theorem passing_inRange : ∃ p, Visited passing (oracle (· = Plain.machine) ⟨0, 0⟩) ⟨memory, ⟨0, 0⟩, 2, []⟩ p ∧
    p.counter = ⟨4, 0⟩ ∧ passing.operationAt p.counter = .ok mark := by
  let start : Path := ⟨memory, ⟨0, 0⟩, 2, []⟩
  let Model (F : Frame _) : Prop := F = Plain.machine
  have lawful : ∀ F, Model F → Lawful F := by
    rintro _ rfl
    exact Plain.machine_lawful
  have done : start.step passing (oracle Model ⟨0, 0⟩) = .ok ([⟨memory, ⟨4, 0⟩, 1, []⟩], []) := rfl
  have visited : Visited passing _ start _ := .step .start done (mem_singleton.2 rfl)
  have here : passing.operationsAt 4 = .ok [mark] := rfl
  obtain ⟨_, found⟩ := visited_inRange lawful (oracle_answers Model ⟨0, 0⟩) visited here
  exact ⟨_, visited, rfl, found⟩

end Sample
end SortedLogic.Machine

import SortedLogic.Proofs.Computation
import Mathlib

/-!
# Names of datatypes

A datatype is begun under a name that no recorded datatype has. When it is created the name may be taken, and it drives the
earlier one out of the record (`pending_overwritten`). Nothing else can go wrong (`created_distinct_iff`).
-/

namespace SortedLogic.Kernel
open List

theorem nameChoice_injective (name : String) : Function.Injective (nameChoice name) := by
  have longer : ∀ k : Nat, (name ++ "!" ++ toString k) ≠ name := by
    intro k eq
    have lengths := congrArg String.length eq
    have mark : "!".length = 1 := rfl
    simp only [String.length_append] at lengths
    omega
  intro j k eq
  unfold nameChoice at eq
  by_cases hj : j = 0 <;> by_cases hk : k = 0
  · rw [hj, hk]
  · rw [if_pos hj, if_neg hk] at eq
    exact (longer k eq.symm).elim
  · rw [if_neg hj, if_pos hk] at eq
    exact (longer j eq).elim
  · rw [if_neg hj, if_neg hk] at eq
    exact Nat.repr_inj.1 ((String.append_right_inj _).1 eq)

theorem datatypeName_not_mem (w : World) (name : String) : datatypeName w name ∉ w.datatypes.map (·.name) := by
  unfold datatypeName
  dsimp only
  generalize w.datatypes.map (·.name) = taken
  cases hit : ((range (taken.length + 1)).map (nameChoice name)).find? fun n => !taken.contains n with
  | some => simpa using find?_some hit
  | none =>
    have covered : (range (taken.length + 1)).map (nameChoice name) ⊆ taken := by
      intro n mem
      simpa using find?_eq_none.1 hit n mem
    have few := (subperm_of_subset (nodup_range.map (nameChoice_injective name)) covered).length_le
    simp only [length_map, length_range] at few
    omega

/-! ## Beginning and creating in any order -/

/-- A datatype is begun under a name, or the `k`-th begun is created, with constructors whose fields may be of its own sort. -/
inductive Workshop.Call where
  | begin (name : String)
  | create (k : Nat) (constructors : Srt → List (String × Vars))

structure Workshop where
  world : World
  /-- The names under which datatypes were begun, each with the number of datatypes created before. -/
  begun : List (String × Nat) := []
  /-- The datatypes created, each with the number of those created before it was begun. -/
  created : List (Datatype × Nat) := []

namespace Workshop

def made (s : Workshop) : List Datatype := s.created.map (·.1)

/-- A refused creation is none. -/
def step (s : Workshop) : Call → Workshop
  | .begin name => { s with begun := s.begun ++ [(datatypeName s.world name, s.made.length)] }
  | .create k constructors =>
    match s.begun[k]? with
    | none => s
    | some (name, before) =>
      let d := Datatype.make name (constructors (.datatype name))
      match (declare d).run s.world with
      | (.ok _, w) => { s with world := w, created := s.created ++ [(d, before)] }
      | (.error _, w) => { s with world := w }

def run (w : World) (calls : List Call) : Workshop := calls.foldl step { world := w }

/-- No datatype of the name of another was created after that one was begun and before it was created. -/
def Unrivalled (s : Workshop) : Prop :=
  ∀ (k : Nat) (d : Datatype) (before : Nat), s.created[k]? = some (d, before) →
    d.name ∉ ((s.made.take k).drop before).map (·.name)

end Workshop

theorem declare_cases (d : Datatype) (w : World) : (∃ e, (declare d).run w = (.error e, w)) ∨
      ∃ v, (declare d).run w = (.ok (), v) ∧ v.datatypes = w.datatypes.filter (·.name ≠ d.name) ++ [d] := by
  unfold declare
  by_cases empty : d.constructors.isEmpty
  · exact .inl ⟨_, by rw [if_pos empty]; rfl⟩
  rw [if_neg empty]
  cases checked : checkNames d.constructors [] with
  | error e => exact .inl ⟨e, rfl⟩
  | ok => exact .inr ⟨_, rfl, rfl⟩

namespace Workshop

/-- The record of the datatypes created one after the other: each takes the place of an earlier one of its name. -/
def latest (ds : List Datatype) : List Datatype := ds.foldl (fun es d => es.filter (·.name ≠ d.name) ++ [d]) []

theorem latest_concat (ds : List Datatype) (d : Datatype) :
    latest (ds ++ [d]) = (latest ds).filter (·.name ≠ d.name) ++ [d] := by simp [latest]

theorem mem_latest_names {x : String} (ds : List Datatype) : x ∈ (latest ds).map (·.name) ↔ x ∈ ds.map (·.name) := by
  induction ds using reverseRecOn with
  | nil => rfl
  | append_singleton _ d ih =>
    rw [latest_concat, map_append, map_append, mem_append]
    by_cases eq : x = d.name
    · simp [eq]
    · simp only [mem_map, mem_filter]
      grind

theorem filter_latest {d : Datatype} {ds : List Datatype} (new : d.name ∉ ds.map (·.name)) :
    (latest ds).filter (·.name ≠ d.name) = latest ds := by
  refine filter_eq_self.2 fun e mem => decide_eq_true fun same => new ?_
  rw [← mem_latest_names, ← same]
  exact mem_map_of_mem mem

theorem latest_eq_self_iff (ds : List Datatype) : latest ds = ds ↔ (ds.map (·.name)).Nodup := by
  induction ds using reverseRecOn with
  | nil => simp [latest]
  | append_singleton ds d ih =>
    have grown : latest (ds ++ [d]) = ds ++ [d] ↔ latest ds = ds ∧ d.name ∉ ds.map (·.name) := by
      rw [latest_concat, append_left_inj]
      constructor
      · intro eq
        have new : d.name ∉ ds.map (·.name) := by
          rw [← eq]
          simp
        exact ⟨by rwa [filter_latest new] at eq, new⟩
      · intro h
        rw [filter_latest h.2, h.1]
    rw [grown, ih, map_append, nodup_append]
    simp

/-- What all calls keep: the datatypes of the beginning, and that a name was free when it was begun. -/
structure Kept (w : World) (s : Workshop) : Prop where
  record : s.world.datatypes = w.datatypes ++ latest s.made
  begun : ∀ b ∈ s.begun, b.1 ∉ w.datatypes.map (·.name) ∧ b.2 ≤ s.made.length ∧ b.1 ∉ (s.made.take b.2).map (·.name)
  created : ∀ (k : Nat) (d : Datatype) (before : Nat), s.created[k]? = some (d, before) →
    before ≤ k ∧ d.name ∉ (s.made.take before).map (·.name)

variable {w : World} {s : Workshop}

theorem Kept.begin (h : s.Kept w) (name : String) : (s.step (.begin name)).Kept w where
  record := h.record
  begun := by
    intro b mem
    rcases mem_append.1 mem with mem | mem
    · exact h.begun b mem
    obtain rfl := mem_singleton.1 mem
    have free := datatypeName_not_mem s.world name
    rw [h.record, map_append, mem_append, mem_latest_names] at free
    exact ⟨fun taken => free (.inl taken), le_rfl, fun taken => free (.inr (map_subset _ (take_subset _ _) taken))⟩
  created := h.created

theorem Kept.concat {v : World} {d : Datatype} {before : Nat} (h : s.Kept w) (mem : (d.name, before) ∈ s.begun)
    (record : v.datatypes = s.world.datatypes.filter (·.name ≠ d.name) ++ [d]) :
    Kept w { s with world := v, created := s.created ++ [(d, before)] } := by
  obtain ⟨old, bound, free⟩ := h.begun _ mem
  have made : made { s with world := v, created := s.created ++ [(d, before)] } = s.made ++ [d] := by simp [Workshop.made]
  have earlier : ∀ n ≤ s.made.length, (s.made ++ [d]).take n = s.made.take n := fun n le =>
    take_append_of_le_length le
  refine ⟨?_, fun b begun => ?_, fun k e j hit => ?_⟩
  · have kept : w.datatypes.filter (·.name ≠ d.name) = w.datatypes :=
      filter_eq_self.2 fun e m => decide_eq_true fun same => old (same ▸ mem_map_of_mem m)
    rw [made, latest_concat, record, h.record, filter_append, kept, append_assoc]
  · obtain ⟨old, bound, free⟩ := h.begun b begun
    rw [made, earlier _ bound]
    exact ⟨old, by simp; omega, free⟩
  rw [made]
  rcases Nat.lt_or_ge k s.created.length with mem' | outside
  · have hit : s.created[k]? = some (e, j) := by rwa [getElem?_append_left mem'] at hit
    obtain ⟨le, free⟩ := h.created k e j hit
    rw [earlier j (by simp [Workshop.made]; omega)]
    exact ⟨le, free⟩
  rw [getElem?_append_right outside] at hit
  obtain ⟨rfl, rfl⟩ : e = d ∧ j = before := by simpa using mem_of_getElem? hit
  rw [earlier j bound]
  exact ⟨(by simpa [Workshop.made] using bound : j ≤ s.created.length).trans outside, free⟩

theorem Kept.step (h : s.Kept w) (call : Call) : (s.step call).Kept w := by
  cases call with
  | begin name => exact h.begin name
  | create k constructors =>
    cases hit : s.begun[k]? with
    | none =>
      simp only [Workshop.step, hit]
      exact h
    | some b =>
      have cases := declare_cases (Datatype.make b.1 (constructors (.datatype b.1))) s.world
      obtain ⟨e, err⟩ | ⟨v, made, record⟩ := cases
      · simp only [Workshop.step, hit, err]
        exact h
      · simp only [Workshop.step, hit, made]
        exact h.concat (mem_of_getElem? hit) record

theorem run_kept (w : World) (calls : List Call) : (run w calls).Kept w := by
  induction calls using reverseRecOn with
  | nil => exact ⟨by simp [run, latest, made], by simp [run], by simp [run]⟩
  | append_singleton _ call ih =>
    rw [run, foldl_concat]
    exact ih.step call

theorem nodup_names_iff (ds : List Datatype) :
    (ds.map (·.name)).Nodup ↔ ∀ k d, ds[k]? = some d → d.name ∉ (ds.take k).map (·.name) := by
  rw [nodup_iff_pairwise_ne, pairwise_iff_getElem]
  simp only [mem_map, mem_take_iff_getElem, getElem?_eq_some_iff]
  grind

theorem Kept.nodup_iff (h : s.Kept w) : (s.made.map (·.name)).Nodup ↔ s.Unrivalled := by
  have split : ∀ k d before, s.created[k]? = some (d, before) →
      (d.name ∈ (s.made.take k).map (·.name) ↔ d.name ∈ ((s.made.take k).drop before).map (·.name)) := by
    intro k d before hit
    obtain ⟨le, free⟩ := h.created k d before hit
    conv_lhs => rw [← take_append_drop before (s.made.take k), take_take, min_eq_left le, map_append, mem_append]
    exact or_iff_right free
  rw [nodup_names_iff]
  constructor
  · intro nodup k d before hit
    rw [← split k d before hit]
    exact nodup k d (by simp [made, hit])
  intro unrivalled k d hit
  obtain ⟨c, created, rfl⟩ : ∃ c, s.created[k]? = some c ∧ c.1 = d := by simpa [made] using hit
  rw [split k c.1 c.2 created]
  exact unrivalled k c.1 c.2 created

/-- The datatypes recorded before stay, and those created have different names, and none drives another out of the record,
exactly if none was created while another of its name was waiting. -/
theorem created_distinct_iff (w : World) (calls : List Call) : w.datatypes <+: (run w calls).world.datatypes ∧
    (((run w calls).made.map (·.name)).Nodup ↔ (run w calls).Unrivalled) ∧
    ((run w calls).world.datatypes = w.datatypes ++ (run w calls).made ↔ (run w calls).Unrivalled) := by
  have kept := run_kept w calls
  refine ⟨⟨_, kept.record.symm⟩, kept.nodup_iff, ?_⟩
  rw [kept.record, append_cancel_left_eq, latest_eq_self_iff, kept.nodup_iff]

/-- Two datatypes begun under one name before either is created: the second drives the first out of the record. -/
theorem pending_overwritten :
    let s := run {} [.begin "T", .begin "T", .create 0 fun _ => [("a", [])], .create 1 fun _ => [("b", [])]]
    s.made.map (·.name) = ["T", "T"] ∧ s.world.datatypes = [Datatype.make "T" [("b", [])]] := by
  decide

end Workshop
end SortedLogic.Kernel

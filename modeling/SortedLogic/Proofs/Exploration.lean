import SortedLogic.Machine
import SortedLogic.Proofs.Formulas
import SortedLogic.Proofs.StandardModel
import Mathlib

/-!
# Paths of an exploration

A term stands for a memory if the terms of its three arrays have their values (`Stands`). At a conditional branch the listing
asks for another address and another index after each counter, so the counters that it lists differ from the first one in both
(`lists_exact`).
-/

namespace SortedLogic.Machine
open Bits (word widthOf zeroExtend literalFirst)
open Models (Finder allValuesFrom)
open Term
variable {a i m m' q : Term} {counters cs ds rest : List Counter} {ended ended' outcomes res : List Outcome}
  {c passed taken : Counter} {conditions fs vs : List Term} {paths paths' todo : List Path} {s s' : Spread}
  {o : Operation}
open Checked (bind_eq_ok)
open SortedLogic.Frame (eval_app eval_eq eval_ite)
open List
open List.Subset (refl)
open Memory (accessor pack)
open SortedLogic.Symbol (builtin)
universe u

section Memories
variable {U : Type u}

/-! ## Memories -/

def arrays (F : Frame U) (μ : U) : List U := spaceNames.zipIdx.map fun p => F.fn (accessor p.1 p.2) [μ]

/-- Numbers are different, and a record has the arrays that it is made of. -/
structure Lawful (F : Frame U) : Prop where
  numbers : ∀ m n : Int, F.eval [] (.int m) = F.eval [] (.int n) → m = n
  record : ∀ us, F.Fits us pack.domain → arrays F (F.fn pack us) = us

/-- The term stands for the memory, and what is read off it for the arrays of the memory. -/
structure Stands (F : Frame U) (ρ : List U) (m : Term) (μ : U) : Prop where
  sort : m.sort = memorySort
  value : F.eval ρ m = μ
  mem : μ ∈ F.carrier memorySort
  spaces : Forall₂ (fun a u => a.sort = spaceSort ∧ F.eval ρ a = u) (Memory.spaces m) (arrays F μ)

variable {F : Frame U} {ρ : List U} {μ : U}

theorem accessor_mem (mem : μ ∈ F.carrier memorySort) (name : String) (i : Nat) :
    F.fn (accessor name i) [μ] ∈ F.carrier spaceSort := F.fn_mem (accessor name i) [μ] (.cons mem .nil)

theorem stands_pack (lawful : Lawful F) {us : List U} (fits : F.Fits us pack.domain)
    (each : Forall₂ (fun a u => a.sort = spaceSort ∧ F.eval ρ a = u) ts us) : Stands F ρ (.app pack ts) (F.fn pack us) := by
  have vals : ts.map (F.eval ρ) = us := by
    rw [← forall₂_eq_eq_eq, forall₂_map_left_iff]
    exact each.imp fun _ _ h => h.2
  have count : pack.arity = us.length := fits.length_eq.symm
  refine ⟨rfl, by rw [eval_app, vals], F.fn_mem pack us ?_, ?_⟩
  · rwa [placesOf, if_pos count]
  · rw [lawful.record us fits]
    exact each

theorem Stands.replace (lawful : Lawful F) (h : Stands F ρ m μ) (name : String) (sort : a.sort = spaceSort)
    (mem : F.eval ρ a ∈ F.carrier spaceSort) : Stands F ρ (Memory.replace m name a)
      (F.fn pack ((spaceNames.zip (arrays F μ)).map fun p => if p.1 = name then F.eval ρ a else p.2)) := by
  have each := h.spaces
  have old := accessor_mem h.mem
  unfold Memory.replace
  generalize Memory.spaces m = as at each
  rcases each with _ | ⟨ram, _ | ⟨register, _ | ⟨unique, _ | _⟩⟩⟩
  have choose {n : String} {t : Term} {u : U} (h : t.sort = spaceSort ∧ F.eval ρ t = u) :
      (if n = name then a else t).sort = spaceSort ∧
        F.eval ρ (if n = name then a else t) = if n = name then F.eval ρ a else u := by
    by_cases eq : n = name
    · simpa only [if_pos eq] using ⟨sort, trivial⟩
    · simpa only [if_neg eq] using h
  have mem' (n : String) {u : U} (h : u ∈ F.carrier spaceSort) :
      (if n = name then F.eval ρ a else u) ∈ F.carrier spaceSort := by
    split
    · exact mem
    · exact h
  exact stands_pack lawful (.cons (mem' _ (old _ _)) (.cons (mem' _ (old _ _)) (.cons (mem' _ (old _ _)) .nil)))
    (.cons (choose ram) (.cons (choose register) (.cons (choose unique) .nil)))

end Memories

/-! ## The machine -/

section Machine
variable {U : Type u} {F : Frame U} {im : Image} {μ : U}

theorem symbolic_stands {ρ : List U} (value : F.eval ρ m = μ) :
    Forall₂ (fun a u => a.sort = spaceSort ∧ F.eval ρ a = u) (Memory.spaces.symbolic m) (arrays F μ) := by
  have each (name : String) (i : Nat) : (app (accessor name i) [m]).sort = spaceSort ∧
      F.eval ρ (.app (accessor name i) [m]) = F.fn (accessor name i) [μ] :=
    ⟨rfl, by rw [eval_app, map_singleton, value]⟩
  exact .cons (each _ _) (.cons (each _ _) (.cons (each _ _) .nil))

/-- A term for a memory. If it is written out, then as a record of three arrays. -/
structure Formed (m : Term) : Prop where
  sorted : m.Sorted true []
  sort : m.sort = memorySort
  record : ∀ f args, m = .app f args → f.isConstructor → f = pack ∧ args.length = 3

theorem Formed.stands (formed : Formed m) (lawful : Lawful F) : Stands F [] m (F.eval [] m) := by
  have mem : F.eval [] m ∈ F.carrier memorySort := formed.sort ▸ F.eval_mem formed.sorted .nil
  by_cases written : m.isConstructor
  · cases m with
    | app f args =>
      obtain ⟨rfl, count⟩ := formed.record f args rfl written
      obtain ⟨-, places, sorted⟩ := sorted_app.1 formed.sorted
      replace places : args.map Term.sort = pack.domain := places.trans (if_pos count.symm)
      have each : Forall₂ (fun a u => a.sort = spaceSort ∧ F.eval [] a = u) args (args.map (F.eval [])) := by
        rw [forall₂_map_right_iff, forall₂_same]
        refine fun a mem' => ⟨?_, rfl⟩
        have := mem_map_of_mem (f := Term.sort) mem'
        rw [places] at this
        simpa [pack] using this
      rw [eval_app]
      exact stands_pack lawful (places ▸ F.fits_eval sorted) each
    | var => cases written
    | bind => cases written
  · refine ⟨formed.sort, rfl, mem, ?_⟩
    have open' : Memory.spaces m = Memory.spaces.symbolic m := by
      cases m with
      | app => exact if_neg written
      | var => rfl
      | bind => rfl
    exact open' ▸ symbolic_stands rfl

open Classical in
noncomputable def Next.chosen (F : Frame U) (ρ : List U) : Next → Counter
  | .goto c => c
  | .choice p taken passed => if F.eval ρ p = F.yes then taken else passed

end Machine

/-! ## Listing the counters after a branch -/

section Listing

structure Branch where
  condition : Term
  taken : Counter
  passed : Counter

variable {U : Type u} {Model : Frame U → Prop} {find : Finder} {F : Frame U} {b : Branch}

noncomputable def Branch.next (b : Branch) (F : Frame U) : Counter := (Next.choice b.condition b.taken b.passed).chosen F []

/-- What the finder finds are the numbers that address and index after a branch are in a model of the formulas; if it finds
nothing, there is no model. -/
structure Answers (Model : Frame U → Prop) (find : Finder) : Prop where
  sound : ∀ fs (b : Branch) a i vs, choiceTerms b.condition b.taken b.passed = .ok (a, i) → find fs [a, i] = some vs →
    ∃ F, Model F ∧ (∀ f ∈ fs, F.Holds f) ∧ ∃ m n : Int, vs = [.int m, .int n] ∧
      F.eval [] a = F.eval [] (.int m) ∧ F.eval [] i = F.eval [] (.int n)
  complete : ∀ fs (b : Branch) a i, choiceTerms b.condition b.taken b.passed = .ok (a, i) → find fs [a, i] = none →
    ∀ F, Model F → ∃ f ∈ fs, ¬ F.Holds f

def Lists (find : Finder) (b : Branch) (counters : List Counter) : Prop :=
  ∃ a i found, choiceTerms b.condition b.taken b.passed = .ok (a, i) ∧ Models.allValues find 3 [a, i] = .ok found ∧
    found.mapM counterOf = .ok counters

/-- Neither the address nor the index is shared. -/
def Apart (c d : Counter) : Prop := c.address ≠ d.address ∧ c.index ≠ d.index

def blocks (a i : Term) (c : Counter) : List Term :=
  [.app (.distinct [.int, .int]) [a, .int c.address], .app (.distinct [.int, .int]) [i, .int c.index]]

theorem Branch.next_eq (b : Branch) (F : Frame U) : b.next F = b.taken ∨ b.next F = b.passed :=
  (em _).imp (fun h => if_pos h) fun h => if_neg h

-- The listing is a function of the finder and the branch.
theorem Lists.unique (first : Lists find b cs) (second : Lists find b ds) : cs = ds := by
  obtain ⟨a, i, hit, terms, listed, read⟩ := first
  obtain ⟨a', i', hit', terms', listed', read'⟩ := second
  cases terms.symm.trans terms'
  cases listed.symm.trans listed'
  exact Except.ok.inj (read.symm.trans read')

variable (lawful : ∀ F, Model F → Lawful F) (answers : Answers Model find)
  (terms : choiceTerms b.condition b.taken b.passed = .ok (a, i))
include terms

theorem choiceTerms_eq_ok : a = .app (.ite .int) [b.condition, .int b.taken.address, .int b.passed.address] ∧
      i = .app (.ite .int) [b.condition, .int b.taken.index, .int b.passed.index] := by
  obtain ⟨a', first, rest⟩ := bind_eq_ok.1 terms
  obtain ⟨i', second, rest⟩ := bind_eq_ok.1 rest
  cases rest
  have ints (m n : Int) : (int m).sort = (int n).sort := rfl
  exact ⟨((ite_of_sort (ints _ _)).1 first).2, ((ite_of_sort (ints _ _)).1 second).2⟩

theorem choiceTerms_sort : a.sort = .int ∧ i.sort = .int := by
  obtain ⟨rfl, rfl⟩ := choiceTerms_eq_ok terms
  exact ⟨rfl, rfl⟩

theorem choiceTerms_value (F : Frame U) :
    F.eval [] a = F.eval [] (.int (b.next F).address) ∧ F.eval [] i = F.eval [] (.int (b.next F).index) := by
  obtain ⟨rfl, rfl⟩ := choiceTerms_eq_ok terms
  rw [eval_ite, eval_ite, Branch.next, Next.chosen]
  split <;> exact ⟨rfl, rfl⟩

theorem holds_blocks (lawful : Lawful F) : (∀ f ∈ blocks a i c, F.Holds f) ↔ Apart (b.next F) c := by
  have nodup {s : Srt} {t u : Term} : F.Holds (.app (.distinct [s, s]) [t, u]) ↔ F.eval [] t ≠ F.eval [] u := by
    rw [Frame.Holds, eval_app, F.fn_distinct]
    simp
  have numbers {m n : Int} : F.eval [] (.int m) = F.eval [] (.int n) ↔ m = n := ⟨lawful.numbers m n, fun e => e ▸ rfl⟩
  obtain ⟨address, index⟩ := choiceTerms_value terms F
  simp only [blocks, forall_mem_cons, not_mem_nil, false_imp_iff, implies_true, and_true, nodup, address, index,
    ne_eq, numbers, Nat.cast_inj, Apart]

include lawful answers

theorem allValuesFrom_some (hit : find fs [a, i] = some vs) :
    ∃ G, Model G ∧ (∀ f ∈ fs, G.Holds f) ∧ vs = [.int (b.next G).address, .int (b.next G).index] ∧
      ∀ fuel, allValuesFrom find [a, i] (fuel + 1) fs = (do
        return vs :: (← allValuesFrom find [a, i] fuel (fs ++ blocks a i (b.next G)))) := by
  obtain ⟨G, model, holds, m, n, rfl, address, index⟩ := answers.sound _ _ _ _ _ terms hit
  obtain ⟨address', index'⟩ := choiceTerms_value terms G
  obtain rfl := (lawful G model).numbers _ _ (address.symm.trans address')
  obtain rfl := (lawful G model).numbers _ _ (index.symm.trans index')
  obtain ⟨rfl, rfl⟩ := choiceTerms_eq_ok terms
  refine ⟨G, model, holds, rfl, fun fuel => ?_⟩
  have asked {t : Term} (sort : t.sort = .int) (k : Int) : t.neq (.int k) = .ok (.app (.distinct [.int, .int]) [t, .int k]) :=
    sort ▸ neq_of_sort sort
  rw [allValuesFrom, hit]
  refine congrArg (· >>= _) (Checked.mapM_eq_ok.2 (.cons ?_ (.cons ?_ .nil)))
  · exact asked rfl _
  · exact asked rfl _

theorem lists_exact (some : ∃ F, Model F) :
    ∃ G, Model G ∧ find [] [a, i] = Option.some [.int (b.next G).address, .int (b.next G).index] ∧
      (Lists find b [b.next G] ∧ (∀ F, Model F → ¬ Apart (b.next F) (b.next G)) ∨
        ∃ H : Frame U, Lists find b [b.next G, b.next H] ∧ Apart (b.next H) (b.next G) ∧
          ∀ F : Frame U, b.next F = b.next G ∨ b.next F = b.next H) := by
  have none {fs : List Term} (h : find fs [a, i] = none) (fuel : Nat) : allValuesFrom find [a, i] (fuel + 1) fs = .ok [] := by
    rw [allValuesFrom, h]
  cases first : find [] [a, i] with
  | none =>
    obtain ⟨F, model⟩ := some
    simpa using answers.complete _ _ _ _ terms first F model
  | some =>
    obtain ⟨G, model, -, rfl, next⟩ := allValuesFrom_some lawful answers terms first
    refine ⟨G, model, rfl, ?_⟩
    cases second : find ([] ++ blocks a i (b.next G)) [a, i] with
    | none =>
      refine .inl ⟨⟨a, i, _, terms, (next 2).trans (congrArg (· >>= _) (none second 1)), rfl⟩, fun F model' apart => ?_⟩
      obtain ⟨f, mem, fails⟩ := answers.complete _ _ _ _ terms second F model'
      exact fails ((holds_blocks terms (lawful F model')).2 apart f mem)
    | some =>
      obtain ⟨H, model', holds, rfl, next'⟩ := allValuesFrom_some lawful answers terms second
      have apart : Apart (b.next H) (b.next G) := (holds_blocks terms (lawful H model')).1 holds
      have two (F : Frame U) : b.next F = b.next G ∨ b.next F = b.next H := by
        -- only two counters are possible, and these are two
        have differ : b.next H ≠ b.next G := fun e => apart.1 (congrArg _ e)
        obtain e | e := b.next_eq F <;> obtain e' | e' := b.next_eq G <;> obtain e'' | e'' := b.next_eq H <;> simp_all
      refine .inr ⟨H, ⟨a, i, _, terms, (next 2).trans (congrArg (· >>= _) ((next' 1).trans
        (congrArg (· >>= _) (none ?_ 0)))), rfl⟩, apart, two⟩
      -- a third counter would be apart from both
      cases third : find ([] ++ blocks a i (b.next G) ++ blocks a i (b.next H)) [a, i] with
      | none => rfl
      | some =>
        obtain ⟨K, model'', holds, -⟩ := allValuesFrom_some lawful answers terms third
        have block (c : Counter) := holds_blocks terms (lawful K model'') (c := c)
        have first := (block _).1 fun f mem => holds f (mem_append_left _ mem)
        have second := (block _).1 fun f mem => holds f (mem_append_right _ mem)
        obtain e | e := two K
        · exact absurd (congrArg _ e) first.1
        · exact absurd (congrArg _ e) second.1

end Listing

/-! ## Paths -/

section Paths
variable {U : Type u} {Model : Frame U → Prop} {im : Image} {find : Finder} {F : Frame U} {p : Path} {b : Branch}

/-- How many instructions may still be left when the next operation is at `c`. -/
def left (budget : Int) (here c : Counter) : Int := if here.address ≠ c.address then budget - 1 else budget

def Path.In (p : Path) (paths : List Path) (ended : List Outcome) : Prop :=
  0 < p.budget ∧ p ∈ paths ∨ p.budget ≤ 0 ∧ ∃ branched, ⟨p.memory, p.counter, p.conditions, branched⟩ ∈ ended

theorem Path.In.mono (h : p.In paths ended) (more : paths ⊆ paths') (more' : ended ⊆ ended') : p.In paths' ended' :=
  h.imp (.imp_right (more ·)) (.imp_right (.imp fun _ h => more' h))

def Spread.onward (s : Spread) (memory : Term) (conditions : List Term) (a i : Term) (c : Counter) : Path :=
  ⟨memory, c, left s.budget s.counter c, conditions ++ [.app (.eq .int) [a, .int c.address], .app (.eq .int) [i, .int c.index]]⟩

theorem Spread.follow_eq_ok {memory : Term} (ha : a.sort = .int) (hi : i.sort = .int)
    (ok : Spread.follow memory conditions a i s c = .ok s') :
    s'.counter = c ∧ s'.budget = left s.budget s.counter c ∧ s.paths ⊆ s'.paths ∧ s.outcomes ⊆ s'.outcomes ∧
      (s.onward memory conditions a i c).In s'.paths s'.outcomes ∧
      ∀ q ∈ s'.paths, q ∈ s.paths ∨ q = s.onward memory conditions a i c := by
  unfold Spread.follow at ok
  rw [eq_of_sort ha, eq_of_sort hi, ha, hi] at ok
  by_cases more : 0 < left s.budget s.counter c
  · cases (if_pos more).symm.trans ok
    exact ⟨rfl, rfl, subset_cons_self _ _, refl _, .inl ⟨more, mem_cons_self⟩, fun q h => (mem_cons.1 h).symm⟩
  · cases (if_neg more).symm.trans ok
    exact ⟨rfl, rfl, refl _, subset_append_left _ _,
      .inr ⟨Int.not_lt.1 more, true, mem_append_right _ (mem_singleton.2 rfl)⟩, fun q h => .inl h⟩

theorem Spread.foldlM_follow {memory : Term} (ha : a.sort = .int) (hi : i.sort = .int)
    (ok : counters.foldlM (Spread.follow memory conditions a i) s = .ok s') :
    (s.paths ⊆ s'.paths ∧ s.outcomes ⊆ s'.outcomes ∧ ∀ q ∈ s'.paths, q ∈ s.paths ∨ q.counter ∈ counters) ∧
      (∀ c ∈ counters.head?, (s.onward memory conditions a i c).In s'.paths s'.outcomes) ∧
      ((∀ c ∈ counters.dropLast, c.address = s.counter.address) →
        (∀ c ∈ counters, (s.onward memory conditions a i c).In s'.paths s'.outcomes) ∧
        ∀ q ∈ s'.paths, q ∈ s.paths ∨ ∃ c, q = s.onward memory conditions a i c) := by
  induction counters generalizing s with
  | nil =>
    cases ok
    exact ⟨⟨refl _, refl _, fun q h => .inl h⟩, by simp, fun _ => ⟨by simp, fun q h => .inl h⟩⟩
  | cons c counters ih =>
    obtain ⟨s₁, first, rest⟩ := bind_eq_ok.1 ok
    obtain ⟨counter, budget, paths, outcomes, here, only⟩ := Spread.follow_eq_ok ha hi first
    obtain ⟨⟨paths', outcomes', from'⟩, -, each⟩ := ih rest
    have here := here.mono paths' outcomes'
    refine ⟨⟨Subset.trans paths paths', Subset.trans outcomes outcomes', fun q h => ?_⟩, by simpa using here, fun order => ?_⟩
    · obtain h | h := from' q h
      · exact (only q h).imp_right fun e => by simp [e, onward]
      · exact .inr (mem_cons_of_mem _ h)
    cases counters with
    | nil =>
      cases rest
      exact ⟨by simpa using here, fun q h => (only q h).imp_right fun e => ⟨c, e⟩⟩
    | cons =>
      -- this counter is not the last one, so it does not leave the instruction
      have stays : c.address = s.counter.address := order c mem_cons_self
      have eq (e : Counter) : s₁.onward memory conditions a i e = s.onward memory conditions a i e := by
        rw [onward, onward, budget, counter, left, left, left, stays, if_neg (not_not_intro rfl)]
      obtain ⟨each, only'⟩ := each fun e h =>
        (order e (mem_cons_of_mem _ h)).trans (stays.symm.trans (congrArg Counter.address counter.symm))
      simp only [eq] at each only'
      refine ⟨forall_mem_cons.2 ⟨here, each⟩, fun q h => ?_⟩
      obtain h | h := only' q h
      · exact (only q h).imp_right fun e => ⟨c, e⟩
      · exact .inr h

theorem execute_cases {next : Next} (ok : im.execute o m c = .ok (m', next)) :
    (∃ d, next = .goto d ∧ (im.after c = .ok d ∨ im.target o c = .ok d)) ∨
      ∃ q taken passed, next = .choice q taken passed ∧ m' = m ∧ im.target o c = .ok taken ∧ im.after c = .ok passed := by
  have on {x : Checked Term} (ok : (do let m ← x; return (m, Next.goto (← im.after c))) = .ok (m', next)) :
      ∃ d, next = .goto d ∧ (im.after c = .ok d ∨ im.target o c = .ok d) := by
    simp only [bind_eq_ok] at ok
    obtain ⟨_, -, d, passed, ok⟩ := ok
    cases ok
    exact ⟨d, rfl, .inl passed⟩
  unfold Image.execute at ok
  split at ok
  all_goals first | exact .inl (on ok) | skip
  · obtain ⟨d, taken, ok⟩ := bind_eq_ok.1 ok
    cases ok
    exact .inl ⟨d, rfl, .inr taken⟩
  · simp only [bind_eq_ok] at ok
    obtain ⟨_, -, _, -, _, taken, _, passed, ok⟩ := ok
    cases ok
    exact .inr ⟨_, _, _, rfl, rfl, taken, passed⟩
  · cases ok

theorem Path.step_eq_ok (ok : p.step im find = .ok (paths, ended)) :
    ∃ o m next, im.operationAt p.counter = .ok o ∧ im.execute o p.memory p.counter = .ok (m, next) ∧
      ((∃ c, next = .goto c ∧ Path.In ⟨m, c, left p.budget p.counter c, p.conditions⟩ paths ended ∧ ∀ q ∈ paths, q.counter = c) ∨
      ∃ (b : Branch) (a i : Term) (counters : List Counter) (s : Spread), next = .choice b.condition b.taken b.passed ∧
        choiceTerms b.condition b.taken b.passed = .ok (a, i) ∧ Lists find b counters ∧
        counters.foldlM (Spread.follow p.memory p.conditions a i) ⟨p.counter, p.budget, [], []⟩ = .ok s ∧
        paths = s.paths ∧ ended = s.outcomes) := by
  obtain ⟨o, here, ok⟩ := bind_eq_ok.1 ok
  obtain ⟨⟨m, next⟩, executed, ok⟩ := bind_eq_ok.1 ok
  refine ⟨o, m, next, here, executed, ?_⟩
  cases next with
  | goto c =>
    refine .inl ⟨c, rfl, ?_⟩
    by_cases more : 0 < left p.budget p.counter c
    · cases (if_pos more).symm.trans ok
      exact ⟨.inl ⟨more, mem_singleton.2 rfl⟩, by simp⟩
    · cases (if_neg more).symm.trans ok
      exact ⟨.inr ⟨Int.not_lt.1 more, false, mem_singleton.2 rfl⟩, by simp⟩
  | choice q taken passed =>
    simp only [bind_eq_ok] at ok
    obtain ⟨⟨a, i⟩, terms, hit, listed, counters, read, s, followed, ok⟩ := ok
    cases ok
    exact .inr ⟨⟨q, taken, passed⟩, a, i, counters, s, rfl, terms, ⟨a, i, hit, terms, listed, read⟩, followed, rfl, rfl⟩

/-- The paths that an exploration meets. -/
inductive Visited (im : Image) (find : Finder) (start : Path) : Path → Prop
  | start : Visited im find start start
  | step {p q : Path} {paths : List Path} {ended : List Outcome} : Visited im find start p → p.step im find = .ok
      (paths, ended) → q ∈ paths → Visited im find start q

end Paths

/-! ## A right finder and a branch -/

section Oracle
variable {U : Type u} (Model : Frame U → Prop)

def Found (fs es : List Term) (m n : Int) : Prop :=
  ∃ F, Model F ∧ (∀ f ∈ fs, F.Holds f) ∧ es.map (F.eval []) = [F.eval [] (.int m), F.eval [] (.int n)]

open Classical in
/-- Knows all models, and tries one counter before the others. -/
noncomputable def oracle (first : Counter) : Finder := fun fs es =>
  if Found Model fs es first.address first.index then some [.int first.address, .int first.index]
  else if h : ∃ k : Int × Int, Found Model fs es k.1 k.2 then some [.int h.choose.1, .int h.choose.2] else none

theorem oracle_answers (first : Counter) : Answers Model (oracle Model first) where
  sound fs b a i vs terms hit := by
    have right {m n : Int} (h : Found Model fs [a, i] m n) : ∃ F, Model F ∧ (∀ f ∈ fs, F.Holds f) ∧
        ∃ m' n' : Int, [int m, int n] = [.int m', .int n'] ∧ F.eval [] a = F.eval [] (.int m') ∧
          F.eval [] i = F.eval [] (.int n') := by
      obtain ⟨F, model, holds, vals⟩ := h
      simp only [map_cons, map_nil, cons.injEq, and_true] at vals
      exact ⟨F, model, holds, m, n, rfl, vals⟩
    unfold oracle at hit
    split at hit
    · rename_i h
      exact Option.some.inj hit ▸ right h
    split at hit
    · rename_i h
      exact Option.some.inj hit ▸ right h.choose_spec
    · cases hit
  complete fs b a i terms none F model := by
    by_contra all
    push Not at all
    obtain ⟨address, index⟩ := choiceTerms_value terms F
    have some : ∃ k : Int × Int, Found Model fs [a, i] k.1 k.2 :=
      ⟨((b.next F).address, (b.next F).index), F, model, all, by rw [map_cons, map_singleton, address, index]⟩
    unfold oracle at none
    split at none <;> cases none

end Oracle

namespace Sample

def memory : Term := .const "mem" memorySort

theorem formed : Formed memory where
  sorted := sorted_app.2 ⟨Symbol.proper_of_isFree rfl, rfl, by simp⟩
  sort := rfl
  record := by rintro f args ⟨⟩ h; cases h

def mark : Operation := ⟨.mark, none, []⟩

end Sample
end SortedLogic.Machine

import SortedLogic.Proofs.Computation
import SortedLogic.Word
import Mathlib.Data.List.Shortlex
import Mathlib.Data.Set.Finite.Lattice

/-!
# Completion of word equations

Completion returns rules that fall in the shortlex order, generate the congruence of the equations, and whose left sides do not
contain one another in the order of the list (`complete_directed`). So rewriting ends, and `simplify` may drop a rule that the
others rewrite to a trivial equation (`simplify_congruent`).

An overlap of a left side with itself is never looked at, and completion may end while one is open (`selfOverlap_missed`). There
is no other gap (`decides_iff_selfOverlaps_agree`).
-/

open Relation (ReflTransGen TransGen Join)

namespace SortedLogic.Word
open List
open Option
variable {E R S E' R' before equations pairs rest : List Rule} {r q : Rule} {s t u v w l l' o u' v' : Word}
  {fuel n i j m : Nat}

/-! ## Words that contain a left side -/

theorem indexOf?_cases (s t : Word) :
    (indexOf? s t = none ∧ ¬ s <:+: t) ∨ ∃ u v, indexOf? s t = some u.length ∧ t = u ++ s ++ v := by
  induction t with
  | nil =>
    cases s with
    | nil => exact .inr ⟨[], [], rfl, rfl⟩
    | cons => exact .inl ⟨rfl, by simp⟩
  | cons c t ih =>
    by_cases first : s.isPrefixOf (c :: t)
    · obtain ⟨v, eq⟩ := isPrefixOf_iff_prefix.1 first
      exact .inr ⟨[], v, by simp [indexOf?, first], eq.symm⟩
    rcases ih with ⟨none, apart⟩ | ⟨u, v, hit, rfl⟩
    · refine .inl ⟨by simp [indexOf?, first, none], fun mem => ?_⟩
      rcases infix_cons_iff.1 mem with here | later
      · exact first ( isPrefixOf_iff_prefix.2 here)
      · exact apart later
    · exact .inr ⟨c :: u, v, by rw [indexOf?, if_neg first, hit, map_some, length_cons], rfl⟩

theorem replaceFirst_cases (s : Word) (r : Rule) :
    (replaceFirst s r = s ∧ ¬ r.1 <:+: s) ∨ ∃ u v, s = u ++ r.1 ++ v ∧ replaceFirst s r = u ++ r.2 ++ v := by
  rcases indexOf?_cases r.1 s with ⟨none, apart⟩ | ⟨u, v, hit, rfl⟩
  · exact .inl ⟨by simp [replaceFirst, none], apart⟩
  refine .inr ⟨u, v, rfl, ?_⟩
  have left : (u ++ r.1 ++ v).take u.length = u := by simp
  have right : (u ++ r.1 ++ v).drop (u.length + r.1.length) = v := by rw [← length_append, drop_left]
  simp only [replaceFirst, hit, left, right]

/-- A left side is exchanged for its right side, anywhere in a word. -/
inductive Step (R : List Rule) : Word → Word → Prop
  | replace (u v : Word) {r : Rule} : r ∈ R → Step R (u ++ r.1 ++ v) (u ++ r.2 ++ v)

abbrev Reduces (R : List Rule) : Word → Word → Prop := ReflTransGen (Step R)

/-- The congruence on words that a list of equations generates. -/
inductive Congruent (E : List Rule) : Word → Word → Prop
  | rule {r : Rule} : r ∈ E → Congruent E r.1 r.2
  | refl (s : Word) : Congruent E s s
  | symm {s t : Word} : Congruent E s t → Congruent E t s
  | trans {s t u : Word} : Congruent E s t → Congruent E t u → Congruent E s u
  | append {s t s' t' : Word} : Congruent E s t → Congruent E s' t' → Congruent E (s ++ s') (t ++ t')

def Normal (R : List Rule) (s : Word) : Prop := ∀ r ∈ R, ¬ r.1 <:+: s

/-- Rewriting takes both words to one word. -/
def Agree (R : List Rule) (s t : Word) : Prop := ∃ n m w, rewrite n R s = some w ∧ rewrite m R t = some w

theorem Step.mono (sub : R ⊆ S) (step : Step R s t) : Step S s t := by
  cases step with
  | replace u v mem => exact .replace u v (sub mem)

theorem Step.exists_rule (step : Step R s t) : ∃ r ∈ R, Step [r] s t := by
  cases step with
  | replace u v mem => exact ⟨_, mem, .replace u v (mem_singleton.2 rfl)⟩

theorem Step.within (step : Step R s t) (u v : Word) : Step R (u ++ s ++ v) (u ++ t ++ v) := by
  cases step with
  | replace u' v' mem =>
    have step := Step.replace (u ++ u') (v' ++ v) mem
    simpa only [append_assoc] using step

theorem Reduces.within (run : Reduces R s t) (u v : Word) : Reduces R (u ++ s ++ v) (u ++ t ++ v) :=
  run.lift (fun s => u ++ s ++ v) fun _ _ step => step.within u v

theorem Normal.reduces_eq (normal : Normal R s) (run : Reduces R s t) : t = s := by
  rcases run.cases_head with rfl | ⟨_, step, -⟩
  · rfl
  · cases step with
    | replace u v mem => exact absurd ⟨u, v, rfl⟩ (normal _ mem)

namespace Congruent

theorem of_rules (rules : ∀ r ∈ E, Congruent R r.1 r.2) (h : Congruent E s t) : Congruent R s t := by
  induction h with
  | rule mem => exact rules _ mem
  | refl s => exact .refl s
  | symm _ ih => exact ih.symm
  | trans _ _ first second => exact first.trans second
  | append _ _ left right => exact left.append right

theorem mono (sub : E ⊆ R) (h : Congruent E s t) : Congruent R s t := h.of_rules fun _ mem => .rule (sub mem)

theorem within (h : Congruent E s t) (u v : Word) : Congruent E (u ++ s ++ v) (u ++ t ++ v) :=
  ((refl u).append h).append (refl v)

theorem of_reduces_using (run : Reduces S s t)
    (rules : ∀ r ∈ S, ∀ w, Reduces S s w → r.1 <:+: w → Congruent E r.1 r.2) : Congruent E s t := by
  induction run with
  | refl => exact .refl s
  | tail before step ih =>
    cases step with
    | replace u v mem => exact ih.trans ((rules _ mem _ before ⟨u, v, rfl⟩).within u v)

theorem of_reduces (run : Reduces R s t) : Congruent R s t := of_reduces_using run fun _ mem _ _ _ => .rule mem

end Congruent

/-! ## Rewriting follows the rules -/

theorem sweep_cases (R : List Rule) (s : Word) : (sweep R s = s ∧ Normal R s) ∨ TransGen (Step R) s (sweep R s) := by
  induction R generalizing s with
  | nil => exact .inl ⟨rfl, nofun⟩
  | cons r R ih =>
    have later {s t} (run : TransGen (Step R) s t) : TransGen (Step (r :: R)) s t :=
      run.lift id fun _ _ step => step.mono (subset_cons_self r R)
    have unfolded : sweep (r :: R) s = sweep R (replaceFirst s r) := rfl
    rw [unfolded]
    rcases replaceFirst_cases s r with ⟨eq, apart⟩ | ⟨u, v, rfl, next⟩
    · rw [eq]
      exact (ih s).imp (fun h => ⟨h.1, forall_mem_cons.2 ⟨apart, h.2⟩⟩) later
    have first : Step (r :: R) (u ++ r.1 ++ v) (u ++ r.2 ++ v) := .replace u v mem_cons_self
    rw [next]
    right
    rcases ih (u ++ r.2 ++ v) with ⟨eq, -⟩ | run
    · rw [eq]
      exact .single first
    · exact .head first (later run)

theorem sweep_reduces (R : List Rule) (s : Word) : Reduces R s (sweep R s) := by
  rcases sweep_cases R s with ⟨eq, -⟩ | run
  · rw [eq]
  · exact run.to_reflTransGen

theorem rewrite_reduces (ok : rewrite n R s = some t) : Reduces R s t ∧ sweep R t = t := by
  induction n generalizing s with
  | zero => cases ok
  | succ _ ih =>
    by_cases eq : sweep R s = s
    · simp only [rewrite, eq, if_true, Option.some.injEq] at ok
      subst ok
      exact ⟨.refl, eq⟩
    · simp only [rewrite, eq, if_false] at ok
      obtain ⟨run, last⟩ := ih ok
      exact ⟨(sweep_reduces R s).trans run, last⟩

theorem rewrite_mono (ok : rewrite n R s = some t) (more : n ≤ m) : rewrite m R s = some t := by
  induction n generalizing s m with
  | zero => cases ok
  | succ _ ih =>
    obtain ⟨m, rfl⟩ : ∃ k, m = k + 1 := ⟨m - 1, by omega⟩
    by_cases eq : sweep R s = s
    · simpa only [rewrite, eq, if_true] using ok
    · simp only [rewrite, eq, if_false] at ok ⊢
      exact ih ok (by omega)

theorem rewrite_unique (first : rewrite n R s = some t) (second : rewrite m R s = some u) : t = u := by
  have := (rewrite_mono first (le_max_left n m)).symm.trans (rewrite_mono second (le_max_right n m))
  exact Option.some.inj this

/-! ## The order -/

/-- The first word is shorter, or of the same length and earlier in the dictionary. -/
abbrev Below : Word → Word → Prop := List.Shortlex (· < ·)

theorem below_iff : Below s t ↔ s.length < t.length ∨ s.length = t.length ∧ s < t := shortlex_def

theorem lexLess_iff : lexLess s t = true ↔ s < t := by
  fun_induction lexLess s t with
  | case1 => simp
  | case2 => simp
  | case3 => simp
  | case4 _ _ _ _ ih => simp [ih, cons_lt_cons_iff]

theorem shortlexLess_iff : shortlexLess s t = true ↔ Below s t := by simp [shortlexLess, below_iff, lexLess_iff]

theorem orient?_eq_none (h : orient? s t = none) : s = t := by
  have apart : ¬ Below s t ∧ ¬ Below t s := by
    rw [← shortlexLess_iff, ← shortlexLess_iff]
    grind [orient?]
  exact Std.Trichotomous.trichotomous s t apart.1 apart.2

theorem orient?_eq_some (h : orient? s t = some r) : Below r.2 r.1 ∧ (r = (s, t) ∨ r = (t, s)) := by
  rw [← shortlexLess_iff]
  grind [orient?]

theorem Below.trans (first : Below s t) (second : Below t u) : Below s u := by
  rw [below_iff] at *
  grind

theorem Below.length_le (h : Below s t) : s.length ≤ t.length := by rcases below_iff.1 h with shorter | ⟨eq, -⟩ <;> omega

theorem Below.within (h : Below s t) (u v : Word) : Below (u ++ s ++ v) (u ++ t ++ v) := by
  have right : Below (s ++ v) (t ++ v) := by
    rw [below_iff] at *
    rcases h with shorter | ⟨eq, less⟩
    · exact .inl (by simpa using shorter)
    refine .inr ⟨by simpa using eq, ?_⟩
    induction less with
    | nil => cases eq
    | cons _ ih => exact .cons (ih (Nat.succ.inj eq))
    | rel less => exact .rel less
  simpa only [append_assoc] using right.append_left u

/-- The rules fall in the shortlex order. -/
def Falling (R : List Rule) : Prop := ∀ r ∈ R, Below r.2 r.1

section Falling
variable (falling : Falling R)
include falling

theorem Falling.step_less (step : Step R s t) : Below t s := by
  cases step with
  | replace u v mem => exact (falling _ mem).within u v

theorem Falling.reduces_less (run : Reduces R s t) : t = s ∨ Below t s := by
  induction run with
  | refl => exact .inl rfl
  | tail _ step ih =>
    have less := falling.step_less step
    rcases ih with rfl | before
    · exact .inr less
    · exact .inr (less.trans before)

end Falling

/-- The letters as distances from a bound below them: letters go down without end, so the order is well-founded only above a
bound. -/
def heights (m : Int) (s : Word) : List Nat := s.map fun a => (a - m).toNat

def LettersAbove (m : Int) (s : Word) : Prop := ∀ a ∈ s, m ≤ a

theorem heights_less {m : Int} (low : LettersAbove m s) (h : Below s t) : List.Shortlex (· < ·) (heights m s) (heights m t) := by
  rw [shortlex_def]
  rcases below_iff.1 h with shorter | ⟨eq, less⟩
  · exact .inl (by simpa [heights] using shorter)
  refine .inr ⟨by simpa [heights] using eq, ?_⟩
  clear eq h
  induction less with
  | nil => exact .nil
  | cons _ ih => exact .cons (ih fun a mem => low a (mem_cons_of_mem _ mem))
  | @rel a _ b =>
    have : m ≤ a := low a mem_cons_self
    have : (a - m).toNat < (b - m).toNat := by omega
    exact .rel this

theorem heights_wellFounded (m : Int) : WellFounded fun s t => List.Shortlex (· < ·) (heights m s) (heights m t) :=
  InvImage.wf (heights m) (List.Shortlex.wf Nat.lt_wfRel.wf)

theorem exists_bound (R : List Rule) (s : Word) : ∃ m, LettersAbove m s ∧ ∀ r ∈ R, LettersAbove m r.1 ∧ LettersAbove m r.2 := by
  obtain ⟨m, low⟩ := (s ++ R.flatMap fun r => r.1 ++ r.2).finite_toSet.bddBelow
  have low (a : Int) (mem : a ∈ s ++ R.flatMap fun r => r.1 ++ r.2) : m ≤ a := low mem
  exact ⟨m, by grind [LettersAbove], by grind [LettersAbove]⟩

theorem Step.lettersAbove {m : Int} (low : ∀ r ∈ R, LettersAbove m r.2) (above : LettersAbove m s)
    (step : Step R s t) : LettersAbove m t := by
  cases step with
  | replace => grind [LettersAbove]

/-- Rewriting by falling rules ends, in whatever order the rules are applied. -/
theorem Falling.terminates (falling : Falling R) : WellFounded fun t s => TransGen (Step R) s t := by
  have steps : WellFounded (Function.swap (Step R)) := by
    refine ⟨fun s => ?_⟩
    obtain ⟨m, above, low⟩ := exists_bound R s
    induction s using (heights_wellFounded m).induction with
    | _ _ ih =>
      refine ⟨_, fun t step => ?_⟩
      have above' := Step.lettersAbove (fun r mem => (low r mem).2) above step
      exact ih t (heights_less above' (falling.step_less step)) above'
  exact Subrelation.wf Relation.transGen_swap.2 steps.transGen

theorem Falling.no_cycle (falling : Falling R) : ¬ TransGen (Step R) s s := falling.terminates.irrefl.irrefl s

theorem Falling.exists_rewrite (falling : Falling R) (s : Word) : ∃ n t, rewrite n R s = some t := by
  induction s using falling.terminates.induction with
  | _ s ih =>
    rcases sweep_cases R s with ⟨eq, -⟩ | run
    · exact ⟨1, s, by simp [rewrite, eq]⟩
    obtain ⟨n, t, ok⟩ := ih _ run
    have changed : sweep R s ≠ s := by
      intro eq
      rw [eq] at run
      exact falling.no_cycle run
    exact ⟨n + 1, t, by simpa only [rewrite, changed, if_false] using ok⟩

theorem Falling.rewrite_normal (falling : Falling R) (ok : rewrite n R s = some t) : Normal R t := by
  rcases sweep_cases R t with ⟨-, normal⟩ | run
  · exact normal
  · rw [(rewrite_reduces ok).2] at run
    exact absurd run falling.no_cycle

/-! ## Overlaps -/

abbrev Joinable (R : List Rule) : Word → Word → Prop := Join (Reduces R)

theorem Joinable.within (h : Joinable R s t) (u v : Word) : Joinable R (u ++ s ++ v) (u ++ t ++ v) := by
  obtain ⟨w, left, right⟩ := h
  exact ⟨u ++ w ++ v, Reduces.within left u v, Reduces.within right u v⟩

theorem mem_overlapsOrdered (h : (s <:+: t ∧ o = t) ∨
    ∃ i, 0 < i ∧ i < s.length ∧ o ∈ edgeOverlaps s t i) : o ∈ overlapsOrdered s t := by
  unfold overlapsOrdered
  rcases h with ⟨mem, rfl⟩ | ⟨i, pos, small, edge⟩
  · rcases indexOf?_cases s o with ⟨-, apart⟩ | ⟨u, v, hit, -⟩
    · exact absurd mem apart
    · simp [hit]
  · refine mem_append_right _ (mem_flatMap.2 ⟨i - 1, mem_range.2 (by omega), ?_⟩)
    rwa [Nat.sub_add_cancel pos]

theorem mem_overlaps_of_inside (mem : s <:+: t) : t ∈ overlaps s t ∧ t ∈ overlaps t s := by
  have listed : t ∈ overlapsOrdered s t := mem_overlapsOrdered (.inl ⟨mem, rfl⟩)
  have short := mem.length_le
  unfold overlaps
  rw [if_neg (Nat.not_lt.2 short)]
  refine ⟨listed, ?_⟩
  split
  · exact listed
  · rwa [mem.eq_of_length_le (by omega)] at listed ⊢

theorem mem_overlaps_of_meet {m : Word} (hm : m ≠ []) (hs : s = u ++ m) (ht : t = m ++ v) :
    u ++ m ++ v ∈ overlaps s t ∧ u ++ m ++ v ∈ overlaps t s := by
  subst hs ht
  rcases eq_or_ne u [] with rfl | hu
  · exact mem_overlaps_of_inside ⟨[], v, rfl⟩
  rcases eq_or_ne v [] with rfl | hv
  · rw [append_nil, append_nil]
    exact (mem_overlaps_of_inside ⟨u, [], by simp⟩).symm
  have pos := length_pos_iff.2 hm
  have left := length_pos_iff.2 hu
  have right := length_pos_iff.2 hv
  have forth : u ++ m ++ v ∈ overlapsOrdered (u ++ m) (m ++ v) :=
    mem_overlapsOrdered (.inr ⟨m.length, pos, by simpa using left, by simp [edgeOverlaps]⟩)
  have back : u ++ m ++ v ∈ overlapsOrdered (m ++ v) (u ++ m) :=
    mem_overlapsOrdered (.inr ⟨m.length, pos, by simpa using right, by simp [edgeOverlaps]⟩)
  unfold overlaps
  constructor <;> split <;> assumption

theorem parts_cases (eq : u ++ l ++ v = u' ++ l' ++ v') (before : u.length ≤ u'.length) :
    (∃ m, u' = u ++ l ++ m ∧ v = m ++ l' ++ v') ∨ (∃ p q, l = p ++ l' ++ q ∧ u' = u ++ p ∧ v' = q ++ v) ∨
      ∃ p m q, m ≠ [] ∧ l = p ++ m ∧ l' = m ++ q ∧ u' = u ++ p ∧ v = q ++ v' := by
  obtain ⟨p, rfl⟩ : ∃ p, u' = u ++ p := by
    simp only [append_assoc] at eq
    exact (prefix_of_prefix_length_le ⟨_, rfl⟩ ⟨_, eq.symm⟩ before).imp fun _ => Eq.symm
  simp only [append_assoc, append_cancel_left_eq] at eq
  rcases append_eq_append_iff.1 eq with ⟨m, rfl, rfl⟩ | ⟨m, rfl, rest⟩
  · exact .inl ⟨m, by simp, by simp⟩
  rcases append_eq_append_iff.1 rest with ⟨q, rfl, rfl⟩ | ⟨q, rfl, rfl⟩
  · exact .inr (.inl ⟨p, q, by simp, rfl, rfl⟩)
  · by_cases hm : m = []
    · exact .inl ⟨[], by simp [hm], by simp [hm]⟩
    · exact .inr (.inr ⟨p, m, q, hm, rfl, rfl, rfl, rfl⟩)

/-- Two rules are applied to one word: in parts that are apart, or in an overlap that is listed for the two rules. -/
inductive Peak (q r : Rule) : Word → Word → Word → Prop
  | apart {o s t w : Word} : Step [r] s w → Step [q] t w → Peak q r o s t
  | overlap (u v : Word) {o s t : Word} : Step [q] o s → Step [r] o t → o ∈ overlaps q.1 r.1 →
      o ∈ overlaps r.1 q.1 → Peak q r (u ++ o ++ v) (u ++ s ++ v) (u ++ t ++ v)

theorem Peak.symm (h : Peak q r o s t) : Peak r q o t s := by
  cases h with
  | apart left right => exact .apart right left
  | overlap u v left right forth back => exact .overlap u v right left back forth

theorem Step.exists_parts (step : Step [r] s t) : ∃ u v, s = u ++ r.1 ++ v ∧ t = u ++ r.2 ++ v := by
  cases step with
  | replace u v mem =>
    cases mem_singleton.1 mem
    exact ⟨u, v, rfl, rfl⟩

theorem Step.root (u v : Word) : Step [r] (u ++ r.1 ++ v) (u ++ r.2 ++ v) := .replace u v (mem_singleton.2 rfl)

theorem Peak.of_steps (left : Step [q] o s) (right : Step [r] o t) : Peak q r o s t := by
  have ordered {q r : Rule} {u v u' v' : Word} (eq : u ++ q.1 ++ v = u' ++ r.1 ++ v')
      (before : u.length ≤ u'.length) : Peak q r (u ++ q.1 ++ v) (u ++ q.2 ++ v) (u' ++ r.2 ++ v') := by
    rcases parts_cases eq before with ⟨m, rfl, rfl⟩ | ⟨p, x, mem, rfl, rfl⟩ | ⟨p, m, x, hm, hq, hr, rfl, rfl⟩
    · have left := Step.root (r := r) (u ++ q.2 ++ m) v'
      have right := Step.root (r := q) u (m ++ r.2 ++ v')
      simp only [append_assoc] at left right ⊢
      exact .apart left right
    · have listed := mem_overlaps_of_inside ⟨p, x, mem.symm⟩
      have root : Step [q] q.1 q.2 := by simpa using Step.root [] []
      have inner : Step [r] q.1 (p ++ r.2 ++ x) := mem ▸ Step.root p x
      simpa only [append_assoc] using Peak.overlap u v root inner listed.2 listed.1
    have listed := mem_overlaps_of_meet hm hq hr
    have outer : Step [q] (p ++ m ++ x) (q.2 ++ x) := hq ▸ Step.root [] x
    have inner : Step [r] (p ++ m ++ x) (p ++ r.2) := by simpa [hr] using Step.root (r := r) p []
    simpa only [hq, append_assoc] using Peak.overlap u v' outer inner listed.1 listed.2
  obtain ⟨u, v, rfl, rfl⟩ := left.exists_parts
  obtain ⟨u', v', eq, rfl⟩ := right.exists_parts
  rcases Nat.le_total u.length u'.length with before | after
  · exact ordered eq before
  · rw [eq]
    exact (ordered eq.symm after).symm

theorem mem_flatten_of_mapM {α β : Type} {f : α → Option (List β)} {as : List α} {lists : List (List β)}
    (ok : as.mapM f = some lists) : (∀ b ∈ lists.flatten, ∃ a ∈ as, ∃ list, f a = some list ∧ b ∈ list) ∧
      ∀ a ∈ as, ∃ list, f a = some list ∧ list ⊆ lists.flatten := by
  have all := mapM_eq_some.1 ok
  refine ⟨fun b mem => ?_, fun a mem => ?_⟩
  · obtain ⟨list, mem', mem⟩ := mem_flatten.1 mem
    obtain ⟨a, known, gives⟩ := Forall₂.exists_of_mem_right all mem'
    exact ⟨a, known, list, gives, mem⟩
  · obtain ⟨list, mem', gives⟩ := Forall₂.exists_of_mem_left all mem
    exact ⟨list, gives, fun b mem => mem_flatten.2 ⟨list, mem', mem⟩⟩

/-- Among the pairs are the reducts of the word by the two rules, unless these are equal. -/
def Paired (fuel : Nat) (pairs : List Rule) (q r : Rule) (o : Word) : Prop :=
  ∃ x y, rewrite fuel [q] o = some x ∧ rewrite fuel [r] o = some y ∧ (x = y ∨ (x, y) ∈ pairs)

theorem reducts_spec (ok : reducts fuel q r o = some pairs) :
    (∀ e ∈ pairs, Congruent [q, r] e.1 e.2) ∧ Paired fuel pairs q r o := by
  simp only [reducts, bind_eq_bind, bind_eq_some_iff] at ok
  obtain ⟨x, left, y, right, last⟩ := ok
  cases last
  by_cases eq : x = y
  · exact ⟨by simp [eq], x, y, left, right, .inl eq⟩
  rw [if_neg eq]
  refine ⟨fun e mem => ?_, x, y, left, right, .inr (mem_singleton.2 rfl)⟩
  cases mem_singleton.1 mem
  have toX := (Congruent.of_reduces (rewrite_reduces left).1).mono (R := [q, r]) (by simp)
  have toY := (Congruent.of_reduces (rewrite_reduces right).1).mono (R := [q, r]) (by simp)
  exact toX.symm.trans toY

theorem deduceFrom_spec (ok : deduceFrom fuel before R = some pairs) : (∀ e ∈ pairs, Congruent (before ++ R) e.1 e.2) ∧
      ∀ xs r ys, R = xs ++ r :: ys → ∀ q ∈ before ++ xs, ∀ o ∈ overlaps q.1 r.1, Paired fuel pairs q r o := by
  induction R generalizing before pairs with
  | nil =>
    cases ok
    exact ⟨by simp, fun xs r ys split => by simp at split⟩
  | cons _ _ ih =>
    simp only [deduceFrom, bind_eq_bind, bind_eq_some_iff] at ok
    obtain ⟨here, first, later, rest, last⟩ := ok
    cases last
    obtain ⟨fromEarlier, listed⟩ := mem_flatten_of_mapM first
    obtain ⟨sound, covered⟩ := ih rest
    refine ⟨fun e mem => ?_, fun xs r' ys split q earlier o overlap => ?_⟩
    · rcases mem_append.1 mem with mem | mem
      · obtain ⟨q, earlier, list, gives, mem⟩ := fromEarlier e mem
        obtain ⟨lists, each, last⟩ := bind_eq_some_iff.1 gives
        cases last
        obtain ⟨o, -, list, gives, mem⟩ := (mem_flatten_of_mapM each).1 e mem
        exact ((reducts_spec gives).1 e mem).mono (by simp [earlier])
      · simpa using sound e mem
    · cases xs with
      | nil =>
        cases split
        obtain ⟨list, gives, sub⟩ := listed q (by simpa using earlier)
        obtain ⟨lists, each, last⟩ := bind_eq_some_iff.1 gives
        cases last
        obtain ⟨list, gives, sub'⟩ := (mem_flatten_of_mapM each).2 o overlap
        obtain ⟨x, y, left, right, known⟩ := (reducts_spec gives).2
        exact ⟨x, y, left, right, known.imp_right fun mem => mem_append_left _ (sub (sub' mem))⟩
      | cons x xs =>
        cases split
        obtain ⟨x, y, left, right, known⟩ := covered xs r' ys rfl q (by simpa using earlier) o overlap
        exact ⟨x, y, left, right, known.imp_right (mem_append_right _)⟩

/-- What completion keeps: the rules fall, and no left side contains that of an earlier rule. -/
structure Directed (R : List Rule) : Prop where
  falling : Falling R
  apart : R.Pairwise fun q r => ¬ q.1 <:+: r.1

theorem Directed.nil : Directed [] := ⟨by simp [Falling], .nil⟩

theorem Directed.append (directed : Directed R) (falls : Below r.2 r.1) (normal : Normal R r.1) : Directed (R ++ [r]) where
  falling := forall_mem_append.2 ⟨directed.falling, forall_mem_singleton.2 falls⟩
  apart := pairwise_append.2 ⟨directed.apart, pairwise_singleton _ _, fun q mem _ last =>
    mem_singleton.1 last ▸ normal q mem⟩

/-- Working off equations keeps the congruence of equations and rules together; if no rule was added, the rules make
the sides of each equation agree. -/
theorem addEquations_spec {added : Bool} (directed : Directed R) (ok : addEquations fuel equations R = some (R', added)) :
    Directed R' ∧ (∀ s t, Congruent R' s t ↔ Congruent (equations ++ R) s t) ∧
      (added = false → R' = R ∧ ∀ e ∈ equations, Agree R e.1 e.2) := by
  induction equations generalizing R added with
  | nil =>
    cases ok
    exact ⟨directed, fun s t => Iff.rfl, fun _ => ⟨rfl, nofun⟩⟩
  | cons e rest ih =>
    simp only [addEquations, bind_eq_bind, bind_eq_some_iff] at ok
    obtain ⟨x, left, y, right, next⟩ := ok
    have toX := Congruent.of_reduces (rewrite_reduces left).1
    have toY := Congruent.of_reduces (rewrite_reduces right).1
    cases oriented : orient? x y with
    | none =>
      rw [oriented] at next
      cases orient?_eq_none oriented
      obtain ⟨directed', eq, kept⟩ := ih directed next
      refine ⟨directed', fun s t => (eq s t).trans ⟨.mono (by simp), .of_rules fun r mem => ?_⟩, fun none => ?_⟩
      · rcases mem_cons.1 mem with rfl | mem
        · exact (toX.trans toY.symm).mono (subset_append_right _ _)
        · exact .rule mem
      · obtain ⟨rfl, agree⟩ := kept none
        exact ⟨rfl, forall_mem_cons.2 ⟨⟨fuel, fuel, x, left, right⟩, agree⟩⟩
    | some rule =>
      rw [oriented] at next
      obtain ⟨⟨R'', _⟩, later, last⟩ := bind_eq_some_iff.1 next
      cases last
      obtain ⟨falls, sides⟩ := orient?_eq_some oriented
      have normal : Normal R rule.1 := by
        rcases sides with rfl | rfl
        · exact directed.falling.rewrite_normal left
        · exact directed.falling.rewrite_normal right
      obtain ⟨directed', eq, -⟩ := ih (directed.append falls normal) later
      have turned (C : List Rule) : Congruent C x y ↔ Congruent C rule.1 rule.2 := by
        rcases sides with rfl | rfl
        · exact Iff.rfl
        · exact ⟨.symm, .symm⟩
      have eqn : Congruent (e :: rest ++ R) e.1 e.2 := .rule (by simp)
      have rule' : Congruent (rest ++ (R ++ [rule])) rule.1 rule.2 := .rule (by simp)
      refine ⟨directed', fun s t => (eq s t).trans ⟨.of_rules fun r mem => ?_, .of_rules fun r mem => ?_⟩, nofun⟩
      · by_cases last : r = rule
        · have old : R ⊆ e :: rest ++ R := subset_append_right _ _
          exact last ▸ (turned _).1 (((toX.mono old).symm.trans eqn).trans (toY.mono old))
        · exact .rule (by grind)
      by_cases first : r = e
      · have new : R ⊆ rest ++ (R ++ [rule]) := fun r mem => by simp [mem]
        exact first ▸ ((toX.mono new).trans ((turned _).2 rule')).trans (toY.mono new).symm
      · exact .rule (by grind)

theorem completeFrom_spec (directed : Directed R) (ok : completeFrom fuel n equations R = some R') :
    Directed R' ∧ (∀ s t, Congruent R' s t ↔ Congruent (equations ++ R) s t) ∧
      ∃ pairs, deduce fuel R' = some pairs ∧ ∀ e ∈ pairs, Agree R' e.1 e.2 := by
  induction n generalizing equations R with
  | zero => cases ok
  | succ _ ih =>
    simp only [completeFrom, bind_eq_bind, bind_eq_some_iff] at ok
    obtain ⟨pairs, deduced, ⟨rules, added⟩, worked, last⟩ := ok
    obtain ⟨directed', eq, kept⟩ := addEquations_spec directed worked
    have eq' (s t : Word) : Congruent rules s t ↔ Congruent (equations ++ R) s t := by
      refine (eq s t).trans ⟨.of_rules fun e mem => ?_, .mono (by simp)⟩
      by_cases new : e ∈ pairs
      · exact ((deduceFrom_spec deduced).1 e new).mono (by simp)
      · exact .rule (by simpa [new] using mem)
    cases added with
    | true =>
      obtain ⟨final, eq'', settled⟩ := ih directed' last
      exact ⟨final, fun s t => (eq'' s t).trans (eq' s t), settled⟩
    | false =>
      cases last
      obtain ⟨rfl, agree⟩ := kept rfl
      exact ⟨directed', eq', pairs, deduced, fun e mem => agree e (by simp [mem])⟩

/-! ## What completion returns -/

/-- The rules generate the congruence of the equations and fall in the shortlex order, no left side contains that of an earlier
rule, and rewriting ends in words that contain no left side. -/
theorem complete_directed (done : complete fuel E = some R) :
    (∀ s t, Congruent R s t ↔ Congruent E s t) ∧ (∀ r ∈ R, Below r.2 r.1) ∧ (R.Pairwise fun q r => ¬ q.1 <:+: r.1) ∧
      ∀ s, ∃ n t, rewrite n R s = some t ∧ ∀ r ∈ R, ¬ r.1 <:+: t := by
  obtain ⟨directed, same, -⟩ := completeFrom_spec (.nil : Directed []) done
  refine ⟨by simpa using same, directed.falling, directed.apart, fun s => ?_⟩
  obtain ⟨n, t, ended⟩ := directed.falling.exists_rewrite s
  exact ⟨n, t, ended, directed.falling.rewrite_normal ended⟩

/-- Left sides that contain one another, the longer ones first. -/
theorem collapsing_directed : complete 4 [([1, 1], [1]), ([1, 1, 1], [])] = some [([1, 1, 1], []), ([1, 1], [1]), ([1], [])] ∧
    ∀ s, ∃ n t, rewrite n [([1, 1, 1], []), ([1, 1], [1]), ([1], [])] s = some t ∧ ¬ [1] <:+: t := by
  have done : complete 4 [([1, 1], [1]), ([1, 1, 1], [])] = some [([1, 1, 1], []), ([1, 1], [1]), ([1], [])] := by decide
  refine ⟨done, fun s => ?_⟩
  obtain ⟨n, t, ended, normal⟩ := (complete_directed done).2.2.2 s
  exact ⟨n, t, ended, normal ([1], []) (by simp)⟩

theorem earlier_or_later (hq : q ∈ R) (hr : r ∈ R) (differ : q ≠ r) :
    (∃ xs ys, R = xs ++ r :: ys ∧ q ∈ xs) ∨ ∃ xs ys, R = xs ++ q :: ys ∧ r ∈ xs := by
  obtain ⟨xs, ys, rfl⟩ := append_of_mem hr
  rcases mem_append.1 hq with before | after
  · exact .inl ⟨xs, ys, rfl, before⟩
  · obtain ⟨zs, ws, rfl⟩ := append_of_mem (mem_of_ne_of_mem differ after)
    exact .inr ⟨xs ++ r :: zs, ws, by simp, by simp⟩

/-- The overlaps of each left side with itself come together. -/
def SelfOverlapsAgree (R : List Rule) : Prop :=
  ∀ r ∈ R, ∀ o ∈ overlaps r.1 r.1, ∀ s t, Step [r] o s → Step [r] o t → Agree R s t

namespace Agree

theorem symm (h : Agree R s t) : Agree R t s := by
  obtain ⟨n, m, w, left, right⟩ := h
  exact ⟨m, n, w, right, left⟩

theorem trans (first : Agree R s t) (second : Agree R t u) : Agree R s u := by
  obtain ⟨n, m, w, left, middle⟩ := first
  obtain ⟨m', k, w', middle', right⟩ := second
  exact ⟨n, k, w, left, rewrite_unique middle middle' ▸ right⟩

theorem joinable (h : Agree R s t) : Joinable R s t := by
  obtain ⟨n, m, w, left, right⟩ := h
  exact ⟨w, (rewrite_reduces left).1, (rewrite_reduces right).1⟩

theorem congruent (h : Agree R s t) : Congruent R s t := by
  obtain ⟨w, left, right⟩ := h.joinable
  exact (Congruent.of_reduces left).trans (Congruent.of_reduces right).symm

end Agree

theorem Falling.agree_refl (falling : Falling R) (s : Word) : Agree R s s := by
  obtain ⟨n, w, ok⟩ := falling.exists_rewrite s
  exact ⟨n, n, w, ok, ok⟩

theorem Falling.agree_sweep (falling : Falling R) (s : Word) : Agree R s (sweep R s) := by
  by_cases eq : sweep R s = s
  · rw [eq]
    exact falling.agree_refl s
  · obtain ⟨n, w, ok⟩ := falling.exists_rewrite (sweep R s)
    exact ⟨n + 1, n, w, by simpa only [rewrite, eq, if_false] using ok, ok⟩

section Peaks

-- a word `o`, below which everything that comes together agrees
variable (directed : Directed R)
  (below : ∀ p q, TransGen (Step R) o p → TransGen (Step R) o q → Joinable R p q → Agree R p q)
  (self : SelfOverlapsAgree R)
include below self

theorem agree_of_self (mem : r ∈ R) (left : Step [r] o s) (right : Step [r] o t) : Agree R s t := by
  have sub : [r] ⊆ R := by simpa using mem
  refine below s t (.single (left.mono sub)) (.single (right.mono sub)) ?_
  cases Peak.of_steps left right with
  | apart toW toW' => exact ⟨_, .single (toW.mono sub), .single (toW'.mono sub)⟩
  | overlap u v inner inner' listed => exact (self r mem _ listed _ _ inner inner').joinable.within u v

include directed

/-- Rewriting a part of the word by one rule leads to what agrees with the result of any first step. -/
theorem agree_of_rewrite (mem : r ∈ R) (whole : u ++ w ++ v = o) (step : Step [r] w s)
    (ok : rewrite n [r] w = some t) : Agree R (u ++ s ++ v) (u ++ t ++ v) ∧ TransGen (Step R) o (u ++ t ++ v) := by
  subst whole
  have sub : [r] ⊆ R := by simpa using mem
  have falling : Falling [r] := fun _ inside => directed.falling _ (sub inside)
  obtain ⟨run, -⟩ := rewrite_reduces ok
  rcases run.cases_head with rfl | ⟨x, first, rest⟩
  · obtain ⟨y, z, eq, -⟩ := step.exists_parts
    exact absurd ⟨y, z, eq.symm⟩ (falling.rewrite_normal ok r (mem_singleton.2 rfl))
  have down : TransGen (Step R) (u ++ w ++ v) (u ++ x ++ v) := .single ((first.mono sub).within u v)
  have onward : Reduces R (u ++ x ++ v) (u ++ t ++ v) := Reduces.within (rest.lift id fun _ _ step => step.mono sub) u v
  have last := down.trans_left onward
  have here := agree_of_self below self mem (step.within u v) (first.within u v)
  exact ⟨here.trans (below _ _ down last ⟨_, onward, .refl⟩), last⟩

variable (deduced : deduce fuel R = some pairs) (settled : ∀ e ∈ pairs, Agree R e.1 e.2)
include deduced settled

theorem agree_of_peak (hq : q ∈ R) (hr : r ∈ R) (left : Step [q] o s) (right : Step [r] o t) : Agree R s t := by
  by_cases eq : q = r
  · subst eq
    exact agree_of_self below self hq left right
  have subQ : [q] ⊆ R := by simpa using hq
  have subR : [r] ⊆ R := by simpa using hr
  cases Peak.of_steps left right with
  | apart toW toW' =>
    exact below s t (.single (left.mono subQ)) (.single (right.mono subR))
      ⟨_, .single (toW.mono subR), .single (toW'.mono subQ)⟩
  | @overlap u v o _ _ inner inner' listed listed' =>
    have joined {x y : Word} (known : x = y ∨ (x, y) ∈ pairs) : Joinable R x y := by
      rcases known with rfl | mem
      · exact ⟨x, .refl, .refl⟩
      · exact (settled _ mem).joinable
    have paired : ∃ x y, rewrite fuel [q] o = some x ∧ rewrite fuel [r] o = some y ∧ Joinable R x y := by
      rcases earlier_or_later hq hr eq with ⟨xs, ys, whole, before⟩ | ⟨xs, ys, whole, before⟩
      · obtain ⟨x, y, toX, toY, known⟩ := (deduceFrom_spec deduced).2 xs r ys whole q before o listed
        exact ⟨x, y, toX, toY, joined known⟩
      · obtain ⟨y, x, toY, toX, known⟩ := (deduceFrom_spec deduced).2 xs q ys whole r before o listed'
        exact ⟨x, y, toX, toY, symm (joined known)⟩
    obtain ⟨x, y, toX, toY, meet⟩ := paired
    obtain ⟨agreeX, belowX⟩ := agree_of_rewrite directed below self hq rfl inner toX
    obtain ⟨agreeY, belowY⟩ := agree_of_rewrite directed below self hr rfl inner' toY
    exact (agreeX.trans (below _ _ belowX belowY (meet.within u v))).trans agreeY.symm

end Peaks

section Complete
variable (directed : Directed R) (deduced : deduce fuel R = some pairs)
  (settled : ∀ e ∈ pairs, Agree R e.1 e.2) (self : SelfOverlapsAgree R)
include directed deduced settled self

/-- By induction along the steps: the words below a peak agree already, and a sweep begins with one of the steps. -/
theorem Step.agree (step : Step R s t) : Agree R s t := by
  induction s using directed.falling.terminates.induction generalizing t with
  | _ s ih =>
    have onward {p q : Word} (under : TransGen (Step R) s p) (run : Reduces R p q) : Agree R p q := by
      induction run with
      | refl => exact directed.falling.agree_refl p
      | tail before step agree => exact agree.trans (ih _ (under.trans_left before) step)
    have below : ∀ p q, TransGen (Step R) s p → TransGen (Step R) s q → Joinable R p q → Agree R p q := by
      rintro p q underP underQ ⟨w, left, right⟩
      exact (onward underP left).trans (onward underQ right).symm
    have peak {x : Word} (first : Step R s x) : Agree R x t := by
      obtain ⟨q, hq, left⟩ := first.exists_rule
      obtain ⟨r, hr, right⟩ := step.exists_rule
      exact agree_of_peak directed below self deduced settled hq hr left right
    rcases sweep_cases R s with ⟨-, normal⟩ | run
    · rw [normal.reduces_eq (.single step)]
      exact directed.falling.agree_refl s
    · obtain ⟨x, first, rest⟩ := TransGen.head'_iff.1 run
      exact (directed.falling.agree_sweep s).trans ((onward (.single first) rest).symm.trans (peak first))

theorem Congruent.agree (h : Congruent R s t) : Agree R s t := by
  have joined {s t : Word} (h : Joinable R s t) : Agree R s t := by
    have onward {p q : Word} (run : Reduces R p q) : Agree R p q := by
      induction run with
      | refl => exact directed.falling.agree_refl p
      | tail _ step agree => exact agree.trans (Step.agree directed deduced settled self step)
    obtain ⟨w, left, right⟩ := h
    exact (onward left).trans (onward right).symm
  induction h with
  | rule mem => exact joined ⟨_, .single (by simpa using Step.replace [] [] mem), .refl⟩
  | refl s => exact directed.falling.agree_refl s
  | symm _ ih => exact ih.symm
  | trans _ _ first second => exact first.trans second
  | @append s t s' t' _ _ first second =>
    have left : Agree R (s ++ s') (t ++ s') := joined (first.joinable.within [] s')
    have right : Agree R (t ++ s') (t ++ t') := joined (by simpa using second.joinable.within t [])
    exact left.trans right

end Complete

/-- Rewriting with the completed rules decides the congruence of the equations exactly if the overlaps of each left
side with itself agree. -/
theorem decides_iff_selfOverlaps_agree (done : complete fuel E = some R) :
    (∀ s t, Congruent E s t ↔ Agree R s t) ↔ SelfOverlapsAgree R := by
  obtain ⟨directed, same, pairs, deduced, settled⟩ := completeFrom_spec .nil done
  simp only [append_nil] at same
  constructor
  · intro decides r mem o _ s t left right
    have sub : [r] ⊆ R := by simpa using mem
    have toS := Congruent.of_reduces (.single (left.mono sub))
    have toT := Congruent.of_reduces (.single (right.mono sub))
    exact (decides s t).1 ((same s t).1 (toS.symm.trans toT))
  · intro self s t
    rw [← same]
    exact ⟨Congruent.agree directed deduced settled self, Agree.congruent⟩

/-- Two letters that cancel: no left side overlaps with itself. -/
theorem cancelling_decided : complete 3 [([1, 2], []), ([2, 1], [])] = some [([2, 1], []), ([1, 2], [])] ∧
    ∀ s t, Congruent [([1, 2], []), ([2, 1], [])] s t ↔ Agree [([2, 1], []), ([1, 2], [])] s t := by
  have done : complete 3 [([1, 2], []), ([2, 1], [])] = some [([2, 1], []), ([1, 2], [])] := by decide
  refine ⟨done, (decides_iff_selfOverlaps_agree done).2 fun r mem o listed s t left right => ?_⟩
  have alone : ∀ r ∈ ([([2, 1], []), ([1, 2], [])] : List Rule), r.2 = [] ∧ ∀ o ∈ overlaps r.1 r.1, o = r.1 := by decide
  obtain ⟨erased, only⟩ := alone r mem
  cases only o listed
  have whole {x : Word} (step : Step [r] r.1 x) : x = [] := by
    obtain ⟨u, v, same, rfl⟩ := step.exists_parts
    have lengths := congrArg List.length same
    simp only [length_append] at lengths
    simp [erased, length_eq_zero_iff.1 (show u.length = 0 by omega), length_eq_zero_iff.1 (show v.length = 0 by omega)]
  rw [whole left, whole right]
  exact ⟨1, 1, [], by decide, by decide⟩

/-- From `11 = 2` completion makes the rule `11 → 2` and ends. Its left side overlaps with itself in `111`, so `21` and `12` are
congruent, and no rule applies to them. -/
theorem selfOverlap_missed : complete 2 [([1, 1], [2])] = some [([1, 1], [2])] ∧
    Congruent [([1, 1], [2])] [2, 1] [1, 2] ∧ ¬ Agree [([1, 1], [2])] [2, 1] [1, 2] := by
  have rule : Congruent [([1, 1], [2])] [1, 1] [2] := .rule (mem_singleton.2 rfl)
  refine ⟨by decide, (rule.append (.refl [1])).symm.trans ((Congruent.refl [1]).append rule), ?_⟩
  rintro ⟨n, m, w, left, right⟩
  have first : rewrite 1 [([1, 1], [2])] [2, 1] = some [2, 1] := by decide
  have second : rewrite 1 [([1, 1], [2])] [1, 2] = some [1, 2] := by decide
  exact absurd ((rewrite_unique first left).trans (rewrite_unique right second)) (by decide)

/-! ## Simplification -/

theorem Directed.ne_of_index (directed : Directed R) (hq : R[i]? = some q) (hr : R[j]? = some r)
    (differ : i ≠ j) : q.1 ≠ r.1 := by
  intro eq
  obtain ⟨hi, rfl⟩ := List.getElem?_eq_some_iff.1 hq
  obtain ⟨hj, rfl⟩ := List.getElem?_eq_some_iff.1 hr
  have apart := pairwise_iff_getElem.1 directed.apart
  rcases Nat.lt_or_gt_of_ne differ with less | less
  · exact apart i j hi hj less (eq ▸ infix_refl _)
  · exact apart j i hj hi less (eq ▸ infix_refl _)

theorem simplify_go_spec (suffix : R.drop i = rest) (ok : simplify.go fuel R i rest = some (E', R')) :
    (∀ e ∈ E' ++ R', Congruent R e.1 e.2) ∧ ∀ j r, rest[j]? = some r →
      ∃ x y, rewrite fuel (R.eraseIdx (i + j)) r.1 = some x ∧ rewrite fuel R r.2 = some y ∧ Congruent (E' ++ R') x y := by
  induction rest generalizing i E' R' with
  | nil =>
    cases ok
    exact ⟨by simp, by simp⟩
  | cons r rest ih =>
    simp only [simplify.go, bind_eq_bind, bind_eq_some_iff] at ok
    obtain ⟨x, left, y, right, ⟨E'', R''⟩, later, last⟩ := ok
    obtain ⟨sound, covered⟩ := ih (by rw [← drop_drop, suffix, drop_one, tail_cons]) later
    have mem : r ∈ R := mem_of_mem_drop (suffix ▸ mem_cons_self)
    have toX := (Congruent.of_reduces (rewrite_reduces left).1).mono (eraseIdx_subset)
    have toY := (Congruent.rule mem).trans (.of_reduces (rewrite_reduces right).1)
    -- the rest is kept, and what is added, if anything, is an equation of `r.1` or `x` with `y`
    have added : (∀ e ∈ E' ++ R', Congruent R e.1 e.2) ∧ E'' ++ R'' ⊆ E' ++ R' ∧ Congruent (E' ++ R') x y := by
      by_cases stays : x = r.1
      · rw [if_pos stays] at last
        cases last
        obtain ⟨equations, rules⟩ := forall_mem_append.1 sound
        have kept : Congruent (E'' ++ (r.1, y) :: R'') r.1 y := .rule (r := (r.1, y)) (by simp)
        exact ⟨forall_mem_append.2 ⟨equations, forall_mem_cons.2 ⟨toY, rules⟩⟩, by simp, stays ▸ kept⟩
      · rw [if_neg stays] at last
        by_cases eq : x = y
        · rw [if_pos eq] at last
          cases last
          exact ⟨sound, List.Subset.refl _, eq ▸ .refl x⟩
        · rw [if_neg eq] at last
          cases last
          exact ⟨forall_mem_cons.2 ⟨toX.symm.trans toY, sound⟩, by simp, .rule (r := (x, y)) (by simp)⟩
    obtain ⟨sound', sub, settled⟩ := added
    refine ⟨sound', fun j q hit => ?_⟩
    cases j with
    | zero =>
      cases hit
      exact ⟨x, y, left, right, settled⟩
    | succ j =>
      obtain ⟨x', y', left', right', settled'⟩ := covered j q hit
      exact ⟨x', y', by rwa [Nat.add_right_comm] at left', right', settled'.mono sub⟩

/-- A rule that was dropped can be had back from smaller ones: only left sides below its own rewrite its sides. -/
theorem Directed.congruent_of_simplify (directed : Directed R) (ok : simplify fuel R = some (E', R'))
    (mem : r ∈ R) : Congruent (E' ++ R') r.1 r.2 := by
  obtain ⟨m, -, low⟩ := exists_bound R []
  induction size : r.1 using (heights_wellFounded m).induction generalizing r with
  | _ _ ih =>
    subst size
    obtain ⟨j, hit⟩ := mem_iff_getElem?.1 mem
    obtain ⟨x, y, left, right, settled⟩ := (simplify_go_spec rfl ok).2 j r hit
    rw [Nat.zero_add] at left
    -- a rule whose left side is smaller than that of `r` is congruent already
    have smaller {q : Rule} (mem' : q ∈ R) (less : Below q.1 r.1) : Congruent (E' ++ R') q.1 q.2 :=
      ih q.1 (heights_less (low q mem').1 less) mem' rfl
    have within {w : Word} {q : Rule} (mem' : q ∈ R) (part : q.1 <:+: w) (less : Below w r.1) :
        Congruent (E' ++ R') q.1 q.2 := by
      by_cases shorter : q.1.length < w.length
      · exact smaller mem' (.of_length_lt (shorter.trans_le less.length_le))
      · exact smaller mem' (part.eq_of_length_le (Nat.not_lt.1 shorter) ▸ less)
    have toY : Congruent (E' ++ R') r.2 y := by
      refine .of_reduces_using (rewrite_reduces right).1 fun q mem' w run part => within mem' part ?_
      have falls := directed.falling r mem
      rcases directed.falling.reduces_less run with rfl | less
      · exact falls
      · exact less.trans falls
    have toX : Congruent (E' ++ R') r.1 x := by
      refine .of_reduces_using (rewrite_reduces left).1 fun q other w run part => ?_
      obtain ⟨i, differ, hq⟩ := mem_eraseIdx_iff_getElem?.1 other
      have mem' : q ∈ R := mem_of_getElem? hq
      have falling : Falling (R.eraseIdx j) := fun p kept => directed.falling p (mem_of_mem_eraseIdx kept)
      rcases falling.reduces_less run with rfl | less
      · refine smaller mem' (.of_length_lt (Nat.lt_of_not_le fun long => ?_))
        exact directed.ne_of_index hq hit differ (part.eq_of_length_le long)
      · exact within mem' part less
    exact (toX.trans settled).trans toY.symm

theorem Falling.exists_simplify_go (falling : Falling R) (rest : List Rule) (i : Nat) :
    ∃ n, ∀ m, n ≤ m → ∃ p, simplify.go m R i rest = some p := by
  induction rest generalizing i with
  | nil => exact ⟨0, fun m _ => ⟨_, rfl⟩⟩
  | cons r _ ih =>
    have others : Falling (R.eraseIdx i) := fun q kept => falling q (mem_of_mem_eraseIdx kept)
    obtain ⟨a, x, left⟩ := others.exists_rewrite r.1
    obtain ⟨b, y, right⟩ := falling.exists_rewrite r.2
    obtain ⟨c, later⟩ := ih (i + 1)
    refine ⟨max a (max b c), fun m enough => ?_⟩
    obtain ⟨p, ok⟩ := later m (by omega)
    have left' := rewrite_mono left (m := m) (by omega)
    have right' := rewrite_mono right (m := m) (by omega)
    exact ⟨_, by simp only [simplify.go, left', right', ok, bind_eq_bind, bind_some]; rfl⟩

/-- Simplifying completed rules comes to an end, and what is left generates the same congruence. -/
theorem simplify_congruent (done : complete fuel E = some R) : (∃ n E' R', simplify n R = some (E', R')) ∧
      ∀ n E' R', simplify n R = some (E', R') → ∀ s t, Congruent (E' ++ R') s t ↔ Congruent R s t := by
  obtain ⟨directed, -, -⟩ := completeFrom_spec .nil done
  constructor
  · obtain ⟨n, ends⟩ := directed.falling.exists_simplify_go R 0
    obtain ⟨p, simplified⟩ := ends n le_rfl
    exact ⟨n, p.1, p.2, simplified⟩
  · intro n E' R' simplified s t
    exact ⟨.of_rules (simplify_go_spec rfl simplified).1, .of_rules fun r mem => directed.congruent_of_simplify simplified mem⟩

/-- Two of the three rules go, each by way of the other two. -/
theorem collapsing_simplified : simplify 4 [([1, 1, 1], []), ([1, 1], [1]), ([1], [])] = some ([], [([1], [])]) ∧
    ∀ s t, Congruent [([1], [])] s t ↔ Congruent [([1, 1, 1], []), ([1, 1], [1]), ([1], [])] s t := by
  have done : complete 4 [([1, 1], [1]), ([1, 1, 1], [])] = some [([1, 1, 1], []), ([1, 1], [1]), ([1], [])] := by decide
  have simplified : simplify 4 [([1, 1, 1], []), ([1, 1], [1]), ([1], [])] = some ([], [([1], [])]) := by decide
  exact ⟨simplified, (simplify_congruent done).2 4 [] _ simplified⟩

end SortedLogic.Word

import SortedLogic.Intuitionistic
import Mathlib.Data.List.Basic

/-!
# Kripke semantics and the soundness of the search

A proposition is a set of worlds that is closed upwards. The rules of the search that lose no choice replace a sequent by
sequents that hold at the same worlds (`Models`), so a formula for which it finds a proof holds at every world of every model.
-/

namespace SortedLogic.Intuitionistic
universe u

structure Kripke (W : Type u) where
  acc : W → W → Prop
  acc_refl : ∀ w, acc w w
  acc_trans : ∀ {w u v}, acc w u → acc u v → acc w v

/-- A proposition: the worlds in which it is true, with every world that can be reached from one of them. -/
structure Kripke.Proposition {W : Type u} (K : Kripke W) where
  val : W → Prop
  grows : ∀ {w u}, K.acc w u → val w → val u

namespace Kripke.Proposition
variable {W : Type u} {K : Kripke W}

def truth : K.Proposition := ⟨fun _ => True, fun _ h => h⟩

def falsity : K.Proposition := ⟨fun _ => False, fun _ h => h⟩

def all (ps : List K.Proposition) : K.Proposition :=
  ⟨fun w => ∀ p ∈ ps, p.val w, fun r h p m => p.grows r (h p m)⟩

def any (ps : List K.Proposition) : K.Proposition :=
  ⟨fun w => ∃ p ∈ ps, p.val w, by
    rintro w u r ⟨p, m, h⟩
    exact ⟨p, m, p.grows r h⟩⟩

def implies (p q : K.Proposition) : K.Proposition :=
  ⟨fun w => ∀ u, K.acc w u → p.val u → q.val u, fun r h u s => h u (K.acc_trans r s)⟩

def negation (p : K.Proposition) : K.Proposition := implies p falsity

def Valid (p : K.Proposition) : Prop := ∀ w, p.val w

end Kripke.Proposition

namespace Formula
open Kripke.Proposition (truth falsity all any implies negation)
variable {W : Type u} {K : Kripke W}

mutual
/-- What a formula means, given what its constants mean. -/
def meaning (c : Term → K.Proposition) : Formula → K.Proposition
  | .atom f => c (.app f [])
  | .tt => truth
  | .ff => falsity
  | .and fs => all (meanings c fs)
  | .or fs => any (meanings c fs)
  | .imp a b => implies (meaning c a) (meaning c b)
  | .not a => negation (meaning c a)
  | .other t => c t

def meanings (c : Term → K.Proposition) : List Formula → List K.Proposition
  | [] => []
  | f :: fs => meaning c f :: meanings c fs
end

theorem meanings_eq_map (c : Term → K.Proposition) (fs : List Formula) : meanings c fs = fs.map (meaning c) := by
  induction fs with
  | nil => rfl
  | cons _ _ ih => rw [meanings, ih, List.map_cons]

/-- True in every world of every model, whatever its constants mean. -/
def Valid (goal : Formula) : Prop :=
  ∀ (W : Type u) (K : Kripke W) (c : Term → K.Proposition), (goal.meaning c).Valid

def Forced (c : Term → K.Proposition) (f : Formula) (w : W) : Prop := (f.meaning c).val w

def Models (c : Term → K.Proposition) (fs : List Formula) (w : W) : Prop := ∀ f ∈ fs, f.Forced c w

section Forced
variable {c : Term → K.Proposition} {w u : W} {a b x y f : Formula} {fs gs : List Formula}

theorem Forced.grows (h : f.Forced c w) (r : K.acc w u) : f.Forced c u := (f.meaning c).grows r h

theorem Models.grows (h : Models c fs w) (r : K.acc w u) : Models c fs u := fun f m => (h f m).grows r

@[simp] theorem forced_tt : tt.Forced c w := trivial

@[simp] theorem not_forced_ff : ¬ ff.Forced c w := id

@[simp] theorem forced_and : (and fs).Forced c w ↔ Models c fs w := by simp [Forced, Models, meaning, all, meanings_eq_map]

@[simp] theorem forced_or : (or fs).Forced c w ↔ ∃ f ∈ fs, f.Forced c w := by
  simp only [Forced, meaning, any, meanings_eq_map, List.mem_map]
  constructor
  · rintro ⟨_, ⟨f, m, rfl⟩, h⟩
    exact ⟨f, m, h⟩
  · rintro ⟨f, m, h⟩
    exact ⟨_, ⟨f, m, rfl⟩, h⟩

theorem forced_imp : (imp a b).Forced c w ↔ ∀ u, K.acc w u → a.Forced c u → b.Forced c u := Iff.rfl

@[simp] theorem forced_not : (not a).Forced c w ↔ (imp a ff).Forced c w := Iff.rfl

@[simp] theorem forced_imp_not : (imp (not a) b).Forced c w ↔ (imp (imp a ff) b).Forced c w := Iff.rfl

theorem Forced.apply (h : (imp a b).Forced c w) (k : a.Forced c w) : b.Forced c w := h w (K.acc_refl w) k

theorem Forced.weaken (h : b.Forced c w) : (imp a b).Forced c w := fun _ r _ => h.grows r

@[simp] theorem forced_imp_ff : (imp ff b).Forced c w := fun _ _ h => h.elim

@[simp] theorem forced_imp_tt : (imp tt b).Forced c w ↔ b.Forced c w := ⟨fun h => h.apply trivial, Forced.weaken⟩

@[simp] theorem forced_imp_or : (imp (or fs) b).Forced c w ↔ ∀ f ∈ fs, (imp f b).Forced c w := by
  constructor
  · intro h f m u r k
    exact h u r (forced_or.2 ⟨f, m, k⟩)
  · intro h u r k
    obtain ⟨f, m, k⟩ := forced_or.1 k
    exact h f m u r k

@[simp] theorem forced_curry : (curry fs b).Forced c w ↔ (imp (and fs) b).Forced c w := by
  induction fs generalizing b with
  | nil => exact ⟨Forced.weaken, fun h => h.apply (forced_and.2 (by simp [Models]))⟩
  | cons f fs ih =>
    show (curry fs (imp f b)).Forced c w ↔ _
    rw [ih]
    simp only [forced_imp, forced_and, Models, List.forall_mem_cons]
    constructor
    · intro h u r k
      exact h u r k.2 u (K.acc_refl u) k.1
    · intro h u r k v s hf
      exact h v (K.acc_trans r s) ⟨hf, fun g m => (k g m).grows s⟩

theorem Forced.of_nested (h : (imp (imp x y) b).Forced c w) : (imp y b).Forced c w :=
  forced_imp.2 fun u r k => h u r (Forced.weaken k)

@[simp] theorem models_nil : Models c [] w := by simp [Models]

@[simp] theorem models_cons : Models c (f :: fs) w ↔ f.Forced c w ∧ Models c fs w := by simp [Models]

@[simp] theorem models_append : Models c (fs ++ gs) w ↔ Models c fs w ∧ Models c gs w := by simp [Models, or_imp, forall_and]

@[simp] theorem models_reverse : Models c fs.reverse w ↔ Models c fs w := by simp [Models]

@[simp] theorem models_map_imp : Models c (fs.map fun f => imp f b) w ↔ (imp (or fs) b).Forced c w := by simp [Models]

end Forced

/-- The goal is true in every world of the model in which the hypotheses are. -/
def Follows (c : Term → K.Proposition) (fs : List Formula) (goal : Formula) : Prop :=
  ∀ w, Models c fs w → goal.Forced c w

section Follows
variable {c : Term → K.Proposition} {fs gs : List Formula} {a b x y goal : Formula}

theorem Follows.of_models (h : Follows c fs goal) (k : ∀ w, Models c gs w → Models c fs w) : Follows c gs goal :=
  fun w m => h w (k w m)

theorem follows_imp (h : Follows c (a :: fs) b) : Follows c fs (imp a b) := fun _ m _ r k => h _ (models_cons.2 ⟨k, m.grows r⟩)

theorem follows_nested (hy : Follows c (x :: imp y b :: fs) y) (hb : Follows c (b :: fs) goal) :
    Follows c (imp (imp x y) b :: fs) goal := by
  intro w m
  obtain ⟨h, m⟩ := models_cons.1 m
  have hxy : (imp x y).Forced c w := forced_imp.2 fun u r k => hy u (by simp [k, h.of_nested.grows r, m.grows r])
  exact hb w (models_cons.2 ⟨h.apply hxy, m⟩)

end Follows
end Formula

namespace Attempt

def Proved (a : Attempt) : Prop := a.result = .ok true

def Failed (a : Attempt) : Prop := a.result = .ok false

variable {a : Attempt} {b : Unit → Attempt} {v : Visit} {r : Bool} {f : Fault}

@[simp] theorem proved_done : (done r).Proved ↔ r = true := by simp [Proved, done]

@[simp] theorem not_proved_refuse : ¬ (refuse f).Proved := by simp [Proved, refuse]

@[simp] theorem proved_visit : (visit v a).Proved ↔ a.Proved := Iff.rfl

@[simp] theorem proved_both : (both a b).Proved ↔ a.Proved ∧ (b ()).Proved := by
  unfold both Proved
  split <;> simp_all

@[simp] theorem proved_either : (either a b).Proved ↔ a.Proved ∨ a.Failed ∧ (b ()).Proved := by
  unfold either Proved Failed
  split <;> simp_all

end Attempt

section Soundness
open Formula
variable {W : Type u} {K : Kripke W} (c : Term → K.Proposition)

theorem follows_of_proved : (∀ settled pending goal, (right settled pending goal).Proved → Follows c (settled ++ pending) goal) ∧
    (∀ settled pending goal, (left settled pending goal).Proved → Follows c (settled ++ pending) goal) ∧
    (∀ settled pending goal cs, (leftAll settled pending goal cs).Proved → ∀ d ∈ cs, Follows c (settled ++ d :: pending) goal) ∧
    (∀ settled goal, (search settled goal).Proved → Follows c settled goal) ∧
    (∀ settled before after goal, settled = before ++ after → (scan settled before after goal).Proved → Follows c settled goal) ∧
    (∀ settled goals, (rightAny settled goals).Proved → ∃ g ∈ goals, Follows c settled g) ∧
    (∀ settled pending goals, (rightAll settled pending goals).Proved → ∀ g ∈ goals, Follows c (settled ++ pending) g) := by
  apply right.mutual_induct
  · intro settled pending goal ih h
    rw [right.eq_def] at h
    cases goal with
    | tt => exact fun _ _ => forced_tt
    | and => exact fun w m => forced_and.2 fun g k => ih h g k w m
    | imp => exact follows_imp ((ih h).of_models (by simp +contextual))
    | not => exact ih h
    | ff | or gs | atom f => exact ih h
    | other => simp at h
  · intro settled pending goal ih h
    rw [left.eq_def] at h
    cases pending with
    | nil => simpa using ih h
    | cons d =>
      cases d with
      | ff => exact fun w m => by simp at m
      | or =>
        intro w m
        simp only [models_append, models_cons, forced_or] at m
        obtain ⟨hs, ⟨f, hf, k⟩, hr⟩ := m
        exact ih h f hf w (by simp [hs, k, hr])
      | imp a =>
        cases a with
        | other => simp at h
        | _ => exact (ih h).of_models (by simp +contextual)
      | other => simp at h
      | _ => exact (ih h).of_models (by simp +contextual)
  · simp
  · intro settled pending goal d cs ihl ihs h
    rw [leftAll, Attempt.proved_both] at h
    exact List.forall_mem_cons.2 ⟨ihl h.1, ihs h.2⟩
  · intro settled goal ih h
    rw [search.eq_def] at h
    split at h
    · rename_i hc
      exact fun w m => m goal (by simpa using hc)
    cases goal with
    | or =>
      obtain h | ⟨-, h⟩ := Attempt.proved_either.1 h
      · obtain ⟨g, hg, k⟩ := ih.1 h
        exact fun w m => forced_or.2 ⟨g, hg, k w m⟩
      · exact ih.2 rfl h
    | _ => exact ih rfl h
  · simp [scan]
  · intro settled before after goal a b rest ihl ihn e h
    have use (k : (left rest [b] goal).Proved) : Follows c (b :: rest) goal := (ihl k).of_models (by simp +contextual)
    have back (k : Follows c (imp a b :: rest) goal) : Follows c settled goal := k.of_models (by simp +contextual [e, rest])
    rw [scan.eq_def] at h
    obtain h | ⟨-, h⟩ := Attempt.proved_either.1 h
    · split at h
      · rename_i ha
        refine (use h).of_models fun w m => ?_
        have hb : b.Forced c w := Forced.apply (m (imp a b) (by simp [e])) (m a (by simpa using ha))
        simp only [e, models_append, models_cons] at m
        simp [hb, m, rest]
      · simp at h
    cases a with
    | imp =>
      rw [Attempt.proved_both] at h
      exact back (follows_nested ((ihn.1 h.1).of_models (by simp +contextual)) (use h.2))
    | not x =>
      rw [Attempt.proved_both] at h
      have nested : Follows c (imp (imp x ff) b :: rest) goal :=
        follows_nested ((ihn.1 h.1).of_models (by simp +contextual)) (use h.2)
      exact back (nested.of_models (by simp))
    | _ => exact ihn (by simpa using e) h
  · intro settled before after goal d hd ih e h
    rw [scan.eq_def] at h
    cases d with
    | imp a b => exact absurd rfl (hd a b)
    | _ => exact ih (by simpa using e) h
  · simp [rightAny]
  · intro settled g gs ihg ihs h
    rw [rightAny, Attempt.proved_either] at h
    exact (List.exists_mem_cons_iff _ _ _).2 (h.imp (fun h => by simpa using ihg h) fun h => ihs h.2)
  · simp
  · intro settled pending g gs ihg ihs h
    rw [rightAll, Attempt.proved_both] at h
    exact List.forall_mem_cons.2 ⟨ihg h.1, ihs h.2⟩

/-- A formula for which the search finds a proof is true in every world of every model. -/
theorem valid_of_proved (goal : Formula) (h : (prove goal).result = .ok true) : Valid.{u} goal :=
  fun _ _ c w => (follows_of_proved c).1 [] [] goal h w models_nil

/-- Excluded middle is irrefutable; the proof goes through the rule for an implication from a negation. -/
theorem irrefutable_middle_valid :
    (prove (not (not (or [atom (.const "p" .bool), not (atom (.const "p" .bool))])))).result = .ok true ∧
      Valid.{0} (not (not (or [atom (.const "p" .bool), not (atom (.const "p" .bool))]))) := by
  have h : (prove (not (not (or [atom (.const "p" .bool), not (atom (.const "p" .bool))])))).result = .ok true := by
    simp [prove, right, left, search, scan, Attempt.visit, Attempt.either, Attempt.both, Attempt.done]
  exact ⟨h, valid_of_proved _ h⟩

end Soundness
end SortedLogic.Intuitionistic

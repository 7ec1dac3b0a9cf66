import SortedLogic.Proofs.Kripke

/-!
# Countermodels and what the search misses

When the search gives up a sequent whose rules are exhausted, a countermodel is glued from those of the sequents tried before
it: a new world is put below them in which exactly the constants among the hypotheses are true.

One rule stops the search early: the first implication from an implication (or from a negation) among the hypotheses decides,
and those behind it (`Hidden`) are never tried.
-/

namespace SortedLogic.Intuitionistic
open List
variable {b goal d a g n : Formula} {before after settled pending fs gs : List Formula}
  {more trace : List Visit}

namespace Formula

mutual
/-- Built from constants, truth and falsity by the connectives alone. -/
def Plain : Formula → Prop
  | .atom _ | .tt | .ff => True
  | .and fs | .or fs => AllPlain fs
  | .imp a b => a.Plain ∧ b.Plain
  | .not a => a.Plain
  | .other _ => False

def AllPlain : List Formula → Prop
  | [] => True
  | f :: fs => f.Plain ∧ AllPlain fs
end

theorem allPlain_iff (fs : List Formula) : AllPlain fs ↔ ∀ f ∈ fs, f.Plain := by
  induction fs with
  | nil => simp [AllPlain]
  | cons _ _ ih => simp [AllPlain, ih]

@[simp] theorem plain_and (fs : List Formula) : (and fs).Plain ↔ ∀ f ∈ fs, f.Plain := allPlain_iff fs

@[simp] theorem plain_or (fs : List Formula) : (or fs).Plain ↔ ∀ f ∈ fs, f.Plain := allPlain_iff fs

theorem plain_curry (hs : ∀ f ∈ fs, f.Plain) (hb : b.Plain) : (curry fs b).Plain := by
  induction fs generalizing b with
  | nil => exact hb
  | cons _ _ ih =>
    obtain ⟨hf, hs⟩ := forall_mem_cons.1 hs
    exact ih hs ⟨hf, hb⟩

/-- A formula that the rules for hypotheses leave as it is. -/
def Settled : Formula → Prop
  | .tt | .atom _ | .imp (.atom _) _ | .imp (.imp _ _) _ | .imp (.not _) _ => True
  | _ => False

/-- A formula that the rules for goals leave as it is. -/
def Irreducible : Formula → Prop
  | .ff | .or _ | .atom _ => True
  | _ => False

def Nested : Formula → Prop
  | .imp (.imp _ _) _ | .imp (.not _) _ => True
  | _ => False

/-- A nested implication stands before an implication that is nested too or whose premise is among the hypotheses. -/
def Hidden (fs : List Formula) : Prop :=
  ∃ before n after a b, fs = before ++ n :: after ∧ n.Nested ∧ imp a b ∈ after ∧ ((imp a b).Nested ∨ a ∈ fs)

/-- The goal follows from the hypotheses in every model. -/
def Entails (fs : List Formula) (goal : Formula) : Prop :=
  ∀ (W : Type) (K : Kripke W) (c : Term → K.Proposition), Follows c fs goal

end Formula

open Formula

/-- A world of a model in which the hypotheses are true. -/
structure Situation (fs : List Formula) where
  World : Type
  model : Kripke World
  constants : Term → model.Proposition
  here : World
  holds : Models constants fs here

namespace Situation

def Forces (s : Situation fs) (f : Formula) : Prop := f.Forced s.constants s.here

theorem exists_of_not_entails (h : ¬ Entails fs goal) : ∃ s : Situation fs, ¬ s.Forces goal := by
  simp only [Entails, Follows, Classical.not_forall] at h
  obtain ⟨W, K, c, w, m, h⟩ := h
  exact ⟨⟨W, K, c, w, m⟩, h⟩

theorem not_entails (s : Situation fs) (h : ¬ s.Forces goal) : ¬ Entails fs goal := fun k => h (k _ _ _ _ s.holds)

def withHypotheses (s : Situation fs) {gs : List Formula} (h : Models s.constants gs s.here) : Situation gs :=
  ⟨s.World, s.model, s.constants, s.here, h⟩

section Glue
variable {I : Type} (S : I → Situation fs)

/-- The worlds of all the situations, and a new one. -/
abbrev GluedWorld : Type := Option ((i : I) × (S i).World)

/-- From the new world everything is reached that some situation reaches. -/
inductive Reach : GluedWorld S → GluedWorld S → Prop
  | stay : Reach none none
  | enter (i : I) (u : (S i).World) : (S i).model.acc (S i).here u → Reach none (some ⟨i, u⟩)
  | within (i : I) (u v : (S i).World) : (S i).model.acc u v → Reach (some ⟨i, u⟩) (some ⟨i, v⟩)

/-- The models of the situations, with a new world below them. -/
def glued : Kripke (GluedWorld S) where
  acc := Reach S
  acc_refl
    | none => .stay
    | some ⟨i, u⟩ => .within i u u ((S i).model.acc_refl u)
  acc_trans := by
    rintro w u v (_ | ⟨i, u, h⟩ | ⟨i, u, v, h⟩) k
    · exact k
    · obtain _ | _ | ⟨_, _, v, k⟩ := k
      exact .enter i v ((S i).model.acc_trans h k)
    · obtain _ | _ | ⟨_, _, v, k⟩ := k
      exact .within i _ v ((S i).model.acc_trans h k)

/-- In the new world exactly the constants among the hypotheses are true. -/
def gluedConstants (t : Term) : (glued S).Proposition where
  val
    | none => ∃ f, t = .app f [] ∧ atom f ∈ fs
    | some ⟨i, u⟩ => ((S i).constants t).val u
  grows := by
    rintro w u (_ | ⟨i, u, r⟩ | ⟨i, u, v, r⟩) h
    · exact h
    · obtain ⟨f, rfl, m⟩ := h
      exact ((S i).holds _ m).grows r
    · exact ((S i).constants t).grows r h

theorem forced_glued_imp (i : I) (u : (S i).World)
    (ha : ∀ v : (S i).World, a.Forced (gluedConstants S) (some ⟨i, v⟩) ↔ a.Forced (S i).constants v)
    (hb : ∀ v : (S i).World, b.Forced (gluedConstants S) (some ⟨i, v⟩) ↔ b.Forced (S i).constants v) :
    (imp a b).Forced (gluedConstants S) (some ⟨i, u⟩) ↔ (imp a b).Forced (S i).constants u := by
  constructor
  · intro h v r k
    exact (hb v).1 (h _ (.within i u v r) ((ha v).2 k))
  · rintro h _ (_ | _ | ⟨_, _, v, r⟩) k
    exact (hb v).2 (h v r ((ha v).1 k))

mutual
theorem forced_glued_some (i : I) : ∀ (g : Formula) (u : (S i).World),
    g.Forced (gluedConstants S) (some ⟨i, u⟩) ↔ g.Forced (S i).constants u
  | .atom _, _ | .tt, _ | .ff, _ | .other _, _ => Iff.rfl
  | .and gs, u => by
    simp only [forced_and, Models]
    exact forall_congr' fun g => forall_congr' (forced_glued_each i gs u g)
  | .or gs, u => by
    simp only [forced_or]
    exact exists_congr fun g => and_congr_right (forced_glued_each i gs u g)
  | .imp a b, u => forced_glued_imp S i u (forced_glued_some i a) (forced_glued_some i b)
  | .not a, u => forced_glued_imp S i u (b := ff) (forced_glued_some i a) fun _ => Iff.rfl

theorem forced_glued_each (i : I) : ∀ (gs : List Formula) (u : (S i).World), ∀ g ∈ gs,
    (g.Forced (gluedConstants S) (some ⟨i, u⟩) ↔ g.Forced (S i).constants u)
  | [], _ => by simp
  | g :: gs, u => forall_mem_cons.2 ⟨forced_glued_some i g u, forced_glued_each i gs u⟩
end

theorem forced_glued_atom {f : Symbol} : (atom f).Forced (gluedConstants S) none ↔ atom f ∈ fs := by
  constructor
  · rintro ⟨g, e, m⟩
    cases e
    exact m
  · exact fun m => ⟨f, rfl, m⟩

theorem Forces.of_glued (h : g.Forced (gluedConstants S) none) (i : I) : (S i).Forces g :=
  (forced_glued_some S i g _).1 (h.grows (.enter i _ ((S i).model.acc_refl _)))

end Glue
end Situation

namespace Formula
variable {x y : Formula}

/-- The premise cannot be had: it is a constant that is not among the hypotheses, or it does not follow from them. -/
def Blocked (fs : List Formula) (a : Formula) : Prop := (∃ f, a = atom f ∧ a ∉ fs) ∨ ¬ Entails fs a

open Situation in
theorem not_entails_of_blocked (settled : ∀ f ∈ fs, f.Settled) (blocked : ∀ a b, imp a b ∈ fs → Blocked fs a)
    (irred : goal.Irreducible) (absent : goal ∉ fs) (disjuncts : ∀ gs, goal = or gs → ∀ g ∈ gs, ¬ Entails fs g) :
    ¬ Entails fs goal := by
  -- one situation for each formula that does not follow
  let S : {f : Formula // ¬ Entails fs f} → Situation fs := fun f => (exists_of_not_entails f.2).choose
  have refutes (f : Formula) (h : ¬ Entails fs f) : ¬ f.Forced (gluedConstants S) none := fun k =>
    (exists_of_not_entails h).choose_spec (Forces.of_glued S k ⟨f, h⟩)
  have const (f : Symbol) (h : atom f ∉ fs) : ¬ (atom f).Forced (gluedConstants S) none :=
    fun k => h ((forced_glued_atom S).1 k)
  have holds : Models (gluedConstants S) fs none := by
    intro f m
    have hf := settled f m
    cases f with
    | tt => exact forced_tt
    | atom => exact (forced_glued_atom S).2 m
    | imp a b =>
      rw [forced_imp]
      rintro _ (_ | ⟨i, u, r⟩ | _) k
      · obtain ⟨f, rfl, h⟩ | h := blocked a b m
        · exact absurd k (const f h)
        · exact absurd k (refutes a h)
      · rw [forced_glued_some] at k ⊢
        exact (S i).holds _ m u r k
    | _ => exact hf.elim
  refine not_entails ⟨_, _, _, none, holds⟩ fun h => ?_
  cases goal with
  | ff => exact not_forced_ff h
  | atom f => exact const f absent h
  | or gs =>
    obtain ⟨g, m, k⟩ := forced_or.1 h
    exact refutes g (disjuncts gs rfl g m) k
  | _ => exact irred

theorem not_entails_nested (h : ¬ Entails (before ++ after ++ [x, imp y b]) y) :
    ¬ Entails (before ++ imp (imp x y) b :: after) (imp x y) := by
  obtain ⟨s, hs⟩ := Situation.exists_of_not_entails h
  have m := s.holds
  simp only [models_append, models_cons] at m
  obtain ⟨⟨hb, ha⟩, hx, hyb, -⟩ := m
  have outer : (imp (imp x y) b).Forced s.constants s.here := forced_imp.2 fun u r k =>
    (hyb.grows r).apply (Forced.apply k (hx.grows r))
  refine Situation.not_entails (s.withHypotheses ?_) fun k => hs (Forced.apply k hx)
  simp [hb, ha, outer]

theorem not_entails_nested_not (h : ¬ Entails (before ++ after ++ [x, imp ff b]) ff) :
    ¬ Entails (before ++ imp (not x) b :: after) (not x) :=
  fun k => not_entails_nested h fun W K c w m => k W K c w (by simpa using m)

end Formula

/-- The search came to a sequent that holds in every model and gave it up, with an implication hidden. -/
def Stuck (trace : List Visit) : Prop :=
  ∃ settled goal, Visit.search settled goal ∈ trace ∧ (search settled goal).Failed ∧ Hidden settled ∧ Entails settled goal

theorem Stuck.mono (h : Stuck trace) (k : trace ⊆ more) : Stuck more := by
  obtain ⟨settled, goal, m, rest⟩ := h
  exact ⟨settled, goal, k m, rest⟩

namespace Attempt

/-- The search ends, and if it fails it has a `reason`, unless it got stuck. -/
def Decides (a : Attempt) (reason : Prop) : Prop := a.Proved ∨ a.Failed ∧ (reason ∨ Stuck a.trace)

variable {a : Attempt} {b : Unit → Attempt} {v : Visit} {R S : Prop}

theorem decides_proved : (done true).Decides R := .inl rfl

theorem decides_failed (h : R) : (done false).Decides R := .inr ⟨rfl, .inl h⟩

theorem Decides.mono (h : a.Decides R) (k : R → S) : a.Decides S := h.imp_right (.imp_right (.imp_left k))

theorem Decides.weaken (h : a.Decides (¬ Entails fs goal))
    (k : ∀ (W : Type) (K : Kripke W) (c : Term → K.Proposition) (w : W), Models c fs w → Models c gs w) :
    a.Decides (¬ Entails gs goal) := h.mono fun h e => h fun W K c w m => e W K c w (k W K c w m)

theorem Decides.visit (h : a.Decides R) : (visit v a).Decides R :=
  h.imp_right (.imp_right (.imp_right fun s => s.mono (subset_cons_self ..)))

theorem Decides.both (ha : a.Decides R) (hb : (b ()).Decides S) : (both a b).Decides (R ∨ S) := by
  obtain ha | ⟨ha, k⟩ := ha
  · rw [Attempt.both, show a.result = .ok true from ha]
    obtain hb | ⟨hb, k⟩ := hb
    · exact .inl hb
    · exact .inr ⟨hb, k.imp .inr fun s => s.mono (subset_append_right ..)⟩
  · rw [Attempt.both, show a.result = .ok false from ha]
    exact .inr ⟨ha, k.imp_left .inl⟩

theorem Decides.either (ha : a.Decides R) (hb : (b ()).Decides S) : (either a b).Decides (R ∧ S) := by
  obtain ha | ⟨ha, k⟩ := ha
  · rw [Attempt.either, show a.result = .ok true from ha]
    exact .inl ha
  rw [Attempt.either, show a.result = .ok false from ha]
  obtain hb | ⟨hb, k'⟩ := hb
  · exact .inl hb
  refine .inr ⟨hb, ?_⟩
  obtain k | k := k
  · exact k'.imp (fun s => ⟨k, s⟩) fun s => s.mono (subset_append_right ..)
  · exact .inr (k.mono (subset_append_left ..))

end Attempt

section Completeness
open Attempt

/-- The hypotheses as the search keeps them. -/
structure Kept (settled pending : List Formula) : Prop where
  settled : ∀ f ∈ settled, f.Settled ∧ f.Plain
  pending : ∀ f ∈ pending, f.Plain

theorem Kept.settle (h : Kept settled (d :: pending)) (k : d.Settled) : Kept (settled ++ [d]) pending := by
  obtain ⟨hs, hp⟩ := h
  obtain ⟨hd, hp⟩ := forall_mem_cons.1 hp
  exact ⟨forall_mem_append.2 ⟨hs, by simpa using ⟨k, hd⟩⟩, hp⟩

theorem Kept.push (h : Kept settled pending) (k : ∀ f ∈ fs, f.Plain) : Kept settled (fs ++ pending) :=
  ⟨h.settled, forall_mem_append.2 ⟨k, h.pending⟩⟩

theorem Kept.cons (h : Kept settled pending) (k : d.Plain) : Kept settled (d :: pending) :=
  ⟨h.settled, forall_mem_cons.2 ⟨k, h.pending⟩⟩

theorem Kept.tail (h : Kept settled (d :: pending)) : Kept settled pending := ⟨h.settled, (forall_mem_cons.1 h.pending).2⟩

/-- What a failure of `scan` says about the implications it was to look at. -/
def Exhausted (settled after : List Formula) (goal : Formula) : Prop :=
  ¬ Entails settled goal ∨ Hidden settled ∨ ∀ a b, imp a b ∈ after → Blocked settled a

theorem Exhausted.cons (h : Exhausted settled after goal) (k : ∀ a b, d = imp a b → Blocked settled a) :
    Exhausted settled (d :: after) goal :=
  h.imp_right (.imp_right fun h a b m => (mem_cons.1 m).elim (fun e => k a b e.symm) (h a b))

theorem hidden_or_blocked (kept : Kept settled []) (e : settled = before ++ n :: after) (nested : n.Nested) :
    Hidden settled ∨ ∀ a b, imp a b ∈ after → Blocked settled a := by
  refine Classical.or_iff_not_imp_left.2 fun h a b m => ?_
  have open' (k : (imp a b).Nested ∨ a ∈ settled) : False := h ⟨before, n, after, a, b, e, nested, m, k⟩
  have hs := (kept.settled (imp a b) (by simp [e, m])).1
  cases a with
  | atom f => exact .inl ⟨f, rfl, fun k => open' (.inr k)⟩
  | imp => exact (open' (.inl trivial)).elim
  | not => exact (open' (.inl trivial)).elim
  | _ => exact hs.elim

theorem decides_search {body : Attempt} (kept : Kept settled [])
    (irred : goal.Irreducible) (absent : goal ∉ settled) (e : search settled goal = visit (.search settled goal) body)
    (h : body.Decides ((∀ gs, goal = .or gs → ∀ g ∈ gs, ¬ Entails settled g) ∧ Exhausted settled settled goal)) :
    (search settled goal).Decides (¬ Entails settled goal) := by
  obtain h | ⟨failed, ⟨disjuncts, exhausted⟩ | stuck⟩ := h
  · exact .inl (e ▸ h)
  · have failed' : (search settled goal).Failed := e ▸ failed
    refine .inr ⟨failed', ?_⟩
    obtain h | hidden | blocked := exhausted
    · exact .inl h
    · refine (Classical.em (Entails settled goal)).symm.imp_right fun entails => ?_
      exact ⟨settled, goal, by simp [e, visit], failed', hidden, entails⟩
    · exact .inl (not_entails_of_blocked (fun f m => (kept.settled f m).1) blocked irred absent disjuncts)
  · exact .inr ⟨e ▸ failed, .inr (stuck.mono (by simp [e, visit]))⟩

/-- Each phase ends, and what it finds no proof of does not follow, unless it got stuck. -/
theorem decides : (∀ settled pending goal, Kept settled pending → goal.Plain →
      (right settled pending goal).Decides (¬ Entails (settled ++ pending) goal)) ∧
    (∀ settled pending goal, Kept settled pending → goal.Plain → goal.Irreducible →
      (left settled pending goal).Decides (¬ Entails (settled ++ pending) goal)) ∧
    (∀ settled pending goal cs, Kept settled pending → (∀ d ∈ cs, d.Plain) → goal.Plain → goal.Irreducible →
      (leftAll settled pending goal cs).Decides (∃ d ∈ cs, ¬ Entails (settled ++ d :: pending) goal)) ∧
    (∀ settled goal, Kept settled [] → goal.Plain → goal.Irreducible → (search settled goal).Decides (¬ Entails settled goal)) ∧
    (∀ settled before after goal, settled = before ++ after → Kept settled [] → goal.Plain → goal.Irreducible →
      (scan settled before after goal).Decides (Exhausted settled after goal)) ∧
    (∀ settled goals, Kept settled [] → (∀ g ∈ goals, g.Plain) →
      (rightAny settled goals).Decides (∀ g ∈ goals, ¬ Entails settled g)) ∧
    (∀ settled pending goals, Kept settled pending → (∀ g ∈ goals, g.Plain) →
      (rightAll settled pending goals).Decides (∃ g ∈ goals, ¬ Entails (settled ++ pending) g)) := by
  apply right.mutual_induct
  · intro settled pending goal ih kept plain
    rw [right.eq_def]
    apply Decides.visit
    cases goal with
    | tt => exact decides_proved
    | and gs =>
      refine (ih kept ((plain_and gs).1 plain)).mono ?_
      rintro ⟨g, m, h⟩ k
      exact h fun W K c w hw => forced_and.1 (k W K c w hw) g m
    | imp =>
      refine (ih (kept.cons plain.1) plain.2).mono ?_
      intro h k
      refine h fun W K c w hw => ?_
      simp only [models_append, models_cons] at hw
      exact Forced.apply (k W K c w (by simp [hw])) hw.2.1
    | not => exact ih kept ⟨plain, trivial⟩
    | ff | or gs | atom f => exact ih kept plain trivial
    | other => exact plain.elim
  · intro settled pending goal ih kept plain irred
    rw [left.eq_def]
    apply Decides.visit
    cases pending with
    | nil => simpa using ih kept plain irred
    | cons d =>
      have plainD : d.Plain := kept.pending d (by simp)
      have rest' := kept.tail
      cases d with
      | ff => exact decides_proved
      | and =>
        exact (ih (rest'.push (by simpa using plainD)) plain irred).weaken (by simp)
      | or fs =>
        refine (ih rest' ((plain_or fs).1 plainD) plain irred).mono ?_
        rintro ⟨f, m, h⟩ e
        refine h fun W K c w hw => e W K c w ?_
        simp only [models_append, models_cons] at hw
        simp only [models_append, models_cons, forced_or]
        exact ⟨hw.1, ⟨f, m, hw.2.1⟩, hw.2.2⟩
      | not =>
        exact (ih (rest'.cons ⟨plainD, trivial⟩) plain irred).weaken (by simp)
      | tt | atom f =>
        exact (ih (kept.settle trivial) plain irred).weaken (by simp)
      | imp a b =>
        obtain ⟨plainA, plainB⟩ := plainD
        cases a with
        | ff => exact (ih rest' plain irred).weaken (by simp)
        | tt => exact (ih (rest'.cons plainB) plain irred).weaken (by simp)
        | and fs =>
          have curried := plain_curry ((plain_and fs).1 plainA) plainB
          exact (ih (rest'.cons curried) plain irred).weaken (by simp)
        | or fs =>
          have cases : ∀ g ∈ (fs.map fun f => imp f b).reverse, g.Plain := by simpa [Plain, plainB] using (plain_or fs).1 plainA
          exact (ih (rest'.push cases) plain irred).weaken (by simp)
        | imp | atom | not => exact (ih (kept.settle trivial) plain irred).weaken (by simp)
        | other => exact plainA.elim
      | other => exact plainD.elim
  · intro settled pending goal _ _ _ _
    rw [leftAll]
    exact decides_proved
  · intro settled pending goal d cs ihl ihs kept plains plain irred
    obtain ⟨hd, plains⟩ := forall_mem_cons.1 plains
    rw [leftAll]
    exact ((ihl (kept.cons hd) plain irred).both (ihs kept plains plain irred)).mono fun h => (exists_mem_cons_iff _ _ _).2 h
  · intro settled goal ih kept plain irred
    by_cases hc : settled.contains goal
    · rw [search.eq_def, if_pos hc]
      exact decides_proved.visit
    have e := search.eq_def settled goal
    rw [if_neg hc] at e
    refine decides_search kept irred (by simpa using hc) e ?_
    cases goal with
    | or gs =>
      refine ((ih.1 kept ((plain_or gs).1 plain)).either (ih.2 rfl kept plain irred)).mono fun h => ⟨?_, h.2⟩
      rintro gs' e
      cases e
      exact h.1
    | ff | atom => exact (ih rfl kept plain irred).mono fun h => ⟨by simp, h⟩
    | _ => exact irred.elim
  · intro settled before goal _ _ _ _
    rw [scan]
    exact decides_failed (.inr (.inr (by simp)))
  · intro settled before after goal a b rest ihl ihn e kept plain irred
    obtain ⟨hs, plainA, plainB⟩ := kept.settled (imp a b) (by simp [e])
    have keptRest : Kept rest [] := ⟨fun f m => kept.settled f (by
      rw [e]
      exact mem_append.2 ((mem_append.1 m).imp_right (mem_cons_of_mem _))), by simp⟩
    -- the conclusion makes the implication true, so trying it loses nothing
    have use : (left rest [b] goal).Decides (¬ Entails settled goal) :=
      (ihl (keptRest.cons plainB) plain irred).weaken fun W K c w m => by
        simp only [rest, models_append, models_cons] at m
        have hb : (imp a b).Forced c w := m.2.1.weaken
        simp [e, m, hb]
    have first : (if settled.contains a then left rest [b] goal else done false).Decides
        (a ∈ settled → ¬ Entails settled goal) := by
      by_cases ha : settled.contains a
      · rw [if_pos ha]
        exact use.mono fun h _ => h
      · rw [if_neg ha]
        exact decides_failed fun h => absurd (by simpa using h) ha
    rw [scan.eq_def]
    refine (first.either (S := a ∉ settled → Exhausted settled (imp a b :: after) goal) ?_).mono fun h => ?_
    · cases a with
      | imp _ y =>
        have premise := ihn.1 ((keptRest.cons (d := imp y b) ⟨plainA.2, plainB⟩).cons plainA.1) plainA.2
        refine (premise.both use).mono fun h _ => ?_
        have behind := hidden_or_blocked kept e trivial
        refine h.elim (fun h => .cons (.inr behind) ?_) .inl
        rintro _ _ ⟨⟩
        exact .inr (e ▸ not_entails_nested h)
      | not =>
        have premise := ihn.1 ((keptRest.cons (d := imp ff b) ⟨trivial, plainB⟩).cons plainA) trivial
        refine (premise.both use).mono fun h _ => ?_
        have behind := hidden_or_blocked kept e trivial
        refine h.elim (fun h => .cons (.inr behind) ?_) .inl
        rintro _ _ ⟨⟩
        exact .inr (e ▸ not_entails_nested_not h)
      | atom f =>
        refine (ihn (by simpa using e) kept plain irred).mono fun h absent => h.cons ?_
        rintro _ _ ⟨⟩
        exact .inl ⟨f, rfl, absent⟩
      | _ => exact hs.elim
    · exact (Classical.em (a ∈ settled)).elim (fun m => .inl (h.1 m)) h.2
  · intro settled before after goal d hd ih e kept plain irred
    rw [scan.eq_def]
    cases d with
    | imp a b => exact absurd rfl (hd a b)
    | _ => exact (ih (by simpa using e) kept plain irred).mono fun h => h.cons fun a b e => (hd a b e).elim
  · intro settled _ _
    rw [rightAny]
    exact decides_failed (by simp)
  · intro settled g gs ihg ihs kept plains
    obtain ⟨hg, plains⟩ := forall_mem_cons.1 plains
    rw [rightAny]
    refine ((ihg kept hg).either (ihs kept plains)).mono fun h => ?_
    exact forall_mem_cons.2 ⟨by simpa using h.1, h.2⟩
  · intro settled pending _ _
    rw [rightAll]
    exact decides_proved
  · intro settled pending g gs ihg ihs kept plains
    obtain ⟨hg, plains⟩ := forall_mem_cons.1 plains
    rw [rightAll]
    exact ((ihg kept hg).both (ihs kept plains)).mono fun h => (exists_mem_cons_iff _ _ _).2 h

/-- The search finds a proof of every valid formula, unless it gives up a valid sequent because a nested implication stands
before one that could be used. -/
theorem proved_of_valid (goal : Formula) (plain : goal.Plain) (valid : Valid.{0} goal) : (prove goal).result = .ok true ∨
      ∃ settled g, Visit.search settled g ∈ (prove goal).trace ∧ (search settled g).result = .ok false ∧
        Hidden settled ∧ Entails settled g := by
  obtain h | ⟨-, h | h⟩ := decides.1 [] [] goal ⟨by simp, by simp⟩ plain
  · exact .inl h
  · exact absurd (fun W K c w _ => valid W K c w) h
  · exact .inr h

/-- Modus ponens with an implication from an implication as the last premise: `p => (p => q) => ((a => b) => c) => q`. -/
def hiddenModusPonens : Formula :=
  let constant (name : String) : Formula := .atom (.const name .bool)
  .imp (constant "p") (.imp (.imp (constant "p") (constant "q"))
    (.imp (.imp (.imp (constant "a") (constant "b")) (constant "c")) (constant "q")))

theorem hiddenModusPonens_valid : Valid.{0} hiddenModusPonens := by
  intro W K c w u _ hp v r hpq x s _
  exact Forced.apply (Forced.grows hpq s) (Forced.grows (Forced.grows hp r) s)

/-- The last premise comes first among the hypotheses, and the search does not get past it. -/
theorem hiddenModusPonens_not_proved : Valid.{0} hiddenModusPonens ∧ (prove hiddenModusPonens).result = .ok false := by
  refine ⟨hiddenModusPonens_valid, ?_⟩
  simp [hiddenModusPonens, prove, right, left, search, scan, Attempt.visit, Attempt.either, Attempt.both,
    Attempt.done, Symbol.const]

theorem hiddenModusPonens_stuck : hiddenModusPonens.Plain ∧ Valid.{0} hiddenModusPonens ∧
      ((prove hiddenModusPonens).result = .ok true ∨ ∃ settled g, Visit.search settled g ∈ (prove hiddenModusPonens).trace ∧
          (search settled g).result = .ok false ∧ Hidden settled ∧ Entails settled g) := by
  have plain : hiddenModusPonens.Plain := by simp [hiddenModusPonens, Plain]
  exact ⟨plain, hiddenModusPonens_valid, proved_of_valid _ plain hiddenModusPonens_valid⟩

end Completeness
end SortedLogic.Intuitionistic

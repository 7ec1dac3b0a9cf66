import SortedLogic.Tactic.Goal
import Mathlib.Data.List.Forall2

/-!
# Computations that succeed

`Gives x s a s'` says that `x`, started in the state `s`, returns `a` and leaves `s'`.
-/

namespace SortedLogic
open List
universe u v w

section Lists
variable {α : Type u} {β : Type v} {γ : Type w} {R : α → β → Prop} {as : List α} {bs : List β}

theorem Forall₂.exists_of_mem_right (h : List.Forall₂ R as bs) {b : β} (mem : b ∈ bs) : ∃ a ∈ as, R a b := by
  induction h with
  | nil => cases mem
  | cons head _ ih =>
    rcases mem_cons.1 mem with rfl | mem
    · exact ⟨_, mem_cons_self, head⟩
    · obtain ⟨a, mem', related⟩ := ih mem
      exact ⟨a, mem_cons_of_mem _ mem', related⟩

theorem Forall₂.exists_of_mem_left (h : List.Forall₂ R as bs) {a : α} (mem : a ∈ as) : ∃ b ∈ bs, R a b :=
  Forall₂.exists_of_mem_right h.flip mem

theorem map_eq_map_iff {f : α → γ} {g : β → γ} : as.map f = bs.map g ↔ as.length = bs.length ∧
    ∀ e ∈ as.zip bs, f e.1 = g e.2 := by
  rw [← forall₂_eq_eq_eq, forall₂_map_left_iff, forall₂_map_right_iff, forall₂_iff_zip]
  exact and_congr_right fun _ => ⟨fun h e mem => h mem, fun h a b mem => h (a, b) mem⟩

theorem Forall₂.map_eq {f : α → γ} {g : β → γ} (h : List.Forall₂ R as bs) (eq : ∀ a ∈ as, ∀ b, R a b → f a = g b) :
    as.map f = bs.map g :=
  map_eq_map_iff.2 ⟨h.length_eq, fun _ mem => eq _ (of_mem_zip mem).1 _ ((forall₂_iff_zip.1 h).2 mem)⟩

theorem mapM_eq_some {f : α → Option β} : as.mapM f = some bs ↔ List.Forall₂ (fun a b => f a = some b) as bs := by
  induction as generalizing bs with
  | nil => cases bs <;> simp
  | cons _ _ ih =>
    rw [mapM_cons]
    constructor
    · intro h
      obtain ⟨b, head, rest⟩ := Option.bind_eq_some_iff.1 h
      obtain ⟨bs', tail, last⟩ := Option.bind_eq_some_iff.1 rest
      cases last
      exact .cons head (ih.1 tail)
    · intro h
      cases h with
      | cons head tail => exact Option.bind_eq_some_iff.2 ⟨_, head, Option.bind_eq_some_iff.2 ⟨_, ih.2 tail, rfl⟩⟩

end Lists

namespace Checked
variable {α β : Type}

theorem bind_eq_ok {x : Checked α} {f : α → Checked β} {b : β} : x >>= f = .ok b ↔ ∃ a, x = .ok a ∧ f a = .ok b := by
  cases x with
  | error => simp [bind, Except.bind]
  | ok => simp [bind, Except.bind]

@[simp] theorem pure_eq_ok {a b : α} : (pure a : Checked α) = .ok b ↔ a = b := by simp [pure, Except.pure]

@[simp] theorem guard_eq_ok {b : Bool} {f : Fault} {u : Unit} : Checked.guard b f = .ok u ↔ b = true := by
  cases b <;> simp [Checked.guard]

theorem ite_eq_ok {p : Prop} [Decidable p] {e : Fault} {a b : α} :
    (if p then .ok b else .error e : Checked α) = .ok a ↔ p ∧ a = b := by
  split <;> simp_all [eq_comm]

theorem mapM_eq_ok {f : α → Checked β} {as : List α} {bs : List β} :
    as.mapM f = .ok bs ↔ List.Forall₂ (fun a b => f a = .ok b) as bs := by
  induction as generalizing bs with
  | nil => cases bs <;> simp
  | cons _ _ ih =>
    rw [mapM_cons, bind_eq_ok]
    constructor
    · rintro ⟨b, head, rest⟩
      obtain ⟨bs', tail, last⟩ := bind_eq_ok.1 rest
      rw [pure_eq_ok] at last
      subst last
      exact .cons head (ih.1 tail)
    · intro h
      cases h with
      | cons head tail => exact ⟨_, head, bind_eq_ok.2 ⟨_, ih.2 tail, rfl⟩⟩

end Checked

def Gives {σ α : Type} (x : ExceptT Fault (StateM σ) α) (s : σ) (a : α) (s' : σ) : Prop :=
  x.run s = (.ok a, s')

namespace Gives
variable {σ α β : Type} {s s' : σ} {v w w' : World} {x : ExceptT Fault (StateM σ) α}
  {f : α → ExceptT Fault (StateM σ) β} {b : β} {a : α} {bs : List β} {as : List α}

theorem bind_iff : Gives (x >>= f) s b s' ↔ ∃ a r, Gives x s a r ∧ Gives (f a) r b s' := by
  have unfolded : (x >>= f).run s = (ExceptT.bindCont f (x.run s).1).run (x.run s).2 := rfl
  unfold Gives
  rw [unfolded]
  rcases x.run s with ⟨_ | a, r⟩
  · constructor
    · intro h
      cases h
    · rintro ⟨_, _, h, -⟩
      cases h
  · constructor
    · exact fun h => ⟨a, r, rfl, h⟩
    · rintro ⟨_, _, h, h'⟩
      cases h
      exact h'

theorem bind {r : σ} (first : Gives x s a r) (rest : Gives (f a) r b s') :
    Gives (x >>= f) s b s' := bind_iff.2 ⟨a, r, first, rest⟩

@[simp] theorem pure_iff {b : α} : Gives (pure a : ExceptT Fault (StateM σ) α) s b s' ↔ a = b ∧ s = s' := by
  constructor
  · intro h
    cases h
    exact ⟨rfl, rfl⟩
  · rintro ⟨rfl, rfl⟩
    rfl

@[simp] theorem throw_iff {e : Fault} {b : α} :
    Gives (throw e : ExceptT Fault (StateM σ) α) s b s' ↔ False := ⟨fun h => (by cases h), False.elim⟩

@[simp] theorem mapM_nil_iff : Gives (([] : List α).mapM f) s bs s' ↔ bs = [] ∧ s = s' := by rw [mapM_nil, pure_iff, eq_comm]

theorem mapM_cons_iff : Gives ((a :: as).mapM f) s bs s' ↔
      ∃ b r cs, Gives (f a) s b r ∧ Gives (as.mapM f) r cs s' ∧ bs = b :: cs := by
  rw [mapM_cons, bind_iff]
  constructor
  · rintro ⟨b, r, head, rest⟩
    obtain ⟨cs, r', tail, last⟩ := bind_iff.1 rest
    cases last
    exact ⟨b, r, cs, head, tail, rfl⟩
  · rintro ⟨b, r, cs, head, tail, rfl⟩
    exact ⟨b, r, head, bind_iff.2 ⟨cs, s', tail, pure_iff.2 ⟨rfl, rfl⟩⟩⟩

theorem exists_of_mem_mapM : ∀ {s : σ} {bs : List β},
    Gives (as.mapM f) s bs s' → b ∈ bs → ∃ a ∈ as, ∃ r r', Gives (f a) r b r' := by
  induction as with
  | nil =>
    intro s bs ok mem
    rw [(mapM_nil_iff.1 ok).1] at mem
    cases mem
  | cons a _ ih =>
    intro s bs ok mem
    obtain ⟨c, r, cs, head, tail, rfl⟩ := mapM_cons_iff.1 ok
    rcases mem_cons.1 mem with rfl | mem
    · exact ⟨a, mem_cons_self, s, r, head⟩
    · obtain ⟨a', mem', given⟩ := ih tail mem
      exact ⟨a', mem_cons_of_mem _ mem', given⟩

@[simp] theorem ofChecked_fresh {x : Checked α} {n m : Nat} : Gives (liftM x : Fresh α) n a m ↔ x = .ok a ∧ n = m := by
  show (x, n) = (.ok a, m) ↔ _
  simp

@[simp] theorem ofChecked_session {x : Checked α} : Gives (liftM x : Session α) w a v ↔ x = .ok a ∧ w = v := by
  show (x, w) = (.ok a, v) ↔ _
  simp

theorem checked_bind {x : Checked α} {f : α → Session β} :
    Gives ((liftM x : Session α) >>= f) w b v ↔ ∃ a, x = .ok a ∧ Gives (f a) w b v := by
  simp only [bind_iff, ofChecked_session, and_assoc, exists_and_left, exists_eq_left']

theorem ofFresh_iff {x : Fresh α} : Gives (liftM x : Session α) w a v ↔ ∃ n, Gives x w.next a n ∧ v = { w with next := n } := by
  show ((x.run w.next).1, { w with next := (x.run w.next).2 }) = (.ok a, v) ↔ _
  unfold Gives
  rcases x.run w.next with ⟨r, n⟩
  constructor
  · intro h
    cases h
    exact ⟨n, rfl, rfl⟩
  · rintro ⟨_, h, rfl⟩
    cases h
    rfl

theorem of_toOption (hit : (x.run s).1.toOption = some a) : Gives x s a (x.run s).2 := by
  have result : (x.run s).1 = .ok a := by
    cases run : (x.run s).1 with
    | error => rw [run] at hit; cases hit
    | ok => rw [run] at hit; exact congrArg _ (Option.some.inj hit)
  exact Prod.ext result rfl

theorem exists_of_isSome (ok : (x.run s).1.toOption.isSome = true) : ∃ a r, Gives x s a r := by
  obtain ⟨a, hit⟩ := Option.isSome_iff_exists.1 ok
  exact ⟨a, _, of_toOption hit⟩

theorem mapM_ofChecked {x : α → Checked β} : ∀ {w v : World} {bs : List β},
    Gives (as.mapM fun a => (liftM (x a) : Session β)) w bs v ↔ List.Forall₂ (fun a b => x a = .ok b) as bs ∧ w = v := by
  induction as with
  | nil =>
    intro w v bs
    simp only [mapM_nil_iff, forall₂_nil_left_iff]
  | cons _ _ ih =>
    intro w v bs
    rw [mapM_cons_iff]
    constructor
    · rintro ⟨b, r, cs, head, tail, rfl⟩
      obtain ⟨ok, rfl⟩ := ofChecked_session.1 head
      obtain ⟨rest, rfl⟩ := ih.1 tail
      exact ⟨.cons ok rest, rfl⟩
    · rintro ⟨all, rfl⟩
      cases all with
      | cons head tail => exact ⟨_, w, _, ofChecked_session.2 ⟨head, rfl⟩, ih.2 ⟨tail, rfl⟩, rfl⟩

theorem mapM_ofFresh {x : α → Fresh β} : ∀ {w v : World} {bs : List β},
    Gives (as.mapM fun a => (liftM (x a) : Session β)) w bs v →
      ∃ n, Gives (as.mapM x) w.next bs n ∧ v = { w with next := n } := by
  induction as with
  | nil =>
    intro w v bs ok
    obtain ⟨rfl, rfl⟩ := mapM_nil_iff.1 ok
    exact ⟨w.next, mapM_nil_iff.2 ⟨rfl, rfl⟩, rfl⟩
  | cons _ _ ih =>
    intro w v bs ok
    obtain ⟨b, r, cs, head, tail, rfl⟩ := mapM_cons_iff.1 ok
    obtain ⟨n, first, rfl⟩ := ofFresh_iff.1 head
    obtain ⟨m, rest, rfl⟩ := ih tail
    exact ⟨m, mapM_cons_iff.2 ⟨b, n, cs, first, rest, rfl⟩, rfl⟩

@[simp] theorem theWorld_iff : Gives theWorld w v w' ↔ v = w ∧ w' = w := by
  show (.ok w, w) = (Except.ok v, w') ↔ _
  simp [eq_comm]

theorem theWorld_bind {f : World → Session β} : Gives (theWorld >>= f) w b v ↔ Gives (f w) w b v := Iff.rfl

end Gives

theorem mapM_gives {α β : Type} {f : α → Fresh β} {as : List α} : ∀ {n m : Nat} {bs : List β}, Gives (as.mapM f) n bs m →
    (∀ a ∈ as, ∀ n m b, Gives (f a) n b m → n ≤ m) →
      n ≤ m ∧ List.Forall₂ (fun a b => ∃ l l', n ≤ l ∧ l' ≤ m ∧ Gives (f a) l b l') as bs := by
  induction as with
  | nil =>
    intro n m bs ok _
    obtain ⟨rfl, rfl⟩ := Gives.mapM_nil_iff.1 ok
    exact ⟨Nat.le_refl n, .nil⟩
  | cons a _ ih =>
    intro n m bs ok grows
    obtain ⟨b, l, cs, first, rest, rfl⟩ := Gives.mapM_cons_iff.1 ok
    obtain ⟨le, others⟩ := ih rest fun a mem => grows a (mem_cons_of_mem _ mem)
    have before := grows a mem_cons_self n l b first
    refine ⟨Nat.le_trans before le, .cons ⟨n, l, Nat.le_refl n, le, first⟩ (others.imp fun a b h => ?_)⟩
    obtain ⟨i, j, lo, hi, given⟩ := h
    exact ⟨i, j, Nat.le_trans before lo, hi, given⟩

end SortedLogic

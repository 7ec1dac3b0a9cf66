import SortedLogic.Proofs.Patterns
import Mathlib

/-!
# Most general solutions

Equations between terms without binders, to be solved for leaves: constants or loose variables. A step of the solver replaces an
unknown by a term in which it does not occur, so what satisfies the equations (`Sat`) stays the same (`eliminate`), and nothing
satisfies a clash. Hence a run ends with a most general solution, or shows that there is none (`solve_settles`).
-/

namespace SortedLogic
open Checked (mapM_eq_ok)
open List
open Substitution
open Prod (fst)
variable {f : Symbol} {x t b : Term} {ρ σ σ' : Substitution} {es rest es' rest' : List (Term × Term)}
  {args as bs us vs ws : List Term} {α β γ : Type}

namespace Term

/-! ## Terms without binders -/

mutual
/-- Without binders, and each symbol has arguments of the sorts that it is declared for. -/
def Exact : Term → Prop
  | .var _ _ => True
  | .app f args => args.map sort = f.domain ∧ ExactAll args
  | .bind _ _ _ => False

def ExactAll : List Term → Prop
  | [] => True
  | t :: ts => t.Exact ∧ ExactAll ts
end

theorem exact_app : (app f args).Exact ↔ args.map sort = f.domain ∧ ∀ a ∈ args, a.Exact := by
  have all : ∀ {ts : List Term}, ExactAll ts ↔ ∀ t ∈ ts, t.Exact := by
    intro ts
    induction ts with
    | nil => simp [ExactAll]
    | cons _ _ ih => simp [ExactAll, ih]
  rw [Exact, all]

inductive Leaf : Term → Prop
  | var (i : Nat) (s : Srt) : Leaf (.var i s)
  | const (c : Symbol) : Leaf (.app c [])

theorem not_leaf {a : Term} : ¬ (app f (a :: as)).Leaf := nofun

theorem Leaf.replaceAll (h : x.Leaf) (σ : Substitution) : x.replaceAll σ = (lookupLast σ x).getD x := by
  cases h with
  | var => rfl
  | const c =>
    cases hit : lookupLast σ (.app c []) with
    | none => rw [replaceAll_app hit]; rfl
    | some => rw [replaceAll_key hit]; rfl

def Keys (P : Term → Prop) (σ : Substitution) : Prop := ∀ p ∈ σ, P p.1

def Fitting (σ : Substitution) : Prop := ∀ p ∈ σ, p.2.Exact ∧ p.1.sort = p.2.sort

section Replace
variable {P : Term → Prop} (leaf : ∀ x, P x → x.Leaf) {τ : Substitution}

theorem Keys.lookupLast (keys : Keys P σ) (other : ¬ P t) : lookupLast σ t = none := by
  cases hit : Term.lookupLast σ t with
  | none => rfl
  | some => exact absurd (keys _ (lookupLast_mem hit)) other

theorem Keys.replace_app (keys : Keys P σ) (other : ¬ P (.app f args)) :
    (app f args).replaceAll σ = .app f (args.map (replaceAll σ)) := replaceAll_app (keys.lookupLast other)

theorem Keys.replace_var (keys : Keys P σ) {i : Nat} {s : Srt} (other : ¬ P (.var i s)) :
    (var i s).replaceAll σ = .var i s := by rw [replaceAll, keys.lookupLast other, Option.getD_none]

theorem sort_replace (fitting : Fitting σ) (exact' : t.Exact) : (t.replaceAll σ).sort = t.sort := by
  cases t with
  | var i s =>
    rw [replaceAll]
    cases hit : Term.lookupLast σ (.var i s) with
    | none => rfl
    | some => exact (fitting _ (lookupLast_mem hit)).2.symm
  | app => exact sort_replaceAll_of_isApp (fun p mem => (fitting p mem).2) rfl
  | bind => exact exact'.elim

theorem Exact.replace (fitting : Fitting σ) (exact' : t.Exact) : (t.replaceAll σ).Exact := by
  induction t with
  | var i s =>
    rw [replaceAll]
    cases hit : Term.lookupLast σ (.var i s) with
    | none => exact trivial
    | some => exact (fitting _ (lookupLast_mem hit)).1
  | app f args ih =>
    obtain ⟨sorts, args'⟩ := exact_app.1 exact'
    cases hit : Term.lookupLast σ (.app f args) with
    | some => exact replaceAll_key hit ▸ (fitting _ (lookupLast_mem hit)).1
    | none =>
      rw [replaceAll_app hit, exact_app]
      refine ⟨?_, by simpa using fun a mem => ih a mem (args' a mem)⟩
      rw [← sorts, map_map]
      exact map_congr_left fun a mem => sort_replace fitting (args' a mem)
  | bind => exact exact'.elim

theorem replace_congr (hσ : Keys P σ) (hτ : Keys P τ) (exact' : t.Exact)
    (eq : ∀ y ∈ t.subterms false, P y → y.replaceAll σ = y.replaceAll τ) : t.replaceAll σ = t.replaceAll τ := by
  induction t with
  | var i s =>
    by_cases key : P (.var i s)
    · exact eq _ (self_mem_subterms _ _) key
    · rw [hσ.replace_var key, hτ.replace_var key]
  | app f args ih =>
    by_cases key : P (.app f args)
    · exact eq _ (self_mem_subterms _ _) key
    · rw [hσ.replace_app key, hτ.replace_app key]
      refine congrArg (app f) (map_congr_left fun a mem => ?_)
      exact ih a mem ((exact_app.1 exact').2 a mem) fun y sub => eq y (mem_subterms_arg mem sub)
  | bind => exact exact'.elim

theorem replace_nil (exact' : t.Exact) : t.replaceAll [] = t := by
  induction t with
  | var => rfl
  | app _ _ ih =>
    rw [replaceAll_app rfl, map_congr_left fun a mem => ih a mem ((exact_app.1 exact').2 a mem), map_id']
  | bind => exact exact'.elim

include leaf

theorem replace_eq_self (hσ : Keys P σ) (exact' : t.Exact) (absent : ∀ y ∈ t.subterms false, P y → lookupLast σ y = none) :
    t.replaceAll σ = t := by
  have nothing : Keys P [] := fun _ mem => by cases mem
  refine (replace_congr hσ nothing exact' fun y sub key => ?_).trans (replace_nil exact')
  rw [(leaf y key).replaceAll, (leaf y key).replaceAll, absent y sub key]
  rfl

theorem head_iff (g : Term → Term) (f : Symbol) (args : List Term) : P (.app f (args.map g)) ↔ P (.app f args) := by
  cases args with
  | nil => rfl
  | cons => exact ⟨fun h => absurd (leaf _ h) not_leaf, fun h => absurd (leaf _ h) not_leaf⟩

theorem replace_replace (hσ : Keys P σ) (hρ : Keys P ρ) (hτ : Keys P τ) (exact' : t.Exact)
    (eq : ∀ y ∈ t.subterms false, P y → (y.replaceAll σ).replaceAll ρ = y.replaceAll τ) :
    (t.replaceAll σ).replaceAll ρ = t.replaceAll τ := by
  induction t with
  | var i s =>
    by_cases key : P (.var i s)
    · exact eq _ (self_mem_subterms _ _) key
    · rw [hσ.replace_var key, hρ.replace_var key, hτ.replace_var key]
  | app f args ih =>
    by_cases key : P (.app f args)
    · exact eq _ (self_mem_subterms _ _) key
    · rw [hσ.replace_app key, hρ.replace_app (mt (head_iff leaf _ f args).1 key), hτ.replace_app key, map_map]
      refine congrArg (app f) (map_congr_left fun a mem => ?_)
      exact ih a mem ((exact_app.1 exact').2 a mem) fun y sub => eq y (mem_subterms_arg mem sub)
  | bind => exact exact'.elim

theorem mem_subterms_replace (exact' : t.Exact) (key : P x) (sub : x ∈ (t.replaceAll σ).subterms false) :
    (x ∈ t.subterms false ∧ Term.lookupLast σ x = none) ∨ ∃ p ∈ σ, x ∈ p.2.subterms false := by
  induction t with
  | var i s =>
    rw [replaceAll] at sub
    cases hit : Term.lookupLast σ (.var i s) with
    | none =>
      obtain rfl : x = .var i s := by simpa [hit, subterms] using sub
      exact .inl ⟨self_mem_subterms _ _, hit⟩
    | some => exact .inr ⟨_, lookupLast_mem hit, by simpa [hit] using sub⟩
  | app f args ih =>
    cases hit : Term.lookupLast σ (.app f args) with
    | some => exact .inr ⟨_, lookupLast_mem hit, replaceAll_key hit ▸ sub⟩
    | none =>
      rw [replaceAll_app hit, mem_subterms_app] at sub
      rcases sub with rfl | ⟨b, mem, sub⟩
      · cases args with
        | nil => exact .inl ⟨self_mem_subterms _ _, hit⟩
        | cons => exact absurd (leaf _ key) not_leaf
      · obtain ⟨a, mem', rfl⟩ := mem_map.1 mem
        refine (ih a mem' ((exact_app.1 exact').2 a mem') sub).imp_left fun h => ⟨mem_subterms_arg mem' h.1, h.2⟩
  | bind => exact exact'.elim

theorem size_replace_lt (hρ : Keys P ρ) (exact' : t.Exact) (sub : x ∈ t.subterms false) (ne : x ≠ t) :
    (x.replaceAll ρ).size < (t.replaceAll ρ).size := by
  induction t with
  | var => exact absurd (by simpa [subterms] using sub) ne
  | app f args ih =>
    obtain ⟨a, mem, sub⟩ := (mem_subterms_app.1 sub).resolve_left ne
    have other : ¬ P (.app f args) := fun key => by
      cases args with
      | nil => cases mem
      | cons => exact not_leaf (leaf _ key)
    have below : (x.replaceAll ρ).size ≤ (a.replaceAll ρ).size := by
      by_cases eq : x = a
      · rw [eq]
      · exact (ih a mem ((exact_app.1 exact').2 a mem) sub eq).le
    have arg : (a.replaceAll ρ).size ≤ sizes (args.map (replaceAll ρ)) := size_le_sizes (mem_map_of_mem mem)
    rw [hρ.replace_app other, size]
    omega
  | bind => exact exact'.elim

end Replace

theorem Exact.isBind_eq_false (exact' : t.Exact) : ∀ y ∈ t.subterms false, y.isBind = false := by
  induction t with
  | var => simp [subterms, isBind]
  | app _ _ ih =>
    intro y sub
    rcases mem_subterms_app.1 sub with rfl | ⟨a, mem, sub⟩
    · rfl
    · exact ih a mem ((exact_app.1 exact').2 a mem) y sub
  | bind => exact exact'.elim

end Term

/-! ## Equations -/

namespace Unification
open Term

/-- The term is exact, and its leaves of `P` are among `us`. -/
structure Within (P : Term → Prop) (us : List Term) (t : Term) : Prop where
  fits : t.Exact
  leaves : ∀ y ∈ t.subterms false, P y → y ∈ us

theorem Within.mono {P : Term → Prop} (h : Within P us t) (sub : us ⊆ vs) : Within P vs t :=
  ⟨h.fits, fun y mem mine => sub (h.leaves y mem mine)⟩

def Sat (ρ : Substitution) (es : List (Term × Term)) : Prop := ∀ e ∈ es, e.1.replaceAll ρ = e.2.replaceAll ρ

theorem sat_cons {e : Term × Term} : Sat ρ (e :: es) ↔ e.1.replaceAll ρ = e.2.replaceAll ρ ∧ Sat ρ es := forall_mem_cons

theorem sat_append : Sat ρ (es ++ es') ↔ Sat ρ es ∧ Sat ρ es' := forall_mem_append

/-- What a state of the solver is like: no solved leaf is left in the equations or in a value. -/
structure Solving (P : Term → Prop) (us : List Term) (todo : List (Term × Term)) (σ : Substitution) : Prop where
  unknowns : ∀ x ∈ us, P x
  todo : ∀ e ∈ todo, Within P us e.1 ∧ Within P us e.2 ∧ e.1.sort = e.2.sort
  values : ∀ p ∈ σ, (P p.1 ∧ p.1 ∉ us) ∧ Within P us p.2 ∧ p.1.sort = p.2.sort
  nodup : (σ.map fst).Nodup

namespace Solving
variable {P : Term → Prop} {todo : List (Term × Term)}

theorem keys (h : Solving P us todo σ) : Keys P σ := fun p mem => (h.values p mem).1.1

theorem fitting (h : Solving P us todo σ) : Fitting σ := fun p mem => ⟨(h.values p mem).2.1.fits, (h.values p mem).2.2⟩

theorem within_replace (leaf : ∀ x, P x → x.Leaf) (h : Solving P us todo σ) (within : Within P ws t)
    (covered : ∀ x ∈ ws, x ∈ us ∨ x ∈ σ.map fst) : Within P us (t.replaceAll σ) := by
  refine ⟨within.fits.replace h.fitting, fun y sub key => ?_⟩
  rcases mem_subterms_replace leaf within.fits key sub with ⟨old, kept⟩ | ⟨p, mem, mem'⟩
  · refine (covered y (within.leaves y old key)).resolve_right fun mem => ?_
    rw [lookupLast_eq_get? h.nodup, get?_eq_none] at kept
    exact kept mem
  · exact (h.values p mem).2.1.leaves y mem' key

theorem sat_self (leaf : ∀ x, P x → x.Leaf) (h : Solving P us todo σ) : Sat σ σ := by
  intro p mem
  obtain ⟨⟨key, -⟩, within, -⟩ := h.values p mem
  rw [(leaf _ key).replaceAll, lookupLast_eq_get? h.nodup, get?_of_mem h.nodup mem]
  refine (replace_eq_self leaf h.keys within.fits fun y sub key => ?_).symm
  rw [lookupLast_eq_get? h.nodup, get?_eq_none]
  intro solved
  obtain ⟨q, mem', rfl⟩ := mem_map.1 solved
  exact (h.values q mem').1.2 (within.leaves q.1 sub key)

theorem congr (h : Solving P us todo σ) (eq : ∀ x, x ∈ us ↔ x ∈ vs) : Solving P vs todo σ := by
  have sub : us ⊆ vs := fun x => (eq x).1
  refine ⟨fun x mem => h.unknowns x ((eq x).2 mem), fun e mem => ?_, fun p mem => ?_, h.nodup⟩
  · obtain ⟨left, right, sorts⟩ := h.todo e mem
    exact ⟨left.mono sub, right.mono sub, sorts⟩
  · obtain ⟨⟨mine, outside⟩, within, sorts⟩ := h.values p mem
    exact ⟨⟨mine, fun mem' => outside ((eq _).2 mem')⟩, within.mono sub, sorts⟩

theorem replace_of_sat (leaf : ∀ x, P x → x.Leaf) (h : Solving P us todo σ) (hρ : Keys P ρ) (sat : Sat ρ σ)
    (fits : t.Exact) : (t.replaceAll σ).replaceAll ρ = t.replaceAll ρ := by
  refine replace_replace leaf h.keys hρ hρ fits fun y _ mine => ?_
  rw [(leaf y mine).replaceAll σ]
  cases hit : Term.lookupLast σ y with
  | none => rfl
  | some => exact (sat _ (lookupLast_mem hit)).symm

end Solving

/-! ## Steps -/

section Eliminate
variable {P : Term → Prop} (leaf : ∀ x, P x → x.Leaf)

theorem mem_without {y : Term} : y ∈ without x us ↔ y ∈ us ∧ y ≠ x := by simp [without]

include leaf

theorem within_eliminate (sorts : x.sort = b.sort) (hb : Within P us b) (new : x ∉ b.subterms false)
    (ht : Within P us t) : Within P (without x us) (t.replaceAll [(x, b)]) := by
  have fitting : Fitting [(x, b)] := by simpa [Fitting] using ⟨hb.fits, sorts⟩
  refine ⟨ht.fits.replace fitting, fun y sub mine => mem_without.2 ?_⟩
  rcases mem_subterms_replace leaf ht.fits mine sub with ⟨old, kept⟩ | ⟨p, mem, mem'⟩
  · refine ⟨ht.leaves y old mine, ?_⟩
    rintro rfl
    simp [Term.lookupLast] at kept
  obtain rfl := mem_singleton.1 mem
  refine ⟨hb.leaves y mem' mine, ?_⟩
  rintro rfl
  exact new mem'

theorem replace_eliminate (key : P x) (hρ : Keys P ρ) (eq : x.replaceAll ρ = b.replaceAll ρ) (exact' : t.Exact) :
    (t.replaceAll [(x, b)]).replaceAll ρ = t.replaceAll ρ := by
  have keys : Keys P [(x, b)] := by simpa [Keys] using key
  refine replace_replace leaf keys hρ hρ exact' fun y _ mine => ?_
  rw [(leaf y mine).replaceAll [(x, b)]]
  by_cases h : x = y
  · subst h
    simpa [Term.lookupLast] using eq.symm
  · simp [Term.lookupLast, h]

/-- Replacing an unknown by its term keeps the equations solvable by the same substitutions. -/
theorem eliminate (h : Solving P us rest σ) (unknown : x ∈ us) (hb : Within P us b) (sorts : x.sort = b.sort)
    (new : x ∉ b.subterms false)
    (hrest : rest.map (fun e => (e.1.replaceAll [(x, b)], e.2.replaceAll [(x, b)])) = rest')
    (hσ : Substitution.set (σ.map fun p => (p.1, p.2.replaceAll [(x, b)])) x b = σ') :
    Solving P (without x us) rest' σ' ∧ (∀ y, y ∈ σ'.map fst ↔ y ∈ σ.map fst ∨ y = x) ∧
      ∀ ρ, Keys P ρ → (Sat ρ rest' ∧ Sat ρ σ' ↔ x.replaceAll ρ = b.replaceAll ρ ∧ Sat ρ rest ∧ Sat ρ σ) := by
  have key := h.unknowns x unknown
  have fitting : Fitting [(x, b)] := by simpa [Fitting] using ⟨hb.fits, sorts⟩
  have unsolved : x ∉ σ.map fst := by
    intro mem
    obtain ⟨p, mem', rfl⟩ := mem_map.1 mem
    exact (h.values p mem').1.2 unknown
  have keys : (σ.map fun p => (p.1, p.2.replaceAll [(x, b)])).map fst = σ.map fst := by
    rw [map_map]
    rfl
  obtain rfl : σ' = (σ.map fun p => (p.1, p.2.replaceAll [(x, b)])) ++ [(x, b)] := by
    rw [← hσ, Substitution.set, get?_eq_none.2 (keys ▸ unsolved)]
    rfl
  subst hrest
  have moved {t : Term} := within_eliminate leaf (t := t) sorts hb new
  refine ⟨⟨fun y mem => h.unknowns y (mem_without.1 mem).1, ?_, ?_, ?_⟩, ?_, ?_⟩
  · intro e mem
    obtain ⟨q, mem', rfl⟩ := mem_map.1 mem
    obtain ⟨left, right, eq⟩ := h.todo q mem'
    exact ⟨moved left, moved right, by rw [sort_replace fitting left.fits, sort_replace fitting right.fits, eq]⟩
  · intro p mem
    rcases mem_append.1 mem with mem | mem
    · obtain ⟨q, mem', rfl⟩ := mem_map.1 mem
      obtain ⟨⟨mine, outside⟩, within, eq⟩ := h.values q mem'
      exact ⟨⟨mine, fun again => outside (mem_without.1 again).1⟩, moved within, by rw [sort_replace fitting within.fits, eq]⟩
    · obtain rfl := mem_singleton.1 mem
      refine ⟨⟨key, fun again => (mem_without.1 again).2 rfl⟩, ⟨hb.fits, fun y sub mine => mem_without.2 ?_⟩, sorts⟩
      exact ⟨hb.leaves y sub mine, fun e => new (e ▸ sub)⟩
  · rw [map_append, keys]
    exact h.nodup.append (by simp) (by simpa using unsolved)
  · intro y
    simp
  · intro ρ hρ
    have eq (equal : x.replaceAll ρ = b.replaceAll ρ) {t : Term} (exact' : t.Exact) :=
      replace_eliminate leaf key hρ equal exact'
    rw [sat_append]
    constructor
    · rintro ⟨todo, vals, last⟩
      have equal : x.replaceAll ρ = b.replaceAll ρ := last (x, b) (by simp)
      refine ⟨equal, fun e mem => ?_, fun p mem => ?_⟩
      · obtain ⟨left, right, -⟩ := h.todo e mem
        rw [← eq equal left.fits, ← eq equal right.fits]
        exact todo _ (mem_map.2 ⟨e, mem, rfl⟩)
      · rw [← eq equal (h.values p mem).2.1.fits]
        exact vals _ (mem_map.2 ⟨p, mem, rfl⟩)
    · rintro ⟨equal, todo, vals⟩
      refine ⟨fun e mem => ?_, fun p mem => ?_, by simpa [Sat] using equal⟩
      · obtain ⟨q, mem', rfl⟩ := mem_map.1 mem
        obtain ⟨left, right, -⟩ := h.todo q mem'
        rw [eq equal left.fits, eq equal right.fits]
        exact todo q mem'
      · obtain ⟨q, mem', rfl⟩ := mem_map.1 mem
        rw [eq equal (h.values q mem').2.1.fits]
        exact vals q mem'

end Eliminate

/-- What a run leaves: the unknowns `us'` without a value, and values that satisfy what the equations say. -/
structure Solved (P : Term → Prop) (us : List Term) (es : List (Term × Term)) (σ : Substitution) (us' : List Term)
    (τ : Substitution) : Prop extends Solving P us' [] τ where
  sub : us' ⊆ us
  solved : ∀ x, x ∈ τ.map fst ↔ x ∈ σ.map fst ∨ x ∈ us ∧ x ∉ us'
  general : ∀ ρ, Keys P ρ → (Sat ρ τ ↔ Sat ρ es ∧ Sat ρ σ)

/-- A most general solution, or none if there is none. -/
def Outcome (P : Term → Prop) (us : List Term) (todo : List (Term × Term)) (σ : Substitution) : Option Substitution → Prop
  | some τ => ∃ us', Solved P us todo σ us' τ
  | none => ∀ ρ, Keys P ρ → ¬ (Sat ρ todo ∧ Sat ρ σ)

/-- What a run comes to. It is refused only at a variable that is not an unknown. -/
def Settles (P : Term → Prop) (us : List Term) (todo : List (Term × Term)) (σ : Substitution)
    (run : Checked (Option Substitution)) : Prop :=
  (∀ r, run = .ok r → Outcome P us todo σ r) ∧ ((∀ y, y.isVar = true → P y) → ∃ r, run = .ok r)

section Run
variable {P : Term → Prop} {us₂ : List Term} {todo todo₂ : List (Term × Term)} {σ₂ : Substitution}

theorem Settles.of_step {run : Checked (Option Substitution)} (h : Settles P us₂ todo₂ σ₂ run) (sub : us₂ ⊆ us)
    (solved : ∀ x, x ∈ σ₂.map fst ↔ x ∈ σ.map fst ∨ x ∈ us ∧ x ∉ us₂)
    (eq : ∀ ρ, Keys P ρ → (Sat ρ todo₂ ∧ Sat ρ σ₂ ↔ Sat ρ todo ∧ Sat ρ σ)) : Settles P us todo σ run := by
  refine ⟨fun r ok => ?_, h.2⟩
  have h := h.1 r ok
  cases r with
  | none => exact fun ρ hρ sat => h ρ hρ ((eq ρ hρ).2 sat)
  | some =>
    obtain ⟨us', h⟩ := h
    refine ⟨us', { h with sub := fun _ m => sub (h.sub m), solved := fun x => ?_, general := fun ρ hρ => ?_ }⟩
    · rw [h.solved, solved]
      have := @h.sub x
      tauto
    · exact (h.general ρ hρ).trans (eq ρ hρ)

theorem settles_none (clash : ∀ ρ, Keys P ρ → ¬ Sat ρ todo) : Settles P us todo σ (.ok none) := by
  refine ⟨fun r ok => ?_, fun _ => ⟨none, rfl⟩⟩
  cases ok
  exact fun ρ hρ sat => clash ρ hρ sat.1

theorem replaced (sorts : x.sort = b.sort) (es : List (Term × Term)) :
    es.mapM (replaceIn x b) = .ok (es.map fun e => (e.1.replaceAll [(x, b)], e.2.replaceAll [(x, b)])) := by
  rw [mapM_eq_ok, forall₂_map_right_iff, forall₂_same]
  intro e _
  simp only [replaceIn, substitute, all_cons, all_nil, sorts, beq_self_eq_true, Bool.and_true]
  rfl

theorem replacedValues (sorts : x.sort = b.sort) (σ : Substitution) :
    replaceInSolution x b σ = .ok (σ.map fun p => (p.1, p.2.replaceAll [(x, b)])) := by
  rw [replaceInSolution, mapM_eq_ok, forall₂_map_right_iff, forall₂_same]
  intro p _
  simp only [substitute, all_cons, all_nil, sorts, beq_self_eq_true, Bool.and_true]
  rfl

theorem decompose (h : Solving P us ((.app f as, .app f bs) :: rest) σ) (known : .app f as ∉ us)
    (known' : .app f bs ∉ us) : Solving P us ((as.zip bs).reverse ++ rest) σ ∧
      ∀ ρ, Keys P ρ → (Sat ρ ((as.zip bs).reverse ++ rest) ↔ Sat ρ ((.app f as, .app f bs) :: rest)) := by
  obtain ⟨left, right, -⟩ := h.todo _ mem_cons_self
  obtain ⟨len, sorts⟩ := map_eq_map_iff.1 ((exact_app.1 left.fits).1.trans (exact_app.1 right.fits).1.symm)
  have part {t : Term} {ts : List Term} (within : Within P us (.app f ts)) (mem : t ∈ ts) : Within P us t :=
    ⟨(exact_app.1 within.fits).2 t mem, fun y sub => within.leaves y (mem_subterms_arg mem sub)⟩
  have rigid {ts : List Term} (within : Within P us (.app f ts)) (outside : .app f ts ∉ us) : ¬ P (.app f ts) :=
    fun mine => outside (within.leaves _ (self_mem_subterms _ _) mine)
  refine ⟨{ h with todo := fun e mem => ?_ }, fun ρ hρ => ?_⟩
  · rcases mem_append.1 mem with mem | mem
    · have mem := mem_reverse.1 mem
      obtain ⟨inA, inB⟩ := of_mem_zip mem
      exact ⟨part left inA, part right inB, sorts e mem⟩
    · exact h.todo e (mem_cons_of_mem _ mem)
  · rw [sat_append, sat_cons, hρ.replace_app (rigid left known), hρ.replace_app (rigid right known'), app.injEq]
    refine and_congr_left fun _ => ⟨fun sat => ⟨rfl, map_eq_map_iff.2 ⟨len, fun e mem => ?_⟩⟩, fun same e mem => ?_⟩
    · exact sat e (mem_reverse.2 mem)
    · exact (map_eq_map_iff.1 same.2).2 e (mem_reverse.1 mem)

variable (leaf : ∀ x, P x → x.Leaf)
include leaf

theorem settles_assign (h : Solving P us rest σ) (unknown : x ∈ us) (hb : Within P us b) (sorts : x.sort = b.sort) (apart : x ≠ b)
    (ih : ∀ (rest' : List (Term × Term)) (σ' : Substitution), Solving P (without x us) rest' (σ'.set x b) →
      Settles P (without x us) rest' (σ'.set x b) (solve (without x us) rest' (σ'.set x b)))
    (meaning : ∀ ρ, Sat ρ todo ↔ x.replaceAll ρ = b.replaceAll ρ ∧ Sat ρ rest) :
    Settles P us todo σ (do
      if ← occurs x b then return none
      let rest ← rest.mapM (replaceIn x b)
      let σ ← replaceInSolution x b σ
      solve (without x us) rest (σ.set x b)) := by
  rw [occurs_eq hb.fits.isBind_eq_false, replaced sorts, replacedValues sorts]
  by_cases mem : x ∈ b.subterms false
  · rw [decide_eq_true mem]
    refine settles_none fun ρ hρ sat => ?_
    have smaller := size_replace_lt leaf hρ hb.fits mem apart
    rw [((meaning ρ).1 sat).1] at smaller
    exact smaller.ne rfl
  · rw [decide_eq_false mem]
    obtain ⟨h', solved, eq⟩ := eliminate leaf h unknown hb sorts mem rfl rfl
    refine (ih _ _ h').of_step (fun y m => (mem_without.1 m).1) (fun y => ?_) fun ρ hρ => ?_
    · rw [solved, mem_without]
      by_cases e : y = x
      · simp [e, unknown]
      · simp [e]
    · rw [eq ρ hρ, meaning, and_assoc]

theorem solve_settles (us : List Term) (todo : List (Term × Term)) (σ : Substitution) (h : Solving P us todo σ) :
    Settles P us todo σ (solve us todo σ) := by
  have rest' {us : List Term} {e : Term × Term} {rest : List (Term × Term)} {σ : Substitution}
      (h : Solving P us (e :: rest) σ) : Solving P us rest σ :=
    { h with todo := fun e mem => h.todo e (mem_cons_of_mem _ mem) }
  -- Outside the unknowns the head of an application stays, and so does a variable.
  have rigid {us : List Term} {t : Term} (within : Within P us t) (outside : ¬ us.contains t = true) : ¬ P t :=
    fun mine => outside (by simpa using within.leaves t (self_mem_subterms _ _) mine)
  induction us, todo, σ using solve.induct with
  | case1 us σ =>
    rw [solve]
    refine ⟨fun r ok => ?_, fun _ => ⟨some σ, rfl⟩⟩
    cases ok
    exact ⟨us, { h with sub := fun _ m => m, solved := by simp, general := fun ρ _ => by simp [Sat] }⟩
  | case2 _ _ _ _ ih =>
    rw [solve, if_pos rfl]
    exact (ih (rest' h)).of_step (fun _ m => m) (by simp) fun ρ _ => by simp [sat_cons]
  | case3 _ _ _ _ _ apart known ih =>
    obtain ⟨-, right, sorts⟩ := h.todo _ mem_cons_self
    rw [solve, if_neg apart, dif_pos known]
    exact settles_assign leaf (rest' h) (by simpa using known) right sorts apart ih fun ρ => sat_cons
  | case4 _ _ _ _ _ apart other known ih =>
    obtain ⟨left, -, sorts⟩ := h.todo _ mem_cons_self
    rw [solve, if_neg apart, dif_neg other, dif_pos known]
    refine settles_assign leaf (rest' h) (by simpa using known) left sorts.symm (Ne.symm apart) ih fun ρ => ?_
    rw [sat_cons, eq_comm]
  | case5 _ _ _ _ _ _ known' known apart ih =>
    rw [solve, if_neg apart, dif_neg known, dif_neg known']
    simp only [if_true]
    obtain ⟨h', eq⟩ := decompose h (by simpa using known) (by simpa using known')
    exact (ih h').of_step (fun _ m => m) (by simp) fun ρ hρ => and_congr_left fun _ => eq ρ hρ
  | case6 _ _ _ _ _ _ _ known known' clash apart =>
    rw [solve, if_neg apart, dif_neg known, dif_neg known']
    simp only [clash, if_false]
    obtain ⟨left, right, -⟩ := h.todo _ mem_cons_self
    refine settles_none fun ρ hρ sat => ?_
    have eq := (sat_cons.1 sat).1
    rw [hρ.replace_app (rigid left known), hρ.replace_app (rigid right known'), app.injEq] at eq
    exact clash eq.1
  | case7 _ _ b _ _ _ known known' other apart =>
    obtain ⟨left, right, -⟩ := h.todo _ mem_cons_self
    rw [solve, dif_neg known, dif_neg known']
    cases b with
    | app g bs => exact (other g bs known' rfl HEq.rfl).elim
    | bind => exact right.fits.elim
    | var =>
      refine settles_none fun ρ hρ sat => ?_
      have eq := (sat_cons.1 sat).1
      rw [hρ.replace_app (rigid left known), hρ.replace_var (rigid right known')] at eq
      cases eq
  | case8 _ _ a _ _ apart known other known' =>
    obtain ⟨left, -⟩ := h.todo _ mem_cons_self
    rw [solve, if_neg apart, dif_neg known, dif_neg known']
    cases a with
    | app f as => exact (other f as known rfl HEq.rfl).elim
    | bind => exact left.fits.elim
    | var => exact ⟨nofun, fun vars => absurd (vars _ rfl) (rigid left known)⟩

end Run

/-! ## Two terms -/

/-- A solution has values of fitting sorts in which no solved leaf occurs, and every other solution is an instance of it. -/
def Decides (P : Term → Prop) (a b : Term) : Option Substitution → Prop
  | some σ => (∀ p ∈ σ, P p.1 ∧ p.1.sort = p.2.sort) ∧ a.replaceAll σ = b.replaceAll σ ∧
      (∀ p ∈ σ, ∀ q ∈ σ, p.1 ∉ q.2.subterms false) ∧
      ∀ ρ, Keys P ρ → a.replaceAll ρ = b.replaceAll ρ → ∀ t : Term, t.Exact → (t.replaceAll σ).replaceAll ρ = t.replaceAll ρ
  | none => ¬ ∃ ρ, Keys P ρ ∧ a.replaceAll ρ = b.replaceAll ρ

section Two
variable {P : Term → Prop} {a : Term}

theorem Outcome.decides (leaf : ∀ x, P x → x.Leaf) {r : Option Substitution} (h : Outcome P us [(a, b)] [] r) :
    Decides P a b r := by
  have alone (ρ : Substitution) : Sat ρ [(a, b)] ∧ Sat ρ [] ↔ a.replaceAll ρ = b.replaceAll ρ := by simp [Sat]
  cases r with
  | none =>
    rintro ⟨ρ, hρ, eq⟩
    exact h ρ hρ ((alone ρ).2 eq)
  | some σ =>
    obtain ⟨us', h⟩ := h
    refine ⟨fun p mem => ⟨h.keys p mem, (h.values p mem).2.2⟩, ?_, fun p mem q other sub => ?_, fun ρ hρ eq t fits => ?_⟩
    · exact (alone σ).1 ((h.general σ h.keys).1 (h.sat_self leaf))
    · exact (h.values p mem).1.2 ((h.values q other).2.1.leaves _ sub (h.keys p mem))
    · exact h.replace_of_sat leaf hρ ((h.general ρ hρ).2 ((alone ρ).2 eq)) fits

theorem settles_two (leaf : ∀ x, P x → x.Leaf) (unknowns : ∀ x ∈ us, P x) (left : Within P us a) (right : Within P us b)
    (sorts : a.sort = b.sort) : Settles P us [(a, b)] [] (solve us [(a, b)] []) :=
  solve_settles leaf _ _ _ ⟨unknowns, by simpa using ⟨left, right, sorts⟩, by simp, nodup_nil⟩

end Two
end Unification

namespace Term
open Unification (Decides)

/-- Two terms are unified by a most general substitution for constants, or there is none; a loose variable may be refused. With
the loose variables as unknowns nothing is refused. -/
theorem unify_mostGeneral {a b : Term} (vs : List Term) (constants : ∀ v ∈ vs, v.isConst = true) (fitsA : a.Exact)
    (fitsB : b.Exact) (sorts : a.sort = b.sort) :
    ((∀ y ∈ a.subterms false ++ b.subterms false, y.isVar = false) → ∃ r, unify vs a b = .ok r) ∧
      (∀ r, unify vs a b = .ok r → Decides (· ∈ vs) a b r) ∧ ∃ r, unifyLoose a b = .ok r ∧ Decides (·.isVar = true) a b r := by
  have constant {v : Term} (h : v.isConst = true) : v.Leaf := by
    unfold isConst at h
    split at h
    · exact .const _
    · cases h
  have variable' {v : Term} (h : v.isVar = true) : v.Leaf := by
    unfold isVar at h
    split at h
    · exact .var _ _
    · cases h
  refine ⟨fun closed => ?_, fun r done => ?_, ?_⟩
  · -- Counted as unknowns that do not occur, the variables cannot be met.
    let P : Term → Prop := fun y => y ∈ vs ∨ y.isVar = true
    have within {t : Term} (fits : t.Exact) (part : t.subterms false ⊆ a.subterms false ++ b.subterms false) :
        Unification.Within P vs t :=
      ⟨fits, fun y sub mine => mine.resolve_right (by simp [closed y (part sub)])⟩
    have leaf (x : Term) (h : P x) : x.Leaf := h.elim (fun mem => constant (constants x mem)) variable'
    exact (Unification.settles_two leaf (fun x => .inl) (within fitsA (subset_append_left _ _))
      (within fitsB (subset_append_right _ _)) sorts).2 fun y => .inr
  · have leaf (x : Term) (mem : x ∈ vs) : x.Leaf := constant (constants x mem)
    exact ((Unification.settles_two leaf (fun _ h => h) ⟨fitsA, fun _ _ h => h⟩ ⟨fitsB, fun _ _ h => h⟩ sorts).1 r done).decides
      leaf
  · have settled : Unification.Settles (·.isVar = true) _ [(a, b)] [] (unifyLoose a b) :=
      Unification.settles_two (fun x => variable') (fun x mem => by simpa using (mem_filter.1 mem).2)
        ⟨fitsA, fun y sub h => by simp [subterms_of_false sub, h]⟩ ⟨fitsB, fun y sub h => by simp [subterms_of_false sub, h]⟩
        sorts
    obtain ⟨r, done⟩ := settled.2 fun _ h => h
    exact ⟨r, done, (settled.1 r done).decides fun x => variable'⟩

namespace Sample

def number (name : String) : Term := .const name .int
def next (a : Term) : Term := .app ⟨"g", [.int], .int, .free⟩ [a]
def pair (a b : Term) : Term := .app ⟨"f", [.int, .int], .int, .free⟩ [a, b]

def unknowns : List Term := [number "x", number "y", number "z"]
def left : Term := pair (number "x") (next (number "y"))
def right : Term := pair (next (number "z")) (number "x")

/-- The value of one unknown decides about two others. -/
theorem chained_unified : ∃ σ, unify unknowns left right = .ok (some σ) ∧
    σ = [(number "x", next (number "z")), (number "y", number "z")] ∧ Decides (· ∈ unknowns) left right (some σ) := by
  have done : unify unknowns left right = .ok (some [(number "x", next (number "z")), (number "y", number "z")]) := by cbv
  refine ⟨_, done, rfl, (unify_mostGeneral unknowns ?_ ?_ ?_ ?_).2.1 _ done⟩
  all_goals simp [unknowns, left, right, number, pair, next, const, isConst, Exact, ExactAll, sort, Symbol.const]

end Sample
end Term
end SortedLogic

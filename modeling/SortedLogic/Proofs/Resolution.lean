import SortedLogic.Horn
import SortedLogic.Proofs.Matching
import SortedLogic.Proofs.Quantification
import SortedLogic.Proofs.Unification

/-!
# What the answers of a search mean

The atoms that can be derived from definite clauses (`Derived`) are those that hold in the model whose things are the terms
themselves (`holds_iff_derived`).

What a branch of the search leads to makes its goals true wherever the clauses hold, and a substitution under which its goals
can be derived extends to one of the branches that it leads to. Goals that wait are left as they are when an unknown gets its
value, so nothing is lost only if no such unknown occurs in them (`Separate`, `sharedUnknown_lost`).
-/

namespace SortedLogic
open SortedLogic.Frame
open List
open SortedLogic.Symbol (const)
open SortedLogic.Substitution (get?_setAll mem_setAll nodup_setAll setAll)
open Term hiding const
open Option (map_eq_some_iff none_or)
open Substitution
open Forall₂ (exists_of_mem_left exists_of_mem_right)
open Prod (fst)
universe u
open Gives
variable {σ v θ ρ τ : Substitution} {s : Srt} {g t : Term} {n m fuel i limit : Nat} {P A : Term → Prop}
  {e : Horn.Branch} {asked args clauses goals gs ts vars vs ws xs : List Term} {f h : Term → Term}
  {Δ : List (Binder × Srt)} {u : Option Substitution} {U : Type u} {I : Interpretation U} {c : Symbol}
  {Γ : List Srt}

/-! ## First-order terms -/

def Srt.Plain : Srt → Prop
  | .bool | .array _ _ => False
  | _ => True

namespace Term

mutual
/-- The symbols are functions of things, or a predicate of things in front; loose variables have the sorts `Γ`. -/
def FirstOrder (Γ : List Srt) : Term → Prop
  | .var i s => Γ[i]? = some s
  | .app f args => (f.Proper ∧ ¬ f.Logical ∧ ∀ s ∈ f.domain, s.Plain) ∧ args.map sort = f.domain ∧ FirstOrderAll Γ args
  | .bind _ _ _ => False

def FirstOrderAll (Γ : List Srt) : List Term → Prop
  | [] => True
  | t :: ts => t.FirstOrder Γ ∧ FirstOrderAll Γ ts
end

variable {f : Symbol} {us : List Term}

theorem firstOrder_app : (app f args).FirstOrder Γ ↔
    (f.Proper ∧ ¬ f.Logical ∧ ∀ s ∈ f.domain, s.Plain) ∧ args.map sort = f.domain ∧ ∀ a ∈ args, a.FirstOrder Γ := by
  have all : ∀ {ts : List Term}, FirstOrderAll Γ ts ↔ ∀ t ∈ ts, t.FirstOrder Γ := by
    intro ts
    induction ts with
    | nil => simp [FirstOrderAll]
    | cons _ _ ih => simp [FirstOrderAll, ih]
  rw [FirstOrder, all]

theorem FirstOrder.exact (h : t.FirstOrder Γ) : t.Exact := by
  induction t with
  | var => trivial
  | app _ _ ih =>
    obtain ⟨-, sorts, args'⟩ := firstOrder_app.1 h
    exact exact_app.2 ⟨sorts, fun a mem => ih a mem (args' a mem)⟩
  | bind => exact h.elim

theorem FirstOrder.sorted (h : t.FirstOrder (Δ.map (·.2))) : t.Sorted true Δ := by
  induction t with
  | var =>
    rw [FirstOrder, getElem?_map, map_eq_some_iff] at h
    obtain ⟨p, hit, rfl⟩ := h
    exact ⟨p.1, hit⟩
  | app f args ih =>
    obtain ⟨⟨proper, -⟩, sorts, args'⟩ := firstOrder_app.1 h
    have arity : f.arity = args.length := by rw [Symbol.arity, ← sorts, length_map]
    exact sorted_app.2 ⟨proper, by rw [placesOf, if_pos arity, sorts], fun a mem => ih a mem (args' a mem)⟩
  | bind => exact h.elim

theorem FirstOrder.replace (fitting : ∀ p ∈ σ, p.2.FirstOrder Γ ∧ p.1.sort = p.2.sort)
    (h : t.FirstOrder Γ) : (t.replaceAll σ).FirstOrder Γ := by
  have fitting' : Fitting σ := fun p mem => ⟨(fitting p mem).1.exact, (fitting p mem).2⟩
  induction t with
  | var i s =>
    rw [replaceAll]
    cases hit : lookupLast σ (.var i s) with
    | none => exact h
    | some => exact (fitting _ (lookupLast_mem hit)).1
  | app f args ih =>
    obtain ⟨head, sorts, args'⟩ := firstOrder_app.1 h
    cases hit : lookupLast σ (.app f args) with
    | some => exact replaceAll_key hit ▸ (fitting _ (lookupLast_mem hit)).1
    | none =>
      rw [replaceAll_app hit, firstOrder_app]
      refine ⟨head, ?_, by simpa using fun a mem => ih a mem (args' a mem)⟩
      rw [← sorts, map_map]
      exact map_congr_left fun a mem => sort_replace fitting' (args' a mem).exact
  | bind => exact h.elim

/-! ### Terms for variables -/

theorem lift_zero (t : Term) : ∀ c, lift 0 c t = t := by
  induction t with
  | var => intro c; simp [lift]
  | app _ _ ih => intro c; rw [lift, lifts_eq_map, map_congr_left fun a mem => ih a mem c, map_id']
  | bind _ _ _ ih => intro c; rw [lift, ih]

theorem instantiate_app (us : List Term) (f : Symbol) (args : List Term) :
    instantiate us (.app f args) = .app f (args.map (instantiate us)) := by
  rw [instantiate, instantiateAt, instantiatesAt_eq_map]
  rfl

theorem instantiate_var {u : Term} (hit : us[i]? = some u) : instantiate us (.var i s) = u := by
  simp [instantiate, instantiateAt, hit, lift_zero]

theorem getElem?_of_sorts (sorts : us.map sort = Γ) (hit : Γ[i]? = some s) : ∃ u, us[i]? = some u ∧ u.sort = s := by
  rw [← sorts, getElem?_map, map_eq_some_iff] at hit
  exact hit

theorem sort_instantiate (sorts : us.map sort = Γ) (h : t.FirstOrder Γ) : (instantiate us t).sort = t.sort := by
  cases t with
  | var =>
    obtain ⟨u, hit, eq⟩ := getElem?_of_sorts sorts h
    rw [instantiate_var hit, eq]
    rfl
  | app => rw [instantiate_app]; rfl
  | bind => exact h.elim

theorem Exact.instantiate (sorts : us.map sort = Γ) (exact' : ∀ u ∈ us, u.Exact) (h : t.FirstOrder Γ) :
    (t.instantiate us).Exact := by
  induction t with
  | var =>
    obtain ⟨u, hit, -⟩ := getElem?_of_sorts sorts h
    exact instantiate_var hit ▸ exact' u (mem_of_getElem? hit)
  | app _ _ ih =>
    obtain ⟨-, places, args'⟩ := firstOrder_app.1 h
    rw [instantiate_app, exact_app, map_map]
    refine ⟨?_, by simpa using fun a mem => ih a mem (args' a mem)⟩
    rw [← places]
    exact map_congr_left fun a mem => sort_instantiate sorts (args' a mem)
  | bind => exact h.elim

end Term

namespace Horn
open Term (FirstOrder Exact Keys instantiate)
open Unification (Within Sat Solving Solved Outcome)

/-! ## Unknowns -/

/-- The terms that a search may give values to. No loose variable occurs in it, so these may as well count. -/
structure Unknowns (P : Term → Prop) : Prop where
  leaf : ∀ x, P x → x.Leaf
  free : ∀ c, P (.app c []) → c.isFree = true ∧ c.domain = [] ∧ c.range.Plain
  var : ∀ i s, P (.var i s)

/-- A predicate without fixed meaning, applied. -/
def IsAtom (a : Term) : Prop := ∃ p args, a = .app p args ∧ p.Proper ∧ ¬ p.Logical ∧ p.range = .bool

theorem IsAtom.sort {a : Term} (h : IsAtom a) : a.sort = .bool := by
  obtain ⟨p, args, rfl, -, -, range⟩ := h
  exact range

/-- A conjunction of atoms, in any nesting. -/
inductive Body (A : Term → Prop) : Term → Prop
  | tt : Body A .tt
  | atom {t : Term} : A t → Body A t
  | and {ts : List Term} : (∀ t ∈ ts, Body A t) → Body A (.app .and ts)

/-- The operation goes down to the atoms of a conjunction. -/
structure Descends (g : Term → Term) : Prop where
  tt : g .tt = .tt
  and : ∀ ts, g (.app .and ts) = .app .and (ts.map g)

namespace Body
variable {A' : Term → Prop} {g : Term → Term}

theorem map (body : Body A t) (descends : Descends g) (each : ∀ a, A a → A' (g a)) : Body A' (g t) := by
  induction body with
  | tt =>
    rw [descends.tt]
    exact .tt
  | atom a => exact .atom (each _ a)
  | and _ ih =>
    rw [descends.and]
    exact .and (by simpa using ih)

theorem congr (body : Body A t) (hg : Descends g) (hh : Descends h) (eq : ∀ a, A a → g a = h a) : g t = h t := by
  induction body with
  | tt => rw [hg.tt, hh.tt]
  | atom a => exact eq _ a
  | and _ ih => rw [hg.and, hh.and, map_congr_left ih]

theorem imp_of_sub (body : Body A t) (each : ∀ a, A a → (∀ y ∈ a.subterms false, y ∈ t.subterms false) → A' a) : Body A' t := by
  induction body with
  | tt => exact .tt
  | atom a => exact .atom (each _ a fun _ sub => sub)
  | and _ ih =>
    refine .and fun t mem => ih t mem fun a ha sub => each a ha fun y inside => ?_
    exact mem_subterms_arg mem (sub y inside)

end Body

theorem Descends.comp {g : Term → Term} (hg : Descends g) (hh : Descends h) : Descends (g ∘ h) where
  tt := by rw [Function.comp_apply, hh.tt, hg.tt]
  and ts := by rw [Function.comp_apply, hh.and, hg.and, map_map]

theorem descends_instantiate (us : List Term) : Descends (instantiate us) := ⟨instantiate_app us _ _, instantiate_app us _⟩

section Unknowns
variable (hP : Unknowns P) {us : List Term} {a : Term}
include hP

theorem Unknowns.not_logical {f : Symbol} (logical : f.Logical) : ¬ P (.app f args) := by
  intro mine
  cases args with
  | nil => exact absurd (hP.free f mine).1 (by simp [logical.isFree_eq_false])
  | cons => exact not_leaf (hP.leaf _ mine)

theorem Unknowns.not_atom (atom : IsAtom a) : ¬ P a := by
  obtain ⟨p, args, rfl, -, -, range⟩ := atom
  intro mine
  cases args with
  | nil => exact absurd (hP.free p mine).2.2 (by simp [range, Srt.Plain])
  | cons => exact not_leaf (hP.leaf _ mine)

theorem Unknowns.descends (keys : Keys P σ) : Descends (replaceAll σ) :=
  ⟨keys.replace_app (hP.not_logical .tt), fun _ => keys.replace_app (hP.not_logical .and)⟩

theorem Unknowns.isAtom_replace (keys : Keys P σ) (atom : IsAtom a) : IsAtom (a.replaceAll σ) := by
  have other := hP.not_atom atom
  obtain ⟨p, args, rfl, rest⟩ := atom
  exact ⟨p, _, keys.replace_app other, rest⟩

theorem Unknowns.replace_instantiate (keys : Keys P ρ) (len : us.length = Γ.length) (h : t.FirstOrder Γ)
    (clean : ∀ y ∈ t.subterms false, P y → y.isVar = true) :
    (instantiate us t).replaceAll ρ = instantiate (us.map (replaceAll ρ)) t := by
  induction t with
  | var i =>
    have bound : i < us.length := len ▸ (List.getElem?_eq_some_iff.1 h).1
    rw [instantiate_var (getElem?_eq_getElem bound), instantiate_var]
    rw [getElem?_map, getElem?_eq_getElem bound]
    rfl
  | app f args ih =>
    have other : ¬ P (.app f args) := fun mine => Bool.false_ne_true (clean _ (self_mem_subterms _ _) mine)
    rw [instantiate_app, instantiate_app, keys.replace_app (mt (head_iff hP.leaf _ f args).1 other), map_map]
    refine congrArg (app f) (map_congr_left fun a mem => ?_)
    exact ih a mem ((firstOrder_app.1 h).2.2 a mem) fun y sub => clean y (mem_subterms_arg mem sub)
  | bind => exact h.elim

theorem Unknowns.mem_instantiate (len : us.length = Γ.length) (h : t.FirstOrder Γ)
    (clean : ∀ y ∈ t.subterms false, P y → y.isVar = true) {y : Term} (sub : y ∈ (instantiate us t).subterms false)
    (mine : P y) : ∃ u ∈ us, y ∈ u.subterms false := by
  induction t with
  | var i =>
    have bound : i < us.length := len ▸ (List.getElem?_eq_some_iff.1 h).1
    rw [instantiate_var (getElem?_eq_getElem bound)] at sub
    exact ⟨us[i], getElem_mem bound, sub⟩
  | app f args ih =>
    rw [instantiate_app, mem_subterms_app] at sub
    rcases sub with rfl | ⟨b, mem, sub⟩
    · have again := (head_iff hP.leaf _ f args).1 mine
      exact absurd (clean _ (self_mem_subterms _ _) again) Bool.false_ne_true
    · obtain ⟨a, mem', rfl⟩ := mem_map.1 mem
      exact ih a mem' ((firstOrder_app.1 h).2.2 a mem') (fun y sub => clean y (mem_subterms_arg mem' sub)) sub
  | bind => exact h.elim

end Unknowns

/-! ## Clauses -/

structure Atom (Γ : List Srt) (a : Term) : Prop where
  firstOrder : a.FirstOrder Γ
  atom : IsAtom a

/-- An atom that follows from a conjunction of atoms, for all values of variables of the given sorts. -/
structure Definite where
  sorts : List Srt
  hyp : Term
  conc : Term
  plain : ∀ s ∈ sorts, s.Plain
  body : Body (Atom sorts.reverse) hyp
  atom : Atom sorts.reverse conc

namespace Definite

def Matrix (k : Definite) (t : Term) : Prop := (k.hyp = .tt ∧ t = k.conc) ∨ t = .app .implies [k.hyp, k.conc]

/-- The ways to write the clause as a closed formula. -/
inductive Written (k : Definite) : Term → Prop
  | closed {t : Term} : k.sorts = [] → k.Matrix t → Written k t
  | bound {vars : Vars} {t : Term} : vars.map (·.2) = k.sorts → k.Matrix t → Written k (.bind .forall vars t)

end Definite

variable {ks : List Definite} {k : Definite}

/-- An atom of a clause, in which no unknown occurs. -/
structure CleanAtom (P : Term → Prop) (Γ : List Srt) (a : Term) : Prop extends Atom Γ a where
  clean : ∀ y ∈ a.subterms false, P y → y.isVar = true

structure Definite.Clean (P : Term → Prop) (k : Definite) : Prop where
  hyp : Body (CleanAtom P k.sorts.reverse) k.hyp
  conc : CleanAtom P k.sorts.reverse k.conc

inductive Derived (ks : List Definite) : Term → Prop
  | tt : Derived ks .tt
  | and {ts : List Term} : (∀ t ∈ ts, Derived ks t) → Derived ks (.app .and ts)
  | clause {k : Definite} {ts : List Term} : k ∈ ks → ts.length = k.sorts.length →
      Derived ks (instantiate ts.reverse k.hyp) → Derived ks (instantiate ts.reverse k.conc)

namespace Derived
variable {a : Term}

theorem isAtom_instantiate (us : List Term) (atom : IsAtom a) : IsAtom (instantiate us a) := by
  obtain ⟨p, args, rfl, rest⟩ := atom
  exact ⟨p, _, instantiate_app us p args, rest⟩

theorem and_iff : Derived ks (.app .and ts) ↔ ∀ t ∈ ts, Derived ks t := by
  refine ⟨fun h => ?_, .and⟩
  generalize shape : app .and ts = t at h
  cases h with
  | tt => exact absurd (app.inj shape).1 (by decide)
  | and each => cases shape; exact each
  | @clause k us =>
    obtain ⟨p, args, eq, -, other, -⟩ := isAtom_instantiate us.reverse k.atom.atom
    rw [eq] at shape
    cases shape
    exact (other .and).elim

theorem of_atom (h : Derived ks a) (atom : IsAtom a) : ∃ k ∈ ks, ∃ ts : List Term, ts.length = k.sorts.length ∧
    a = instantiate ts.reverse k.conc ∧ Derived ks (instantiate ts.reverse k.hyp) := by
  obtain ⟨p, args, rfl, -, other, -⟩ := atom
  generalize shape : app p args = t at h
  cases h with
  | tt => cases shape; exact (other .tt).elim
  | and => cases shape; exact (other .and).elim
  | @clause k ts mem len hyp => exact ⟨k, mem, ts, len, rfl, hyp⟩

end Derived

/-! ## The model of terms -/

section Herbrand
open Standard (Universe Element)
variable (D : Term → Prop)

open Classical in
/-- A term as an element of any sort; of the truth values it is true if it can be derived. -/
noncomputable def element (t : Term) : (s : Srt) → Element (fun _ => Term) s
  | .bool => .ofBool (decide (D t))
  | .array _ r => .ofFun fun _ => element t r
  | .int | .real | .string | .char | .roundingMode => t
  | .bitvec _ | .float _ _ | .seq _ | .regex _ | .datatype _ | .uninterpreted _ => t

def termOf : Universe (fun _ => Term) → Term
  | ⟨.bool, _⟩ | ⟨.array _ _, _⟩ => .tt
  | ⟨.int, t⟩ | ⟨.real, t⟩ | ⟨.string, t⟩ | ⟨.char, t⟩ | ⟨.roundingMode, t⟩ => t
  | ⟨.bitvec _, t⟩ | ⟨.float _ _, t⟩ | ⟨.seq _, t⟩ | ⟨.regex _, t⟩ | ⟨.datatype _, t⟩ | ⟨.uninterpreted _, t⟩ => t

theorem termOf_element (plain : s.Plain) (t : Term) : termOf ⟨s, element D t s⟩ = t := by
  cases s <;> first | rfl | exact plain.elim

theorem element_termOf (u : Universe fun _ => Term) (plain : u.sort.Plain) : ⟨u.sort, element D (termOf u) u.sort⟩ = u := by
  obtain ⟨s, e⟩ := u
  cases s <;> first | rfl | exact plain.elim

/-- Terms stand for themselves, and what can be derived is true. -/
noncomputable def herbrand : Interpretation (Universe fun _ => Term) :=
  Standard.interpretation (fun f us => element D (.app f (us.map termOf)) f.range) fun _ => ⟨.tt⟩

variable {D} {us : List (Universe fun _ => Term)}

theorem eval_herbrand (sorts : us.map (·.sort) = Γ) (plain : ∀ s ∈ Γ, s.Plain) (h : t.FirstOrder Γ) :
    (herbrand D).eval us t = ⟨t.sort, element D (instantiate (us.map termOf) t) t.sort⟩ := by
  induction t with
  | var i s =>
    have h : Γ[i]? = some s := h
    rw [← sorts, getElem?_map, map_eq_some_iff] at h
    obtain ⟨u, hit, rfl⟩ := h
    have place : (us.map termOf)[i]? = some (termOf u) := by rw [getElem?_map, hit]; rfl
    rw [instantiate_var place, Frame.eval, getD, hit]
    exact (element_termOf D u (plain _ (sorts ▸ mem_map_of_mem (mem_of_getElem? hit)))).symm
  | app f args ih =>
    obtain ⟨⟨-, other, dom⟩, places, args'⟩ := firstOrder_app.1 h
    have vals : (args.map ((herbrand D).eval us)).map termOf = args.map (instantiate (us.map termOf)) := by
      rw [map_map]
      refine map_congr_left fun a mem => ?_
      rw [Function.comp_apply, ih a mem (args' a mem)]
      exact termOf_element D (dom _ (places ▸ mem_map_of_mem mem)) _
    rw [eval_app, instantiate_app, ← vals]
    exact Standard.apply_free (fun f us => element D (.app f (us.map termOf)) f.range) other _
  | bind => exact h.elim

theorem holds_iff_derived (ks : List Definite) (sorts : us.map (·.sort) = Γ) (plain : ∀ s ∈ Γ, s.Plain) (body : Body (Atom Γ) t) :
    (herbrand (Derived ks)).eval us t = (herbrand (Derived ks)).yes ↔ Derived ks (instantiate (us.map termOf) t) := by
  induction body with
  | tt =>
    exact iff_of_true ((eval_app _ _ _ _).trans (herbrand (Derived ks)).fn_tt) .tt
  | @atom _ atom =>
    rw [eval_herbrand sorts plain atom.firstOrder, atom.atom.sort]
    classical
    show (⟨.bool, .ofBool _⟩ : Universe _) = ⟨.bool, .ofBool true⟩ ↔ _
    refine ⟨fun eq => of_decide_eq_true (Standard.Universe.element_eq eq), fun derived => ?_⟩
    rw [decide_eq_true derived]
  | and _ ih =>
    rw [(descends_instantiate _).and, Derived.and_iff, eval_and, forall_mem_map]
    exact forall₂_congr ih

theorem herbrand_holds (mem : k ∈ ks) (written : k.Written t) : (herbrand (Derived ks)).Holds t := by
  have matrix (us : List (Universe fun _ => Term)) {t : Term} (sorts : us.map (·.sort) = k.sorts) (m : k.Matrix t) :
      (herbrand (Derived ks)).eval us.reverse t = (herbrand (Derived ks)).yes := by
    have sorts' : us.reverse.map (·.sort) = k.sorts.reverse := by rw [map_reverse, sorts]
    have plain : ∀ s ∈ k.sorts.reverse, s.Plain := fun s inside => k.plain s (mem_reverse.1 inside)
    have hyp := holds_iff_derived ks sorts' plain k.body
    have conc := holds_iff_derived ks sorts' plain (.atom k.atom)
    rw [map_reverse] at hyp conc
    have step : Derived ks (instantiate (us.map termOf).reverse k.hyp) →
        Derived ks (instantiate (us.map termOf).reverse k.conc) :=
      .clause mem (by simpa using congrArg List.length sorts)
    rcases m with ⟨fact, rfl⟩ | rfl
    · refine conc.2 (step ?_)
      rw [fact]
      exact .tt
    · exact eval_implies.2 fun holds => conc.2 (step (hyp.1 holds))
  cases written with
  | closed none m => exact matrix [] none.symm m
  | @bound _ _ eq m =>
    refine eval_forall.2 fun us fits => ?_
    rw [append_nil]
    refine matrix us ?_ m
    rw [← eq, ← forall₂_eq_eq_eq, forall₂_map_left_iff]
    exact fits

end Herbrand

/-! ## Rules -/

open Rewrite (HornRule)

theorem instantiateAt_nil (t : Term) : ∀ d, Term.instantiateAt [] d t = t := by
  induction t with
  | var => intro d; simp [Term.instantiateAt]
  | app _ _ ih =>
    intro d
    rw [Term.instantiateAt, instantiatesAt_eq_map, map_congr_left fun a mem => ih a mem d, map_id']
  | bind _ _ _ ih => intro d; rw [Term.instantiateAt, ih]

theorem Body.sorted (body : Body (Atom (Δ.map (·.2))) t) : t.Sorted true Δ ∧ t.sort = .bool := by
  induction body with
  | tt => exact ⟨sorted_app.2 ⟨Symbol.Logical.tt.proper, rfl, by simp⟩, rfl⟩
  | atom atom => exact ⟨atom.firstOrder.sorted, atom.atom.sort⟩
  | and _ ih => exact ⟨sorted_and.2 fun t mem => ⟨(ih t mem).2, (ih t mem).1⟩, rfl⟩

/-- The rule is the clause, with constants for its variables. -/
structure Copy (k : Definite) (cs : List Symbol) (r : HornRule) : Prop where
  vars : r.vars = cs.map (.app · [])
  ranges : cs.map Symbol.range = k.sorts
  nodup : cs.Nodup
  hyp : r.hyp = instantiate r.vars.reverse k.hyp
  conc : r.conc = instantiate r.vars.reverse k.conc

namespace Copy
variable {cs : List Symbol} {r : HornRule}

theorem holds (copy : Copy k cs r) (written : k.Written t) (holds : I.Holds t) (given : I.Holds r.hyp) : I.Holds r.conc := by
  rw [copy.hyp, copy.vars] at given
  rw [copy.conc, copy.vars]
  cases written with
  | closed none m =>
    obtain rfl : cs = [] := map_eq_nil_iff.1 (copy.ranges.trans none)
    rw [instantiate, map_nil, reverse_nil, instantiateAt_nil] at given ⊢
    rcases m with ⟨-, rfl⟩ | rfl
    · exact holds
    · exact eval_implies.1 holds given
  | @bound vars t eq m =>
    have context : (binding .forall vars).map (·.2) = k.sorts.reverse := by
      rw [← eq, ← map_reverse, binding, map_reverse, map_map, map_reverse]
      rfl
    have sorts := copy.ranges.trans eq.symm
    have sorted : k.hyp.Sorted true (binding .forall vars) ∧ k.conc.Sorted true (binding .forall vars) :=
      ⟨(Body.sorted (context ▸ k.body)).1, (context ▸ k.atom.firstOrder).sorted⟩
    have vals := eval_forall.1 holds (cs.map fun c => I.eval [] (.app c [])) (sorts ▸ I.fits_consts cs)
    rw [append_nil] at vals
    have opened (t : Term) (sorted : t.Sorted true (binding .forall vars)) :
        I.eval [] (instantiate (cs.map (.app · [])).reverse t) = I.eval (cs.map fun c => I.eval [] (.app c [])).reverse t :=
      eval_openWith sorted sorts
    rw [Frame.Holds, opened _ sorted.1] at given
    rw [Frame.Holds, opened _ sorted.2]
    rcases m with ⟨-, rfl⟩ | rfl
    · exact vals
    · exact eval_implies.1 vals given

end Copy

theorem map_replace_zip (nodup : xs.Nodup) (leaf : ∀ x ∈ xs, x.Leaf) (len : ts.length = xs.length)
    (σ : Substitution) : xs.map (replaceAll (σ ++ xs.zip ts)) = ts := by
  have keys : (xs.zip ts).map fst = xs := map_fst_zip (by omega)
  refine (map_eq_map_iff.2 ⟨len.symm, fun e mem => ?_⟩).trans (map_id ts)
  rw [(leaf _ (of_mem_zip mem).1).replaceAll, lookupLast_append, lookupLast_eq_get? (keys.symm ▸ nodup),
    get?_of_mem (keys.symm ▸ nodup) mem]
  rfl

def ruleOf (vs : List Term) (t : Term) : Fresh HornRule :=
  match t with
  | .app f [h, c] => if f.isOp "=>" then return ⟨vs, h, c, none⟩ else HornRule.ofTerm.atom none vs t
  | _ => HornRule.ofTerm.atom none vs t

theorem ruleOf_gives (us : List Term) {r : HornRule} (matrix : k.Matrix t) (ok : Gives (ruleOf vs (instantiate us t)) n r m) :
    r = ⟨vs, instantiate us k.hyp, instantiate us k.conc, none⟩ ∧ n = m := by
  rcases matrix with ⟨fact, rfl⟩ | rfl
  · obtain ⟨p, args, shape, proper, other, range⟩ := Derived.isAtom_instantiate us k.atom.atom
    have notImplies : ¬ p.isOp "=>" = true := fun op => other (proper.eq_implies op ▸ .implies)
    have atomic : ruleOf vs (.app p args) = HornRule.ofTerm.atom none vs (.app p args) := by
      unfold ruleOf
      split
      · rename_i eq
        obtain ⟨rfl, rfl⟩ := app.inj eq
        exact if_neg notImplies
      · rfl
    rw [shape, atomic, HornRule.ofTerm.atom, Term.sort, range] at ok
    cases ok
    rw [fact, shape]
    exact ⟨rfl, rfl⟩
  · rw [instantiate_app] at ok
    cases ok
    exact ⟨rfl, rfl⟩

theorem ofTerm_gives {r : HornRule} (written : k.Written t) (ok : Gives (HornRule.ofTerm t none) n r m) :
    ∃ cs, Copy k cs r ∧ (∀ c ∈ cs, c.Drawn n m) ∧ n ≤ m := by
  cases written with
  | closed empty matrix =>
    have open' : Gives (ruleOf [] (instantiate [] t)) n r m := by
      rw [instantiate, instantiateAt_nil]
      rcases matrix with ⟨-, rfl⟩ | rfl
      · obtain ⟨p, args, shape, -⟩ := k.atom.atom
        rw [shape] at ok ⊢
        exact ok
      · exact ok
    obtain ⟨rfl, rfl⟩ := ruleOf_gives [] matrix open'
    exact ⟨[], ⟨rfl, empty.symm, nodup_nil, rfl, rfl⟩, by simp, Nat.le_refl n⟩
  | @bound _ t eq matrix =>
    obtain ⟨q, l, opened, rest⟩ := bind_iff.1 ok
    obtain ⟨cs, rfl, ranges, nodup, drawn, le⟩ := openFresh_gives opened
    have open' : Gives (ruleOf (cs.map (.app · [])) (instantiate (cs.map (.app · [])).reverse t)) l r m := rest
    obtain ⟨rfl, rfl⟩ := ruleOf_gives _ matrix open'
    exact ⟨cs, ⟨rfl, ranges.trans eq, nodup, rfl, rfl⟩, drawn, le⟩

theorem freshen_gives (hP : Unknowns P) {cs : List Symbol} {r r' : HornRule} (copy : Copy k cs r)
    (mine : ∀ c ∈ cs, P (.app c [])) (clean : k.Clean P) (ok : Gives r.freshen n r' m) :
    ∃ ds, Copy k ds r' ∧ (∀ d ∈ ds, d.Drawn n m) ∧ n ≤ m := by
  obtain ⟨vs, l, fresh, ok⟩ := bind_iff.1 ok
  rw [copy.vars, mapM_map] at fresh
  obtain ⟨ds, rfl, ranges, nodup, drawn, le⟩ := freshConsts_gives (fun c : Symbol => Text.stem c.name) Symbol.range fresh
  simp only [bind_iff, ofChecked_fresh] at ok
  obtain ⟨hyp, _, ⟨moved, rfl⟩, conc, _, ⟨moved', rfl⟩, ok⟩ := ok
  cases ok
  obtain ⟨-, rfl⟩ := substitute_eq_ok.1 moved
  obtain ⟨-, rfl⟩ := substitute_eq_ok.1 moved'
  have keys : Keys P (r.vars.zip (ds.map (.app · []))) := by
    intro p mem
    have key := (of_mem_zip mem).1
    rw [copy.vars] at key
    obtain ⟨c, mem', eq⟩ := mem_map.1 key
    exact eq ▸ mine c mem'
  have len : ds.length = cs.length := by simpa using congrArg List.length ranges
  have count : r.vars.reverse.length = k.sorts.reverse.length := by
    rw [length_reverse, length_reverse, copy.vars, ← copy.ranges, length_map, length_map]
  have renamed : r.vars.map (replaceAll (r.vars.zip (ds.map (.app · [])))) = ds.map (.app · []) := by
    refine map_replace_zip ?_ ?_ (by simp [copy.vars, len]) []
    · rw [copy.vars]
      exact copy.nodup.map fun c d eq => (app.inj eq).1
    · rw [copy.vars]
      exact fun x mem => (mem_map.1 mem).elim fun c h => h.2 ▸ .const c
  have swap {t : Term} (atom : CleanAtom P k.sorts.reverse t) :
      (instantiate r.vars.reverse t).replaceAll (r.vars.zip (ds.map (.app · []))) =
        instantiate (ds.map (.app · [])).reverse t := by
    rw [hP.replace_instantiate keys count atom.firstOrder atom.clean, map_reverse, renamed]
  refine ⟨ds, ⟨rfl, ranges.trans copy.ranges, nodup, ?_, ?_⟩, drawn, le⟩
  · rw [copy.hyp]
    exact clean.hyp.congr ((hP.descends keys).comp (descends_instantiate _)) (descends_instantiate _) fun a h => swap h
  · rw [copy.conc]
    exact swap clean.conc

/-! ## Branches -/

structure Ready (P : Term → Prop) (us : List Term) (a : Term) : Prop extends Within P us a where
  atom : IsAtom a

/-- The term is an unknown of the branch, or has a value. -/
def Branch.Knows (b : Branch) (x : Term) : Prop := x ∈ b.unknowns ∨ x ∈ b.values.map fst

/-- Of the unknowns that the next branch has not got any more, none occurs in the goals. -/
def Branch.Untouched (b b' : Branch) (goals : List Term) : Prop :=
  ∀ x ∈ b.unknowns, x ∉ b'.unknowns → ∀ g ∈ goals, x ∉ g.subterms false

/-- What a branch is like: solved unknowns are gone from its goals and values. -/
structure Good (P : Term → Prop) (n : Nat) (b : Branch) : Prop where
  goals : ∀ g ∈ b.goals, Body (Ready P b.unknowns) g
  solving : Solving P b.unknowns [] b.values
  old : ∀ x, b.Knows x → x.Before n ∧ x.isVar = false

theorem closed_of_exact (fits : t.Exact) (const : ∀ y ∈ t.subterms false, y.isVar = false) : t.Closed := by
  induction t with
  | var => exact absurd (const _ (self_mem_subterms _ _)) (by simp [Term.isVar])
  | app _ _ ih =>
    exact closed_app.2 fun a mem => ih a mem ((exact_app.1 fits).2 a mem) fun y sub =>
      const y (mem_subterms_arg mem sub)
  | bind => exact fits.elim

section Constants
variable (hP : Unknowns P) {us : List Term}
include hP

theorem Unknowns.exists_const {x : Term} (mine : P x) (constant : x.isVar = false) : ∃ c, x = .app c [] := by
  cases hP.leaf x mine with
  | var => cases constant
  | const c => exact ⟨c, rfl⟩

theorem Unknowns.not_isVar (within : Within P us t) (const : ∀ x ∈ us, x.isVar = false) :
    ∀ y ∈ t.subterms false, y.isVar = false := by
  intro y sub
  cases y with
  | var i s => exact const _ (within.leaves _ sub (hP.var i s))
  | app | bind => rfl

theorem exchange_of (h : Solving P us [] σ) (const : ∀ x, x ∈ us ∨ x ∈ σ.map fst → x.isVar = false) : Term.Exchange σ := by
  intro p mem
  obtain ⟨⟨mine, -⟩, within, sorts⟩ := h.values p mem
  refine ⟨?_, closed_of_exact within.fits (hP.not_isVar within fun x mem' => const x (.inl mem')), sorts⟩
  obtain ⟨c, eq⟩ := hP.exists_const mine (const p.1 (.inr (mem_map_of_mem mem)))
  exact eq ▸ closed_app.2 (by simp)

end Constants

section Resolve
variable (hP : Unknowns P) {cs ds : List Symbol} {r : HornRule} {b : Branch} {goal : Term}
include hP

theorem Copy.ready (copy : Copy k ds r) (mine : ∀ d ∈ ds, P (.app d [])) {a : Term} (h : CleanAtom P k.sorts.reverse a) :
    Ready P r.vars (instantiate r.vars.reverse a) := by
  have sorts : r.vars.reverse.map Term.sort = k.sorts.reverse := by
    rw [map_reverse, copy.vars, map_map, ← copy.ranges]
    rfl
  have const {u : Term} (mem : u ∈ r.vars.reverse) : ∃ d ∈ ds, u = .app d [] := by
    rw [mem_reverse, copy.vars] at mem
    obtain ⟨d, mem', eq⟩ := mem_map.1 mem
    exact ⟨d, mem', eq.symm⟩
  refine ⟨⟨Exact.instantiate sorts (fun u mem => ?_) h.firstOrder, fun y sub key => ?_⟩, Derived.isAtom_instantiate _ h.atom⟩
  · obtain ⟨d, mem', rfl⟩ := const mem
    exact exact_app.2 ⟨(hP.free d (mine d mem')).2.1.symm, by simp⟩
  have len : r.vars.reverse.length = k.sorts.reverse.length := by simpa using congrArg List.length sorts
  obtain ⟨u, mem, mem'⟩ := hP.mem_instantiate len h.firstOrder h.clean sub key
  obtain ⟨d, -, rfl⟩ := const mem
  obtain rfl : y = .app d [] := by simpa [subterms, Term.subtermsOfAll] using mem'
  exact mem_reverse.1 mem

omit hP in
theorem compose_eq_ok (ok : Substitution.compose σ τ = .ok v) : v = setAll (σ.map fun p => (p.1, p.2.replaceAll τ)) τ := by
  obtain ⟨moved, each, last⟩ := Checked.bind_eq_ok.1 ok
  have eq : moved = σ.map fun p => (p.1, p.2.replaceAll τ) := by
    rw [← forall₂_eq_eq_eq, forall₂_map_right_iff]
    refine (Checked.mapM_eq_ok.1 each).flip.imp fun p' p made => ?_
    obtain ⟨u, put, rest⟩ := Checked.bind_eq_ok.1 made
    rw [← (substitute_eq_ok.1 put).2]
    exact (Except.ok.inj rest).symm
  rw [← eq]
  exact (Except.ok.inj last).symm

def Branch.next (b : Branch) (goals : List Term) (r : HornRule) (τ : Substitution) : Branch where
  unknowns := (b.unknowns ++ r.vars).eraseDups.filter fun x => !τ.any (·.1 = x)
  goals := goals ++ [r.hyp.replaceAll τ]
  values := setAll (b.values.map fun p => (p.1, p.2.replaceAll τ)) τ

theorem resolve_gives {res : Option Branch} (copy : Copy k cs r) (mine : ∀ c ∈ cs, P (.app c [])) (clean : k.Clean P)
    (ok : Gives (resolve b goals goal r) n res m) : ∃ ds r' u, Copy k ds r' ∧ (∀ d ∈ ds, d.Drawn n m) ∧ n ≤ m ∧
      unify (b.unknowns ++ r'.vars) r'.conc goal = .ok u ∧ res = u.map (b.next goals r') := by
  obtain ⟨r', l, fresh, ok⟩ := bind_iff.1 ok
  obtain ⟨ds, copy', drawn, le⟩ := freshen_gives hP copy mine clean fresh
  obtain ⟨u, _, unified, ok⟩ := bind_iff.1 ok
  obtain ⟨unified', rfl⟩ := ofChecked_fresh.1 unified
  cases u with
  | none =>
    cases ok
    exact ⟨ds, r', none, copy', drawn, le, unified', rfl⟩
  | some τ =>
    simp only [bind_iff, ofChecked_fresh] at ok
    obtain ⟨hyp, _, ⟨put, rfl⟩, v, _, ⟨composed, rfl⟩, ok⟩ := ok
    cases ok
    obtain ⟨-, rfl⟩ := substitute_eq_ok.1 put
    obtain rfl := compose_eq_ok composed
    exact ⟨ds, r', some τ, copy', drawn, le, unified', rfl⟩

/-- A goal meets the conclusion of a copy. -/
structure Meets (P : Term → Prop) (n m : Nat) (k : Definite) (b : Branch) (goal : Term) (ds : List Symbol) (r : HornRule) :
    Prop where
  copy : Copy k ds r
  clean : k.Clean P
  drawn : ∀ d ∈ ds, d.Drawn n m
  le : n ≤ m
  mine : ∀ d ∈ ds, P (.app d [])
  good : Good P n b
  ready : Ready P b.unknowns goal

/-- The conclusion and the goal are equal under `τ`, and unknowns `us` remain. -/
abbrev Solves (P : Term → Prop) (b : Branch) (goal : Term) (r : HornRule) (us : List Term) (τ : Substitution) : Prop :=
  Solved P (b.unknowns ++ r.vars) [(r.conc, goal)] [] us τ

namespace Meets
variable {us : List Term} (meets : Meets P n m k b goal ds r) (solved : Solves P b goal r us τ)

omit hP

include meets

theorem fresh {x : Term} (old : x.Before n) : x ∉ r.vars := by
  intro mem
  rw [meets.copy.vars] at mem
  obtain ⟨d, mem', rfl⟩ := mem_map.1 mem
  exact old.not_drawn (mentions_app.2 (.inl rfl)) (meets.drawn d mem')

theorem old {x : Term} (mem : x ∈ b.unknowns ++ r.vars) : x.Before m ∧ x.isVar = false := by
  rcases mem_append.1 mem with old | new
  · obtain ⟨before, const⟩ := meets.good.old x (.inl old)
    exact ⟨before.mono meets.le, const⟩
  · rw [meets.copy.vars] at new
    obtain ⟨d, mem', rfl⟩ := mem_map.1 new
    exact ⟨before_supply (meets.drawn d mem'), rfl⟩

omit meets

include solved

theorem mem_unknowns (x : Term) : x ∈ us ↔ x ∈ (b.next goals r τ).unknowns := by
  have keyed : τ.any (·.1 = x) = true ↔ x ∈ τ.map fst := by simp
  have := @solved.sub x
  rw [Branch.next, mem_filter, mem_eraseDups, Bool.not_eq_true', ← Bool.not_eq_true]
  have := solved.solved x
  tauto

theorem solving_next (goals : List Term) :
    Solving P (b.next goals r τ).unknowns [] τ := solved.toSolving.congr (mem_unknowns solved)

theorem keyed {x : Term} (mem : x ∈ τ.map fst) : x ∈ b.unknowns ++ r.vars :=
  (((solved.solved x).1 mem).resolve_left (by simp)).1

include meets

theorem not_solved {p : Term × Term} (mem : p ∈ b.values) : p.1 ∉ b.unknowns ++ r.vars ∧ p.1 ∉ τ.map fst := by
  have outside : p.1 ∉ b.unknowns ++ r.vars := fun mem' => by
    rcases mem_append.1 mem' with old | new
    · exact (meets.good.solving.values p mem).1.2 old
    · exact meets.fresh (meets.good.old p.1 (.inr (mem_map_of_mem mem))).1 new
  exact ⟨outside, fun solved' => outside (keyed solved solved')⟩

theorem mem_values (goals : List Term) :
    (∀ p ∈ τ, p ∈ (b.next goals r τ).values) ∧ ∀ p ∈ b.values, (p.1, p.2.replaceAll τ) ∈ (b.next goals r τ).values := by
  have moved : ((b.values.map fun p => (p.1, p.2.replaceAll τ)).map fst).Nodup := by
    rw [map_map]
    exact meets.good.solving.nodup
  refine ⟨fun p mem => ?_, fun p mem => ?_⟩
  · refine SortedLogic.Substitution.mem_of_get? ((get?_setAll solved.nodup).trans ?_)
    rw [SortedLogic.Substitution.get?_of_mem solved.nodup mem, Option.some_or]
  · refine SortedLogic.Substitution.mem_of_get? ((get?_setAll solved.nodup).trans ?_)
    rw [SortedLogic.Substitution.get?_eq_none.2 (meets.not_solved solved mem).2]
    exact SortedLogic.Substitution.get?_of_mem moved (mem_map.2 ⟨p, mem, rfl⟩)

theorem knows {x : Term} (known : b.Knows x) : (b.next goals r τ).Knows x := by
  obtain ⟨first, second⟩ := meets.mem_values solved goals
  rcases known with old | old
  · by_cases remains : x ∈ us
    · exact .inl ((mem_unknowns solved x).1 remains)
    · have key := (solved.solved x).2 (.inr ⟨mem_append_left _ old, remains⟩)
      obtain ⟨p, mem, rfl⟩ := mem_map.1 key
      exact .inr (mem_map_of_mem (first p mem))
  · obtain ⟨p, mem, rfl⟩ := mem_map.1 old
    exact .inr (mem_map.2 ⟨_, second p mem, rfl⟩)

omit solved

include hP

theorem conc : Ready P r.vars r.conc := meets.copy.conc ▸ meets.copy.ready hP meets.mine meets.clean.conc

theorem hyp : Body (Ready P r.vars) r.hyp := by
  rw [meets.copy.hyp]
  exact meets.clean.hyp.map (descends_instantiate _) fun a h => meets.copy.ready hP meets.mine h

theorem solving : Solving P (b.unknowns ++ r.vars) [(r.conc, goal)] [] where
  unknowns := by
    intro x mem
    rcases mem_append.1 mem with old | new
    · exact meets.good.solving.unknowns x old
    · rw [meets.copy.vars] at new
      obtain ⟨d, mem', rfl⟩ := mem_map.1 new
      exact meets.mine d mem'
  todo := by
    intro e mem
    obtain rfl := mem_singleton.1 mem
    exact ⟨(meets.conc hP).mono (subset_append_right _ _), meets.ready.mono (subset_append_left _ _),
      (meets.conc hP).atom.sort.trans meets.ready.atom.sort.symm⟩
  values := by simp
  nodup := nodup_nil

theorem outcome (unified : unify (b.unknowns ++ r.vars) r.conc goal = .ok u) :
    Outcome P (b.unknowns ++ r.vars) [(r.conc, goal)] [] u :=
  (Unification.solve_settles hP.leaf _ _ _ (meets.solving hP)).1 u unified

include solved in
omit meets in
theorem ready_next (sub : ws ⊆ b.unknowns ++ r.vars) (within : Within P ws t) :
    Within P (b.next goals r τ).unknowns (t.replaceAll τ) := by
  refine (solving_next solved goals).within_replace hP.leaf within fun x mem => ?_
  rw [← mem_unknowns solved, solved.solved]
  by_cases h : x ∈ us
  · exact .inl h
  · exact .inr (.inr ⟨sub mem, h⟩)

include solved in
theorem good_next (waiting : ∀ g ∈ goals, Body (Ready P b.unknowns) g) (separate : b.Untouched (b.next goals r τ) goals) :
    Good P m (b.next goals r τ) := by
  have new := solving_next solved goals
  have among {x : Term} (mem : x ∈ (b.next goals r τ).unknowns) : x ∈ b.unknowns ++ r.vars :=
    solved.sub ((mem_unknowns solved x).2 mem)
  refine ⟨fun g mem => ?_, ⟨new.unknowns, by simp, fun p mem => ?_, ?_⟩, fun x mem => ?_⟩
  · rcases mem_append.1 mem with mem | mem
    · refine (waiting g mem).imp_of_sub fun a ready sub => ⟨⟨ready.fits, fun y mem' mine => ?_⟩, ready.atom⟩
      by_contra gone
      exact separate y (ready.leaves y mem' mine) gone g mem (sub y mem')
    · obtain rfl := mem_singleton.1 mem
      exact (meets.hyp hP).map (hP.descends new.keys) fun a ready =>
        ⟨ready_next hP solved (subset_append_right _ _) ready.toWithin, hP.isAtom_replace new.keys ready.atom⟩
  · rcases mem_setAll mem with mem | mem
    · exact new.values p mem
    obtain ⟨q, mem', rfl⟩ := mem_map.1 mem
    obtain ⟨⟨mine, -⟩, within, sorts⟩ := meets.good.solving.values q mem'
    exact ⟨⟨mine, fun again => (meets.not_solved solved mem').1 (among again)⟩,
      ready_next hP solved (subset_append_left _ _) within, by rw [sort_replace new.fitting within.fits, sorts]⟩
  · refine nodup_setAll ?_
    rw [map_map]
    exact meets.good.solving.nodup
  · rcases mem with mem | mem
    · exact meets.old (among mem)
    obtain ⟨p, mem', rfl⟩ := mem_map.1 mem
    rcases mem_setAll mem' with mem' | mem'
    · exact meets.old (keyed solved (mem_map_of_mem mem'))
    · obtain ⟨q, hit, rfl⟩ := mem_map.1 mem'
      obtain ⟨before, const⟩ := meets.good.old q.1 (.inr (mem_map_of_mem hit))
      exact ⟨before.mono meets.le, const⟩

include solved in
theorem sound (written : k.Written t) (holds : I.Holds t)
    (vals : ∀ p ∈ (b.next goals r τ).values, I.eval [] p.1 = I.eval [] p.2)
    (hyp : I.Holds (r.hyp.replaceAll τ)) : I.Holds goal ∧ ∀ p ∈ b.values, I.eval [] p.1 = I.eval [] p.2 := by
  have new := solving_next solved goals
  obtain ⟨first, second⟩ := meets.mem_values solved goals
  have exchange : Term.Exchange τ := exchange_of hP solved.toSolving fun x mem =>
    (meets.old (mem.elim (fun mem' => solved.sub mem') (keyed solved))).2
  have put (t : Term) : I.eval [] (t.replaceAll τ) = I.eval [] t := eval_replaceAll exchange fun p mem => vals p (first p mem)
  have unified : r.conc.replaceAll τ = goal.replaceAll τ :=
    ((solved.general τ solved.keys).1 (solved.sat_self hP.leaf)).1 (r.conc, goal) (by simp)
  refine ⟨?_, fun p mem => ?_⟩
  · have conc : I.Holds r.conc := meets.copy.holds written holds ((put _).symm.trans hyp)
    rw [Frame.Holds, ← put, ← unified, put]
    exact conc
  · rw [← put p.2]
    exact vals _ (second p mem)

theorem complete (goals : List Term) (hρ : Keys P ρ) (sat : Sat ρ b.values)
    (count : ts.length = k.sorts.length) (eq : goal.replaceAll ρ = instantiate ts.reverse k.conc)
    (unified : unify (b.unknowns ++ r.vars) r.conc goal = .ok u) : ∃ us τ, u = some τ ∧ Solves P b goal r us τ ∧
      ∃ ρ', Keys P ρ' ∧ (∀ x, P x → x.Before n → x.replaceAll ρ' = x.replaceAll ρ) ∧ Sat ρ' (b.next goals r τ).values ∧
        (r.hyp.replaceAll τ).replaceAll ρ' = instantiate ts.reverse k.hyp := by
  let ρ' := ρ ++ r.vars.zip ts
  have len : ts.length = r.vars.length := by rw [count, meets.copy.vars, length_map, ← meets.copy.ranges, length_map]
  have keys : Keys P ρ' := by
    intro p mem
    rcases mem_append.1 mem with old | new
    · exact hρ p old
    · exact (meets.solving hP).unknowns _ (mem_append_right _ (of_mem_zip new).1)
  have agree (x : Term) (mine : P x) (old : x.Before n) : x.replaceAll ρ' = x.replaceAll ρ := by
    have new : Keys (· ∈ r.vars) (r.vars.zip ts) := fun p mem => (of_mem_zip mem).1
    rw [(hP.leaf x mine).replaceAll, (hP.leaf x mine).replaceAll, lookupLast_append, new.lookupLast (meets.fresh old), none_or]
  have kept {t : Term} (within : Within P b.unknowns t) : t.replaceAll ρ' = t.replaceAll ρ :=
    replace_congr keys hρ within.fits fun y sub mine =>
      agree y mine (meets.good.old y (.inl (within.leaves y sub mine))).1
  have opened {a : Term} (atom : CleanAtom P k.sorts.reverse a) :
      (instantiate r.vars.reverse a).replaceAll ρ' = instantiate ts.reverse a := by
    have leaves : ∀ x ∈ r.vars, x.Leaf := fun x mem =>
      hP.leaf x ((meets.solving hP).unknowns x (mem_append_right _ mem))
    have nodup : r.vars.Nodup := meets.copy.vars ▸ meets.copy.nodup.map fun c d eq => (app.inj eq).1
    rw [hP.replace_instantiate keys (by simp [← len, count]) atom.firstOrder atom.clean, map_reverse,
      map_replace_zip nodup leaves len ρ]
  have met : Sat ρ' [(r.conc, goal)] := by
    intro e mem
    obtain rfl := mem_singleton.1 mem
    rw [meets.copy.conc, opened meets.clean.conc, ← eq, kept meets.ready.toWithin]
  have outcome := meets.outcome hP unified
  cases u with
  | none => exact (outcome ρ' keys ⟨met, by simp [Sat]⟩).elim
  | some τ =>
    obtain ⟨us, solved⟩ := outcome
    have satτ : Sat ρ' τ := (solved.general ρ' keys).2 ⟨met, by simp [Sat]⟩
    have put {t : Term} (fits : t.Exact) : (t.replaceAll τ).replaceAll ρ' = t.replaceAll ρ' :=
      solved.replace_of_sat hP.leaf keys satτ fits
    refine ⟨us, τ, rfl, solved, ρ', keys, agree, fun p mem => ?_, ?_⟩
    · rcases mem_setAll mem with mem | mem
      · exact satτ p mem
      obtain ⟨q, mem', rfl⟩ := mem_map.1 mem
      obtain ⟨⟨mine, -⟩, within, -⟩ := meets.good.solving.values q mem'
      rw [put within.fits, kept within, agree _ mine (meets.good.old q.1 (.inr (mem_map_of_mem mem'))).1]
      exact sat q mem'
    · have descends := hP.descends keys
      calc (r.hyp.replaceAll τ).replaceAll ρ' = r.hyp.replaceAll ρ' :=
            (meets.hyp hP).congr (descends.comp (hP.descends solved.keys)) descends fun a ready => put ready.fits
        _ = (instantiate r.vars.reverse k.hyp).replaceAll ρ' := by rw [meets.copy.hyp]
        _ = instantiate ts.reverse k.hyp :=
            meets.clean.hyp.congr (descends.comp (descends_instantiate _)) (descends_instantiate _) fun a atom => opened atom

end Meets
end Resolve

/-! ## Steps of the search -/

/-- Clauses, the formulas that say them, and the rules that are made of these. -/
structure Setting (P : Term → Prop) (N : Nat) (ks : List Definite) (ts : List Term) (rules : List HornRule) : Prop where
  written : ∀ k ∈ ks, ∃ t ∈ ts, k.Written t
  clean : ∀ k ∈ ks, k.Clean P
  rule : ∀ k ∈ ks, ∃ r ∈ rules, ∃ cs, Copy k cs r ∧ ∀ c ∈ cs, P (.app c [])
  clause : ∀ r ∈ rules, ∃ k ∈ ks, ∃ cs, Copy k cs r ∧ ∀ c ∈ cs, P (.app c [])
  drawn : ∀ c : Symbol, (∃ n m, N ≤ n ∧ c.Drawn n m) → c.range.Plain → P (.app c [])

/-- The substitution satisfies the values of the branch, and its goals can be derived under it. -/
structure Covers (P : Term → Prop) (ks : List Definite) (ρ : Substitution) (b : Branch) : Prop where
  keys : Keys P ρ
  values : Sat ρ b.values
  goals : ∀ g ∈ b.goals, Derived ks (g.replaceAll ρ)

structure TrueIn {U : Type u} (I : Interpretation U) (b : Branch) : Prop where
  values : ∀ p ∈ b.values, I.eval [] p.1 = I.eval [] p.2
  goals : ∀ g ∈ b.goals, I.Holds g

section Search
variable (hP : Unknowns P) {N : Nat} {rules : List HornRule} {b : Branch} {goal : Term}

/-- What a step does: nothing false becomes true, and nothing that can be derived is lost. -/
structure Sends (P : Term → Prop) (ks : List Definite) (ts : List Term) (n m : Nat) (b : Branch) (next : List Branch) : Prop where
  le : n ≤ m
  good : ∀ b' ∈ next, Good P m b'
  keeps : ∀ b' ∈ next, ∀ x, b.Knows x → b'.Knows x
  sound : ∀ b' ∈ next, ∀ {U : Type u} (I : Interpretation U), (∀ t ∈ ts, I.Holds t) → TrueIn I b' → TrueIn I b
  complete : ∀ ρ, Covers P ks ρ b → ∃ b' ∈ next, ∃ ρ', Covers P ks ρ' b' ∧
    ∀ x, P x → x.Before n → x.replaceAll ρ' = x.replaceAll ρ

theorem Good.mono (good : Good P n b) (le : n ≤ m) : Good P m b :=
  { good with old := fun x mem => ⟨(good.old x mem).1.mono le, (good.old x mem).2⟩ }

theorem Branch.forall_goals (last : b.goals = goals ++ [goal]) : (∀ g ∈ b.goals, A g) ↔ (∀ g ∈ goals, A g) ∧ A goal := by
  simp [last, or_imp, forall_and]

theorem sends_goals (good : Good P n b) (ready : ∀ g ∈ gs, Body (Ready P b.unknowns) g)
    (sound : ∀ {U : Type u} (I : Interpretation U), (∀ g ∈ gs, I.Holds g) → ∀ g ∈ b.goals, I.Holds g)
    (complete : ∀ ρ, Keys P ρ → (∀ g ∈ b.goals, Derived ks (g.replaceAll ρ)) → ∀ g ∈ gs, Derived ks (g.replaceAll ρ)) :
    Sends.{u} P ks ts n n b [{ b with goals := gs }] where
  le := Nat.le_refl n
  good := by
    intro b' mem
    obtain rfl := mem_singleton.1 mem
    exact { good with goals := ready }
  keeps := by
    intro b' mem x known
    obtain rfl := mem_singleton.1 mem
    exact known
  sound := by
    intro b' mem U I _ true'
    obtain rfl := mem_singleton.1 mem
    exact ⟨true'.values, sound I true'.goals⟩
  complete := fun ρ covers =>
    ⟨_, mem_singleton_self _, ρ, ⟨covers.keys, covers.values, complete ρ covers.keys covers.goals⟩, fun _ _ _ => rfl⟩

theorem expand_tt : expand rules b goals .tt = return [{ b with goals }] := by
  exact if_pos rfl

theorem expand_and : expand rules b goals (.app .and gs) = return [{ b with goals := goals ++ gs.reverse }] := by
  have notTrue : ¬ app .and gs = .tt := fun same => absurd (app.inj same).1 (by decide)
  have notFalse : ¬ app .and gs = .ff := fun same => absurd (app.inj same).1 (by decide)
  rw [expand, if_neg notTrue, if_neg notFalse]
  exact if_pos (by decide)

theorem expand_atom (atom : IsAtom goal) : expand rules b goals goal = expand.byRules rules b goals goal := by
  obtain ⟨p, args, rfl, proper, other, -⟩ := atom
  have notTrue : ¬ app p args = .tt := fun same => other ((app.inj same).1 ▸ .tt)
  have notFalse : ¬ app p args = .ff := fun same => other ((app.inj same).1 ▸ .ff)
  have notAnd : ¬ p.isOp "and" = true := fun op => other (proper.eq_and op ▸ .and)
  have notOr : ¬ p.isOp "or" = true := fun op => other (proper.eq_or op ▸ .or)
  rw [expand, if_neg notTrue, if_neg notFalse]
  simp only [if_neg notAnd, if_neg notOr]

include hP

variable (setting : Setting P N ks ts rules) (above : N ≤ n) (good : Good P n b)
include setting above good

theorem meets_of_gives (goals : List Term) (ready : Ready P b.unknowns goal) (mem : k ∈ ks) {cs : List Symbol}
    {r : HornRule} (copy : Copy k cs r) (mine : ∀ c ∈ cs, P (.app c [])) {res : Option Branch}
    (ok : Gives (resolve b goals goal r) n res m) : ∃ ds r' u, Meets P n m k b goal ds r' ∧
      unify (b.unknowns ++ r'.vars) r'.conc goal = .ok u ∧ res = u.map (b.next goals r') := by
  obtain ⟨ds, r', u, copy', drawn, le, unified, result⟩ := resolve_gives hP copy mine (setting.clean k mem) ok
  refine ⟨ds, r', u, ⟨copy', setting.clean k mem, drawn, le, fun d mem' => ?_, good, ready⟩, unified, result⟩
  exact setting.drawn d ⟨n, m, above, drawn d mem'⟩ (k.plain _ (copy'.ranges ▸ mem_map_of_mem mem'))

theorem byRules_gives
    (ready : Ready P b.unknowns goal) {next : List Branch} (ok : Gives (expand.byRules rules b goals goal) n next m) : n ≤ m ∧
      (∀ b' ∈ next, ∃ k ∈ ks, ∃ l l' ds r us τ, n ≤ l ∧ l' ≤ m ∧ Meets P l l' k b goal ds r ∧ Solves P b goal r us τ ∧
        b' = b.next goals r τ) ∧
      ∀ k ∈ ks, ∃ l l' ds r u, n ≤ l ∧ Meets P l l' k b goal ds r ∧ unify (b.unknowns ++ r.vars) r.conc goal = .ok u ∧
        ∀ τ, u = some τ → b.next goals r τ ∈ next := by
  obtain ⟨bs, m', tried, ok⟩ := bind_iff.1 ok
  obtain ⟨rfl, rfl⟩ : next = (bs.filterMap id).reverse ∧ m = m' := by simpa [eq_comm] using pure_iff.1 ok
  have meets {l l' : Nat} (le : n ≤ l) {k : Definite} :=
    meets_of_gives hP setting (above.trans le) (good.mono le) goals (k := k) (m := l') ready
  obtain ⟨le, each⟩ := mapM_gives tried fun r mem l l' res given => by
    obtain ⟨k, mem', cs, copy, mine⟩ := setting.clause r (mem_reverse.1 mem)
    obtain ⟨ds, r', u, copy', drawn, le, -⟩ := resolve_gives hP copy mine (setting.clean k mem') given
    exact le
  refine ⟨le, fun b' mem => ?_, fun k mem' => ?_⟩
  · have hit : some b' ∈ bs := by simpa using mem
    obtain ⟨r, mem', l, l', lo, hi, given⟩ := exists_of_mem_right each hit
    obtain ⟨k, mine, cs, copy, unknown⟩ := setting.clause r (mem_reverse.1 mem')
    obtain ⟨ds, r', u, met, unified, result⟩ := meets lo mine copy unknown given
    obtain ⟨τ, rfl, rfl⟩ := map_eq_some_iff.1 result.symm
    obtain ⟨us, solved⟩ := met.outcome hP unified
    exact ⟨k, mine, l, l', ds, r', us, τ, lo, hi, met, solved, rfl⟩
  · obtain ⟨r, listed, cs, copy, unknown⟩ := setting.rule k mem'
    obtain ⟨res, hit, l, l', lo, hi, given⟩ := exists_of_mem_left each (mem_reverse.2 listed)
    obtain ⟨ds, r', u, met, unified, result⟩ := meets lo mem' copy unknown given
    refine ⟨l, l', ds, r', u, lo, met, unified, ?_⟩
    rintro τ rfl
    simpa [result] using hit

theorem byRules_sends (last : b.goals = goals ++ [goal]) (ready : Ready P b.unknowns goal) {next : List Branch}
    (ok : Gives (expand.byRules rules b goals goal) n next m) (separate : ∀ b' ∈ next, b.Untouched b' goals) :
    Sends.{u} P ks ts n m b next := by
  obtain ⟨le, origin, each⟩ := byRules_gives hP setting above good ready ok
  obtain ⟨waiting, -⟩ := (Branch.forall_goals last).1 good.goals
  refine ⟨le, fun b' mem => ?_, fun b' mem x known => ?_, fun b' mem U I holds true' => ?_, fun ρ covers => ?_⟩
  · obtain ⟨k, -, l, l', ds, r, us, τ, -, hi, met, solved, rfl⟩ := origin b' mem
    exact (met.good_next hP solved waiting (separate _ mem)).mono hi
  · obtain ⟨k, -, l, l', ds, r, us, τ, -, -, met, solved, rfl⟩ := origin b' mem
    exact met.knows solved known
  · obtain ⟨k, mem', l, l', ds, r, us, τ, -, -, met, solved, rfl⟩ := origin b' mem
    obtain ⟨t, text, written⟩ := setting.written k mem'
    obtain ⟨here, vals⟩ := met.sound hP solved written (holds t text) true'.values (true'.goals _ (by simp [Branch.next]))
    exact ⟨vals, (Branch.forall_goals last).2 ⟨fun g mem' => true'.goals g (mem_append_left _ mem'), here⟩⟩
  obtain ⟨derived, first⟩ := (Branch.forall_goals last).1 covers.goals
  obtain ⟨k, mem', us, count, eq, hyp⟩ := first.of_atom (hP.isAtom_replace covers.keys ready.atom)
  obtain ⟨l, l', ds, r, u, lo, met, unified, listed⟩ := each k mem'
  obtain ⟨vs, τ, rfl, solved, ρ', keys, agree, vals, put⟩ := met.complete hP goals covers.keys covers.values count eq unified
  refine ⟨b.next goals r τ, listed τ rfl, ρ', ⟨keys, vals, fun g mem => ?_⟩, fun x mine old => ?_⟩
  · rcases mem_append.1 mem with mem | mem
    · have eq : g.replaceAll ρ' = g.replaceAll ρ :=
        (waiting g mem).congr (hP.descends keys) (hP.descends covers.keys) fun a ready =>
          replace_congr keys covers.keys ready.fits fun y sub mine =>
            agree y mine ((good.old y (.inl (ready.leaves y sub mine))).1.mono lo)
      exact eq ▸ derived g mem
    · rw [mem_singleton.1 mem, put]
      exact hyp
  · exact agree x mine (old.mono lo)

theorem expand_sends (last : b.goals = goals ++ [goal]) {next : List Branch} (ok : Gives (expand rules b goals goal) n next m)
    (separate : ∀ b' ∈ next, b.Untouched b' goals) : Sends.{u} P ks ts n m b next := by
  have goals_iff {A : Term → Prop} := Branch.forall_goals last (A := A)
  obtain ⟨waiting, body⟩ := goals_iff.1 good.goals
  cases body with
  | tt =>
    obtain ⟨rfl, rfl⟩ := pure_iff.1 (expand_tt ▸ ok)
    exact sends_goals good waiting (fun I holds => goals_iff.2 ⟨holds, (eval_app _ _ _ _).trans I.fn_tt⟩)
      fun ρ _ derived => (goals_iff.1 derived).1
  | @and gs each =>
    obtain ⟨rfl, rfl⟩ := pure_iff.1 (expand_and ▸ ok)
    have split {A : Term → Prop} : (∀ g ∈ goals ++ gs.reverse, A g) ↔ (∀ g ∈ goals, A g) ∧ ∀ g ∈ gs, A g := by
      simp [or_imp, forall_and]
    refine sends_goals good (split.2 ⟨waiting, each⟩) (fun I holds => ?_) fun ρ keys derived => ?_
    · exact goals_iff.2 ⟨(split.1 holds).1, eval_and.2 (split.1 holds).2⟩
    · obtain ⟨others, whole⟩ := goals_iff.1 derived
      rw [(hP.descends keys).and, Derived.and_iff, forall_mem_map] at whole
      exact split.2 ⟨others, whole⟩
  | atom ready => exact byRules_sends hP setting above good last ready (expand_atom ready.atom ▸ ok) separate

omit hP setting above good

/-- A step of the search: a branch without goals is an answer, another one is followed. -/
inductive Step (rules : List HornRule) : Nat × List Branch → Nat × List Branch → Prop
  | answer {n : Nat} {b : Branch} {todo : List Branch} : b.goals = [] → Step rules (n, b :: todo) (n, todo)
  | follow {n m : Nat} {b : Branch} {goals : List Term} {goal : Term} {next todo : List Branch} :
      b.goals = goals ++ [goal] → Gives (expand rules b goals goal) n next m → Step rules (n, b :: todo) (m, next ++ todo)

/-- Whenever an unknown gets its value in a search, no goal that waits speaks of it. -/
def Separate (rules : List HornRule) (start : Nat × List Branch) : Prop :=
  ∀ n b todo, Relation.ReflTransGen (Step rules) start (n, b :: todo) → ∀ goals goal next m, b.goals = goals ++ [goal] →
    Gives (expand rules b goals goal) n next m → ∀ b' ∈ next, b.Untouched b' goals

theorem Separate.step {start next : Nat × List Branch} (separate : Separate rules start) (step : Step rules start next) :
    Separate rules next := fun n b todo reached => separate n b todo (.head step reached)

/-- The branch ends in another one. -/
structure Leads (P : Term → Prop) (ts : List Term) (b e : Branch) : Prop where
  good : ∃ m, Good P m e
  ended : e.goals = []
  keeps : ∀ x, b.Knows x → e.Knows x
  sound : ∀ {U : Type u} (I : Interpretation U), (∀ t ∈ ts, I.Holds t) → TrueIn I e → TrueIn I b

def Branch.answer (asked : List Term) (e : Branch) : Answer := ⟨e.unknowns, e.values.filter fun p => asked.contains p.1⟩

/-- What is found: only ends of branches, and, if fewer than wanted are found, one for each derivation. -/
structure Found (P : Term → Prop) (ks : List Definite) (ts asked : List Term) (n limit : Nat) (todo : List Branch)
    (answers : List Answer) : Prop where
  sound : ∀ a ∈ answers, ∃ b ∈ todo, ∃ e, Leads.{u} P ts b e ∧ a = e.answer asked
  complete : answers.length < limit → ∀ b ∈ todo, ∀ ρ, Covers P ks ρ b → ∃ e, Leads.{u} P ts b e ∧ e.answer asked ∈ answers ∧
    ∃ ρ', Covers P ks ρ' e ∧ ∀ x, P x → x.Before n → x.replaceAll ρ' = x.replaceAll ρ

theorem Leads.before {b' : Branch} {next : List Branch} (leads : Leads.{u} P ts b' e) (sends : Sends.{u} P ks ts n m b next)
    (mem : b' ∈ next) : Leads.{u} P ts b e :=
  { leads with
    keeps := fun x known => leads.keeps x (sends.keeps b' mem x known)
    sound := fun I holds true' => sends.sound b' mem I holds (leads.sound I holds true') }

theorem Found.answer {todo : List Branch} {answers : List Answer} (good : Good P n b) (ended : b.goals = [])
    (hit : Found.{u} P ks ts asked n limit todo answers) :
    Found.{u} P ks ts asked n (limit + 1) (b :: todo) (b.answer asked :: answers) := by
  have leads : Leads P ts b b := ⟨⟨n, good⟩, ended, fun _ known => known, fun _ _ true' => true'⟩
  refine ⟨fun a mem => ?_, fun few b' mem ρ covers => ?_⟩
  · rcases mem_cons.1 mem with rfl | mem
    · exact ⟨b, mem_cons_self, b, leads, rfl⟩
    · obtain ⟨b', mem', rest⟩ := hit.sound a mem
      exact ⟨b', mem_cons_of_mem _ mem', rest⟩
  rcases mem_cons.1 mem with rfl | mem
  · exact ⟨b', leads, mem_cons_self, ρ, covers, fun _ _ _ => rfl⟩
  · obtain ⟨e, leads', listed, rest⟩ := hit.complete (Nat.lt_of_succ_lt_succ few) b' mem ρ covers
    exact ⟨e, leads', mem_cons_of_mem _ listed, rest⟩

theorem Found.follow {next todo : List Branch} {answers : List Answer} (sends : Sends.{u} P ks ts n m b next)
    (hit : Found.{u} P ks ts asked m limit (next ++ todo) answers) : Found.{u} P ks ts asked n limit (b :: todo) answers := by
  refine ⟨fun a mem => ?_, fun few b' mem ρ covers => ?_⟩
  · obtain ⟨b', mem', e, leads, eq⟩ := hit.sound a mem
    rcases mem_append.1 mem' with mem' | mem'
    · exact ⟨b, mem_cons_self, e, leads.before sends mem', eq⟩
    · exact ⟨b', mem_cons_of_mem _ mem', e, leads, eq⟩
  rcases mem_cons.1 mem with rfl | mem
  · obtain ⟨b'', mem', ρ', covers', agree⟩ := sends.complete ρ covers
    obtain ⟨e, leads, listed, ρ'', covers'', agree'⟩ := hit.complete few b'' (mem_append_left _ mem') ρ' covers'
    refine ⟨e, leads.before sends mem', listed, ρ'', covers'', fun x mine old => ?_⟩
    rw [agree' x mine (old.mono sends.le), agree x mine old]
  · obtain ⟨e, leads, listed, ρ', covers', agree⟩ := hit.complete few b' (mem_append_right _ mem) ρ covers
    exact ⟨e, leads, listed, ρ', covers', fun x mine old => agree x mine (old.mono sends.le)⟩

include hP

/-- Step by step: an answer comes from a branch that is already there, and what a branch covers some branch after it covers. -/
theorem search_found (setting : Setting P N ks ts rules) : ∀ {limit n m : Nat}
    {todo : List Branch} {answers : List Answer}, N ≤ n → (∀ b ∈ todo, Good P n b) → Separate rules (n, todo) →
      Gives (search rules asked fuel limit todo) n answers m → Found.{u} P ks ts asked n limit todo answers := by
  induction fuel with
  | zero =>
    intro limit n m todo answers _ _ _ ok
    cases ok
  | succ _ ih =>
    intro limit n m todo answers above good separate ok
    cases todo with
    | nil => exact ⟨fun a mem => by simp_all [search], by simp⟩
    | cons b todo =>
      cases limit with
      | zero =>
        cases ok
        exact ⟨by simp, fun few => absurd few (by simp)⟩
      | succ =>
        have waiting : ∀ b' ∈ todo, Good P n b' := fun b' mem => good b' (mem_cons_of_mem _ mem)
        rw [search] at ok
        cases last : b.goals.getLast? with
        | none =>
          have ended : b.goals = [] := getLast?_eq_none_iff.1 last
          rw [last] at ok
          obtain ⟨rest, _, others, ok⟩ := bind_iff.1 ok
          cases ok
          exact (ih above waiting (separate.step (.answer ended)) others).answer (good b mem_cons_self) ended
        | some goal =>
          have stack : b.goals = b.goals.dropLast ++ [goal] := (dropLast_append_getLast? goal last).symm
          rw [last] at ok
          obtain ⟨next, l, expanded, rest⟩ := bind_iff.1 ok
          have sends := expand_sends hP setting above (good b mem_cons_self) stack expanded
            (separate n b todo .refl _ goal next l stack expanded)
          refine (ih (above.trans sends.le) (fun b' mem => ?_) (separate.step (.follow stack expanded)) rest).follow sends
          rcases mem_append.1 mem with new | old
          · exact sends.good b' new
          · exact (waiting b' old).mono sends.le

/-! ### Linear programs -/

omit hP

def Single (t : Term) : Prop := t = .tt ∨ IsAtom t

theorem Body.of_atom (body : Body A t) (atom : IsAtom t) : A t := by
  obtain ⟨p, args, rfl, -, other, -⟩ := atom
  generalize shape : app p args = t at body
  cases body with
  | tt => cases shape; exact (other .tt).elim
  | atom h => exact h
  | and => cases shape; exact (other .and).elim

/-- No goal waits. -/
structure Branch.Linear (b : Branch) : Prop where
  length : b.goals.length ≤ 1
  single : ∀ g ∈ b.goals, Single g

theorem Branch.Linear.nil_of_last (linear : b.Linear) (last : b.goals = goals ++ [goal]) : goals = [] := by
  simpa [last] using linear.length

include hP

theorem expand_linear (setting : Setting P N ks ts rules) (hyps : ∀ k ∈ ks, Single k.hyp) (above : N ≤ n) (good : Good P n b)
    (linear : b.Linear) (last : b.goals = goals ++ [goal]) {next : List Branch}
    (ok : Gives (expand rules b goals goal) n next m) : ∀ b' ∈ next, b'.Linear := by
  obtain rfl := linear.nil_of_last last
  intro b' mem
  have mem' : goal ∈ b.goals := by simp [last]
  rcases linear.single goal mem' with rfl | atom
  · obtain ⟨rfl, rfl⟩ := pure_iff.1 (expand_tt ▸ ok)
    obtain rfl := mem_singleton.1 mem
    exact ⟨by simp, by simp⟩
  have ready := (good.goals goal mem').of_atom atom
  obtain ⟨-, origin, -⟩ := byRules_gives hP setting above good ready (expand_atom atom ▸ ok)
  obtain ⟨k, listed, l, l', ds, r, us, τ, -, -, met, solved, rfl⟩ := origin b' mem
  refine ⟨by simp [Branch.next], fun g mem' => ?_⟩
  obtain rfl := mem_singleton.1 mem'
  rw [met.copy.hyp]
  rcases hyps k listed with fact | atom
  · rw [fact, (descends_instantiate _).tt, (hP.descends solved.keys).tt]
    exact .inl rfl
  · exact .inr (hP.isAtom_replace solved.keys (Derived.isAtom_instantiate _ atom))

theorem separate_of_linear (setting : Setting P N ks ts rules) (hyps : ∀ k ∈ ks, Single k.hyp) (good : Good P N b)
    (linear : b.Linear) : Separate rules (N, [b]) := by
  have invariant {s : Nat × List Branch} (reached : Relation.ReflTransGen (Step rules) (N, [b]) s) :
      N ≤ s.1 ∧ ∀ b' ∈ s.2, Good P s.1 b' ∧ b'.Linear := by
    induction reached with
    | refl => exact ⟨Nat.le_refl N, by simpa using ⟨good, linear⟩⟩
    | tail _ step ih =>
      obtain ⟨above, each⟩ := ih
      cases step with
      | answer => exact ⟨above, fun b' mem => each b' (mem_cons_of_mem _ mem)⟩
      | @follow _ _ b₀ _ _ _ _ last ok =>
        obtain ⟨good₀, linear₀⟩ := each b₀ mem_cons_self
        have sends := expand_sends.{0} hP setting above good₀ last ok fun b' _ => by
          simp [Branch.Untouched, linear₀.nil_of_last last]
        refine ⟨above.trans sends.le, fun b' mem => ?_⟩
        rcases mem_append.1 mem with new | old
        · exact ⟨sends.good b' new, expand_linear hP setting hyps above good₀ linear₀ last ok b' new⟩
        · obtain ⟨good', linear'⟩ := each b' (mem_cons_of_mem _ old)
          exact ⟨good'.mono sends.le, linear'⟩
  intro n b₀ todo reached goals goal next m last _ b' _
  simp [Branch.Untouched, ((invariant reached).2 b₀ mem_cons_self).2.nil_of_last last]

end Search

/-! ## Answers -/

def Follows (ts : List Term) (t : Term) : Prop :=
  ∀ (U : Type u) (I : Interpretation U), (∀ p ∈ ts, I.Holds p) → I.Holds t

/-- Clauses, constants that they do not mention, and what is to be true of these, all older than what the supply makes from `n`
on. -/
structure Question (n : Nat) (ks : List Definite) (clauses vars goals : List Term) : Prop where
  written : List.Forall₂ Definite.Written ks clauses
  asked : ∀ x ∈ vars, ∃ c : Symbol, x = .app c [] ∧ (c.isFree = true ∧ c.domain = [] ∧ c.range.Plain) ∧
    ∀ t ∈ clauses, ¬ t.Mentions c
  wanted : ∀ g ∈ goals, Body (Atom []) g
  clausesOld : ∀ t ∈ clauses, t.Before n
  askedOld : ∀ x ∈ vars, x.Before n
  wantedOld : ∀ g ∈ goals, g.Before n

/-- What may get a value: the constants that are asked for, and those that are drawn. -/
def Unknown (n : Nat) (vars : List Term) (x : Term) : Prop :=
  x.isVar = true ∨ x ∈ vars ∨ ∃ c : Symbol, x = .app c [] ∧ (∃ lo hi, n ≤ lo ∧ c.Drawn lo hi) ∧ c.range.Plain

theorem mentions_of_mem_subterms (sub : .app c [] ∈ t.subterms false) : t.Mentions c := by
  induction t with
  | var => simp [subterms] at sub
  | app _ _ ih =>
    rw [mentions_app]
    rcases mem_subterms_app.1 sub with eq | ⟨a, mem, sub⟩
    · exact .inl (app.inj eq).1.symm
    · exact .inr ⟨a, mem, ih a mem sub⟩
  | bind => simp [subterms] at sub

theorem isVar_of_firstOrder (h : t.FirstOrder []) : ∀ y ∈ t.subterms false, y.isVar = false := by
  induction t with
  | var _ s => cases h
  | app _ _ ih =>
    intro y sub
    rcases mem_subterms_app.1 sub with rfl | ⟨a, mem, sub⟩
    · rfl
    · exact ih a mem ((firstOrder_app.1 h).2.2 a mem) y sub
  | bind => exact h.elim

theorem eval_mem_of_exact {F : Frame U} (fits : t.Exact) (const : ∀ y ∈ t.subterms false, y.isVar = false) :
    F.eval [] t ∈ F.carrier t.sort := by
  induction t with
  | var => exact absurd (const _ (self_mem_subterms _ _)) (by simp [Term.isVar])
  | app f args ih =>
    obtain ⟨sorts, args'⟩ := exact_app.1 fits
    have arity : f.arity = args.length := by rw [Symbol.arity, ← sorts, length_map]
    rw [eval_app]
    refine F.fn_mem f _ ?_
    rw [length_map, Term.placesOf, if_pos arity, ← sorts]
    exact F.fits_map.2 fun a mem => ih a mem (args' a mem) fun y sub => const y (mem_subterms_arg mem sub)
  | bind => exact fits.elim

theorem Good.exists_valued (hP : Unknowns P) (good : Good P m e) (I : Interpretation U) :
    ∃ J : Interpretation U, (∀ t, (∀ c, P (.app c []) → ¬ t.Mentions c) → I.Holds t → J.Holds t) ∧
      (∀ p ∈ e.values, J.eval [] p.1 = J.eval [] p.2) ∧ ∀ t, J.Holds t → I.Holds (t.replaceAll e.values) := by
  have const {x : Term} (known : e.Knows x) : x.isVar = false := (good.old x known).2
  obtain ⟨cs, keys⟩ : ∃ cs : List Symbol, cs.map (.app · []) = e.values.map fst := by
    suffices h : e.values.map fst ∈ Set.range (map (.app · [])) from h
    rw [Set.range_list_map]
    intro x mem
    obtain ⟨p, mem', rfl⟩ := mem_map.1 mem
    obtain ⟨c, eq⟩ := hP.exists_const (good.solving.values p mem').1.1 (const (.inr mem))
    exact ⟨c, eq.symm⟩
  have mine : ∀ c ∈ cs, P (.app c []) := by
    intro c mem
    have key : .app c [] ∈ e.values.map fst := keys ▸ mem_map_of_mem mem
    obtain ⟨p, mem', eq⟩ := mem_map.1 key
    exact eq ▸ (good.solving.values p mem').1.1
  have free : ∀ c ∈ cs, c.isFree = true := fun c mem => (hP.free c (mine c mem)).1
  have nodup : cs.Nodup := .of_map (app · []) (keys ▸ good.solving.nodup)
  have fits : I.Fits (e.values.map fun p => I.eval [] p.2) (cs.map Symbol.range) := by
    have ranges : cs.map Symbol.range = e.values.map fun p => p.1.sort := by
      have := congrArg (map Term.sort) keys
      rw [map_map, map_map] at this
      exact this
    rw [ranges]
    refine I.fits_map.2 fun p mem => ?_
    obtain ⟨-, within, sorts⟩ := good.solving.values p mem
    exact sorts ▸ eval_mem_of_exact within.fits (hP.not_isVar within fun x mem' => const (.inl mem'))
  obtain ⟨J, agree, eq, vals⟩ := I.exists_assigned nodup free fits
  have valued : ∀ p ∈ e.values, I.eval [] p.2 = J.eval [] p.1 := by
    have : (e.values.map fst).map (J.eval []) = e.values.map fun p => I.eval [] p.2 := by
      rw [← keys, map_map]
      exact vals
    rw [map_map] at this
    exact fun p mem => (map_inj_left.1 this p mem).symm
  have put (t : Term) : I.eval [] (t.replaceAll e.values) = J.eval [] t := by
    refine eval_replaceAll_of_agree agree free (exchange_of hP good.solving fun x known => const known)
      (fun hit => valued _ (lookupLast_mem hit)) fun c mem => ⟨?_, eq c⟩
    rw [lookupLast_eq_get? good.solving.nodup, Ne, get?_eq_none, ← keys]
    exact fun absent => absent (mem_map_of_mem mem)
  refine ⟨J, fun t outside holds => ?_, fun p mem => ?_, fun t holds => ?_⟩
  · have kept := agree.eval free (ρ := []) fun c mem' changed => outside c (mine c changed) mem'
    exact kept.symm.trans (holds.trans agree.yes)
  · have unchanged : p.2.replaceAll e.values = p.1.replaceAll e.values := (good.solving.sat_self hP.leaf p mem).symm
    rw [← put, ← put, unchanged]
  · exact (put t).trans (holds.trans agree.yes.symm)

namespace Question
variable (question : Question n ks clauses vars goals)
include question

theorem unknowns : Unknowns (Unknown n vars) where
  leaf := by
    rintro x (isVar | mem | ⟨c, rfl, -⟩)
    · cases x with
      | var i s => exact .var i s
      | app => cases isVar
      | bind => cases isVar
    · obtain ⟨c, rfl, -⟩ := question.asked x mem
      exact .const c
    · exact .const c
  free := by
    rintro c (isVar | mem | ⟨d, eq, ⟨lo, hi, -, drawn⟩, plain⟩)
    · cases isVar
    · obtain ⟨d, eq, kind, -⟩ := question.asked _ mem
      obtain rfl := (app.inj eq).1
      exact kind
    · obtain rfl := (app.inj eq).1
      obtain ⟨hint, k, s, -, -, rfl⟩ := drawn
      exact ⟨rfl, rfl, plain⟩
  var i s := .inl rfl

theorem avoids (mem : t ∈ clauses) (mine : Unknown n vars (.app c [])) : ¬ t.Mentions c := by
  rcases mine with isVar | asked | ⟨d, eq, ⟨lo, hi, le, drawn⟩, -⟩
  · cases isVar
  · obtain ⟨d, eq, -, outside⟩ := question.asked _ asked
    obtain rfl := (app.inj eq).1
    exact outside t mem
  · obtain rfl := (app.inj eq).1
    exact fun mem' => (question.clausesOld t mem).not_drawn mem' (drawn.mono le (Nat.le_refl hi))

theorem clean (mem : t ∈ clauses) (written : k.Written t) : k.Clean (Unknown n vars) := by
  have parts : (∀ c, k.conc.Mentions c → t.Mentions c) ∧ (k.hyp = .tt ∨ ∀ c, k.hyp.Mentions c → t.Mentions c) := by
    have matrix (t : Term) (m : k.Matrix t) :
        (∀ c, k.conc.Mentions c → t.Mentions c) ∧ (k.hyp = .tt ∨ ∀ c, k.hyp.Mentions c → t.Mentions c) := by
      rcases m with ⟨fact, rfl⟩ | rfl
      · exact ⟨fun _ mem' => mem', .inl fact⟩
      · exact ⟨fun c mem' => mentions_app.2 (.inr ⟨_, by simp, mem'⟩),
          .inr fun c mem' => mentions_app.2 (.inr ⟨_, mem_cons_self, mem'⟩)⟩
    cases written with
    | closed _ m => exact matrix t m
    | @bound _ t _ m => exact matrix t m
  have outside {u : Term} (mem' : ∀ c, u.Mentions c → t.Mentions c) :
      ∀ y ∈ u.subterms false, Unknown n vars y → y.isVar = true := by
    intro y sub mine
    cases question.unknowns.leaf y mine with
    | var => rfl
    | const c => exact absurd (mem' c (mentions_of_mem_subterms sub)) (question.avoids mem mine)
  refine ⟨?_, ⟨k.atom, outside parts.1⟩⟩
  rcases parts.2 with fact | mem'
  · exact fact ▸ .tt
  · exact k.body.imp_of_sub fun a atom sub => ⟨atom, fun y inner => outside mem' y (sub y inner)⟩

theorem setting {rules : List HornRule} (read : Gives (clauses.reverse.mapM fun t => HornRule.ofTerm t none) n rules m) :
    n ≤ m ∧ Setting (Unknown n vars) m ks clauses rules.reverse := by
  have clause {t : Term} (mem : t ∈ clauses.reverse) : ∃ k ∈ ks, k.Written t :=
    exists_of_mem_right question.written (mem_reverse.1 mem)
  have drawn (c : Symbol) (fresh : ∃ lo hi, n ≤ lo ∧ c.Drawn lo hi) (plain : c.range.Plain) : Unknown n vars (.app c []) :=
    .inr (.inr ⟨c, rfl, fresh, plain⟩)
  obtain ⟨le, each⟩ := mapM_gives read fun t mem l l' r given => by
    obtain ⟨k, -, written⟩ := clause mem
    exact (ofTerm_gives written given).choose_spec.2.2
  have copy {k : Definite} {t : Term} {r : HornRule} (written : k.Written t)
      (given : ∃ l l', n ≤ l ∧ l' ≤ m ∧ Gives (HornRule.ofTerm t none) l r l') :
      ∃ cs, Copy k cs r ∧ ∀ c ∈ cs, Unknown n vars (.app c []) := by
    obtain ⟨l, l', lo, -, ok⟩ := given
    obtain ⟨cs, copy, fresh, -⟩ := ofTerm_gives written ok
    exact ⟨cs, copy, fun c mem =>
      drawn c ⟨l, l', lo, fresh c mem⟩ (k.plain _ (copy.ranges ▸ mem_map_of_mem mem))⟩
  refine ⟨le, fun k mem => ?_, fun k mem => ?_, fun k mem => ?_, fun r mem => ?_, fun c fresh plain => ?_⟩
  · exact exists_of_mem_left question.written mem
  · obtain ⟨t, mem', written⟩ := exists_of_mem_left question.written mem
    exact question.clean mem' written
  · obtain ⟨t, mem', written⟩ := exists_of_mem_left question.written mem
    obtain ⟨r, listed, given⟩ := exists_of_mem_left each (mem_reverse.2 mem')
    exact ⟨r, mem_reverse.2 listed, copy written given⟩
  · obtain ⟨t, mem', given⟩ := exists_of_mem_right each (mem_reverse.1 mem)
    obtain ⟨k, listed, written⟩ := clause mem'
    exact ⟨k, listed, copy written given⟩
  · obtain ⟨lo, hi, above, made⟩ := fresh
    exact drawn c ⟨lo, hi, le.trans above, made⟩ plain

theorem ready (mem : g ∈ goals) : Body (Ready (Unknown n vars) vars) g := by
  refine (question.wanted g mem).imp_of_sub fun a atom sub => ⟨⟨atom.firstOrder.exact, fun y inside mine => ?_⟩, atom.atom⟩
  rcases mine with isVar | asked | ⟨c, rfl, ⟨lo, hi, le, drawn⟩, -⟩
  · exact absurd isVar (by simp [isVar_of_firstOrder atom.firstOrder y inside])
  · exact asked
  · have mentioned := mentions_of_mem_subterms (sub _ inside)
    exact absurd (drawn.mono le (Nat.le_refl hi)) ((question.wantedOld g mem).not_drawn mentioned)

theorem good : Good (Unknown n vars) n ⟨vars, goals, []⟩ where
  goals _ := question.ready
  solving := ⟨fun x mem => .inr (.inl mem), by simp, by simp, nodup_nil⟩
  old := by
    rintro x (mem | none)
    · obtain ⟨c, rfl, -⟩ := question.asked x mem
      exact ⟨question.askedOld _ mem, rfl⟩
    · cases none

end Question

theorem replace_unknown {y : Term} (leaf : y.Leaf) (mem : y ∈ xs) : y.replaceAll (xs.map fun x => (x, f x)) = f y := by
  rw [leaf.replaceAll]
  cases hit : lookupLast (xs.map fun x => (x, f x)) y with
  | some =>
    obtain ⟨x, -, eq⟩ := mem_map.1 (lookupLast_mem hit)
    obtain ⟨rfl, rfl⟩ := Prod.mk.inj eq
    rfl
  | none => exact absurd hit (lookupLast_ne_none (mem_map_of_mem mem))

theorem answer_replace (hP : Unknowns P) (good : Good P m e) (ready : Body (Ready P vars) g) :
    g.replaceAll (e.answer vars).values = g.replaceAll e.values := by
  have keys : Keys P (e.answer vars).values := fun p mem => good.solving.keys p (mem_filter.1 mem).1
  have nodup : ((e.answer vars).values.map fst).Nodup := good.solving.nodup.sublist (filter_sublist.map _)
  refine ready.congr (hP.descends keys) (hP.descends good.solving.keys) fun a h => ?_
  refine replace_congr keys good.solving.keys h.fits fun y sub mine => ?_
  have asked := h.leaves y sub mine
  rw [(hP.leaf y mine).replaceAll, (hP.leaf y mine).replaceAll, lookupLast_eq_get? nodup, lookupLast_eq_get? good.solving.nodup]
  cases hit : Substitution.get? e.values y with
  | some u =>
    have kept : (y, u) ∈ (e.answer vars).values := mem_filter.2 ⟨mem_of_get? hit, by simpa using asked⟩
    rw [get?_of_mem nodup kept]
  | none =>
    have absent : y ∉ (e.answer vars).values.map fst := fun mem =>
      get?_eq_none.1 hit ((filter_sublist.map _).subset mem)
    rw [get?_eq_none.2 absent]

theorem Question.derived (question : Question n ks clauses vars goals)
    (vals : ∀ p ∈ θ, p.1 ∈ vars ∧ p.2.FirstOrder [] ∧ p.1.sort = p.2.sort) (mem : g ∈ goals)
    (follows : Follows.{0} clauses (g.replaceAll θ)) : Derived ks (g.replaceAll θ) := by
  have keys : Keys (Unknown n vars) θ := fun p mem' => .inr (.inl (vals p mem').1)
  have body : Body (Atom []) (g.replaceAll θ) := (question.wanted g mem).map (question.unknowns.descends keys) fun a atom =>
    ⟨atom.firstOrder.replace fun p mem' => (vals p mem').2, question.unknowns.isAtom_replace keys atom.atom⟩
  have holds := follows _ (herbrand (Derived ks)) fun t mem' => by
    obtain ⟨k, listed, written⟩ := exists_of_mem_right question.written mem'
    exact herbrand_holds listed written
  have none : ([] : List (Standard.Universe fun _ => Term)).map (·.sort) = [] := rfl
  have derived := (holds_iff_derived ks none (by simp) body).1 holds
  rwa [map_nil, instantiate, instantiateAt_nil] at derived

/-- The answers of a search that ends, after whatever number of steps, are right, and there is one for each consequence. -/
theorem answers_exact {fuel n n' limit : Nat} {ks : List Definite} {clauses vars goals : List Term} {answers : List Answer}
    (question : Question n ks clauses vars goals) (done : Gives (solve fuel vars goals clauses limit) n answers n')
    (separate : ∀ rules m, Gives (clauses.reverse.mapM fun t => HornRule.ofTerm t none) n rules m →
      Separate rules.reverse (m, [⟨vars, goals, []⟩])) :
    (∀ a ∈ answers, ∀ g ∈ goals, Follows.{u} clauses (g.replaceAll a.values)) ∧
    (answers.length < limit → ∀ θ : Substitution, (∀ p ∈ θ, p.1 ∈ vars ∧ p.2.FirstOrder [] ∧ p.1.sort = p.2.sort) →
      (∀ g ∈ goals, Follows.{0} clauses (g.replaceAll θ)) → ∃ a ∈ answers, ∃ ρ : Substitution, (∀ p ∈ ρ, p.1 ∈ a.unknowns) ∧
          ∀ g ∈ goals, (g.replaceAll a.values).replaceAll ρ = g.replaceAll θ) := by
  have hP := question.unknowns
  obtain ⟨rules, m, read, searched⟩ := bind_iff.1 done
  obtain ⟨le, setting⟩ := question.setting read
  have good : ∀ b ∈ [(⟨vars, goals, []⟩ : Branch)], Good (Unknown n vars) m b := by
    simpa using question.good.mono le
  have found := search_found.{u} hP setting (Nat.le_refl m) good (separate rules m read) searched
  refine ⟨fun a mem g wanted U I holds => ?_, fun few θ values follow => ?_⟩
  · obtain ⟨b, start, e, leads, rfl⟩ := found.sound a mem
    obtain rfl := mem_singleton.1 start
    obtain ⟨m', good'⟩ := leads.good
    obtain ⟨J, same, valued, put⟩ := good'.exists_valued hP I
    have holds' : ∀ t ∈ clauses, J.Holds t := fun t inside =>
      same t (fun c mine => question.avoids inside mine) (holds t inside)
    have true' := leads.sound J holds' ⟨valued, by simp [leads.ended]⟩
    rw [answer_replace hP good' (question.ready wanted)]
    exact put g (true'.goals g wanted)
  · have covers : Covers (Unknown n vars) ks θ ⟨vars, goals, []⟩ :=
      ⟨fun p inside => .inr (.inl (values p inside).1), by simp [Sat], fun g mem => question.derived values mem (follow g mem)⟩
    obtain ⟨e, leads, listed, ρ', covers', agree⟩ := found.complete few _ (mem_singleton_self _) θ covers
    obtain ⟨m', good'⟩ := leads.good
    let ρ : Substitution := e.unknowns.map fun x => (x, x.replaceAll ρ')
    have keys : Keys (Unknown n vars) ρ := by
      intro p mem
      obtain ⟨x, inside, rfl⟩ := mem_map.1 mem
      exact good'.solving.unknowns x inside
    refine ⟨_, listed, ρ, fun p mem => ?_, fun g wanted => ?_⟩
    · obtain ⟨x, inside, rfl⟩ := mem_map.1 mem
      exact inside
    · rw [answer_replace hP good' (question.ready wanted)]
      refine (question.ready wanted).congr ((hP.descends keys).comp (hP.descends good'.solving.keys))
        (hP.descends covers.keys)
        fun a ready => ?_
      have within := good'.solving.within_replace hP.leaf ready.toWithin fun x mem => leads.keeps x (.inl mem)
      calc (a.replaceAll e.values).replaceAll ρ
          = (a.replaceAll e.values).replaceAll ρ' := replace_congr keys covers'.keys within.fits fun y sub mine =>
            replace_unknown (hP.leaf y mine) (within.leaves y sub mine)
        _ = a.replaceAll ρ' := good'.solving.replace_of_sat hP.leaf covers'.keys covers'.values ready.fits
        _ = a.replaceAll θ := replace_congr covers'.keys covers.keys ready.fits fun y sub mine =>
            agree y mine ((question.askedOld y (ready.leaves y sub mine)).mono le)

namespace Sample

def thing : Srt := .uninterpreted "T"

def a : Term := .app (.const "a" thing) []

def x : Term := .app (.const "X" thing) []

def one (p : String) (t : Term) : Term := .app ⟨p, [thing], .bool, .free⟩ [t]

theorem atom_one (p : String) (h : t.FirstOrder Γ) (sort : t.sort = thing) : Atom Γ (one p t) := by
  have proper := Symbol.proper_of_isFree (f := ⟨p, [thing], .bool, .free⟩) rfl
  have other : ¬ Symbol.Logical ⟨p, [thing], .bool, .free⟩ := fun logical => Bool.noConfusion logical.isFree_eq_false
  refine ⟨firstOrder_app.2 ⟨⟨proper, other, ?_⟩, by simp [sort], by simpa using h⟩, _, _, rfl, proper, other, rfl⟩
  simp [thing, Srt.Plain]

theorem firstOrder_const (c : String) : (app (.const c thing) []).FirstOrder Γ :=
  have other : ¬ (const c thing).Logical := fun logical => Bool.noConfusion logical.isFree_eq_false
  firstOrder_app.2 ⟨⟨Symbol.proper_of_isFree rfl, other, by simp [const]⟩, rfl, by simp⟩

def fact (p : String) : Definite where
  sorts := []
  hyp := .tt
  conc := one p a
  plain := by simp
  body := .tt
  atom := atom_one p (firstOrder_const "a") rfl

def rule : Definite where
  sorts := [thing]
  hyp := one "p" (.var 0 thing)
  conc := one "q" (.var 0 thing)
  plain := by simp [thing, Srt.Plain]
  body := .atom (atom_one "p" rfl rfl)
  atom := atom_one "q" rfl rfl

def program : List Term :=
  [one "p" a, .bind .forall [("x", thing)] (.app .implies [one "p" (.var 0 thing), one "q" (.var 0 thing)])]

theorem question : Question 0 [fact "p", rule] program [x] [one "q" x] where
  written := .cons (.closed rfl (.inl ⟨rfl, rfl⟩)) (.cons (.bound rfl (.inr rfl)) .nil)
  asked := by
    simp only [mem_singleton, forall_eq]
    refine ⟨_, rfl, ⟨rfl, rfl, trivial⟩, ?_⟩
    simp [program, one, a, Mentions, MentionsIn, const, Symbol.implies, Symbol.builtin]
  wanted := by simpa using .atom (atom_one "q" (firstOrder_const "X") rfl)
  clausesOld := by simp [program, one, a, Before, Mentions, MentionsIn, const, Symbol.supply, Symbol.implies, Symbol.builtin]
  askedOld := by simp [x, Before, Mentions, MentionsIn, const, Symbol.supply]
  wantedOld := by simp [x, one, Before, Mentions, MentionsIn, const, Symbol.supply]

/-- Of one thing only the program says that it is `q`. -/
theorem linear_answered : Gives (solve 9 [x] [one "q" x] program 5) 0 [⟨[], [(x, a)]⟩] 3 ∧
    Follows.{0} program (one "q" a) ∧ ∀ t : Term, t.FirstOrder [] → t.sort = thing → Follows.{0} program (one "q" t) → t = a := by
  have done : Gives (solve 9 [x] [one "q" x] program 5) 0 [⟨[], [(x, a)]⟩] 3 := by
    unfold Gives
    cbv
  have replaced (t : Term) : (one "q" x).replaceAll [(x, t)] = one "q" t := by
    simp [one, x, replaceAll, Term.replacesAll, lookupLast]
  obtain ⟨sound, complete⟩ := answers_exact.{0} question done fun rules m read => by
    obtain ⟨le, setting⟩ := question.setting read
    refine separate_of_linear question.unknowns setting ?_ (question.good.mono le) ⟨by simp, ?_⟩
    · simpa using ⟨.inl rfl, .inr (atom_one "p" (Γ := [thing]) (t := .var 0 thing) rfl rfl).atom⟩
    · intro g mem
      rw [mem_singleton.1 mem]
      exact .inr (atom_one "q" (firstOrder_const "X" (Γ := [])) rfl).atom
  refine ⟨done, ?_, fun t first sort follows => ?_⟩
  · exact replaced a ▸ sound _ (mem_singleton_self _) _ (mem_singleton_self _)
  · obtain ⟨_, found, ρ, keys, same⟩ := complete (by decide) [(x, t)] (by simpa using ⟨first, sort.symm⟩)
      (by simpa only [mem_singleton, forall_eq, replaced] using follows)
    obtain rfl := mem_singleton.1 found
    obtain rfl : ρ = [] := eq_nil_iff_forall_not_mem.2 fun p mem => by simpa using keys p mem
    have equal := same _ (mem_singleton_self _)
    have fits : (one "q" a).Exact := (fact "q").atom.firstOrder.exact
    rw [replaced, replaced, replace_nil fits] at equal
    exact (cons.inj (app.inj equal).2).1.symm

/-- Both goals follow for the one value of the unknown; the search finds nothing. -/
theorem sharedUnknown_lost : Gives (solve 9 [x] [one "p" x, one "q" x] [one "p" a, one "q" a] 5) 0 [] 0 ∧
    ∀ g ∈ [one "p" x, one "q" x], Follows.{0} [one "p" a, one "q" a] (g.replaceAll [(x, a)]) := by
  have replaced (p : String) : (one p x).replaceAll [(x, a)] = one p a := by
    simp [one, x, replaceAll, Term.replacesAll, lookupLast]
  refine ⟨?_, ?_⟩
  · unfold Gives
    cbv
  · simp only [forall_mem_cons, replaced]
    exact ⟨fun U I holds => holds _ (by simp), fun U I holds => holds _ (by simp), by simp⟩

end Sample
end Horn
end SortedLogic

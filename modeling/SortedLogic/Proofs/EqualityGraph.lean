import SortedLogic.EGraph
import SortedLogic.Proofs.StandardModel
import SortedLogic.Proofs.Supply
import Mathlib.Data.List.Induction

/-!
# What the classes of an equality graph mean

A root gets another root as its parent (`Forest`), so each class has one root (`Partition`), and every parent is equal to its
child by the equations said so far (`Coherent`). Rebuilding looks at every pair of roots of one sort. After it, two added terms
of one sort are in one class exactly if the equations make them equal.

Across sorts this fails: a number that is joined through a real number stays among the roots (`mixedSorts_kept`).
-/

namespace SortedLogic
open Term
open List
universe u
variable {t u b : Term} {plain : Srt → Prop} {g g' g₀ : EGraph} {New : Term → Prop} {args ts vs : List Term}
  {p : Srt × List Term} {α : Type} {as xs : List α} {I : EGraph → Prop} {U : Type u} {Model : Frame U → Prop}

namespace Term

mutual
/-- No variable, no binder, and only terms of the sorts given. -/
def Applicative (plain : Srt → Prop) : Term → Prop
  | .app f args => plain f.range ∧ ApplicativeAll plain args
  | _ => False

def ApplicativeAll (plain : Srt → Prop) : List Term → Prop
  | [] => True
  | t :: ts => t.Applicative plain ∧ ApplicativeAll plain ts
end

theorem applicative_app {f : Symbol} : (app f args).Applicative plain ↔ plain f.range ∧ ∀ a ∈ args, a.Applicative plain := by
  rw [Applicative]
  induction args with
  | nil => simp [ApplicativeAll]
  | cons _ _ ih => simp_all [ApplicativeAll]

/-- Quantifier-free, with sorts that fit together and are all plain. -/
structure Elementary (plain : Srt → Prop) (t : Term) : Prop where
  applicative : t.Applicative plain
  sorted : t.Sorted true []

theorem elementary_app {f : Symbol} : (app f args).Elementary plain ↔
    plain f.range ∧ f.Proper ∧ args.map sort = placesOf f args.length ∧ ∀ a ∈ args, a.Elementary plain := by
  constructor
  · rintro ⟨applicative, sorted⟩
    obtain ⟨proper, places, sorted⟩ := sorted_app.1 sorted
    obtain ⟨range, applicative⟩ := applicative_app.1 applicative
    exact ⟨range, proper, places, fun a mem => ⟨applicative a mem, sorted a mem⟩⟩
  · rintro ⟨range, proper, places, args⟩
    exact ⟨applicative_app.2 ⟨range, fun a mem => (args a mem).applicative⟩,
      sorted_app.2 ⟨proper, places, fun a mem => (args a mem).sorted⟩⟩

theorem Elementary.sort (elem : t.Elementary plain) : plain t.sort := by
  cases t with
  | var => exact elem.applicative.elim
  | bind => exact elem.applicative.elim
  | app => exact (elementary_app.1 elem).1

theorem Elementary.mono {plain' : Srt → Prop} (more : ∀ s, plain s → plain' s) (elem : t.Elementary plain) :
    t.Elementary plain' := by
  induction t with
  | var => exact elem.applicative.elim
  | bind => exact elem.applicative.elim
  | app f args ih =>
    obtain ⟨range, proper, places, parts⟩ := elementary_app.1 elem
    exact elementary_app.2 ⟨more _ range, proper, places, fun a mem => ih a mem (parts a mem)⟩

/-- Quantifier-free, of whatever sorts. -/
abbrev QuantifierFree : Term → Prop := Elementary fun _ => True

theorem quantifierFree_eq {s : Srt} {a : Term} (ha : a.Elementary plain) (hb : b.Elementary plain) (sa : a.sort = s)
    (sb : b.sort = s) : (app (.eq s) [a, b]).QuantifierFree := by
  have free {t : Term} (elem : t.Elementary plain) : t.QuantifierFree := elem.mono fun _ _ => trivial
  exact ⟨applicative_app.2 ⟨trivial, by simpa using ⟨(free ha).applicative, (free hb).applicative⟩⟩,
    sorted_eq.2 ⟨⟨sa, sb⟩, ha.sorted, hb.sorted⟩⟩

end Term

namespace EGraph

/-! ## Parents -/

/-- Parents as they come about: a root gets another root as its parent. -/
inductive Forest : List (Term × Term) → Prop
  | empty : Forest []
  | join {ps : List (Term × Term)} {a b : Term} :
      Forest ps → parent? ps a = none → parent? ps b = none → a ≠ b → Forest (ps ++ [(a, b)])

section Parents
variable {ps : List (Term × Term)} {a : Term}

theorem parent?_join (ps : List (Term × Term)) (a b t : Term) :
    parent? (ps ++ [(a, b)]) t = (parent? ps t).or (if a = t then some b else none) := by
  unfold parent?
  rw [find?_append]
  cases ps.find? (·.1 = t) with
  | some => simp
  | none => by_cases h : a = t <;> simp [h]

theorem mem_of_parent? (hit : parent? ps t = some u) : (t, u) ∈ ps := by
  obtain ⟨p, first, rfl⟩ := Option.map_eq_some_iff.1 hit
  obtain rfl : p.1 = t := by simpa using find?_some first
  exact mem_of_find?_eq_some first

theorem findFrom_root (root : parent? ps t = none) (n : Nat) : findFrom ps n t = t := by
  cases n with
  | zero => rfl
  | succ => rw [findFrom, root]

theorem findFrom_parent (hit : parent? ps t = some u) (n : Nat) : findFrom ps (n + 1) t = findFrom ps n u := by
  rw [findFrom, hit]

theorem findFrom_succ : ∀ {n : Nat} {t : Term}, parent? ps (findFrom ps n t) = none →
    findFrom ps (n + 1) t = findFrom ps n t := by
  intro n
  induction n with
  | zero => exact fun root => findFrom_root root 1
  | succ _ ih =>
    intro t root
    cases hit : parent? ps t with
    | none => rw [findFrom_root hit, findFrom_root hit]
    | some =>
      rw [findFrom_parent hit] at root
      rw [findFrom_parent hit, findFrom_parent hit, ih root]

theorem findFrom_join (rootB : parent? ps b = none) (ne : a ≠ b) : ∀ {n : Nat} {t : Term}, parent? ps (findFrom ps n t) = none →
      findFrom (ps ++ [(a, b)]) (n + 1) t = if findFrom ps n t = a then b else findFrom ps n t := by
  have stays : parent? (ps ++ [(a, b)]) b = none := by rw [parent?_join, rootB, if_neg ne]; rfl
  have atRoot {t : Term} (root : parent? ps t = none) (n : Nat) :
      findFrom (ps ++ [(a, b)]) (n + 1) t = if t = a then b else t := by
    rw [findFrom, parent?_join, root]
    by_cases h : a = t
    · subst h
      simp [findFrom_root stays]
    · simp [h, Ne.symm h]
  intro n
  induction n with
  | zero => exact fun root => atRoot root 0
  | succ n ih =>
    intro t root
    cases hit : parent? ps t with
    | none =>
      rw [findFrom_root hit]
      exact atRoot hit (n + 1)
    | some u =>
      rw [findFrom_parent hit] at root ⊢
      have hit' : parent? (ps ++ [(a, b)]) t = some u := by rw [parent?_join, hit, Option.some_or]
      rw [findFrom_parent hit', ih root]

namespace Forest

theorem find_root (forest : Forest ps) (t : Term) : parent? ps (findFrom ps ps.length t) = none := by
  induction forest with
  | empty => rfl
  | @join _ _ _ _ _ rootB ne ih =>
    rw [length_append, length_singleton, findFrom_join rootB ne ih]
    split
    · rw [parent?_join, rootB, if_neg ne]
      rfl
    · rename_i other
      rw [parent?_join, ih, if_neg (Ne.symm other)]
      rfl

theorem find_parent (forest : Forest ps) (hit : parent? ps t = some u) :
    findFrom ps ps.length t = findFrom ps ps.length u := by rw [← findFrom_succ (forest.find_root t), findFrom_parent hit]

theorem exists_height (forest : Forest ps) : ∃ height : Term → Nat, ∀ x y, parent? ps x = some y → height y < height x := by
  induction forest with
  | empty => exact ⟨fun _ => 0, fun _ _ hit => by simp [parent?] at hit⟩
  | @join ps a b forest rootA rootB ne ih =>
    obtain ⟨height, lower⟩ := ih
    let below (x : Term) : Prop := findFrom ps ps.length x = a
    -- what stood below `a` is raised above `b`
    refine ⟨fun x => height x + if below x then height b + 1 else 0, fun x y hit => ?_⟩
    rw [parent?_join] at hit
    cases old : parent? ps x with
    | some z =>
      obtain rfl : z = y := by simpa [old] using hit
      have eq : below x ↔ below z := by
        simp only [below]
        rw [forest.find_parent old]
      have := lower x z old
      simp only [eq]
      omega
    | none =>
      rw [old] at hit
      split at hit
      · rename_i e
        subst e
        cases hit
        have mem : below a := findFrom_root rootA _
        have outside : ¬ below b := fun h => ne ((findFrom_root rootB _).symm.trans h).symm
        simp only [if_pos mem, if_neg outside]
        omega
      · cases hit

theorem acyclic (forest : Forest ps) (t : Term) : ¬ Relation.TransGen (fun x y => parent? ps x = some y) t t := by
  obtain ⟨height, lower⟩ := forest.exists_height
  have falls {x y : Term} (path : Relation.TransGen (fun x y => parent? ps x = some y) x y) : height y < height x := by
    induction path with
    | single step => exact lower _ _ step
    | tail _ step ih => exact (lower _ _ step).trans ih
  exact fun cycle => (falls cycle).ne rfl

end Forest
end Parents

/-! ## Roots -/

section Roots
variable {f : List Term → List Term} {s r : Srt} {rs : List (Srt × List Term)}

theorem rootsOf_changeRoots (f : List Term → List Term) (s r : Srt) (g : EGraph) :
    rootsOf { g with roots := changeRoots f s g.roots } r = if r = s then f (g.rootsOf s) else g.rootsOf r := by
  simp only [rootsOf]
  generalize g.roots = rs
  induction rs with
  | nil => by_cases h : s = r <;> simp [changeRoots, h, Ne.symm]
  | cons p _ ih =>
    obtain ⟨q, ts⟩ := p
    rw [changeRoots]
    by_cases hq : q = s
    · subst hq
      by_cases h : q = r
      · simp [h]
      · simp [h, Ne.symm h]
    by_cases h : q = r
    · subst h
      simp [hq]
    · simpa [h, hq] using ih

theorem keys_changeRoots (f : List Term → List Term) (s : Srt) (rs : List (Srt × List Term)) :
    (changeRoots f s rs).map (·.1) = if s ∈ rs.map (·.1) then rs.map (·.1) else rs.map (·.1) ++ [s] := by
  induction rs with
  | nil => rfl
  | cons p rs ih =>
    obtain ⟨q, ts⟩ := p
    rw [changeRoots]
    by_cases hq : q = s
    · simp [hq]
    · rw [if_neg hq, map_cons, ih]
      by_cases h : s ∈ rs.map (·.1) <;> simp [h, Ne.symm hq]

theorem nodup_changeRoots (nodup : (rs.map (·.1)).Nodup) : ((changeRoots f s rs).map (·.1)).Nodup := by
  rw [keys_changeRoots]
  split
  · exact nodup
  rename_i new
  exact nodup_append.2 ⟨nodup, nodup_singleton s, by
    rintro x mx y my rfl
    exact new (mem_singleton.1 my ▸ mx)⟩

end Roots

/-- The roots are the terms without parent, each listed under its sort. -/
structure Partition (plain : Srt → Prop) (g : EGraph) : Prop where
  elementary : ∀ t ∈ g.terms, t.Elementary plain
  forest : Forest g.parent
  inside : ∀ p ∈ g.parent, p.1 ∈ g.terms ∧ p.2 ∈ g.terms ∧ p.1.sort = p.2.sort
  keys : (g.roots.map (·.1)).Nodup
  roots : ∀ s t, t ∈ g.rootsOf s ↔ t ∈ g.terms ∧ t.sort = s ∧ parent? g.parent t = none

namespace Partition

theorem start (reasons : Bool) : Partition plain { keepsReasons := reasons } where
  elementary := by simp
  forest := .empty
  inside := by simp
  keys := .nil
  roots := by simp [rootsOf]

variable (h : Partition plain g)
include h

theorem parent?_eq_none (new : t ∉ g.terms) : parent? g.parent t = none := by
  cases hit : parent? g.parent t with
  | none => rfl
  | some => exact absurd (h.inside _ (mem_of_parent? hit)).1 new

theorem find_mem (mem : t ∈ g.terms) : g.find t ∈ g.terms ∧ (g.find t).sort = t.sort := by
  unfold find
  generalize g.parent.length = n
  induction n generalizing t with
  | zero => exact ⟨mem, rfl⟩
  | succ _ ih =>
    cases hit : parent? g.parent t with
    | none =>
      rw [findFrom_root hit]
      exact ⟨mem, rfl⟩
    | some =>
      obtain ⟨-, next, sorts⟩ := h.inside _ (mem_of_parent? hit)
      rw [findFrom_parent hit, sorts]
      exact ih next

theorem find_root (t : Term) : parent? g.parent (g.find t) = none := h.forest.find_root t

theorem find_find (t : Term) : g.find (g.find t) = g.find t := findFrom_root (h.find_root t) _

theorem mem_rootsOf (mem : t ∈ g.terms) : g.find t ∈ g.rootsOf t.sort :=
  (h.roots _ _).2 ⟨(h.find_mem mem).1, (h.find_mem mem).2, h.find_root t⟩

theorem listed (mem : t ∈ g.terms) : (t.sort, g.rootsOf t.sort) ∈ g.roots := by
  have root := h.mem_rootsOf mem
  unfold rootsOf at root ⊢
  cases hit : g.roots.find? (·.1 = t.sort) with
  | none => simp [hit] at root
  | some p =>
    have key : p.1 = t.sort := by simpa using find?_some hit
    rw [← key]
    exact mem_of_find?_eq_some hit

theorem rootsOf_of_mem (mem : p ∈ g.roots) : g.rootsOf p.1 = p.2 := by
  have unique : g.roots.find? (·.1 = p.1) = some p := by
    have nodup := h.keys
    generalize g.roots = rs at *
    induction rs with
    | nil => cases mem
    | cons q _ ih =>
      obtain ⟨new, nodup⟩ := nodup_cons.1 nodup
      rcases mem_cons.1 mem with rfl | mem
      · simp
      · have ne : q.1 ≠ p.1 := fun e => new (mem_map.2 ⟨p, mem, e.symm⟩)
        simpa [ne] using ih mem nodup
  rw [rootsOf, unique]
  rfl

theorem mem_roots (mem : p ∈ g.roots) : t ∈ p.2 ↔ t ∈ g.terms ∧ t.sort = p.1 ∧ parent? g.parent t = none := by
  rw [← h.rootsOf_of_mem mem, h.roots]

theorem insert (elementary : t.Elementary plain) (new : t ∉ g.terms) :
    Partition plain { g.addRoot t with terms := g.terms ++ [t] } where
  elementary := by simpa [or_imp, forall_and] using ⟨h.elementary, elementary⟩
  forest := h.forest
  inside := by
    intro p mem
    obtain ⟨left, right, sorts⟩ := h.inside p mem
    exact ⟨mem_append_left _ left, mem_append_left _ right, sorts⟩
  keys := nodup_changeRoots h.keys
  roots := by
    intro s x
    have absent : (g.rootsOf t.sort).contains t = false := by simpa using fun listed => new ((h.roots _ _).1 listed).1
    have root := h.parent?_eq_none new
    show x ∈ rootsOf { g with roots := changeRoots _ t.sort g.roots } s ↔ _
    rw [rootsOf_changeRoots]
    simp only [mem_append, mem_singleton]
    by_cases hs : s = t.sort
    · subst hs
      rw [if_pos rfl, if_neg (absent ▸ Bool.false_ne_true), mem_append, mem_singleton, h.roots]
      constructor
      · rintro (⟨mem, rest⟩ | rfl)
        · exact ⟨.inl mem, rest⟩
        · exact ⟨.inr rfl, rfl, root⟩
      · rintro ⟨mem | rfl, rest⟩
        · exact .inl ⟨mem, rest⟩
        · exact .inr rfl
    · rw [if_neg hs, h.roots]
      constructor
      · rintro ⟨mem, rest⟩
        exact ⟨.inl mem, rest⟩
      · rintro ⟨mem | rfl, sort, rest⟩
        · exact ⟨mem, sort, rest⟩
        · exact absurd sort.symm hs

end Partition

theorem find_join (h : Partition plain g) (apart : g.find t ≠ g.find u) (x : Term) :
    (g.join t u).find x = if g.find x = g.find t then g.find u else g.find x := by
  unfold find join
  rw [length_append]
  exact findFrom_join (h.find_root u) apart (h.find_root x)

theorem Partition.join (h : Partition plain g) (ht : t ∈ g.terms) (hu : u ∈ g.terms)
    (sorts : t.sort = u.sort) (apart : g.find t ≠ g.find u) : Partition plain (g.join t u) where
  elementary := h.elementary
  forest := .join h.forest (h.find_root t) (h.find_root u) apart
  inside := by
    obtain ⟨memT, sortT⟩ := h.find_mem ht
    obtain ⟨memU, sortU⟩ := h.find_mem hu
    intro p mem
    rcases mem_append.1 mem with mem | mem
    · exact h.inside p mem
    · obtain rfl := mem_singleton.1 mem
      exact ⟨memT, memU, sortT.trans (sorts.trans sortU.symm)⟩
  keys := nodup_changeRoots h.keys
  roots := by
    intro s x
    obtain ⟨-, sortT⟩ := h.find_mem ht
    show x ∈ rootsOf { g with roots := changeRoots _ t.sort g.roots } s ↔
      x ∈ g.terms ∧ x.sort = s ∧ parent? (g.parent ++ [(g.find t, g.find u)]) x = none
    rw [rootsOf_changeRoots, parent?_join]
    by_cases e : g.find t = x
    · subst e
      by_cases hs : s = t.sort
      · simp [hs]
      · simp [hs, h.roots, sortT, Ne.symm hs]
    by_cases hs : s = t.sort
    · subst hs
      simp [h.roots, e, Ne.symm e]
    · simp [hs, h.roots, e]

/-! ## What follows -/

section Follows
variable (Model : Frame U → Prop)

/-- The terms are equal in every model of the formulas. -/
def Follows (es : List Term) (t u : Term) : Prop :=
  ∀ F, Model F → (∀ e ∈ es, F.Holds e) → F.eval [] t = F.eval [] u

/-- The solver tells whether an equality follows from equations. -/
def Decides (unsat : Refuter) : Prop :=
  ∀ es t u p, (∀ e ∈ es, e.QuantifierFree) → t.QuantifierFree → u.QuantifierFree → t.sort = u.sort → t.neq u = .ok p →
    (unsat (es ++ [p]) = true ↔ Follows Model es t u)

/-- The simplifier keeps the sort and the value of a term, and needs no sorts that are not plain. -/
def KeepsMeaning (plain : Srt → Prop) (simpler : Term → Term) : Prop :=
  ∀ t, t.Elementary plain → (simpler t).Elementary plain ∧ (simpler t).sort = t.sort ∧
    ∀ F, Model F → F.eval [] (simpler t) = F.eval [] t

variable {Model} {es es' : List Term} {v : Term}

theorem Follows.refl : Follows Model es t t := fun _ _ _ => rfl

theorem Follows.symm (h : Follows Model es t u) : Follows Model es u t := fun F model hold => (h F model hold).symm

theorem Follows.trans (h : Follows Model es t u) (h' : Follows Model es u v) : Follows Model es t v :=
  fun F model hold => (h F model hold).trans (h' F model hold)

theorem Follows.mono (h : Follows Model es t u) (sub : es ⊆ es') : Follows Model es' t u :=
  fun F model hold => h F model fun e mem => hold e (sub mem)

end Follows

/-- A partition in which terms of one class are equal by the equations said so far. -/
structure Coherent {U : Type u} (plain : Srt → Prop) (Model : Frame U → Prop) (g : EGraph) : Prop extends Partition plain g where
  equations : ∀ e ∈ g.equations, e.QuantifierFree
  sound : ∀ p ∈ g.parent, Follows Model g.equations p.1 p.2

namespace Coherent

theorem start (reasons : Bool) : Coherent plain Model { keepsReasons := reasons } where
  toPartition := .start reasons
  equations := by simp [EGraph.equations]
  sound := by simp

variable (h : Coherent plain Model g)
include h

theorem follows_find (t : Term) : Follows Model g.equations t (g.find t) := by
  unfold find
  generalize g.parent.length = n
  induction n generalizing t with
  | zero => exact .refl
  | succ _ ih =>
    cases hit : parent? g.parent t with
    | none =>
      rw [findFrom_root hit]
      exact .refl
    | some u =>
      rw [findFrom_parent hit]
      exact (h.sound _ (mem_of_parent? hit)).trans (ih u)

theorem follows_of_find (eq : g.find t = g.find u) : Follows Model g.equations t u :=
  (h.follows_find t).trans (eq ▸ (h.follows_find u).symm)

theorem join (ht : t ∈ g.terms) (hu : u ∈ g.terms) (sorts : t.sort = u.sort)
    (apart : g.find t ≠ g.find u) (equal : Follows Model g.equations t u) : Coherent plain Model (g.join t u) where
  toPartition := h.toPartition.join ht hu sorts apart
  equations := h.equations
  sound := by
    intro p mem
    rcases mem_append.1 mem with mem | mem
    · exact h.sound p mem
    · obtain rfl := mem_singleton.1 mem
      exact ((h.follows_find t).symm.trans equal).trans (h.follows_find u)

theorem say {a : Assertion} (elem : a.equation.QuantifierFree) :
    Coherent plain Model { g with assertions := g.assertions ++ [a] } := by
  have more : g.equations ⊆ EGraph.equations { g with assertions := g.assertions ++ [a] } := by simp [EGraph.equations]
  refine { h.toPartition with equations := ?_, sound := fun p mem => (h.sound p mem).mono more }
  intro e mem
  simp only [EGraph.equations, map_append, map_cons, map_nil, mem_append, mem_singleton] at mem
  rcases mem with mem | rfl
  · exact h.equations e mem
  · exact elem

end Coherent

/-! ## Operations -/

namespace Gives

@[simp] theorem change_iff {f : EGraph → EGraph} : Gives (change f) g () g' ↔ g' = f g := by
  show (.ok (), f g) = (Except.ok (), g') ↔ _
  simp [eq_comm]

@[simp] theorem checked_iff {x : Checked α} {a : α} : Gives (liftM x : Action α) g a g' ↔ x = .ok a ∧ g = g' := by
  show (x, g) = (.ok a, g') ↔ _
  simp

end Gives

theorem forM_gives {Q : α → EGraph → Prop} {x : α → Action Unit}
    (each : ∀ a ∈ as, ∀ g, I g → ∃ g', Gives (x a) g () g' ∧ I g' ∧ Q a g' ∧ ∀ b, Q b g → Q b g') :
    ∀ {g : EGraph}, I g → ∃ g', Gives (as.forM x) g () g' ∧ I g' ∧ (∀ a ∈ as, Q a g') ∧ ∀ b, Q b g → Q b g' := by
  induction as with
  | nil => exact fun {g} h => ⟨g, rfl, h, by simp, fun _ h => h⟩
  | cons a _ ih =>
    intro g h
    obtain ⟨r, first, hr, reached, kept⟩ := each a (by simp) g h
    obtain ⟨g', rest, hg', others, kept'⟩ := ih (fun b mem => each b (by simp [mem])) hr
    exact ⟨g', .bind first rest, hg', forall_mem_cons.2 ⟨kept' a reached, others⟩, fun b hb => kept' b (kept b hb)⟩

theorem forM_keeps {x : α → Action Unit} (each : ∀ a ∈ as, ∀ g, I g → ∃ g', Gives (x a) g () g' ∧ I g')
    (start : I g) : ∃ g', Gives (as.forM x) g () g' ∧ I g' := by
  have steps : ∀ a ∈ as, ∀ g, I g → ∃ g', Gives (x a) g () g' ∧ I g' ∧ True ∧ ∀ _ : α, True → True := by
    intro a mem g h
    obtain ⟨g', ok, h'⟩ := each a mem g h
    exact ⟨g', ok, h', trivial, fun _ h => h⟩
  obtain ⟨g', ok, h', -⟩ := forM_gives steps start
  exact ⟨g', ok, h'⟩

structure Grown (g g' : EGraph) : Prop where
  parent : g'.parent = g.parent
  assertions : g'.assertions = g.assertions
  terms : g.terms ⊆ g'.terms

theorem Grown.trans {r : EGraph} (h : Grown g r) (h' : Grown r g') : Grown g g' :=
  ⟨h'.parent.trans h.parent, h'.assertions.trans h.assertions, fun _ m => h'.terms (h.terms m)⟩

theorem Grown.coherent (grown : Grown g g') (h : Coherent plain Model g) (h' : Partition plain g') : Coherent plain Model g' := by
  have eq : g'.equations = g.equations := by rw [EGraph.equations, grown.assertions, EGraph.equations]
  exact { h' with
    equations := eq ▸ h.equations
    sound := by
      rw [eq, grown.parent]
      exact h.sound }

theorem add_gives : t.Elementary plain → ∀ {g : EGraph}, Partition plain g →
    ∃ g', Gives (add t) g () g' ∧ Partition plain g' ∧ Grown g g' ∧ t ∈ g'.terms := by
  induction t with
  | var => exact fun h => h.applicative.elim
  | bind => exact fun h => h.applicative.elim
  | app f args ih =>
    intro elem g h
    have parts := (elementary_app.1 elem).2.2.2
    -- the arguments, one after the other
    have all : ∀ {as : List Term}, as ⊆ args → ∀ {g : EGraph}, Partition plain g →
        ∃ g', Gives (addAll as) g () g' ∧ Partition plain g' ∧ Grown g g' := by
      intro as
      induction as with
      | nil => exact fun _ g h => ⟨g, rfl, h, ⟨rfl, rfl, fun _ m => m⟩⟩
      | cons a _ ihs =>
        intro sub g h
        obtain ⟨mem, sub⟩ := cons_subset.1 sub
        obtain ⟨r, first, hr, grown, -⟩ := ih a mem (parts a mem) h
        obtain ⟨g', rest, hg', grown'⟩ := ihs sub hr
        exact ⟨g', by rw [addAll]; exact .bind first rest, hg', grown.trans grown'⟩
    by_cases known : .app f args ∈ g.terms
    · refine ⟨g, ?_, h, ⟨rfl, rfl, fun _ m => m⟩, known⟩
      exact .bind rfl (by simp [known])
    have inserted := h.insert elem known
    obtain ⟨g', rest, hg', grown⟩ := all (fun _ m => m) inserted
    refine ⟨g', ?_, hg', ⟨grown.parent, grown.assertions, fun x m => grown.terms (mem_append_left _ m)⟩, grown.terms (by simp)⟩
    refine .bind rfl ?_
    simp only [contains_eq_mem, known, decide_false, Bool.not_false, if_true]
    exact .bind rfl rest

/-- What no operation undoes, and where its equations come from. -/
structure Evolves (New : Term → Prop) (g g' : EGraph) : Prop where
  terms : g.terms ⊆ g'.terms
  coarser : ∀ x y, g.find x = g.find y → g'.find x = g'.find y
  equations : ∀ e ∈ g'.equations, e ∈ g.equations ∨ New e

namespace Evolves
variable {New' : Term → Prop} {r : EGraph}

theorem refl : Evolves New g g := ⟨fun _ m => m, fun _ _ h => h, fun _ => .inl⟩

theorem trans (h : Evolves New g r) (h' : Evolves New r g') : Evolves New g g' where
  terms := fun _ m => h'.terms (h.terms m)
  coarser := fun x y eq => h'.coarser x y (h.coarser x y eq)
  equations := fun e mem => (h'.equations e mem).elim (h.equations e) .inr

theorem mono (h : Evolves New g g') (more : ∀ e, New e → New' e) : Evolves New' g g' :=
  ⟨h.terms, h.coarser, fun e mem => (h.equations e mem).imp_right (more e)⟩

end Evolves

theorem Grown.evolves (h : Grown g g') : Evolves New g g' where
  terms := h.terms
  coarser := fun x y eq => by simpa only [find, h.parent] using eq
  equations := fun e mem => .inl (by simpa only [EGraph.equations, h.assertions] using mem)

theorem evolves_join (h : Partition plain g) (apart : g.find t ≠ g.find u) :
    Evolves New g (g.join t u) ∧ (g.join t u).find t = (g.join t u).find u := by
  refine ⟨⟨fun _ m => m, fun x y same => ?_, fun _ => .inl⟩, ?_⟩
  · rw [find_join h apart, find_join h apart, same]
  · rw [find_join h apart, find_join h apart, if_pos rfl]
    exact (ite_self _).symm

theorem Coherent.add (h : Coherent plain Model g) (elem : t.Elementary plain) :
    ∃ g', Gives (EGraph.add t) g () g' ∧ Coherent plain Model g' ∧ Grown g g' ∧ t ∈ g'.terms := by
  obtain ⟨g', ok, h', grown, mem⟩ := add_gives elem h.toPartition
  exact ⟨g', ok, grown.coherent h h', grown, mem⟩

/-- The terms of the sort are compared by plain equations and inequations. -/
def Refuter.Plain (unsat : Refuter) (s : Srt) : Prop := unsat.overloads "eq" s = false ∧ unsat.overloads "ne" s = false

section Solver
variable {unsat : Refuter} (decides : Decides Model unsat) (h : Coherent unsat.Plain Model g)

theorem equation_of_plain (ht : t.Elementary unsat.Plain) (sorts : t.sort = u.sort) :
    equation unsat t u = .ok (.app (.eq t.sort) [t, u]) := by
  rw [equation, ht.sort.1]
  exact eq_of_sort sorts

theorem separation_of_plain (ht : t.Elementary unsat.Plain) (sorts : t.sort = u.sort) :
    separation unsat t u = .ok (.app (.distinct [t.sort, t.sort]) [t, u]) := by
  rw [separation, ht.sort.2]
  exact neq_of_sort sorts

include h in
theorem union_gives (ht : t.Elementary unsat.Plain) (hu : u.Elementary unsat.Plain) (sorts : t.sort = u.sort)
    (reason : Option String) : ∃ b g', Gives (union unsat t u true reason) g b g' ∧ Coherent unsat.Plain Model g' ∧
      Evolves (· = .app (.eq t.sort) [t, u]) g g' ∧ t ∈ g'.terms ∧ u ∈ g'.terms ∧ g'.find t = g'.find u := by
  obtain ⟨g₁, first, h₁, grown₁, memT⟩ := h.add ht
  obtain ⟨g₂, second, h₂, grown₂, memU⟩ := h₁.add hu
  replace memT := grown₂.terms memT
  have grown := grown₁.trans grown₂
  by_cases eq : g₂.find t = g₂.find u
  · refine ⟨false, g₂, .bind first (.bind second (.bind rfl ?_)), h₂, grown.evolves, memT, memU, eq⟩
    simp [EGraph.same, eq]
  let eqn : Term := .app (.eq t.sort) [t, u]
  let said : Assertion := ⟨eqn, if g₂.keepsReasons then .said t u reason else .anonymous⟩
  have elem : eqn.QuantifierFree := quantifierFree_eq ht hu rfl sorts.symm
  -- the equation may as well be said before the classes are joined
  have said' : Coherent unsat.Plain Model { g₂ with assertions := g₂.assertions ++ [said] } := h₂.say elem
  have evolves : Evolves (· = eqn) g { g₂ with assertions := g₂.assertions ++ [said] } := by
    refine grown.evolves.trans ⟨fun _ m => m, fun _ _ h => h, fun e mem => ?_⟩
    simpa [EGraph.equations, said] using mem
  obtain ⟨joins, joined⟩ := evolves_join said'.toPartition eq
  refine ⟨true, _, .bind first (.bind second (.bind rfl ?_)),
    said'.join memT memU sorts eq ?_, evolves.trans joins, memT, memU, joined⟩
  · simp only [EGraph.same, eq, decide_false, Bool.false_eq_true, if_false]
    exact .bind rfl (.bind (Gives.checked_iff.2 ⟨equation_of_plain ht sorts, rfl⟩) rfl)
  · intro F _ hold
    exact Frame.eval_eq.1 (hold eqn (by simp [EGraph.equations, said]))

structure Closer (g g' : EGraph) : Prop where
  terms : g'.terms = g.terms
  assertions : g'.assertions = g.assertions
  coarser : ∀ x y, g.find x = g.find y → g'.find x = g'.find y

theorem Closer.refl : Closer g g := ⟨rfl, rfl, fun _ _ h => h⟩

theorem Closer.trans {r : EGraph} (h : Closer g r) (h' : Closer r g') : Closer g g' :=
  ⟨h'.terms.trans h.terms, h'.assertions.trans h.assertions, fun x y eq => h'.coarser x y (h.coarser x y eq)⟩

theorem Closer.equations (h : Closer g g') : g'.equations = g.equations := by
  rw [EGraph.equations, h.assertions, EGraph.equations]

theorem Closer.evolves (h : Closer g g') : Evolves New g g' :=
  ⟨h.terms ▸ fun _ m => m, h.coarser, fun _ mem => .inl (h.equations ▸ mem)⟩

include decides h in
theorem closePair_gives (ht : t ∈ g.terms) (hu : u ∈ g.terms)
    (sorts : t.sort = u.sort) : ∃ g', Gives (closePair unsat t u) g () g' ∧ Coherent unsat.Plain Model g' ∧ Closer g g' ∧
      (Follows Model g.equations t u → g'.find t = g'.find u) := by
  have asked := separation_of_plain (h.elementary t ht) sorts
  have free {t : Term} (mem : t ∈ g.terms) : t.QuantifierFree := (h.elementary t mem).mono fun _ _ => trivial
  have answer := decides _ _ _ _ h.equations (free ht) (free hu) sorts (neq_of_sort sorts)
  have start {g'} (rest : Gives (if !g.same t u && g.refutes unsat (.app (.distinct [t.sort, t.sort]) [t, u])
      then change (·.join t u) else pure () : Action Unit) g () g') : Gives (closePair unsat t u) g () g' :=
    .bind rfl (.bind (Gives.checked_iff.2 ⟨asked, rfl⟩) rest)
  by_cases eq : g.find t = g.find u
  · exact ⟨g, start (by simp [EGraph.same, eq]), h, .refl, fun _ => eq⟩
  by_cases equal : Follows Model g.equations t u
  · have ⟨joins, joined⟩ : Evolves (fun _ => False) g (g.join t u) ∧ _ := evolves_join h.toPartition eq
    refine ⟨g.join t u, start ?_, h.join ht hu sorts eq equal, ⟨rfl, rfl, joins.coarser⟩, fun _ => joined⟩
    simp [EGraph.same, eq, refutes, answer.2 equal]
  · refine ⟨g, start ?_, h, .refl, fun follows => absurd follows equal⟩
    simp [refutes, mt answer.1 equal]

/-- What a pass over pairs keeps of the graph `g₀` at its start. -/
structure Pass (unsat : Refuter) (Model : Frame U → Prop) (g₀ g : EGraph) : Prop where
  coherent : Coherent unsat.Plain Model g
  closer : Closer g₀ g

/-- The pair is in one class, if it is equal by the equations of `g₀`. -/
def Settled (Model : Frame U → Prop) (g₀ : EGraph) (p : Term × Term) (g : EGraph) : Prop :=
  Follows Model g₀.equations p.1 p.2 → g.find p.1 = g.find p.2

theorem Settled.closer {p : Term × Term} (h : Settled Model g₀ p g) (closer : Closer g g') :
    Settled Model g₀ p g' := fun follows => closer.coarser _ _ (h follows)

theorem Settled.swap (h : Settled Model g₀ (t, u) g) : Settled Model g₀ (u, t) g := fun follows => (h follows.symm).symm

include decides in
theorem closeRoots_gives {s : Srt} :
    ∀ before : List Term, (∀ t ∈ before ++ ts, t ∈ g₀.terms ∧ t.sort = s) → ∀ {g : EGraph}, Pass unsat Model g₀ g →
      ∃ g', Gives (closeRoots unsat before ts) g () g' ∧ Pass unsat Model g₀ g' ∧ Closer g g' ∧
        ∀ t ∈ ts, ∀ u ∈ before ++ ts, Settled Model g₀ (t, u) g' := by
  induction ts with
  | nil => exact fun _ _ g h => ⟨g, rfl, h, .refl, by simp⟩
  | cons t _ ih =>
    intro before listed g h
    obtain ⟨memT, sortT⟩ := listed t (by simp)
    have pairs : ∀ u ∈ before, ∀ r, Pass unsat Model g₀ r ∧ Closer g r →
        ∃ g', Gives (closePair unsat t u) r () g' ∧ (Pass unsat Model g₀ g' ∧ Closer g g') ∧ Settled Model g₀ (t, u) g' ∧
          ∀ v, Settled Model g₀ (t, v) r → Settled Model g₀ (t, v) g' := by
      rintro u mem r ⟨hr, far⟩
      obtain ⟨memU, sortU⟩ := listed u (mem_append_left _ mem)
      obtain ⟨g', ok, coherent, closer, settled⟩ := closePair_gives decides hr.coherent (hr.closer.terms ▸ memT)
        (hr.closer.terms ▸ memU) (sortT.trans sortU.symm)
      rw [hr.closer.equations] at settled
      exact ⟨g', ok, ⟨⟨coherent, hr.closer.trans closer⟩, far.trans closer⟩, settled, fun v hv => hv.closer closer⟩
    obtain ⟨r, first, ⟨hr, near⟩, compared, -⟩ := forM_gives pairs ⟨h, .refl⟩
    obtain ⟨g', rest, hg', closer, settled⟩ := ih (before ++ [t]) (by simpa using listed) hr
    refine ⟨g', .bind first rest, hg', near.trans closer, forall_mem_cons.2 ⟨?_, ?_⟩⟩
    · intro u mem
      rcases mem_append.1 mem with mem | mem
      · exact (compared u mem).closer closer
      · rcases mem_cons.1 mem with rfl | mem
        · exact fun _ => rfl
        · exact (settled u mem t (by simp)).swap
    · intro u mem v mem'
      exact settled u mem v (by simpa using mem')

include decides h in
theorem rebuild_gives :
    ∃ g', Gives (rebuild unsat) g () g' ∧ Coherent unsat.Plain Model g' ∧ Closer g g' ∧ ∀ t ∈ g'.terms,
      ∀ u ∈ g'.terms, t.sort = u.sort →
      Follows Model g'.equations t u → g'.find t = g'.find u := by
  have passes : ∀ p ∈ g.roots, ∀ r, Pass unsat Model g r → ∃ g', Gives (closeRoots unsat [] p.2) r () g' ∧ Pass unsat Model g g' ∧
      (∀ t ∈ p.2, ∀ u ∈ p.2, Settled Model g (t, u) g') ∧
      ∀ q : Srt × List Term, (∀ t ∈ q.2, ∀ u ∈ q.2, Settled Model g (t, u) r) → ∀ t ∈ q.2, ∀ u ∈ q.2,
        Settled Model g (t, u) g' := by
    intro p mem r hr
    obtain ⟨g', ok, hg', closer, settled⟩ := closeRoots_gives decides (s := p.1) [] (fun t mem' => by
        obtain ⟨memT, sortT, -⟩ := (h.mem_roots mem).1 mem'
        exact ⟨memT, sortT⟩) hr
    exact ⟨g', ok, hg', settled, fun q hq t ht u hu => (hq t ht u hu).closer closer⟩
  obtain ⟨g', ok, hg', settled, -⟩ := forM_gives passes ⟨h, .refl⟩
  refine ⟨g', .bind rfl ok, hg'.coherent, hg'.closer, ?_⟩
  intro t ht u hu sorts follows
  rw [hg'.closer.terms] at ht hu
  rw [hg'.closer.equations] at follows
  have roots : Follows Model g.equations (g.find t) (g.find u) :=
    ((h.follows_find t).symm.trans follows).trans (h.follows_find u)
  have joined := settled _ (h.listed ht) (g.find t) (h.mem_rootsOf ht) (g.find u) (sorts ▸ h.mem_rootsOf hu) roots
  have upT := hg'.closer.coarser _ _ (h.find_find t)
  have upU := hg'.closer.coarser _ _ (h.find_find u)
  exact upT.symm.trans (joined.trans upU)

variable (unsat) in
theorem isKnown_gives (h : Partition unsat.Plain g) (ht : t.Elementary unsat.Plain) : ∃ b, Gives (isKnown unsat t) g b g := by
  by_cases known : t ∈ g.terms
  · exact ⟨true, .bind rfl (by simp [known])⟩
  let apart := (g.rootsOf t.sort).map fun r => app (.distinct [t.sort, t.sort]) [t, r]
  have asked : ∀ {rs : List Term}, rs ⊆ g.rootsOf t.sort → Gives (rs.mapM fun r => (liftM (separation unsat t r))) g
      (rs.map fun r => .app (.distinct [t.sort, t.sort]) [t, r]) g := by
    intro rs
    induction rs with
    | nil => exact fun _ => Gives.mapM_nil_iff.2 ⟨rfl, rfl⟩
    | cons _ _ ih =>
      intro sub
      obtain ⟨mem, sub⟩ := cons_subset.1 sub
      have sort := ((h.roots _ _).1 mem).2.1
      exact Gives.mapM_cons_iff.2 ⟨_, g, _, Gives.checked_iff.2 ⟨separation_of_plain ht sort.symm, rfl⟩, ih sub, rfl⟩
  have all : and apart = .ok (.app .and apart) := and_eq_ok.2 ⟨by simp [apart, sort, Symbol.distinct, Symbol.builtin], rfl⟩
  refine ⟨g.refutes unsat (.app .and apart), .bind rfl ?_⟩
  simp only [contains_eq_mem, known, decide_false, Bool.false_eq_true, if_false]
  exact .bind (asked (fun _ m => m)) (.bind (Gives.checked_iff.2 ⟨all, rfl⟩) rfl)

theorem mem_choices : ∀ {ls : List (List α)}, xs ∈ choices ls → List.Forall₂ (· ∈ ·) xs ls := by
  intro ls
  induction ls generalizing xs with
  | nil =>
    intro mem
    obtain rfl : xs = [] := by simpa [choices] using mem
    exact .nil
  | cons _ _ ih =>
    intro mem
    simp only [choices, mem_flatMap, mem_map] at mem
    obtain ⟨x, first, ys, rest, rfl⟩ := mem
    exact .cons first (ih rest)

theorem tuple_elementary {ss : List Srt} (h : Partition unsat.Plain g) (chosen : ts ∈ g.tuples ss) :
    Forall₂ (fun t s => t.Elementary unsat.Plain ∧ t.sort = s) ts ss := by
  refine (forall₂_map_right_iff.1 (mem_choices chosen)).imp fun t s mem => ?_
  obtain ⟨inside, sort, -⟩ := (h.roots s t).1 mem
  exact ⟨h.elementary t inside, sort⟩

/-- Of terms of the sorts the rule makes two terms of one sort, all of them plain. -/
def Rule (plain : Srt → Prop) (ss : List Srt) (f : List Term → Checked (Term × Term)) : Prop :=
  ∀ ts, Forall₂ (fun t s => t.Elementary plain ∧ t.sort = s) ts ss →
    ∃ l r, f ts = .ok (l, r) ∧ l.Elementary plain ∧ r.Elementary plain ∧ l.sort = r.sort

def Instance (f : List Term → Checked (Term × Term)) (e : Term) : Prop :=
  ∃ ts l r, f ts = .ok (l, r) ∧ e = .app (.eq l.sort) [l, r]

include h in
theorem rewrite_gives {ss : List Srt} {f : List Term → Checked (Term × Term)} (rule : Rule unsat.Plain ss f) :
    ∃ g', Gives (rewrite unsat ss f) g () g' ∧ Coherent unsat.Plain Model g' ∧ Evolves (Instance f) g g' := by
  have steps : ∀ ts ∈ g.tuples ss, ∀ r, Coherent unsat.Plain Model r ∧ Evolves (Instance f) g r → ∃ g', Gives (do
      let p ← (liftM (f ts) : Action (Term × Term))
      if ← isKnown unsat p.1 then
        add p.2
        let _ ← union unsat p.1 p.2 true none) r () g' ∧ Coherent unsat.Plain Model g' ∧ Evolves (Instance f) g g' := by
    rintro ts chosen g₁ ⟨coherent, evolves⟩
    obtain ⟨l, r, made, left, right, sorts⟩ := rule ts (tuple_elementary h.toPartition chosen)
    obtain ⟨known, asked⟩ := isKnown_gives unsat coherent.toPartition left
    cases known with
    | false => exact ⟨g₁, .bind (Gives.checked_iff.2 ⟨made, rfl⟩) (.bind asked rfl), coherent, evolves⟩
    | true =>
      obtain ⟨g₂, first, h₂, grown, -⟩ := coherent.add right
      obtain ⟨b, g', second, h', new, -⟩ := union_gives h₂ left right sorts none
      refine ⟨g', .bind (Gives.checked_iff.2 ⟨made, rfl⟩) (.bind asked (.bind first (.bind second rfl))), h', ?_⟩
      exact (evolves.trans grown.evolves).trans (new.mono fun e said => ⟨ts, l, r, made, said⟩)
  obtain ⟨g', ok, h', evolves⟩ := forM_keeps steps ⟨h, .refl⟩
  exact ⟨g', .bind rfl ok, h', evolves⟩

include h in
theorem simplify_gives {simpler : Term → Term} (keeps : KeepsMeaning Model unsat.Plain simpler) :
    ∃ g', Gives (simplify simpler) g () g' ∧ Coherent unsat.Plain Model g' ∧ Evolves (fun _ => False) g g' := by
  have steps : ∀ p ∈ g.terms.filterMap (fun t => if simpler t = t then none else some (t, simpler t)), ∀ r,
      Coherent unsat.Plain Model r ∧ Evolves (fun _ => False) g r → ∃ g', Gives (do
        add p.2
        if !(← graph).same p.1 p.2 then change (·.join p.1 p.2)) r () g' ∧ Coherent unsat.Plain Model g' ∧
          Evolves (fun _ => False) g g' := by
    rintro p mem r ⟨hr, evolves⟩
    obtain ⟨t, memT, hit⟩ := mem_filterMap.1 mem
    obtain rfl : p = (t, simpler t) := by
      split at hit
      · cases hit
      · exact (Option.some.inj hit).symm
    obtain ⟨elem, sorts, vals⟩ := keeps t (h.elementary t memT)
    obtain ⟨g₁, first, h₁, grown, memU⟩ := hr.add elem
    replace evolves := evolves.trans grown.evolves
    by_cases eq : g₁.find t = g₁.find (simpler t)
    · refine ⟨g₁, .bind first (.bind rfl ?_), h₁, evolves⟩
      simp [EGraph.same, eq]
    have equal : Follows Model g₁.equations t (simpler t) := fun F model _ => (vals F model).symm
    refine ⟨g₁.join t (simpler t), .bind first (.bind rfl ?_),
      h₁.join (evolves.terms memT) memU sorts.symm eq equal, evolves.trans (evolves_join h₁.toPartition eq).1⟩
    simp [EGraph.same, eq]
  obtain ⟨g', ok, h', evolves⟩ := forM_keeps steps ⟨h, .refl⟩
  exact ⟨g', .bind rfl ok, h', evolves⟩

end Solver

/-! ## Runs -/

inductive Operation where
  | add (t : Term)
  | union (t u : Term) (reason : Option String)
  | rewrite (ss : List Srt) (f : List Term → Checked (Term × Term))
  | simplify | rebuild

namespace Operation

def run (unsat : Refuter) (simpler : Term → Term) : Operation → Action Unit
  | .add t => EGraph.add t
  | .union t u reason => do let _ ← EGraph.union unsat t u true reason
  | .rewrite ss f => EGraph.rewrite unsat ss f
  | .simplify => EGraph.simplify simpler
  | .rebuild => EGraph.rebuild unsat

/-- Its terms are without quantifiers and of plain sorts, and it equates terms of one sort. -/
def Fits (plain : Srt → Prop) : Operation → Prop
  | .add t => t.Elementary plain
  | .union t u _ => t.Elementary plain ∧ u.Elementary plain ∧ t.sort = u.sort
  | .rewrite ss f => Rule plain ss f
  | .simplify | .rebuild => True

/-- The equations that it may say. -/
def Asserts : Operation → Term → Prop
  | .union t u _, e => e = .app (.eq t.sort) [t, u]
  | .rewrite _ f, e => Instance f e
  | _, _ => False

/-- What it has done to a graph, and what no later operation undoes. -/
def Done : Operation → EGraph → Prop
  | .add t, g => t ∈ g.terms
  | .union t u _, g => t ∈ g.terms ∧ u ∈ g.terms ∧ g.find t = g.find u
  | _, _ => True

theorem Done.evolves {op : Operation} (h : op.Done g) (evolves : Evolves New g g') : op.Done g' := by
  cases op with
  | add => exact evolves.terms h
  | union => exact ⟨evolves.terms h.1, evolves.terms h.2.1, evolves.coarser _ _ h.2.2⟩
  | rewrite => trivial
  | simplify => trivial
  | rebuild => trivial

end Operation

/-- Terms of one sort are in one class if the equations make them equal. -/
def Complete {U : Type u} (Model : Frame U → Prop) (g : EGraph) : Prop :=
  ∀ t ∈ g.terms, ∀ u ∈ g.terms, t.sort = u.sort → Follows Model g.equations t u → g.find t = g.find u

section Runs
variable {unsat : Refuter} {simpler : Term → Term}

theorem run_gives (decides : Decides Model unsat) (keeps : KeepsMeaning Model unsat.Plain simpler)
    {op : Operation} (fits : op.Fits unsat.Plain)
    (h : Coherent unsat.Plain Model g) : ∃ g', Gives (op.run unsat simpler) g () g' ∧ Coherent unsat.Plain Model g' ∧
      Evolves op.Asserts g g' ∧ op.Done g' ∧ (op = .rebuild → Complete Model g') := by
  cases op with
  | add =>
    obtain ⟨g', ok, h', grown, mem⟩ := h.add fits
    exact ⟨g', ok, h', grown.evolves, mem, fun e => nomatch e⟩
  | union _ _ reason =>
    obtain ⟨ht, hu, sorts⟩ := fits
    obtain ⟨b, g', ok, h', evolves, joined⟩ := union_gives h ht hu sorts reason
    exact ⟨g', .bind ok rfl, h', evolves, joined, fun e => nomatch e⟩
  | rewrite =>
    obtain ⟨g', ok, h', evolves⟩ := rewrite_gives h fits
    exact ⟨g', ok, h', evolves, trivial, fun e => nomatch e⟩
  | simplify =>
    obtain ⟨g', ok, h', evolves⟩ := simplify_gives h keeps
    exact ⟨g', ok, h', evolves.mono fun _ => False.elim, trivial, fun e => nomatch e⟩
  | rebuild =>
    obtain ⟨g', ok, h', closer, complete⟩ := rebuild_gives decides h
    exact ⟨g', ok, h', closer.evolves, trivial, fun _ => complete⟩

structure Reached (unsat : Refuter) (Model : Frame U → Prop) (ops : List Operation) (g : EGraph) : Prop where
  coherent : Coherent unsat.Plain Model g
  equations : ∀ e ∈ g.equations, ∃ op ∈ ops, op.Asserts e
  done : ∀ op ∈ ops, op.Done g
  complete : ops.getLast? = some .rebuild → Complete Model g

theorem reached (decides : Decides Model unsat) (keeps : KeepsMeaning Model unsat.Plain simpler) (reasons : Bool)
    (ops : List Operation) (fits : ∀ op ∈ ops, op.Fits unsat.Plain) :
    ∃ g, Gives (ops.forM (Operation.run unsat simpler)) { keepsReasons := reasons } () g ∧ Reached unsat Model ops g := by
  -- by the last operation, since it is the one that a rebuilding must be
  induction ops using reverseRecOn with
  | nil => exact ⟨_, rfl, .start reasons, by simp [EGraph.equations], by simp, by simp⟩
  | append_singleton ops op ih =>
    obtain ⟨g, before, h⟩ := ih fun op mem => fits op (mem_append_left _ mem)
    obtain ⟨g', last, coherent, evolves, ok, complete⟩ := run_gives decides keeps (fits op (by simp)) h.coherent
    have whole : Gives ((ops ++ [op]).forM (Operation.run unsat simpler)) { keepsReasons := reasons } () g' := by
      rw [forM_eq_forM, forM_append]
      exact .bind before (.bind last rfl)
    refine ⟨g', whole, coherent, fun e mem => ?_, fun o mem => ?_, fun final => complete (by simpa using final)⟩
    · rcases evolves.equations e mem with old | new
      · obtain ⟨o, mem', said⟩ := h.equations e old
        exact ⟨o, mem_append_left _ mem', said⟩
      · exact ⟨op, by simp, new⟩
    rcases mem_append.1 mem with mem' | mem'
    · exact (h.done o mem').evolves evolves
    · obtain rfl := mem_singleton.1 mem'
      exact ok

/-- The classes of a graph are what the equations that were said make of its terms. -/
structure Faithful (Model : Frame U → Prop) (ops : List Operation) (g : EGraph) : Prop where
  done : ∀ op ∈ ops, op.Done g
  equations : ∀ e ∈ g.equations, ∃ op ∈ ops, op.Asserts e
  acyclic : ∀ t, ¬ Relation.TransGen (fun x y => parent? g.parent x = some y) t t
  roots : ∀ p ∈ g.roots, ∀ r ∈ p.2, r ∈ g.terms ∧ r.sort = p.1 ∧ parent? g.parent r = none
  representative : ∀ t ∈ g.terms, ∃! r, (∃ p ∈ g.roots, r ∈ p.2) ∧ g.find r = g.find t
  sound : ∀ t u, g.find t = g.find u → Follows Model g.equations t u
  complete : ops.getLast? = some .rebuild → Complete Model g

/-- Operations that equate terms of one sort end, and leave a faithful graph. -/
theorem classes_faithful (decides : Decides Model unsat) (keeps : KeepsMeaning Model unsat.Plain simpler) (reasons : Bool)
    (ops : List Operation) (fits : ∀ op ∈ ops, op.Fits unsat.Plain) :
    ∃ g, Gives (ops.forM (Operation.run unsat simpler)) { keepsReasons := reasons } () g ∧ Faithful Model ops g := by
  obtain ⟨g, runs, h⟩ := reached decides keeps reasons ops fits
  have partition := h.coherent.toPartition
  refine ⟨g, runs, h.done, h.equations, partition.forest.acyclic, fun p mem r inside => (partition.mem_roots mem).1 inside, ?_,
    fun t u => h.coherent.follows_of_find, h.complete⟩
  intro t mem
  refine ⟨g.find t, ⟨⟨_, partition.listed mem, partition.mem_rootsOf mem⟩, partition.find_find t⟩, ?_⟩
  rintro r ⟨⟨p, listed, inside⟩, same⟩
  exact (findFrom_root ((partition.mem_roots listed).1 inside).2.2 _).symm.trans same

open Classical in
noncomputable def ideal (Model : Frame U → Prop) : Refuter where
  unsat ps := decide (∀ F, Model F → ¬ ∀ p ∈ ps, F.Holds p)

theorem decides_ideal : Decides Model (ideal Model) := by
  intro es t u p _ _ _ sorts asked
  cases (asked.symm.trans (neq_of_sort sorts))
  have differs (F : Frame U) : F.Holds (.app (.distinct [t.sort, t.sort]) [t, u]) ↔ F.eval [] t ≠ F.eval [] u := by
    rw [Frame.Holds, Frame.eval_app, F.fn_distinct]
    simp
  simp only [ideal, decide_eq_true_iff, Follows]
  refine forall₂_congr fun F _ => ?_
  constructor
  · intro never hold
    by_contra apart
    refine never fun q mem => ?_
    rcases mem_append.1 mem with mem | mem
    · exact hold q mem
    · rw [mem_singleton.1 mem, differs]
      exact apart
  · intro equal hold
    exact (differs F).1 (hold _ (by simp)) (equal fun e mem => hold e (mem_append_left _ mem))

end Runs

namespace Sample

def f (t : Term) : Term := .app ⟨"f", [.int], .int, .free⟩ [t]

def x : Term := .const "x" .int

def y : Term := .const "y" .int

def r : Term := .const "r" .real

theorem elementary_const (name : String) {s : Srt} (fine : plain s) : (const name s).Elementary plain :=
  elementary_app.2 ⟨fine, Symbol.proper_of_isFree rfl, rfl, by simp⟩

theorem elementary_f (elem : t.Elementary plain) (sort : t.sort = .int) : (f t).Elementary plain :=
  elementary_app.2 ⟨by simpa [sort] using elem.sort, Symbol.proper_of_isFree rfl, by simp [sort, placesOf], by simpa using elem⟩

theorem congruent_classes : let ops := [.add (f x), .add (f y), .union x y none, .rebuild]
    ∃ g, Gives (ops.forM (Operation.run (ideal fun _ : Frame (Standard.Universe fun _ => Unit) => True) id)) {} () g ∧
      g.find (f x) = g.find (f y) := by
  intro ops
  let ideal := ideal fun _ : Frame (Standard.Universe fun _ => Unit) => True
  have hx : x.Elementary ideal.Plain := elementary_const "x" ⟨rfl, rfl⟩
  have hy : y.Elementary ideal.Plain := elementary_const "y" ⟨rfl, rfl⟩
  have fits : ∀ op ∈ ops, op.Fits ideal.Plain := by
    simp only [ops, forall_mem_cons, not_mem_nil, false_imp_iff, implies_true, and_true]
    exact ⟨elementary_f hx rfl, elementary_f hy rfl, ⟨hx, hy, rfl⟩, trivial⟩
  obtain ⟨g, runs, h⟩ := classes_faithful decides_ideal (fun t ht => ⟨ht, rfl, fun _ _ => rfl⟩) false ops fits
  refine ⟨g, runs, h.complete rfl (f x) ?_ (f y) ?_ rfl ?_⟩
  · exact h.done (.add (f x)) (by simp [ops])
  · exact h.done (.add (f y)) (by simp [ops])
  · intro F model hold
    have equal := h.sound _ _ (h.done (.union x y none) (by simp [ops])).2.2 F model hold
    simp [f, Frame.eval_app, equal]

/-- The real number `r` is joined with the numbers `x` and `y`. -/
def mixedGraph : EGraph where
  terms := [r, x, y]
  parent := [(r, x), (x, y)]
  roots := [(.real, []), (.int, [x, y])]
  assertions := [x, y].map fun t => ⟨.app (.eq .real) [r, .app .toReal [t]], .anonymous⟩

/-- Joining terms of two sorts looks for the old root among those of the wrong sort: `x` gets a parent and stays a root. -/
theorem mixedSorts_kept : (x ∈ mixedGraph.rootsOf .int ∧ parent? mixedGraph.parent x = some y) ∧
    ∀ unsat : List Term → Bool,
      Gives ([Operation.union r x none, .union r y none].forM (Operation.run { unsat } id)) {} () mixedGraph :=
  ⟨by decide, fun _ => rfl⟩

end Sample
end EGraph
end SortedLogic

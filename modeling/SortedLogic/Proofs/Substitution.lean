import SortedLogic.Proofs.Interpretation
import Mathlib.Data.List.Nodup

/-!
# What substitution means

Making room for binders changes nothing (`eval_lift`), terms in the place of variables give these their values
(`eval_instantiateAt`), turning constants into variables lets the constants vary (`eval_abstractAt`), and exchanging closed
terms of one value changes nothing (`eval_replaceAll`).
-/

namespace SortedLogic
open Term
open List
open Option (map_eq_some_iff)
universe u
variable {pairs : List (Term × Term)} {t : Term} {ts : List Term} {Δ Γ Δ' : List (Binder × Srt)} {d i : Nat}
  {strict : Bool} {P : Symbol → Prop}

namespace Term

/-! ## Sorts -/

theorem sort_lift (n : Nat) (t : Term) (c : Nat) : (lift n c t).sort = t.sort := by
  refine (traverses_lift n).sort (fun hit => ?_) t c
  obtain ⟨i, s, rfl, -, rfl⟩ := lifted_eq_some hit
  rfl

theorem sort_abstractAt (pairs : List (Term × Nat)) (t : Term) (d : Nat) : (abstractAt pairs d t).sort = t.sort := by
  refine (traverses_abstractAt pairs).sort (fun hit => ?_) t d
  obtain ⟨p, -, rfl⟩ := map_eq_some_iff.1 hit
  rfl

theorem lookupLast_ne_none {p : Term × Term} (mem : p ∈ pairs) : lookupLast pairs p.1 ≠ none := by
  simp only [lookupLast, ne_eq, Option.map_eq_none_iff, find?_eq_none, mem_reverse, not_forall]
  exact ⟨p, mem, by simp⟩

theorem lookupLast_append (σ τ : List (Term × Term)) : lookupLast (σ ++ τ) t = (lookupLast τ t).or (lookupLast σ t) := by
  rw [lookupLast, reverse_append, find?_append, Option.map_or]
  rfl

theorem lookupLast_mem {u : Term} (hit : lookupLast pairs t = some u) : (t, u) ∈ pairs := by
  simp only [lookupLast, map_eq_some_iff] at hit
  obtain ⟨p, hit, rfl⟩ := hit
  have eq : p.1 = t := by simpa using find?_some hit
  have mem := mem_of_find?_eq_some hit
  rw [← eq]
  simpa using mem

def Exchange (pairs : List (Term × Term)) : Prop :=
  ∀ p ∈ pairs, p.1.Closed ∧ p.2.Closed ∧ p.1.sort = p.2.sort

theorem Exchange.lift (ex : Exchange pairs) (n : Nat) : (pairs.map fun (a, b) => (lift n 0 a, lift n 0 b)) = pairs := by
  have eq : ∀ p ∈ pairs, (Term.lift n 0 p.1, Term.lift n 0 p.2) = p := fun p mem => by
    rw [(ex p mem).1.lift, (ex p mem).2.1.lift]
  exact (map_congr_left eq).trans (map_id' _)

theorem traverses_replaceAll (ex : Exchange pairs) : Traverses (fun _ => lookupLast pairs) fun _ => replaceAll pairs := by
  intro d t
  cases t with
  | var => rfl
  | app f args => cases hit : lookupLast pairs (.app f args) <;> simp [replaceAll, hit, replacesAll_eq_map]
  | bind k vars body => cases hit : lookupLast pairs (.bind k vars body) <;> simp [replaceAll, hit, ex.lift]

theorem sort_replaceAll (ex : Exchange pairs) (t : Term) : (replaceAll pairs t).sort = t.sort :=
  (traverses_replaceAll ex).sort (fun hit => (ex _ (lookupLast_mem hit)).2.2.symm) t 0

section Traverses
variable {h : Nat → Term → Option Term} {g : Nat → Term → Term} (tr : Traverses h g) {c : Symbol}
include tr

theorem Traverses.loose {Q : Nat → Nat → Prop} (out : ∀ {d i n}, Q (d + n) (i + n) → Q d i)
    (new : ∀ {d t u i}, h d t = some u → u.Loose i → Q d i) (t : Term) (d : Nat) :
    ∀ {i}, (g d t).Loose i → t.Loose i ∧ (∃ e s, h (d + e) (.var (i + e) s) = none) ∨ Q d i := by
  refine tr.relates (M := fun d t u => ∀ {i}, u.Loose i → t.Loose i ∧ (∃ e s, h (d + e) (.var (i + e) s) = none) ∨ Q d i)
    (fun hit _ loose => .inr (new hit loose)) ?_ ?_ ?_ t d
  · rintro d j s kept i rfl
    exact .inl ⟨rfl, 0, s, kept⟩
  · intro d f args _ ih i loose
    obtain ⟨_, image, loose⟩ := loose_app.1 loose
    obtain ⟨a, mem, rfl⟩ := mem_map.1 image
    exact (ih a mem loose).imp_left (.imp_left fun loose => loose_app.2 ⟨a, mem, loose⟩)
  · intro d k vars body ih i loose
    refine (ih loose).imp ?_ out
    rintro ⟨loose, e, s, kept⟩
    exact ⟨loose, vars.length + e, s, by rwa [← Nat.add_assoc, ← Nat.add_assoc]⟩

theorem Traverses.mentions (t : Term) (d : Nat) : (g d t).Mentions c → t.Mentions c ∨ ∃ d t u, h d t = some u ∧ u.Mentions c := by
  refine tr.relates (M := fun _ t u => u.Mentions c → t.Mentions c ∨ ∃ d t u, h d t = some u ∧ u.Mentions c)
    (fun hit mem' => .inr ⟨_, _, _, hit, mem'⟩) (fun _ => .inl) ?_ (fun ih => ih) t d
  intro d f args _ ih mem'
  rcases mentions_app.1 mem' with here | ⟨_, image, mem'⟩
  · exact .inl (mentions_app.2 (.inl here))
  · obtain ⟨a, mem, rfl⟩ := mem_map.1 image
    exact (ih a mem mem').imp_left fun mem' => mentions_app.2 (.inr ⟨a, mem, mem'⟩)

theorem Traverses.sorted (replaced : ∀ {Γ t u}, h Γ.length t = some u → t.Sorted strict (Γ ++ Δ) → u.Sorted strict (Γ ++ Δ'))
    (kept : ∀ {Γ i s}, h Γ.length (.var i s) = none → (var i s).Sorted strict (Γ ++ Δ) → (var i s).Sorted strict (Γ ++ Δ'))
    (sorts : ∀ {Γ t}, t.Sorted strict (Γ ++ Δ) → (g Γ.length t).sort = t.sort)
    (loose : ∀ {Γ t}, strict = false → (∀ i, t.Loose i → ∃ s, (Γ ++ Δ)[i]? = some (.exists, s)) →
      ∀ i, (g Γ.length t).Loose i → ∃ s, (Γ ++ Δ')[i]? = some (.exists, s)) :
    t.Sorted strict (Γ ++ Δ) → (g Γ.length t).Sorted strict (Γ ++ Δ') := by
  refine tr.relates (M := fun d t u => ∀ {Γ}, Γ.length = d → t.Sorted strict (Γ ++ Δ) → u.Sorted strict (Γ ++ Δ'))
    ?_ ?_ ?_ ?_ t _ rfl
  · rintro _ t u hit Γ rfl
    exact replaced hit
  · rintro _ i s hit Γ rfl
    exact kept hit
  · rintro _ f args _ ih Γ rfl sorted
    obtain ⟨proper, places, sorted⟩ := sorted_app.1 sorted
    rw [sorted_app, length_map, map_map]
    refine ⟨proper, ?_, forall_mem_map.2 fun a mem => ih a mem rfl (sorted a mem)⟩
    rw [← places]
    exact map_congr_left fun a mem => sorts (sorted a mem)
  · rintro _ k vars body ih Γ rfl ⟨inner, kind⟩
    have depth : Γ.length + vars.length = (binding k vars ++ Γ).length := by simp [Nat.add_comm]
    rw [← append_assoc] at inner kind
    rw [depth] at ih ⊢
    rw [Sorted, sorts inner, ← append_assoc]
    refine ⟨ih rfl inner, kind.imp_right (Or.imp_right ?_)⟩
    rintro ⟨lax, outer⟩
    exact ⟨lax, loose lax outer⟩

end Traverses

/-! ## Loose variables -/

theorem loose_instantiateAt (closed : ∀ t ∈ ts, t.Closed) (loose : (instantiateAt ts d t).Loose i) :
    t.Loose i ∧ (i < d ∨ d + ts.length ≤ i) := by
  have new {d t u i} (hit : placed ts d t = some u) (loose : u.Loose i) : False := by
    obtain ⟨_, _, v, rfl, _, at', rfl⟩ := placed_eq_some hit
    have closed := closed v (mem_of_getElem? at')
    rw [closed.lift] at loose
    exact closed i loose
  obtain ⟨loose, e, s, kept⟩ := ((traverses_instantiateAt ts).loose id new t d loose).resolve_right id
  refine ⟨loose, ?_⟩
  have : d + e ≤ i + e → ts.length ≤ i + e - (d + e) := by simpa [placed] using kept
  omega

theorem loose_abstractAt {pairs : List (Term × Nat)} (loose : (abstractAt pairs d t).Loose i) :
    t.Loose i ∨ ∃ p ∈ pairs, i = d + p.2 := by
  refine ((traverses_abstractAt pairs).loose (Q := fun d i => ∃ p ∈ pairs, i = d + p.2) ?_ ?_ t d loose).imp_left And.left
  · rintro d i n ⟨p, mem, eq⟩
    exact ⟨p, mem, by omega⟩
  · intro d t u i hit loose
    obtain ⟨p, key, rfl⟩ := map_eq_some_iff.1 hit
    exact ⟨p, mem_of_find?_eq_some key, loose.symm⟩

theorem loose_replaceAll (ex : Exchange pairs) (loose : (replaceAll pairs t).Loose i) : t.Loose i := by
  have new {d : Nat} {t u : Term} {i : Nat} (hit : lookupLast pairs t = some u) : u.Loose i → False :=
    (ex _ (lookupLast_mem hit)).2.1 i
  exact (((traverses_replaceAll ex).loose id (new (d := 0)) t 0 loose).resolve_right id).1

/-! ## Symbols -/

variable {c : Symbol}

theorem mentions_lift (n : Nat) (mem : (lift n d t).Mentions c) : t.Mentions c := by
  refine ((traverses_lift n).mentions t d mem).resolve_right ?_
  rintro ⟨_, _, _, hit, mem⟩
  obtain ⟨i, s, rfl, -, rfl⟩ := lifted_eq_some hit
  exact mem

theorem mentions_instantiateAt (mem : (instantiateAt ts d t).Mentions c) : t.Mentions c ∨ ∃ u ∈ ts, u.Mentions c := by
  refine ((traverses_instantiateAt ts).mentions t d mem).imp_right ?_
  rintro ⟨_, _, _, hit, mem⟩
  obtain ⟨_, _, v, rfl, _, at', rfl⟩ := placed_eq_some hit
  exact ⟨v, mem_of_getElem? at', mentions_lift _ mem⟩

theorem mentions_instantiateAt_reverse (mem : (instantiateAt ts.reverse d t).Mentions c) :
    t.Mentions c ∨ ∃ u ∈ ts, u.Mentions c := by simpa using mentions_instantiateAt mem

theorem mentions_abstractAt {pairs : List (Term × Nat)} (mem : (abstractAt pairs d t).Mentions c) : t.Mentions c := by
  refine ((traverses_abstractAt pairs).mentions t d mem).resolve_right ?_
  rintro ⟨_, _, _, hit, mem⟩
  obtain ⟨p, -, rfl⟩ := map_eq_some_iff.1 hit
  exact mem

theorem mentions_replaceAll (ex : Exchange pairs) (mem : (replaceAll pairs t).Mentions c) :
    t.Mentions c ∨ ∃ p ∈ pairs, p.2.Mentions c := by
  refine ((traverses_replaceAll ex).mentions t 0 mem).imp_right ?_
  rintro ⟨_, _, _, hit, mem⟩
  exact ⟨_, lookupLast_mem hit, mem⟩

/-! ## Sorts fit before and after -/

theorem sort_instantiateAt (sorts : ts.map sort = Δ.map (·.2)) :
    t.Sorted strict (Γ ++ Δ) → (instantiateAt ts Γ.length t).sort = t.sort := by
  refine (traverses_instantiateAt ts).relates (M := fun d t u => ∀ {Γ}, Γ.length = d → t.Sorted strict (Γ ++ Δ) →
    u.sort = t.sort) ?_ (fun _ _ _ _ => rfl) (fun _ _ _ _ _ => rfl) ?_ t _ rfl
  · rintro _ t u hit Γ rfl
    obtain ⟨i, s, v, rfl, le, at', rfl⟩ := placed_eq_some hit
    rintro ⟨k, hit⟩
    rw [getElem?_append_right le] at hit
    have : (ts.map sort)[i - Γ.length]? = some s := by simp [sorts, hit]
    rw [getElem?_map, at'] at this
    rw [sort_lift]
    exact Option.some.inj this
  · rintro _ k vars body ih Γ rfl ⟨inner, -⟩
    rw [← append_assoc] at inner
    have := ih (by simp [Nat.add_comm]) inner
    cases k <;> simp [sort, this]

theorem Sorted.instantiateAt (sorts : ts.map sort = Δ.map (·.2)) (sortedTs : ∀ t ∈ ts, t.Sorted strict [])
    (sorted : t.Sorted strict (Γ ++ Δ)) : (instantiateAt ts Γ.length t).Sorted strict Γ := by
  have same : ts.length = Δ.length := by simpa using congrArg length sorts
  suffices (Term.instantiateAt ts Γ.length t).Sorted strict (Γ ++ []) by simpa using this
  refine (traverses_instantiateAt ts).sorted ?_ ?_ (sort_instantiateAt sorts) ?_ sorted
  · intro Γ t u found _
    obtain ⟨i, s, v, rfl, _, at', rfl⟩ := placed_eq_some found
    have sorted := sortedTs v (mem_of_getElem? at')
    rw [sorted.closed.lift]
    exact sorted.weaken _
  · rintro Γ i s kept ⟨k, found⟩
    have bound := (List.getElem?_eq_some_iff.1 found).1
    rw [length_append] at bound
    have : Γ.length ≤ i → ts.length ≤ i - Γ.length := by simpa [placed] using kept
    rw [getElem?_append_left (by omega)] at found
    exact ⟨k, by simpa using found⟩
  · intro Γ t _ outer i mem'
    obtain ⟨mem', range⟩ := loose_instantiateAt (fun t mem => (sortedTs t mem).closed) mem'
    obtain ⟨s, found⟩ := outer i mem'
    have bound := (List.getElem?_eq_some_iff.1 found).1
    rw [length_append, ← same] at bound
    rw [getElem?_append_left (by omega)] at found
    exact ⟨s, by simpa using found⟩

theorem Sorted.abstractAt {pairs : List (Term × Nat)}
    (keys : ∀ p ∈ pairs, ∃ k, Δ[p.2]? = some (k, p.1.sort) ∧ (strict = true ∨ k = .exists))
    (sorted : t.Sorted strict Γ) : (abstractAt pairs Γ.length t).Sorted strict (Γ ++ Δ) := by
  refine (traverses_abstractAt pairs).sorted (Δ := []) ?_ ?_ (fun _ => sort_abstractAt _ _ _) ?_ (by simpa using sorted)
  · intro Γ t u hit _
    obtain ⟨p, key, rfl⟩ := map_eq_some_iff.1 hit
    obtain ⟨k, at', -⟩ := keys p (mem_of_find?_eq_some key)
    have eq : p.1 = t := by simpa using find?_some key
    exact ⟨k, by rw [getElem?_append_right (by omega), Nat.add_sub_cancel_left, at', eq]⟩
  · intro Γ i s _ sorted
    rw [append_nil] at sorted
    exact sorted.weaken Δ
  · intro Γ t lax outer i mem'
    rw [append_nil] at outer
    rcases loose_abstractAt mem' with mem' | ⟨p, mem, rfl⟩
    · obtain ⟨s, hit⟩ := outer i mem'
      exact ⟨s, by rwa [getElem?_append_left (List.getElem?_eq_some_iff.1 hit).1]⟩
    · obtain ⟨k', at', forced⟩ := keys p mem
      obtain rfl := forced.resolve_left (by simp [lax])
      exact ⟨p.1.sort, by rw [getElem?_append_right (by omega), Nat.add_sub_cancel_left, at']⟩

theorem Sorted.replaceAll (ex : Exchange pairs) (new : ∀ p ∈ pairs, p.2.Sorted strict [])
    (sorted : t.Sorted strict Γ) : (replaceAll pairs t).Sorted strict Γ := by
  rw [← append_nil Γ] at sorted ⊢
  exact (traverses_replaceAll ex).sorted (fun hit _ => (new _ (lookupLast_mem hit)).weaken _) (fun _ sorted => sorted)
    (fun _ => sort_replaceAll ex _) (fun _ outer i inside => outer i (loose_replaceAll ex inside)) sorted

end Term

/-! ## Values -/

namespace Frame
variable {U : Type u} {F G : Frame U} {us vals ρ σ τ : List U}

/-- A traversal from values `τ` to `σ` of the outermost variables keeps values, if it does where it replaces a subterm
or keeps a variable. `P` is what is known of the terms that it meets. -/
theorem Alike.eval_traverse (alike : F.Alike G) {h : Nat → Term → Option Term} {g : Nat → Term → Term}
    (tr : Term.Traverses h g) {P : Nat → Term → Prop}
    (arg : ∀ {d f args}, P d (.app f args) → ∀ a ∈ args, P d a)
    (inner : ∀ {d k vars body}, P d (.bind k vars body) → P (d + vars.length) body)
    (sorts : ∀ {d t}, P d t → (g d t).sort = t.sort)
    (replaced : ∀ {ρ t u}, P ρ.length t → h ρ.length t = some u → F.eval (ρ ++ σ) u = G.eval (ρ ++ τ) t)
    (kept : ∀ {ρ : List U} {i s}, P ρ.length (.var i s) → h ρ.length (.var i s) = none → (ρ ++ σ)[i]? = (ρ ++ τ)[i]?)
    (heads : ∀ {d f args us}, h d (.app f args) = none → us.length = args.length → F.fn f us = G.fn f us) :
    P ρ.length t → F.eval (ρ ++ σ) (g ρ.length t) = G.eval (ρ ++ τ) t := by
  refine tr.relates (M := fun d t u => ∀ {ρ}, ρ.length = d → P d t → F.eval (ρ ++ σ) u = G.eval (ρ ++ τ) t) ?_ ?_ ?_ ?_ t _ rfl
  · rintro _ t u hit ρ rfl ok
    exact replaced ok hit
  · rintro _ i s hit ρ rfl ok
    simp only [eval, getD, kept ok hit, alike.yes]
  · rintro _ f args hit ih ρ rfl ok
    rw [eval_app, eval_app, map_map, heads hit (by simp)]
    congr 1
    exact map_congr_left fun a mem => ih a mem rfl (arg ok a mem)
  · rintro _ k vars body ih ρ rfl ok
    refine alike.eval_bind (sorts (inner ok)) fun us fits => ?_
    have count := fits.length_eq
    rw [length_map] at count
    rw [← append_assoc, ← append_assoc]
    exact ih (by simp; omega) (inner ok)

theorem eval_lift (σ τ : List U) (t : Term) (ρ : List U) :
    F.eval (ρ ++ σ ++ τ) (t.lift σ.length ρ.length) = F.eval (ρ ++ τ) t := by
  rw [append_assoc]
  refine (Alike.refl F).eval_traverse (traverses_lift _) (fun _ _ _ => trivial)
    (fun _ => trivial) (fun _ => sort_lift _ _ _) ?_ ?_ (fun _ _ => rfl) trivial
  · intro ρ t u _ hit
    obtain ⟨i, s, rfl, le, rfl⟩ := lifted_eq_some hit
    simp only [eval, getD]
    rw [getElem?_append_right (by omega), getElem?_append_right (by omega), getElem?_append_right le]
    congr 2
    omega
  · intro ρ i s _ hit
    have inner : i < ρ.length := by simpa [lifted] using hit
    rw [getElem?_append_left inner, getElem?_append_left inner]

theorem eval_closed (closed : t.Closed) (ρ : List U) : F.eval ρ t = F.eval [] t := by
  have := F.eval_lift ρ [] t []
  simpa [closed.lift] using this

theorem eval_instantiateAt (sorts : ts.map sort = Δ.map (·.2)) (sorted : t.Sorted strict (Γ ++ Δ))
    (len : ρ.length = Γ.length) : F.eval ρ (t.instantiateAt ts ρ.length) = F.eval (ρ ++ ts.map (F.eval [])) t := by
  suffices F.eval (ρ ++ []) (t.instantiateAt ts ρ.length) = F.eval (ρ ++ ts.map (F.eval [])) t by simpa using this
  refine (Alike.refl F).eval_traverse (traverses_instantiateAt ts)
    (P := fun d t => ∃ Γ : List (Binder × Srt), Γ.length = d ∧ t.Sorted strict (Γ ++ Δ)) ?_ ?_ ?_ ?_ ?_ (fun _ _ => rfl)
    ⟨Γ, len.symm, sorted⟩
  · rintro _ f args ⟨Γ, rfl, sorted⟩ a mem
    exact ⟨Γ, rfl, (sorted_app.1 sorted).2.2 a mem⟩
  · rintro _ k vars body ⟨Γ, rfl, sorted, -⟩
    exact ⟨binding k vars ++ Γ, by simp [Nat.add_comm], by rwa [append_assoc]⟩
  · rintro _ t ⟨Γ, rfl, sorted⟩
    exact sort_instantiateAt sorts sorted
  · intro ρ t u _ hit
    obtain ⟨i, s, v, rfl, le, at', rfl⟩ := placed_eq_some hit
    have lifted := F.eval_lift ρ [] v []
    simp only [nil_append, append_nil, length_nil] at lifted
    simp only [append_nil, lifted, eval, getD]
    rw [getElem?_append_right le, getElem?_map, at']
    rfl
  · intro ρ i s _ hit
    have : ρ.length ≤ i → ts.length ≤ i - ρ.length := by simpa [placed] using hit
    by_cases inner : i < ρ.length
    · rw [getElem?_append_left inner, getElem?_append_left inner]
    · rw [getElem?_eq_none (by simp; omega), getElem?_eq_none (by simp; omega)]

/-- Variables in the place of closed terms stand for their values; constants among the terms may have other values than before.
-/
theorem eval_abstractAt (agree : F.AgreeOutside P G) (free : ∀ f, P f → f.isFree = true)
    {pairs : List (Term × Nat)} (keys : ∀ p ∈ pairs, p.1.Closed ∧ vals.getD p.2 F.yes = G.eval [] p.1)
    (consts : ∀ c, P c → (∃ p ∈ pairs, p.1 = .app c []) ∧ ∀ u us, F.fn c (u :: us) = G.fn c (u :: us))
    (bound : ∀ i, t.Loose i → i < ρ.length) : F.eval (ρ ++ vals) (t.abstractAt pairs ρ.length) = G.eval ρ t := by
  suffices F.eval (ρ ++ vals) (t.abstractAt pairs ρ.length) = G.eval (ρ ++ []) t by simpa using this
  refine (agree.alike free).eval_traverse (traverses_abstractAt pairs) (P := fun d t => ∀ i, t.Loose i → i < d)
    (fun bound a mem i loose => bound i (loose_app.2 ⟨a, mem, loose⟩)) loose_bound
    (fun _ => sort_abstractAt _ _ _) ?_ ?_ ?_ bound
  · intro ρ t u _ hit
    obtain ⟨p, key, rfl⟩ := map_eq_some_iff.1 hit
    obtain ⟨closed, value⟩ := keys p (mem_of_find?_eq_some key)
    have eq : p.1 = t := by simpa using find?_some key
    rw [eq] at closed value
    rw [eval_closed closed, ← value]
    simp [eval, getD, getElem?_append_right]
  · intro ρ i s bound _
    rw [getElem?_append_left (bound i rfl), append_nil]
  · intro d f args us absent len
    by_cases changed : P f
    · cases us with
      | nil =>
        obtain ⟨⟨q, mem, eq⟩, -⟩ := consts f changed
        obtain rfl := length_eq_zero_iff.1 len.symm
        have := find?_eq_none.1 (Option.map_eq_none_iff.1 absent) q mem
        simp [eq] at this
      | cons => exact (consts f changed).2 _ _
    · rw [agree.fn f changed]

/-- Terms in the place of others have the value of these in a frame that gives the constants among them other
values. -/
theorem eval_replaceAll_of_agree (agree : F.AgreeOutside P G) (free : ∀ f, P f → f.isFree = true) (ex : Term.Exchange pairs)
    (eq : ∀ {t u : Term}, lookupLast pairs t = some u → F.eval [] u = G.eval [] t)
    (consts : ∀ c, P c → lookupLast pairs (.app c []) ≠ none ∧ ∀ u us, F.fn c (u :: us) = G.fn c (u :: us)) :
    F.eval ρ (t.replaceAll pairs) = G.eval ρ t := by
  rw [← append_nil ρ]
  refine (agree.alike free).eval_traverse (traverses_replaceAll ex) (fun _ _ _ => trivial)
    (fun _ => trivial) (fun _ => sort_replaceAll ex _) ?_ (fun _ _ => rfl) ?_ trivial
  · intro ρ t u _ hit
    obtain ⟨old, new, -⟩ := ex _ (lookupLast_mem hit)
    rw [eval_closed old, eval_closed new]
    exact eq hit
  · intro d f args us kept len
    by_cases changed : P f
    · cases us with
      | nil =>
        obtain rfl := length_eq_zero_iff.1 len.symm
        exact absurd kept (consts f changed).1
      | cons => exact (consts f changed).2 _ _
    · rw [agree.fn f changed]

theorem eval_replaceAll (ex : Term.Exchange pairs) (eq : ∀ p ∈ pairs, F.eval [] p.1 = F.eval [] p.2) :
    F.eval ρ (t.replaceAll pairs) = F.eval ρ t :=
  eval_replaceAll_of_agree (agreeOutside_refl fun _ => False) (by simp) ex
    (fun hit => (eq _ (lookupLast_mem hit)).symm) (by simp)

/-! ## Values for constants -/

/-- Values for constants; of two values for one constant the first holds. -/
def Choice.ofConsts (F : Frame U) (pairs : List (Symbol × U))
    (legal : ∀ p ∈ pairs, p.1.isFree = true ∧ p.2 ∈ F.carrier p.1.range) : F.Choice where
  value f := (pairs.find? (·.1 = f)).map fun p us =>
    match us with
    | [] => p.2
    | u :: us => F.fn f (u :: us)
  free := by
    intro f g found
    obtain ⟨p, found, -⟩ := map_eq_some_iff.1 found
    have same : p.1 = f := by simpa using find?_some found
    exact same ▸ (legal p (mem_of_find?_eq_some found)).1
  mem := by
    intro f g chosen us fits
    obtain ⟨p, found, rfl⟩ := map_eq_some_iff.1 chosen
    have same : p.1 = f := by simpa using find?_some found
    cases us with
    | nil => exact same ▸ (legal p (mem_of_find?_eq_some found)).2
    | cons u us => exact F.fn_mem f _ fits

section Consts
variable {pairs : List (Symbol × U)}
  {legal : ∀ p ∈ pairs, p.1.isFree = true ∧ p.2 ∈ F.carrier p.1.range}

theorem value_ofConsts_ne_none {f : Symbol} : (Choice.ofConsts F pairs legal).value f ≠ none ↔ ∃ p ∈ pairs, p.1 = f := by
  simp [Choice.ofConsts]

theorem assign_ofConsts_cons (f : Symbol) (u : U) (us : List U) :
    (F.assign (Choice.ofConsts F pairs legal)).fn f (u :: us) = F.fn f (u :: us) := by
  simp only [assign, Choice.ofConsts]
  cases pairs.find? (·.1 = f) <;> rfl

theorem assign_ofConsts_nil {p : Symbol × U} (hit : pairs.find? (·.1 = p.1) = some p) :
    (F.assign (Choice.ofConsts F pairs legal)).eval [] (.app p.1 []) = p.2 := by simp [eval_app, assign, Choice.ofConsts, hit]

theorem assign_zip_agreeOutside {cs : List Symbol} (legal) :
    F.AgreeOutside (· ∈ cs) (F.assign (Choice.ofConsts F (cs.zip us) legal)) := by
  refine (F.assign_agreeOutside _).mono fun f changed => ?_
  obtain ⟨p, mem, rfl⟩ := value_ofConsts_ne_none.1 changed
  exact (of_mem_zip mem).1

theorem map_eval_consts {cs : List Symbol} (nodup : cs.Nodup) (len : us.length = cs.length)
    (legal : ∀ p ∈ cs.zip us, p.1.isFree = true ∧ p.2 ∈ F.carrier p.1.range) :
    (cs.map fun c => (F.assign (Choice.ofConsts F (cs.zip us) legal)).eval [] (.app c [])) = us := by
  refine ext_getElem (by simp [len]) fun i h h' => ?_
  have mem : i < cs.length := by simpa using h
  rw [getElem_map]
  refine assign_ofConsts_nil (p := (cs[i], us[i])) ?_
  rw [find?_eq_some_iff_getElem]
  refine ⟨by simp, i, by simp [mem, h'], by simp, fun j before => ?_⟩
  have ne : cs[j] ≠ cs[i] := fun same => absurd ((List.Nodup.getElem_inj_iff nodup).1 same) (by omega)
  simpa using ne

end Consts
end Frame

namespace Interpretation
variable {U : Type u}

/-- Constants can have any values of their sort: what lambdas show stays definable, with the constants as
parameters. -/
def assign (I : Interpretation U) (pairs : List (Symbol × U))
    (legal : ∀ p ∈ pairs, p.1.isFree = true ∧ p.2 ∈ I.carrier p.1.range) : Interpretation U where
  toFrame := I.toFrame.assign (.ofConsts I.toFrame pairs legal)
  comprehension := by
    intro Γ ρ vars body sorted fits
    let G := I.toFrame.assign (.ofConsts I.toFrame pairs legal)
    have agree := I.toFrame.assign_agreeOutside (.ofConsts I.toFrame pairs legal)
    have free : ∀ f, (Frame.Choice.ofConsts I.toFrame pairs legal).value f ≠ none → f.isFree = true := by
      intro f changed
      obtain ⟨p, mem, rfl⟩ := Frame.value_ofConsts_ne_none.1 changed
      exact (legal p mem).1
    -- The constants become further variables, with their values as parameters.
    let keys : List (Term × Nat) := pairs.zipIdx.map fun p => (.app p.1.1 [], p.2)
    let Δ : List (Binder × Srt) := pairs.map fun p => (.lambda, p.1.range)
    let vals : List U := pairs.map fun p => G.eval [] (.app p.1 [])
    have sorted' : (body.abstractAt keys (binding .lambda vars ++ Γ).length).Sorted true
        (binding .lambda vars ++ Γ ++ Δ) := by
      refine sorted.abstractAt fun p mem => ?_
      obtain ⟨q, found, rfl⟩ := mem_map.1 mem
      have := mem_zipIdx_iff_getElem?.1 found
      exact ⟨.lambda, by simp [Δ, this, sort], .inl rfl⟩
    have fits' : I.Fits (ρ ++ vals) ((Γ ++ Δ).map (·.2)) := by
      rw [map_append]
      refine fits.append ?_
      simp only [vals, Δ, map_map, Frame.Fits, forall₂_map_left_iff, forall₂_map_right_iff, forall₂_same]
      exact fun p _ => G.const_mem p.1
    rw [append_assoc] at sorted'
    obtain ⟨a, shows⟩ := I.comprehension sorted' fits'
    refine ⟨a, ?_⟩
    rw [sort_abstractAt, (agree.alike free).shows] at shows
    · exact shows
    · intro us fitting
      have count : us.length = vars.length := by simpa using fitting.length_eq
      have params : ρ.length = Γ.length := by simpa using fits.length_eq
      have depth : (binding .lambda vars ++ Γ).length = (us.reverse ++ ρ).length := by simp; omega
      rw [depth, ← append_assoc]
      refine Frame.eval_abstractAt agree free ?_ ?_ fun i loose => depth ▸ sorted.lt_length i loose
      · intro p mem
        obtain ⟨q, found, rfl⟩ := mem_map.1 mem
        have := mem_zipIdx_iff_getElem?.1 found
        exact ⟨closed_app.2 (by simp), by simp [vals, getD, this, G]⟩
      · intro c changed
        obtain ⟨p, mem, rfl⟩ := Frame.value_ofConsts_ne_none.1 changed
        refine ⟨?_, fun u us => (Frame.assign_ofConsts_cons _ _ _).symm⟩
        obtain ⟨i, at'⟩ := mem_iff_getElem?.1 mem
        exact ⟨(.app p.1 [], i), mem_map.2 ⟨(p, i), mem_zipIdx_iff_getElem?.2 at', rfl⟩, rfl⟩

end Interpretation
end SortedLogic

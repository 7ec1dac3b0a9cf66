import SortedLogic.Proofs.Adaptation

/-!
# Formulas that are built

Where the functions that build formulas succeed on arguments of the right sorts nothing was converted, and the result is the
application that its name says.
-/

namespace SortedLogic
open List
open SortedLogic.Symbol (builtin Logical)
variable {a b body c t' : Term} {ts ts' us : List Term} {Γ Δ : List (Binder × Srt)} {vars : Vars}
universe u
open Checked

namespace Term
variable {t : Term} {s : Srt}

/-! ## What is built -/

theorem castTo_of_sort (eq : t.sort = s) : castTo s t = .ok t := by
  exact if_pos eq

theorem eq_of_castTo_bool (ok : castTo s t = .ok t') (form : t'.sort = .bool) : t' = t := by
  unfold castTo at ok
  split at ok
  · cases ok; rfl
  · split at ok <;> cases ok <;> first | rfl | cases form

/-- The sorts from which an argument is converted to `s`: itself, integers for reals and truth values for integers. -/
def Widens (s r : Srt) : Prop := r = s ∨ s = .real ∧ r = .int ∨ s = .int ∧ r = .bool

theorem Widens.sort_adapt (widens : Widens s t.sort) : (adapt s t).sort = s := by
  rcases widens with h | ⟨rfl, h⟩ | ⟨rfl, h⟩
  · rwa [adapt_of_sort h]
  · simp only [adapt, h]
    rfl
  · simp only [adapt, h]
    rfl

theorem castTo_eq_adapt (ok : castTo s t = .ok t') (sorted : t'.sort = s) : t' = adapt s t ∧ Widens s t.sort := by
  unfold castTo at ok
  split at ok
  · rename_i eq
    cases ok
    exact ⟨(adapt_of_sort eq).symm, .inl eq⟩
  rename_i differ
  split at ok
  · rename_i h
    cases ok
    exact ⟨by simp only [adapt, h], .inr (.inl ⟨rfl, h⟩)⟩
  · rename_i h
    cases ok
    exact ⟨by simp only [adapt, h, indicator], .inr (.inr ⟨rfl, h⟩)⟩
  all_goals cases ok
  all_goals exact absurd sorted differ

theorem castAll_eq_adapt : ∀ {ss : List Srt} {ts ts' : List Term}, castAll ss ts = .ok ts' → ts'.map sort = ss →
    ∀ (i : Nat) s t, ss[i]? = some s → ts[i]? = some t → ts'[i]? = some (adapt s t) ∧ Widens s t.sort
  | [], _, _, _, _, _, _, _, hit, _ => by simp at hit
  | _ :: _, [], _, _, _, _, _, _, _, hit => by simp at hit
  | s :: ss, t :: ts, ts', ok, sorts, i, r, u, hit, hit' => by
    obtain ⟨t', head, rest⟩ := bind_eq_ok.1 ok
    obtain ⟨us, tail, last⟩ := bind_eq_ok.1 rest
    cases last
    simp only [map_cons, cons.injEq] at sorts
    cases i with
    | zero =>
      simp only [getElem?_cons_zero, Option.some.injEq] at hit hit' ⊢
      subst hit hit'
      exact castTo_eq_adapt head sorts.1
    | succ i => exact castAll_eq_adapt tail sorts.2 i r u hit hit'

theorem op_eq_ok {f : Symbol} : op f ts = .ok c ↔ ts.map sort = f.domain ∧ c = .app f ts := ite_eq_ok

theorem implies_eq_ok : a.implies b = .ok c ↔ a.sort = .bool ∧ b.sort = .bool ∧ c = .app .implies [a, b] := by
  constructor
  · intro ok
    obtain ⟨a', first, rest⟩ := bind_eq_ok.1 ok
    obtain ⟨b', second, last⟩ := bind_eq_ok.1 rest
    obtain ⟨sorts, rfl⟩ := op_eq_ok.1 last
    simp only [Symbol.implies, builtin, map_cons, map_nil, cons.injEq, and_true] at sorts
    obtain rfl := eq_of_castTo_bool first sorts.1
    obtain rfl := eq_of_castTo_bool second sorts.2
    exact ⟨sorts.1, sorts.2, rfl⟩
  · rintro ⟨ha, hb, rfl⟩
    rw [implies, castTo_of_sort ha, castTo_of_sort hb]
    exact if_pos (by simp [ha, hb, Symbol.implies, builtin])

theorem eq_of_castTo_all (each : List.Forall₂ (fun t t' => castTo s t = .ok t') ts ts')
    (formulas : ∀ t ∈ ts', t.sort = .bool) : ts' = ts := by
  induction each with
  | nil => rfl
  | cons head _ ih =>
    rw [eq_of_castTo_bool head (formulas _ mem_cons_self), ih fun t mem => formulas t (mem_cons_of_mem _ mem)]

theorem eq_of_coerceAll_bool (ok : coerceAll ts = .ok ts') (formulas : ∀ t ∈ ts', t.sort = .bool) : ts' = ts := by
  cases ts with
  | nil => cases ok; rfl
  | cons =>
    obtain ⟨s, -, each⟩ := bind_eq_ok.1 ok
    exact eq_of_castTo_all (mapM_eq_ok.1 each) formulas

theorem coerceAll_of_bool (formulas : ∀ t ∈ ts, t.sort = .bool) : coerceAll ts = .ok ts := by
  cases ts with
  | nil => rfl
  | cons t rest =>
    have join (us : List Term) (h : ∀ u ∈ us, u.sort = .bool) :
        us.foldlM (fun s u => joinSorts s u.sort) Srt.bool = .ok .bool := by
      induction us with
      | nil => rfl
      | cons u _ ih =>
        rw [foldlM_cons, h u mem_cons_self]
        exact ih fun u mem => h u (mem_cons_of_mem _ mem)
    rw [coerceAll, formulas t mem_cons_self, join rest fun u mem => formulas u (mem_cons_of_mem _ mem)]
    refine mapM_eq_ok.2 (forall₂_same.2 fun u mem => castTo_of_sort (formulas u mem))

theorem opAll_coerceAll {f : Symbol} :
    (do opAll f .bool (← coerceAll ts)) = .ok c ↔ (∀ t ∈ ts, t.sort = .bool) ∧ c = .app f ts := by
  constructor
  · intro ok
    obtain ⟨ts', first, last⟩ := bind_eq_ok.1 ok
    obtain ⟨sorts, rfl⟩ := ite_eq_ok.1 last
    have formulas : ∀ t ∈ ts', t.sort = .bool := by simpa using sorts
    obtain rfl := eq_of_coerceAll_bool first formulas
    exact ⟨formulas, rfl⟩
  · rintro ⟨formulas, rfl⟩
    rw [coerceAll_of_bool formulas]
    exact if_pos (by simpa using formulas)

theorem and_eq_ok : Term.and ts = .ok c ↔ (∀ t ∈ ts, t.sort = .bool) ∧ c = .app .and ts := opAll_coerceAll

theorem or_eq_ok : Term.or ts = .ok c ↔ (∀ t ∈ ts, t.sort = .bool) ∧ c = .app .or ts := opAll_coerceAll

theorem coerce_of_sort (eq : a.sort = b.sort) : coerce a b = .ok (a, b) := by
  have join : joinSorts a.sort b.sort = .ok a.sort := if_pos eq
  rw [coerce, join]
  show (castTo a.sort a >>= fun a' => castTo a.sort b >>= fun b' => pure (a', b')) = _
  rw [castTo_of_sort rfl, castTo_of_sort eq.symm]
  rfl

theorem eq_of_sort (eq : a.sort = b.sort) : a.eq b = .ok (.app (.eq a.sort) [a, b]) := by
  rw [Term.eq, coerce_of_sort eq]
  exact if_pos (by simp [eq, Symbol.eq, builtin])

theorem neq_of_sort (eq : a.sort = b.sort) : a.neq b = .ok (.app (.distinct [a.sort, a.sort]) [a, b]) := by
  rw [neq, coerce_of_sort eq]
  exact if_pos eq

theorem widens_instantiateAdaptingAt {strict : Bool} (len : us.length = Δ.length)
    (widens : ∀ (i : Nat) u k s, us[i]? = some u → Δ[i]? = some (k, s) → Widens s u.sort)
    (sorted : t.Sorted strict (Γ ++ Δ)) (ok : instantiateAdaptingAt us Γ.length t = .ok t') :
    Widens t.sort t'.sort ∨ ∃ ds r, t.sort = .array ds r := by
  cases t with
  | var _ s =>
    obtain ⟨k, hit⟩ := sorted
    cases ok
    rw [instantiateAt]
    split
    · exact .inl (.inl rfl)
    rename_i outside
    obtain ⟨u, -, at', hit⟩ := exists_outer len hit outside
    simp only [at', sort_lift]
    exact .inl (widens _ u k s at' hit)
  | app =>
    obtain ⟨args', rfl, -⟩ := instantiateAdaptingAt_app (sorted_app.1 sorted).2.1 ok
    exact .inl (.inl rfl)
  | bind k =>
    obtain ⟨body', -, last⟩ := bind_eq_ok.1 ok
    cases last
    cases k with
    | lambda => exact .inr ⟨_, _, rfl⟩
    | _ => exact .inl (.inl rfl)

theorem eq_of_widens (widens : Widens a.sort b.sort ∨ ∃ ds r, a.sort = .array ds r) (ok : a.eq b = .ok c) :
    c = .app (.eq a.sort) [a, adapt a.sort b] ∧ (adapt a.sort b).sort = a.sort := by
  by_cases eq : b.sort = a.sort
  · rw [eq_of_sort eq.symm] at ok
    cases ok
    rw [adapt_of_sort eq]
    exact ⟨rfl, eq⟩
  obtain ⟨⟨a', b'⟩, coerced, last⟩ := bind_eq_ok.1 ok
  obtain ⟨s, join, rest⟩ := bind_eq_ok.1 coerced
  obtain ⟨x, left, rest⟩ := bind_eq_ok.1 rest
  obtain ⟨y, right, pair⟩ := bind_eq_ok.1 rest
  cases pair
  obtain rfl : s = a.sort := by
    unfold joinSorts at join
    rw [if_neg (Ne.symm eq)] at join
    rcases widens with (h | ⟨ha, hb⟩ | ⟨ha, hb⟩) | ⟨ds, r, ha⟩
    · exact absurd h eq
    · rw [ha, hb] at join
      cases join
      exact ha.symm
    · rw [ha, hb] at join
      cases join
      exact ha.symm
    · -- An array is no subsort of anything, and contains none.
      rw [ha] at join
      cases hb : b.sort <;> rw [hb] at join <;> cases join
  rw [castTo_of_sort rfl] at left
  cases left
  obtain ⟨sorts, rfl⟩ := op_eq_ok.1 last
  simp only [Symbol.eq, builtin, map_cons, map_nil, cons.injEq, and_true, true_and] at sorts
  obtain ⟨rfl, -⟩ := castTo_eq_adapt right sorts
  exact ⟨rfl, sorts⟩

/-! ## Sorts of what is built -/

variable {strict : Bool}

theorem sorted_implies : (app .implies [a, b]).Sorted strict Γ ↔
    (a.sort = .bool ∧ b.sort = .bool) ∧ a.Sorted strict Γ ∧ b.Sorted strict Γ := by
  have places : placesOf .implies [a, b].length = [.bool, .bool] := rfl
  rw [sorted_app, places]
  simp [Logical.implies.proper]

theorem sorted_eq : (app (.eq s) [a, b]).Sorted strict Γ ↔ (a.sort = s ∧ b.sort = s) ∧ a.Sorted strict Γ ∧ b.Sorted strict Γ := by
  have places : placesOf (.eq s) [a, b].length = [s, s] := rfl
  rw [sorted_app, places]
  simp [(Logical.eq s).proper]

theorem placesOf_connective {f : Symbol} (connective : ∀ s ∈ f.domain, s = .bool) (n : Nat) :
    placesOf f n = replicate n .bool := by
  unfold placesOf
  split
  · rename_i arity
    exact eq_replicate_iff.2 ⟨arity, connective⟩
  · cases dom : f.domain with
    | nil => rfl
    | cons s => rw [headD_cons, connective s (by simp [dom])]

theorem sorted_and : (app .and ts).Sorted strict Γ ↔ ∀ t ∈ ts, t.sort = .bool ∧ t.Sorted strict Γ := by
  rw [sorted_app, placesOf_connective (by decide), eq_replicate_iff]
  simp [Logical.and.proper, forall_and]

theorem sorted_ite : (app (.ite s) [a, b, c]).Sorted strict Γ ↔
    (a.sort = .bool ∧ b.sort = s ∧ c.sort = s) ∧ a.Sorted strict Γ ∧ b.Sorted strict Γ ∧ c.Sorted strict Γ := by
  rw [sorted_app, show placesOf (.ite s) [a, b, c].length = [.bool, s, s] from rfl]
  simp [(Logical.ite s).proper]

theorem ite_of_sort (eq : b.sort = c.sort) : a.ite b c = .ok t ↔ a.sort = .bool ∧ t = .app (.ite b.sort) [a, b, c] := by
  constructor
  · intro ok
    obtain ⟨a', cast, rest⟩ := bind_eq_ok.1 ok
    rw [coerce_of_sort eq] at rest
    obtain ⟨sorts, rfl⟩ := op_eq_ok.1 rest
    have form : a'.sort = .bool := (cons.inj sorts).1
    obtain rfl := eq_of_castTo_bool cast form
    exact ⟨form, rfl⟩
  · rintro ⟨form, rfl⟩
    rw [Term.ite, castTo_of_sort form, coerce_of_sort eq]
    change op (.ite b.sort) [a, b, c] = _
    rw [op, if_pos (by simp [Symbol.ite, builtin, form, eq])]

end Term

/-! ## When it is true -/

namespace Frame
variable {U : Type u} {F : Frame U} {ρ : List U}

theorem eval_implies : F.eval ρ (.app .implies [a, b]) = F.yes ↔ (F.eval ρ a = F.yes → F.eval ρ b = F.yes) := by
  exact F.fn_implies _ _

theorem eq_iff_of_bool {u v : U} (F : Frame U) (mem : u ∈ F.carrier .bool) (mem' : v ∈ F.carrier .bool) :
    u = v ↔ (u = F.yes ↔ v = F.yes) := by
  rw [F.carrier_bool] at mem mem'
  obtain rfl | rfl := mem <;> obtain rfl | rfl := mem' <;> simp [F.no_ne_yes, F.no_ne_yes.symm]

theorem eval_not : F.eval ρ (.app .not [a]) = F.yes ↔ F.eval ρ a ≠ F.yes := by exact F.fn_not _

theorem eval_and : F.eval ρ (.app .and ts) = F.yes ↔ ∀ t ∈ ts, F.eval ρ t = F.yes := by
  rw [eval_app, F.fn_and]
  simp

theorem eval_or : F.eval ρ (.app .or ts) = F.yes ↔ ∃ t ∈ ts, F.eval ρ t = F.yes := by
  rw [eval_app, F.fn_or]
  simp

theorem eval_eq {s : Srt} : F.eval ρ (.app (.eq s) [a, b]) = F.yes ↔ F.eval ρ a = F.eval ρ b := by exact F.fn_eq s _ _

open Classical in
theorem eval_ite {s : Srt} : F.eval ρ (.app (.ite s) [a, b, c]) = if F.eval ρ a = F.yes then F.eval ρ b else F.eval ρ c := by
  rw [eval_app]
  by_cases h : F.eval ρ a = F.yes
  · rw [if_pos h, map_cons, h]
    exact F.fn_ite_yes s _ _
  · rw [if_neg h]
    exact F.fn_ite_no s _ _ _ h

theorem eval_forall : F.eval ρ (.bind .forall vars body) = F.yes ↔
    ∀ us, F.Fits us (vars.map (·.2)) → F.eval (us.reverse ++ ρ) body = F.yes := by exact F.truth_eq_yes

theorem eval_exists : F.eval ρ (.bind .exists vars body) = F.yes ↔
    ∃ us, F.Fits us (vars.map (·.2)) ∧ F.eval (us.reverse ++ ρ) body = F.yes := by exact F.truth_eq_yes

end Frame
end SortedLogic

import SortedLogic.Proofs.Computation
import SortedLogic.Proofs.Substitution

/-!
# Terms in the place of variables of another sort

`Term.applyBody` accepts terms whose sorts are not those of the variables: as an argument such a term is converted, as a formula
or the body of a quantifier it stays as it is. The value of the result is that of the body at converted values (`Frame.Stands`):
a formula is true exactly if it was true at those values (`Frame.truth_applyBody`). Sorts fit in the lenient sense only, as a
quantifier may be left before a term that is no formula.
-/

namespace SortedLogic
open Checked (bind_eq_ok mapM_eq_ok)
open Term
open List
universe u
variable {t t' body : Term} {strict : Bool} {c : Symbol} {k : Binder} {vars : Vars} {ts args us : List Term}
  {Γ Δ : List (Binder × Srt)}

namespace Term

/-! ## Converting one term -/

theorem adapt_of_sort {s : Srt} (eq : t.sort = s) : adapt s t = t := by
  unfold adapt
  split <;> simp_all

theorem proper_int (v : Int) : (Symbol.int v).Proper := fun _ _ op => by cases op

theorem proper_rat (v : Rat) : (Symbol.rat v).Proper := fun _ _ op => by cases op

theorem Sorted.adapt (sorted : t.Sorted strict Γ) (s : Srt) : (adapt s t).Sorted strict Γ := by
  have int (v : Int) : (int v).Sorted strict Γ := sorted_app.2 ⟨proper_int v, rfl, by simp⟩
  have rat (v : Rat) : (rat v).Sorted strict Γ := sorted_app.2 ⟨proper_rat v, rfl, by simp⟩
  unfold Term.adapt
  split
  · rename_i h
    exact sorted_app.2 ⟨(Symbol.Logical.ite .int).proper, by simp [h]; rfl, by simp [sorted, int]⟩
  · rename_i h
    exact sorted_app.2 ⟨(Symbol.Logical.ite .real).proper, by simp [h]; rfl, by simp [sorted, rat]⟩
  · rename_i h
    exact sorted_app.2 ⟨Symbol.proper_builtin (by decide) _ _, by simp [h]; rfl, by simp [sorted]⟩
  · rename_i h
    exact sorted_app.2 ⟨Symbol.proper_builtin (by decide) _ _, by simp [h]; rfl, by simp [sorted]⟩
  · exact sorted

theorem mentions_adapt (free : c.isFree = true) {s : Srt} (mem : (adapt s t).Mentions c) : t.Mentions c := by
  have fixed {f : Symbol} (h : f.isFree = false) : f ≠ c := by rintro rfl; simp [h] at free
  have ite (s : Srt) : Symbol.ite s ≠ c := fixed rfl
  have int (v : Int) : Symbol.int v ≠ c := fixed rfl
  have rat (v : Rat) : Symbol.rat v ≠ c := fixed rfl
  have toReal : Symbol.toReal ≠ c := fixed rfl
  have toInt : Symbol.builtin "to_int" [.real] .int ≠ c := fixed rfl
  unfold adapt at mem
  split at mem <;> simp_all [mentions_app, Term.int, Term.rat]

/-! ## Converting while replacing -/

theorem instantiatesAdaptingAt_eq_mapM (us : List Term) (d : Nat) (ts : List Term) :
    instantiatesAdaptingAt us d ts = ts.mapM (instantiateAdaptingAt us d) := by
  induction ts with
  | nil => rfl
  | cons _ _ ih => rw [instantiatesAdaptingAt, mapM_cons, ih]

theorem readapt_eq (f : Symbol) (args : List Term) : readapt f args =
    if (zipWith adapt (placesOf f args.length) args).map sort = placesOf f args.length
    then .ok (.app f (zipWith adapt (placesOf f args.length) args)) else .error .illFormed := by
  have zipped : ((placesOf f args.length).zip args).map (fun p => adapt p.1 p.2)
      = zipWith adapt (placesOf f args.length) args := by rw [zip, map_zipWith]
  rw [← zipped]
  rfl

theorem instantiateAdaptingAt_app {d : Nat} {f : Symbol} (places : args.map sort = placesOf f args.length)
    (ok : instantiateAdaptingAt us d (.app f args) = .ok t') :
    ∃ args', t' = .app f args' ∧ List.Forall₂ (fun a b => b.sort = a.sort ∧
      ∃ a', instantiateAdaptingAt us d a = .ok a' ∧ b = adapt a.sort a') args args' := by
  rw [instantiateAdaptingAt, instantiatesAdaptingAt_eq_mapM, bind_eq_ok] at ok
  obtain ⟨args', each, ok⟩ := ok
  rw [mapM_eq_ok] at each
  split at ok
  · rename_i eq
    subst eq
    cases ok
    refine ⟨_, rfl, forall₂_same.2 fun a mem => ⟨rfl, a, ?_, (adapt_of_sort rfl).symm⟩⟩
    exact forall₂_same.1 each a mem
  · rename_i changed
    rw [readapt_eq, ← List.Forall₂.length_eq each, ← places] at ok
    split at ok
    swap
    · cases ok
    rename_i sorts
    cases ok
    refine ⟨_, rfl, ?_⟩
    clear places changed
    induction each with
    | nil => exact .nil
    | cons head _ ih =>
      simp only [map_cons, zipWith_cons_cons, cons.injEq] at sorts
      exact .cons ⟨sorts.1, _, head, rfl⟩ (ih sorts.2)

theorem instantiateAdaptingAt_bind (ok : instantiateAdaptingAt us Γ.length (.bind k vars body) = .ok t') :
    ∃ body', instantiateAdaptingAt us (binding k vars ++ Γ).length body = .ok body' ∧ t' = .bind k vars body' := by
  obtain ⟨body', within, last⟩ := bind_eq_ok.1 ok
  cases last
  exact ⟨body', by simpa [Nat.add_comm] using within, rfl⟩

theorem instantiateAdaptingAt_of_lt (us : List Term) :
    ∀ {d : Nat}, (∀ i, t.Loose i → i < d) → instantiateAdaptingAt us d t = .ok t := by
  induction t with
  | var i => intro d small; simp [instantiateAdaptingAt, instantiateAt, small i rfl]
  | app _ args ih =>
    intro d small
    have eq : args.mapM (instantiateAdaptingAt us d) = .ok args := mapM_eq_ok.2 (forall₂_same.2 fun a mem =>
        ih a mem fun i loose => small i (loose_app.2 ⟨a, mem, loose⟩))
    rw [instantiateAdaptingAt, instantiatesAdaptingAt_eq_mapM, eq]
    exact if_pos rfl
  | bind _ _ _ ih =>
    intro d small
    rw [instantiateAdaptingAt, ih (loose_bound small)]
    rfl

theorem instantiateAdaptingAt_of_sorts (sorts : us.map sort = Δ.map (·.2)) :
    ∀ {Γ : List (Binder × Srt)}, t.Sorted strict (Γ ++ Δ) →
      instantiateAdaptingAt us Γ.length t = .ok (instantiateAt us Γ.length t) := by
  induction t with
  | var => intro Γ _; rfl
  | app _ args ih =>
    intro Γ sorted
    obtain ⟨-, places, sorted⟩ := sorted_app.1 sorted
    have each : args.mapM (instantiateAdaptingAt us Γ.length) = .ok (args.map (instantiateAt us Γ.length)) := by
      rw [mapM_eq_ok, forall₂_map_right_iff, forall₂_same]
      exact fun a mem => ih a mem (sorted a mem)
    have eq : (args.map (instantiateAt us Γ.length)).map sort = args.map sort := by
      rw [map_map]
      exact map_congr_left fun a mem => sort_instantiateAt sorts (sorted a mem)
    have kept : zipWith adapt (args.map sort) (args.map (instantiateAt us Γ.length))
        = args.map (instantiateAt us Γ.length) := by
      rw [← eq]
      generalize args.map (instantiateAt us Γ.length) = bs
      induction bs with
      | nil => rfl
      | cons _ _ ih => simpa [adapt_of_sort] using ih
    rw [instantiateAdaptingAt, instantiatesAdaptingAt_eq_mapM, each, instantiateAt, instantiatesAt_eq_map]
    show (if _ then _ else _) = _
    split
    · rename_i unchanged
      rw [unchanged]
    · rw [readapt_eq, length_map, ← places, kept, if_pos eq]
  | bind _ _ _ ih =>
    rintro Γ ⟨inner, -⟩
    rw [← append_assoc] at inner
    have := ih inner
    rw [length_append, length_binding, Nat.add_comm] at this
    rw [instantiateAdaptingAt, this]
    rfl

theorem applyBody_eq (sorted : body.Sorted strict ([] ++ binding k vars)) :
    applyBody vars body ts = instantiateAdaptingAt ts.reverse 0 body := by
  unfold applyBody
  split
  · rename_i eq
    have sorts : ts.reverse.map sort = (binding k vars).map (·.2) := by simp [binding, Function.comp_def, ← eq]
    exact (instantiateAdaptingAt_of_sorts sorts sorted).symm
  · rfl

/-! ## Sorts and symbols of the result -/

section

theorem Sorted.body_kind (outer : strict = true ∨ ∀ e ∈ Δ, e.1 ≠ .exists)
    (sorted : (bind k vars body).Sorted strict (Γ ++ Δ)) : k = .lambda ∨ body.sort = .bool ∨
      (strict = false ∧ ∀ i, body.Loose i → ∃ s, (binding k vars ++ Γ)[i]? = some (.exists, s)) ∧
        ∀ us, instantiateAdaptingAt us (binding k vars ++ Γ).length body = .ok body := by
  refine sorted.2.imp_right (Or.imp_right ?_)
  rintro ⟨lenient, each⟩
  suffices bound : ∀ i, body.Loose i → ∃ s, (binding k vars ++ Γ)[i]? = some (.exists, s) by
    refine ⟨⟨lenient, bound⟩, fun us => instantiateAdaptingAt_of_lt us fun i loose => ?_⟩
    exact (List.getElem?_eq_some_iff.1 (bound i loose).choose_spec).1
  intro i loose
  obtain ⟨s, hit⟩ := each i loose
  refine ⟨s, ?_⟩
  rw [← append_assoc] at hit
  by_cases inner : i < (binding k vars ++ Γ).length
  · rwa [getElem?_append_left inner] at hit
  rw [getElem?_append_right (by omega)] at hit
  rcases outer with h | h
  · rw [h] at lenient; cases lenient
  · exact absurd rfl (h _ (mem_of_getElem? hit))

theorem exists_outer {i : Nat} {e : Binder × Srt} (len : us.length = Δ.length) (hit : (Γ ++ Δ)[i]? = some e)
    (outside : ¬ i < Γ.length) : ∃ u ∈ us, us[i - Γ.length]? = some u ∧ Δ[i - Γ.length]? = some e := by
  rw [getElem?_append_right (by omega)] at hit
  have mem : i - Γ.length < us.length := len ▸ (List.getElem?_eq_some_iff.1 hit).1
  exact ⟨_, getElem_mem mem, getElem?_eq_getElem mem, hit⟩

theorem Sorted.instantiateAdaptingAt (len : us.length = Δ.length) (sortedUs : ∀ u ∈ us, u.Sorted false [])
    (outer : strict = true ∨ ∀ e ∈ Δ, e.1 ≠ .exists) :
    ∀ {Γ : List (Binder × Srt)} {t' : Term}, t.Sorted strict (Γ ++ Δ) → instantiateAdaptingAt us Γ.length t = .ok t' →
      t'.Sorted false Γ ∧ (t.sort = .bool → t'.sort = .bool ∨ t'.Closed) := by
  induction t with
  | var =>
    rintro Γ t' ⟨k, hit⟩ ok
    cases ok
    rw [Term.instantiateAt]
    split
    · rename_i inner
      rw [getElem?_append_left inner] at hit
      exact ⟨⟨k, hit⟩, .inl⟩
    rename_i outside
    obtain ⟨u, mem, at', -⟩ := exists_outer len hit outside
    have sorted := sortedUs u mem
    simp only [at', sorted.closed.lift]
    exact ⟨sorted.weaken Γ, fun _ => .inr sorted.closed⟩
  | app _ args ih =>
    intro Γ t' sorted ok
    obtain ⟨proper, places, sorted⟩ := sorted_app.1 sorted
    obtain ⟨args', rfl, each⟩ := instantiateAdaptingAt_app places ok
    have sorts : args.map sort = args'.map sort := Forall₂.map_eq each fun _ _ _ related => related.1.symm
    refine ⟨sorted_app.2 ⟨proper, by rw [← sorts, places, List.Forall₂.length_eq each], ?_⟩, .inl⟩
    intro b mem
    obtain ⟨a, mem', -, a', ok, rfl⟩ := Forall₂.exists_of_mem_right each mem
    exact (ih a mem' (sorted a mem') ok).1.adapt a.sort
  | bind k _ _ ih =>
    intro Γ t' sorted ok
    have kind := sorted.body_kind outer
    obtain ⟨inner, -⟩ := sorted
    obtain ⟨body', within, rfl⟩ := instantiateAdaptingAt_bind ok
    rw [← append_assoc] at inner
    obtain ⟨fits, form⟩ := ih inner within
    refine ⟨⟨fits, ?_⟩, fun h => .inl (by cases k <;> simp_all [sort])⟩
    rcases kind with h | h | ⟨⟨-, bound⟩, unchanged⟩
    · exact .inl h
    · refine .inr ((form h).imp_right fun closed => ⟨rfl, fun i loose => absurd loose (closed i)⟩)
    · cases (unchanged us).symm.trans within
      exact .inr (.inr ⟨rfl, bound⟩)

theorem mentions_instantiateAdaptingAt (free : c.isFree = true) :
    ∀ {Γ : List (Binder × Srt)} {d : Nat} {t' : Term}, t.Sorted strict Γ → instantiateAdaptingAt us d t = .ok t' →
      t'.Mentions c → t.Mentions c ∨ ∃ u ∈ us, u.Mentions c := by
  induction t with
  | var =>
    intro Γ d t' _ ok mem'
    cases ok
    exact mentions_instantiateAt mem'
  | app _ _ ih =>
    intro Γ d t' sorted ok mem'
    obtain ⟨-, places, sorted⟩ := sorted_app.1 sorted
    obtain ⟨args', rfl, each⟩ := instantiateAdaptingAt_app places ok
    rcases mentions_app.1 mem' with here | ⟨b, mem, mem'⟩
    · exact .inl (mentions_app.2 (.inl here))
    · obtain ⟨a, source, -, a', ok, rfl⟩ := Forall₂.exists_of_mem_right each mem
      exact (ih a source (sorted a source) ok (mentions_adapt free mem')).imp_left
        fun mem' => mentions_app.2 (.inr ⟨a, source, mem'⟩)
  | bind _ _ _ ih =>
    intro Γ d t' sorted ok mem'
    obtain ⟨body', within, last⟩ := bind_eq_ok.1 ok
    cases last
    exact ih sorted.1 within mem'

theorem binding_ne_exists (ne : k ≠ .exists) (vars : Vars) : ∀ e ∈ binding k vars, e.1 ≠ .exists := by
  intro e mem
  simp only [binding, mem_reverse, mem_map] at mem
  obtain ⟨_, -, rfl⟩ := mem
  exact ne

theorem Sorted.applyBody (sorted : body.Sorted strict ([] ++ binding k vars)) (outer : strict = true ∨ k ≠ .exists)
    (sortedTs : ∀ t ∈ ts, t.Sorted false []) (len : ts.length = vars.length)
    (ok : applyBody vars body ts = .ok t') : t'.Sorted false [] := by
  rw [applyBody_eq sorted] at ok
  refine (sorted.instantiateAdaptingAt (by simpa using len) ?_ ?_ ok).1
  · exact fun u mem => sortedTs u (mem_reverse.1 mem)
  · exact outer.imp_right fun ne => binding_ne_exists ne vars

theorem mentions_applyBody (sorted : body.Sorted strict ([] ++ binding k vars)) (ok : applyBody vars body ts = .ok t')
    (free : c.isFree = true) (mem' : t'.Mentions c) : body.Mentions c ∨ ∃ u ∈ ts, u.Mentions c := by
  rw [applyBody_eq sorted] at ok
  refine (mentions_instantiateAdaptingAt free sorted ok mem').imp_right ?_
  rintro ⟨u, mem, mem'⟩
  exact ⟨u, mem_reverse.1 mem, mem'⟩

end
end Term

namespace Frame
variable {U : Type u} {F : Frame U}

/-- In a place of sort `s` the term counts as `w`: the value of the converted term, or truth where a formula is expected and the
term is true. -/
structure Stands (F : Frame U) (s : Srt) (u : Term) (w : U) : Prop where
  mem : w ∈ F.carrier s
  value : (Term.adapt s u).sort = s → F.eval [] (Term.adapt s u) = w
  truth : s = .bool → (F.eval [] u = F.yes ↔ w = F.yes)

theorem exists_stands {u : Term} (sorted : u.Sorted false []) (s : Srt) : ∃ w, F.Stands s u w := by
  by_cases converted : (Term.adapt s u).sort = s
  · refine ⟨F.eval [] (Term.adapt s u), ?_, fun _ => rfl, ?_⟩
    · have := F.eval_mem (sorted.adapt s) .nil
      rwa [converted] at this
    · rintro rfl
      rfl
  · by_cases form : s = .bool
    · subst form
      exact ⟨F.truth (F.eval [] u = F.yes), F.truth_mem _, fun h => absurd h converted, fun _ => F.truth_eq_yes.symm⟩
    · exact ⟨_, (F.nonempty s).some_mem, fun h => absurd h converted, fun h => absurd h form⟩

section
variable {ws : List U}

theorem eval_instantiateAdaptingAt (len : us.length = Δ.length) (sortedUs : ∀ u ∈ us, u.Sorted false [])
    (outer : strict = true ∨ ∀ e ∈ Δ, e.1 ≠ .exists)
    (stands : ∀ (i : Nat) u k s, us[i]? = some u → Δ[i]? = some (k, s) → ∃ w, ws[i]? = some w ∧ F.Stands s u w)
    : ∀ {Γ : List (Binder × Srt)} {ρ : List U} {t' : Term}, t.Sorted strict (Γ ++ Δ) →
      ρ.length = Γ.length → Term.instantiateAdaptingAt us Γ.length t = .ok t' →
      ((Term.adapt t.sort t').sort = t.sort → F.eval ρ (Term.adapt t.sort t') = F.eval (ρ ++ ws) t) ∧
      (t.sort = .bool → (F.eval ρ t' = F.yes ↔ F.eval (ρ ++ ws) t = F.yes)) := by
  induction t with
  | var i s =>
    rintro Γ ρ t' ⟨k, hit⟩ params ok
    cases ok
    rw [Term.instantiateAt]
    split
    · rename_i inner
      have same : F.eval ρ (.var i s) = F.eval (ρ ++ ws) (.var i s) := by simp [eval, getD, getElem?_append_left, params, inner]
      rw [adapt_of_sort rfl, same]
      exact ⟨fun _ => rfl, fun _ => Iff.rfl⟩
    rename_i outside
    obtain ⟨u, mem, at', hit⟩ := exists_outer len hit outside
    obtain ⟨w, value, stands⟩ := stands _ u k s at' hit
    have sorted := sortedUs u mem
    have target : F.eval (ρ ++ ws) (.var i s) = w := by
      simp [eval, getD, getElem?_append_right, params, Nat.not_lt.1 outside, value]
    simp only [at', sorted.closed.lift]
    rw [target, eval_closed (sorted.adapt _).closed, eval_closed sorted.closed]
    exact ⟨stands.value, stands.truth⟩
  | app f args ih =>
    intro Γ ρ t' sorted params ok
    obtain ⟨proper, places, sorted⟩ := sorted_app.1 sorted
    obtain ⟨args', rfl, each⟩ := instantiateAdaptingAt_app places ok
    have same : F.eval ρ (.app f args') = F.eval (ρ ++ ws) (.app f args) := by
      rw [eval_app, eval_app]
      refine congrArg _ (Forall₂.map_eq each fun a mem b related => ?_).symm
      obtain ⟨sorts, a', ok, rfl⟩ := related
      exact ((ih a mem (sorted a mem) params ok).1 sorts).symm
    rw [adapt_of_sort (t := .app f args') (s := (Term.app f args).sort) rfl, same]
    exact ⟨fun _ => rfl, fun _ => Iff.rfl⟩
  | bind k vars body ih =>
    intro Γ ρ t' sorted params ok
    have kind := sorted.body_kind outer
    obtain ⟨inner, -⟩ := sorted
    obtain ⟨body', within, rfl⟩ := instantiateAdaptingAt_bind ok
    rw [← append_assoc] at inner
    have count {vs : List U} (fits : F.Fits vs (vars.map (·.2))) : (vs.reverse ++ ρ).length = (binding k vars ++ Γ).length := by
      have := fits.length_eq
      simp at this ⊢
      omega
    have same {vs : List U} (fits : F.Fits vs (vars.map (·.2))) (sorts : body'.sort = body.sort) :
        F.eval (vs.reverse ++ ρ) body' = F.eval (vs.reverse ++ (ρ ++ ws)) body := by
      have := (ih inner (count fits) within).1 (by rwa [adapt_of_sort sorts])
      rwa [adapt_of_sort sorts, append_assoc] at this
    have true_iff {vs : List U} (fits : F.Fits vs (vars.map (·.2))) (quantifier : k ≠ .lambda) :
        F.eval (vs.reverse ++ ρ) body' = F.yes ↔ F.eval (vs.reverse ++ (ρ ++ ws)) body = F.yes := by
      rcases kind with h | h | ⟨-, unchanged⟩
      · exact absurd h quantifier
      · rw [← append_assoc]
        exact (ih inner (count fits) within).2 h
      · cases (unchanged us).symm.trans within
        rw [same fits rfl]
    cases k with
    | «forall» =>
      have eq : F.eval ρ (.bind .forall vars body') = F.eval (ρ ++ ws) (.bind .forall vars body) := by
        simp only [eval]
        exact congrArg _ (propext (forall₂_congr fun vs fits => true_iff fits (by simp)))
      exact ⟨fun _ => eq, fun _ => by rw [eq]⟩
    | «exists» =>
      have eq : F.eval ρ (.bind .exists vars body') = F.eval (ρ ++ ws) (.bind .exists vars body) := by
        exact congrArg _ (propext (exists_congr fun vs => and_congr_right fun fits => true_iff fits (by simp)))
      exact ⟨fun _ => eq, fun _ => by rw [eq]⟩
    | lambda =>
      refine ⟨fun sorts => ?_, fun h => by cases h⟩
      have sorts : body'.sort = body.sort := by simpa [Term.sort, Term.adapt] using sorts
      exact F.eval_bind_congr sorts fun vs fits => same fits sorts

theorem exists_stands_all (len : us.length = Δ.length) (sortedUs : ∀ u ∈ us, u.Sorted false []) :
    ∃ ws, F.Fits ws (Δ.map (·.2)) ∧
      ∀ (i : Nat) u k s, us[i]? = some u → Δ[i]? = some (k, s) → ∃ w, ws[i]? = some w ∧ F.Stands s u w := by
  induction us generalizing Δ with
  | nil =>
    obtain rfl := length_eq_zero_iff.1 len.symm
    exact ⟨[], .nil, by simp⟩
  | cons u _ ih =>
    cases Δ with
    | nil => cases len
    | cons e =>
      obtain ⟨w, head⟩ := F.exists_stands (sortedUs u mem_cons_self) e.2
      obtain ⟨ws, fits, tail⟩ := ih (by simpa using len) fun u mem => sortedUs u (mem_cons_of_mem _ mem)
      refine ⟨w :: ws, .cons head.mem fits, fun i v k s hit hit' => ?_⟩
      cases i with
      | zero =>
        simp only [getElem?_cons_zero, Option.some.injEq] at hit hit'
        subst hit hit'
        exact ⟨w, rfl, head⟩
      | succ i => exact tail i v k s (by simpa using hit) (by simpa using hit')

theorem truth_applyBody (sorted : (Term.bind k vars body).Sorted strict []) (quantifier : k ≠ .lambda)
    (outer : strict = true ∨ k ≠ .exists) (sortedTs : ∀ t ∈ ts, t.Sorted false [])
    (len : ts.length = vars.length) (ok : Term.applyBody vars body ts = .ok t') :
    ∃ vs, F.Fits vs (vars.map (·.2)) ∧ (F.Holds t' ↔ F.eval vs.reverse body = F.yes) := by
  have kind := sorted.2
  rw [append_nil] at kind
  have inner : body.Sorted strict ([] ++ binding k vars) := by simpa using sorted.1
  have sortedUs : ∀ u ∈ ts.reverse, u.Sorted false [] := fun u mem => sortedTs u (by simpa using mem)
  have count : ts.reverse.length = (binding k vars).length := by simpa using len
  obtain ⟨ws, fits, stands⟩ := F.exists_stands_all count sortedUs
  have outer' : strict = true ∨ ∀ e ∈ binding k vars, e.1 ≠ .exists := outer.imp_right fun ne => binding_ne_exists ne vars
  refine ⟨ws.reverse, ?_, ?_⟩
  · have := fits.reverse
    simpa [binding, Function.comp_def] using this
  rw [reverse_reverse, Holds]
  rw [applyBody_eq inner] at ok
  obtain ⟨value, truth⟩ := F.eval_instantiateAdaptingAt (ρ := []) count sortedUs outer' stands inner rfl ok
  rcases kind with h | h | ⟨lenient, bound⟩
  · exact absurd h quantifier
  · exact truth h
  -- An existential quantifier would bind what is loose, and there is none.
  have small : ∀ i, body.Loose i → i < 0 := by
    intro i loose
    obtain ⟨s, hit⟩ := bound i loose
    rcases outer' with h | h
    · rw [h] at lenient; cases lenient
    · exact absurd rfl (h _ (mem_of_getElem? hit))
  rw [instantiateAdaptingAt_of_lt _ small] at ok
  cases ok
  rw [adapt_of_sort rfl] at value
  rw [value rfl]
  rfl

end
end Frame
end SortedLogic

import SortedLogic.Proofs.Formulas

/-!
# Constants of the supply

A term in which no number from `n` on occurs (`Term.Before`) was there before the supply reached `n`, and the constants drawn
from then on (`Symbol.Drawn`) can be given any values of their sorts without changing its value (`Interpretation.exists_values`,
`Term.Before.eval`).
-/

namespace SortedLogic
open List hiding range
open SortedLogic.Symbol (range)
universe u
variable {hint : String} {n lo hi m hi' lo' n' : Nat} {s : Srt} {c f : Symbol} {t body : Term}
  {cs : List Symbol} {vars : Vars} {as bs : List Char} {args vs : List Term} {k : Binder} {U : Type u}
  {F G : Frame U} {strict : Bool}

theorem Text.isDigit_of_mem_digits {k : Nat} {c : Char} (mem : c ∈ Nat.toDigits 10 k) : c.isDigit = true :=
  Nat.isDigit_of_mem_toDigits (by decide) (by decide) mem

theorem Text.number_inj {mark : Char} (other : mark.isDigit = false)
    (eq : as ++ mark :: Nat.toDigits 10 n = bs ++ mark :: Nat.toDigits 10 m) : n = m := by
  have read (cs : List Char) (k : Nat) : ((cs ++ mark :: Nat.toDigits 10 k).reverse.takeWhile (· ≠ mark)).reverse =
      Nat.toDigits 10 k := by
    rw [reverse_append, reverse_cons, append_assoc, takeWhile_append_of_pos]
    · simp
    · intro c mem
      have digit := isDigit_of_mem_digits (mem_reverse.1 mem)
      exact decide_eq_true fun eq => by rw [eq, other] at digit; cases digit
  have digits : Nat.toDigits 10 n = Nat.toDigits 10 m := by rw [← read as n, eq, read bs m]
  simpa [Nat.ofDigitChars_ten_toDigits] using congrArg (Nat.ofDigitChars 10 · 0) digits

namespace Symbol

def supply (hint : String) (n : Nat) (s : Srt) : Symbol := ⟨hint ++ "!" ++ toString n, [], s, .fresh⟩

theorem supply_number {hint' : String} {s' : Srt} (eq : supply hint n s = supply hint' n' s') : n = n' := by
  have names := congrArg (fun c : Symbol => c.name.toList) eq
  exact Text.number_inj (by decide : '!'.isDigit = false) (by simpa [supply, String.toList_append] using names)

/-- A constant that the supply makes while it goes from `lo` to `hi`. -/
def Drawn (lo hi : Nat) (c : Symbol) : Prop := ∃ hint n s, lo ≤ n ∧ n < hi ∧ c = supply hint n s

theorem Drawn.isFree (drawn : c.Drawn lo hi) : c.isFree = true := by
  obtain ⟨_, _, _, -, -, rfl⟩ := drawn
  rfl

theorem Drawn.mono (drawn : c.Drawn lo hi) (below : lo' ≤ lo) (above : hi ≤ hi') : c.Drawn lo' hi' := by
  obtain ⟨hint, n, s, h, h', rfl⟩ := drawn
  exact ⟨hint, n, s, by omega, by omega, rfl⟩

theorem Drawn.not_later (drawn : c.Drawn lo hi) (le : hi ≤ lo') : ¬ c.Drawn lo' hi' := by
  rintro ⟨hint', k', s', above, -, eq⟩
  obtain ⟨hint, k, s, -, below, rfl⟩ := drawn
  have := supply_number eq
  omega

end Symbol

namespace Term

/-- No constant of the supply with a number from `n` on occurs. -/
def Before (n : Nat) (t : Term) : Prop := ∀ hint k s, n ≤ k → ¬ t.Mentions (.supply hint k s)

theorem Before.mono (before : t.Before n) (le : n ≤ m) : t.Before m := fun hint k s h => before hint k s (by omega)

theorem Before.not_drawn (before : t.Before n) (mem : t.Mentions c) : ¬ c.Drawn n m := by
  rintro ⟨hint, k, s, le, -, rfl⟩
  exact before hint k s le mem

theorem before_app : Before n (.app f args) ↔ (∀ hint k s, n ≤ k → f ≠ .supply hint k s) ∧ ∀ a ∈ args, a.Before n := by
  simp only [Before, mentions_app, not_or, not_exists, not_and]
  exact ⟨fun h => ⟨fun hint k s le => (h hint k s le).1, fun a mem hint k s le => (h hint k s le).2 a mem⟩,
    fun h hint k s le => ⟨h.1 hint k s le, fun a mem => h.2 a mem hint k s le⟩⟩

theorem before_supply (drawn : c.Drawn lo hi) : Before hi (.app c []) := by
  obtain ⟨hint, n, s, -, lt, rfl⟩ := drawn
  refine before_app.2 ⟨fun hint' k s' le eq => ?_, by simp⟩
  have := Symbol.supply_number eq
  omega

theorem before_of_not_free (fixed : f.isFree = false) : ∀ hint k s, n ≤ k → f ≠ .supply hint k s := by
  rintro hint k s - rfl
  cases fixed

end Term

/-! ## Drawing constants -/

theorem freshConst_gives :
    Gives (freshConst hint s) n t m ↔ Text.isLatin hint = true ∧ t = .app (.supply hint n s) [] ∧ m = n + 1 := by
  have run : (freshConst hint s).run n = if Text.isLatin hint then (.ok (.app (.supply hint n s) []), n + 1)
      else (.error .badName, n) := by
    cases latin : Text.isLatin hint <;> simp [freshConst, freshSymbol, Text.checkName, latin] <;> rfl
  rw [Gives, run]
  split
  · rename_i latin
    constructor
    · intro h
      cases h
      exact ⟨latin, rfl, rfl⟩
    · rintro ⟨-, rfl, rfl⟩
      rfl
  · rename_i other
    constructor
    · intro h
      cases h
    · exact fun h => absurd h.1 other

theorem Gives.draw_bind {α : Type} {f : Term → Session α} {w v : World} {a : α}
    (ok : Gives ((liftM (freshConst hint s) : Session Term) >>= f) w a v) :
    Gives (f (.app (.supply hint w.next s) [])) { w with next := w.next + 1 } a v := by
  obtain ⟨t, _, first, rest⟩ := Gives.bind_iff.1 ok
  obtain ⟨n, drew, rfl⟩ := Gives.ofFresh_iff.1 first
  obtain ⟨-, rfl, rfl⟩ := freshConst_gives.1 drew
  exact rest

theorem freshConsts_gives {α : Type} (hint : α → String) (sort : α → Srt) {as : List α} :
    ∀ {n m : Nat} {vs : List Term}, Gives (as.mapM fun a => freshConst (hint a) (sort a)) n vs m →
      ∃ cs : List Symbol, vs = cs.map (.app · []) ∧ cs.map range = as.map sort ∧ cs.Nodup ∧ (∀ c ∈ cs, c.Drawn n m) ∧ n ≤ m := by
  induction as with
  | nil =>
    intro n m vs ok
    obtain ⟨rfl, rfl⟩ := Gives.mapM_nil_iff.1 ok
    exact ⟨[], rfl, rfl, nodup_nil, by simp, Nat.le_refl n⟩
  | cons a _ ih =>
    intro n m vs ok
    obtain ⟨v, r, ws, head, tail, rfl⟩ := Gives.mapM_cons_iff.1 ok
    obtain ⟨-, rfl, rfl⟩ := freshConst_gives.1 head
    obtain ⟨cs, rfl, sorts, nodup, drawn, le⟩ := ih tail
    refine ⟨.supply (hint a) n (sort a) :: cs, rfl, by simp [sorts, Symbol.supply], ?_, ?_, by omega⟩
    · refine nodup_cons.2 ⟨fun mem => ?_, nodup⟩
      obtain ⟨hint', k, s', above, -, eq⟩ := drawn _ mem
      have := Symbol.supply_number eq
      omega
    intro c mem
    rcases mem_cons.1 mem with rfl | mem
    · exact ⟨hint a, n, sort a, Nat.le_refl n, by omega, rfl⟩
    · exact (drawn c mem).mono (by omega) (Nat.le_refl m)

/-! ## Values for drawn constants -/

namespace Term

theorem Before.eval (before : t.Before n) (agree : F.AgreeOutside (Symbol.Drawn n m) G) (ρ : List U) :
    F.eval ρ t = G.eval ρ t := agree.eval (fun _ drawn => drawn.isFree) fun _ inside => before.not_drawn inside

end Term

theorem Frame.Fits.legal_zip {us : List U} (fits : F.Fits us (cs.map range))
    (free : ∀ c ∈ cs, c.isFree = true) : ∀ p ∈ cs.zip us, p.1.isFree = true ∧ p.2 ∈ F.carrier p.1.range := by
  intro p mem
  have each := List.forall₂_iff_zip.1 (List.forall₂_map_right_iff.1 fits).flip
  exact ⟨free _ (of_mem_zip mem).1, each.2 mem⟩

namespace Interpretation

theorem exists_assigned (I : Interpretation U) {us : List U} (nodup : cs.Nodup)
    (free : ∀ c ∈ cs, c.isFree = true) (fits : I.Fits us (cs.map range)) :
    ∃ J : Interpretation U, I.AgreeOutside (· ∈ cs) J.toFrame ∧ (∀ f u us, I.fn f (u :: us) = J.fn f (u :: us)) ∧
      (cs.map fun c => J.eval [] (.app c [])) = us := by
  have len : us.length = cs.length := by simpa using fits.length_eq
  have legal := fits.legal_zip free
  exact ⟨I.assign (cs.zip us) legal, Frame.assign_zip_agreeOutside legal, fun f u us => (Frame.assign_ofConsts_cons f u us).symm,
    Frame.map_eval_consts nodup len legal⟩

theorem exists_values (I : Interpretation U) {us : List U} (nodup : cs.Nodup)
    (drawn : ∀ c ∈ cs, c.Drawn n m) (fits : I.Fits us (cs.map range)) :
    ∃ J : Interpretation U, I.AgreeOutside (Symbol.Drawn n m) J.toFrame ∧ (cs.map fun c => J.eval [] (.app c [])) = us := by
  obtain ⟨J, agree, -, vals⟩ := I.exists_assigned nodup (fun c mem => (drawn c mem).isFree) fits
  exact ⟨J, agree.mono drawn, vals⟩

end Interpretation

theorem Term.sorts_consts (k : Binder) (sorts : cs.map range = vars.map (·.2)) :
    (cs.map (.app · [])).reverse.map Term.sort = (Term.binding k vars).map (·.2) := by
  have flip : (vars.map (·.2)).reverse = (Term.binding k vars).map (·.2) := by simp [Term.binding, Function.comp_def]
  rw [map_reverse, map_map, ← flip, ← sorts]
  rfl

theorem Frame.eval_openWith (sorted : body.Sorted strict (Term.binding k vars))
    (sorts : cs.map range = vars.map (·.2)) : F.eval [] (Term.openWith (cs.map (.app · [])) body) =
      F.eval (cs.map fun c => F.eval [] (.app c [])).reverse body := by
  have := F.eval_instantiateAt (Γ := []) (ρ := []) (Term.sorts_consts k sorts) sorted rfl
  simpa [Term.openWith, Term.instantiate, map_reverse, Function.comp_def] using this

theorem Term.sort_openWith (sorted : body.Sorted strict (Term.binding k vars))
    (sorts : cs.map range = vars.map (·.2)) : (Term.openWith (cs.map (.app · [])) body).sort = body.sort :=
  Term.sort_instantiateAt (Γ := []) (Term.sorts_consts k sorts) sorted

/-! ## Quantifying over constants -/

namespace Term
variable {q : Term}

theorem substitute_eq_ok {pairs : List (Term × Term)} :
    body.substitute pairs = .ok q ↔ (∀ p ∈ pairs, p.1.sort = p.2.sort) ∧ q = body.replaceAll pairs := by
  have all : (pairs.all fun p => p.1.sort == p.2.sort) = true ↔ ∀ p ∈ pairs, p.1.sort = p.2.sort := by
    simp only [all_eq_true, beq_iff_eq]
  exact Checked.ite_eq_ok.trans (and_congr_left' all)

theorem quantify_eq_ok : body.quantify k vs = .ok q ↔ (vs ≠ [] ∧ (∀ v ∈ vs, v.isBindable = true) ∧ body.sort = .bool) ∧
    q = .bind k (vs.filterMap bindingName?) (abstract vs body) := by
  have err : (vs.isEmpty || !vs.all isBindable || body.sort != .bool) = true ↔
      ¬ (vs ≠ [] ∧ (∀ v ∈ vs, v.isBindable = true) ∧ body.sort = .bool) := by
    rw [← and_assoc, Classical.not_and_iff_not_or_not, Classical.not_and_iff_not_or_not]
    simp
  rw [quantify, ← ite_not, Checked.ite_eq_ok, err, Classical.not_not]

theorem filterMap_bindingName (cs : List Symbol) :
    (cs.map (app · [])).filterMap bindingName? = cs.map fun c => (c.name, c.range) := by
  induction cs with
  | nil => rfl
  | cons _ _ ih => rw [map_cons, filterMap_cons, ih]; rfl

theorem sorts_bindingName : ∀ {vs : List Term}, (∀ v ∈ vs, v.isApp = true) → (vs.filterMap bindingName?).map (·.2) = vs.map sort
  | [], _ => rfl
  | .app f args :: vs, apps => by
    have rest := sorts_bindingName fun v mem => apps v (mem_cons_of_mem _ mem)
    rw [map_cons, ← rest]
    rfl
  | .var i s :: _, apps => by cases apps (.var i s) mem_cons_self
  | .bind k vars body :: _, apps => by cases apps (.bind k vars body) mem_cons_self

theorem getElem?_binding (k : Binder) (vars : Vars) (i : Nat) :
    (binding k vars)[i]? = ((vars.map (·.2)).reverse[i]?).map (k, ·) := by
  rw [binding, ← map_reverse, ← map_reverse, getElem?_map, getElem?_map, Option.map_map]
  rfl

theorem Sorted.abstract_apps (sorted : body.Sorted strict []) (kind : strict = true ∨ k = .exists)
    (apps : ∀ v ∈ vs, v.isApp = true) : (Term.abstract vs body).Sorted strict (binding k (vs.filterMap bindingName?)) := by
  refine Sorted.abstractAt (Δ := binding k (vs.filterMap bindingName?)) (fun p mem => ⟨k, ?_, kind⟩) sorted
  have at' := mem_zipIdx_iff_getElem?.1 mem
  rw [getElem?_binding, sorts_bindingName apps, ← map_reverse, getElem?_map, at']
  rfl

theorem Sorted.abstract (sorted : body.Sorted strict []) (kind : strict = true ∨ k = .exists) :
    (Term.abstract (cs.map (app · [])) body).Sorted strict (binding k (cs.map fun c => (c.name, c.range))) := by
  rw [← filterMap_bindingName]
  refine sorted.abstract_apps kind fun v mem => ?_
  obtain ⟨c, -, rfl⟩ := mem_map.1 mem
  rfl

end Term

theorem Frame.eval_abstract_agree {P : Symbol → Prop} (agree : F.AgreeOutside P G) (free : ∀ f, P f → f.isFree = true)
    (consts : ∀ c, P c → c ∈ cs ∧ ∀ u us, F.fn c (u :: us) = G.fn c (u :: us)) (closed : body.Closed) :
    F.eval (cs.map fun c => G.eval [] (.app c [])).reverse (Term.abstract (cs.map (.app · [])) body) = G.eval [] body := by
  rw [← map_reverse]
  refine eval_abstractAt (ρ := []) agree free (fun p mem => ?_) (fun c changed => ?_) fun i loose => absurd loose (closed i)
  · have := mem_zipIdx_iff_getElem?.1 mem
    rw [← map_reverse, getElem?_map, Option.map_eq_some_iff] at this
    obtain ⟨c, at', eq⟩ := this
    rw [← eq, getD, getElem?_map, at']
    exact ⟨Term.closed_app.2 (by simp), rfl⟩
  · obtain ⟨mem, eq⟩ := consts c changed
    obtain ⟨i, at'⟩ := mem_iff_getElem?.1 (mem_reverse.2 mem)
    refine ⟨⟨(.app c [], i), mem_zipIdx_iff_getElem?.2 ?_, rfl⟩, eq⟩
    rw [← map_reverse, getElem?_map, at']
    rfl

theorem Frame.eval_abstract_terms (closed : body.Closed) (keys : ∀ v ∈ vs, v.Closed) :
    F.eval (vs.map (F.eval [])).reverse (Term.abstract vs body) = F.eval [] body := by
  rw [← map_reverse]
  refine eval_abstractAt (ρ := []) (agreeOutside_refl fun _ => False) (by simp) (fun p mem => ?_) (by simp)
    fun i loose => absurd loose (closed i)
  have at' := mem_zipIdx_iff_getElem?.1 mem
  rw [getD, getElem?_map, at']
  exact ⟨keys p.1 (mem_reverse.1 (mem_of_getElem? at')), rfl⟩

theorem Frame.eval_abstract (closed : body.Closed) :
    F.eval (cs.map fun c => F.eval [] (.app c [])).reverse (Term.abstract (cs.map (.app · [])) body)
      = F.eval [] body := eval_abstract_agree (agreeOutside_refl fun _ => False) (by simp) (by simp) closed

end SortedLogic

import SortedLogic.Proofs.StandardModel
import SortedLogic.Proofs.Supply

/-!
# The kernel is sound

Each rule is conservative: where the premises hold, the constants that it draws can be given values such that the theorem holds
(`Conservative`). Along a run (`Reaches`) the values are chosen call by call, and whatever does not mention a drawn constant
holds in the interpretation one started with. Each rule keeps theorems `Term.Legal`.
-/

namespace SortedLogic
open List hiding range
open Term
open Standard (allTrue)
open SortedLogic.Symbol
universe u
open Gives
open Checked (bind_eq_ok)
open SortedLogic.Frame
variable {a b thm t body e lam : Term} {r : List Term × Proof} {ts args is vs : List Term} {pf : Proof}
  {vars : Vars} {f : Symbol} {w v : World} {cs : List Symbol} {U : Type u} {strict : Bool}

namespace Term

/-- A closed term whose sorts fit, without constants that the supply makes from `n` on. -/
structure Legal (strict : Bool) (n : Nat) (t : Term) : Prop where
  sorted : t.Sorted strict []
  before : t.Before n

variable {n m : Nat} {k : Binder} {t' : Term}

theorem Legal.mono (legal : t.Legal strict n) (le : n ≤ m) : t.Legal strict m := ⟨legal.sorted, legal.before.mono le⟩

theorem Legal.relax (legal : t.Legal strict n) : t.Legal false n := by
  cases strict with
  | true => exact ⟨legal.sorted.relax, legal.before⟩
  | false => exact legal

theorem Before.of_mentions (ts : List Term) (sub : ∀ c : Symbol, c.isFree = true → t'.Mentions c →
    t.Mentions c ∨ ∃ u ∈ ts, u.Mentions c)
    (before : t.Before n) (terms : ∀ u ∈ ts, u.Before n) : t'.Before n := by
  intro hint k s le mem'
  rcases sub _ rfl mem' with mem' | ⟨u, mem, mem'⟩
  · exact before hint k s le mem'
  · exact terms u mem hint k s le mem'

theorem legal_binary {P : Prop} (fixed : f.isFree = false)
    (sorts : (app f [a, b]).Sorted strict [] ↔ P ∧ a.Sorted strict [] ∧ b.Sorted strict []) :
    (app f [a, b]).Legal strict n ↔ P ∧ a.Legal strict n ∧ b.Legal strict n := by
  constructor
  · rintro ⟨sorted, before⟩
    obtain ⟨holds, ha, hb⟩ := sorts.1 sorted
    have parts := (before_app.1 before).2
    exact ⟨holds, ⟨ha, parts a (by simp)⟩, ⟨hb, parts b (by simp)⟩⟩
  · rintro ⟨holds, ha, hb⟩
    exact ⟨sorts.2 ⟨holds, ha.sorted, hb.sorted⟩, before_app.2 ⟨before_of_not_free fixed, by simp [ha.before, hb.before]⟩⟩

theorem legal_implies : (app .implies [a, b]).Legal strict n ↔
    (a.sort = .bool ∧ b.sort = .bool) ∧ a.Legal strict n ∧ b.Legal strict n := legal_binary rfl sorted_implies

theorem legal_eq {s : Srt} : (app (.eq s) [a, b]).Legal strict n ↔
    (a.sort = s ∧ b.sort = s) ∧ a.Legal strict n ∧ b.Legal strict n := legal_binary rfl sorted_eq

theorem legal_and : (app .and ts).Legal strict n ↔ ∀ t ∈ ts, t.sort = .bool ∧ t.Legal strict n := by
  constructor
  · rintro ⟨sorted, before⟩ t mem
    obtain ⟨sort, sorted⟩ := sorted_and.1 sorted t mem
    exact ⟨sort, sorted, (before_app.1 before).2 t mem⟩
  · intro parts
    exact ⟨sorted_and.2 fun t mem => ⟨(parts t mem).1, (parts t mem).2.sorted⟩,
      before_app.2 ⟨before_of_not_free rfl, fun t mem => (parts t mem).2.before⟩⟩

theorem Legal.applyBody (legal : (bind k vars body).Legal strict n) (outer : strict = true ∨ k ≠ .exists)
    (terms : ∀ t ∈ ts, t.Legal false n) (len : ts.length = vars.length)
    (ok : applyBody vars body ts = .ok t') : t'.Legal false n := by
  have inner : body.Sorted strict ([] ++ binding k vars) := by simpa using legal.sorted.1
  refine ⟨inner.applyBody outer (fun t mem => (terms t mem).sorted) len ok, ?_⟩
  exact .of_mentions ts (fun c free mem' => mentions_applyBody inner ok free mem') legal.before
    fun u mem => (terms u mem).before

theorem Legal.adapt (legal : t.Legal strict n) (s : Srt) : (adapt s t).Legal strict n :=
  ⟨legal.sorted.adapt s, .of_mentions [] (fun _ free mem => .inl (mentions_adapt free mem)) legal.before (by simp)⟩

theorem Legal.openWith (legal : (bind k vars body).Legal strict n) (le : n ≤ m)
    (sorts : cs.map range = vars.map (·.2)) (drawn : ∀ c ∈ cs, c.Drawn n m) :
    (openWith (cs.map (app · [])) body).Legal strict m := by
  have sortedConst : ∀ t ∈ (cs.map (app · [])).reverse, t.Sorted strict [] := by
    intro t mem
    obtain ⟨c, mem', rfl⟩ := mem_map.1 (mem_reverse.1 mem)
    obtain ⟨hint, i, s, -, -, rfl⟩ := drawn c mem'
    exact sorted_app.2 ⟨proper_of_isFree rfl, rfl, by simp⟩
  have inner : body.Sorted strict ([] ++ binding k vars) := by simpa using legal.sorted.1
  refine ⟨inner.instantiateAt (sorts_consts k sorts) sortedConst, ?_⟩
  refine .of_mentions (cs.map (app · [])) (fun _ _ => mentions_instantiateAt_reverse) (legal.before.mono le) fun u mem => ?_
  obtain ⟨c, mem', rfl⟩ := mem_map.1 mem
  exact before_supply (drawn c mem')

end Term

namespace Kernel

/-- Given the premises, values of the constants that the supply makes from `n` to `m` can make the theorem true. -/
structure Conservative (n m : Nat) (premises : List Term) (thm : Term) : Prop where
  le : n ≤ m
  legal : thm.Legal false m
  extend : ∀ {U : Type u} (I : Interpretation U), (∀ q ∈ premises, I.Holds q) →
    ∃ J : Interpretation U, I.AgreeOutside (Drawn n m) J.toFrame ∧ J.Holds thm

theorem Conservative.of_sound {n : Nat} {premises : List Term} (legal : thm.Legal false n)
    (sound : ∀ {U : Type u} (I : Interpretation U), (∀ q ∈ premises, I.Holds q) → I.Holds thm) :
    Conservative.{u} n n premises thm := ⟨Nat.le_refl n, legal, fun I holds => ⟨I, agreeOutside_refl _, sound I holds⟩⟩

@[simp] theorem require_eq_ok {b : Bool} {r : Unit} : require b = .ok r ↔ b = true := Checked.guard_eq_ok

variable {n m : Nat} {p : Proof}

/-! ## Quantifiers -/

theorem instan_eq_ok (ok : instan ts pf = .ok p) : ∃ vars body, pf.thm = .bind .forall vars body ∧ ts.length = vars.length ∧
    applyBody vars body ts = .ok p.thm := by
  unfold instan at ok
  split at ok
  · rename_i shape
    simp only [bind_eq_ok] at ok
    obtain ⟨_, count, t', applied, last⟩ := ok
    cases last
    exact ⟨_, _, shape, by simpa using count, applied⟩
  · cases ok

theorem instan_conservative (ok : instan ts pf = .ok p)
    (thm : pf.thm.Legal false n) (terms : ∀ t ∈ ts, t.Legal false n) : Conservative.{u} n n [pf.thm] p.thm := by
  obtain ⟨vars, body, shape, len, applied⟩ := instan_eq_ok ok
  rw [shape] at thm ⊢
  refine .of_sound (thm.applyBody (.inr (by simp)) terms len applied) fun I holds => ?_
  have premise := eval_forall.1 (holds _ mem_cons_self)
  obtain ⟨vs, fits, iff⟩ := I.toFrame.truth_applyBody thm.sorted (by simp) (.inr (by simp))
    (fun t mem => (terms t mem).sorted) len applied
  exact iff.2 (by simpa using premise vs fits)

theorem instan2_eq_ok (ok : instan2 ts thm = .ok p) : ∃ vars body t', thm = .bind .forall vars body ∧ ts.length = vars.length ∧
    applyBody vars body ts = .ok t' ∧ t'.sort = .bool ∧ p.thm = .app .implies [thm, t'] := by
  unfold instan2 at ok
  split at ok
  · simp only [bind_eq_ok] at ok
    obtain ⟨_, count, t', applied, c, built, last⟩ := ok
    cases last
    exact ⟨_, _, t', rfl, by simpa using count, applied, (implies_eq_ok.1 built).2⟩
  · cases ok

theorem forget2_eq_ok (ok : forget2 ts thm = .ok p) : ∃ vars body t', thm = .bind .exists vars body ∧ ts.length = vars.length ∧
    applyBody vars body ts = .ok t' ∧ t'.sort = .bool ∧ p.thm = .app .implies [t', thm] := by
  unfold forget2 at ok
  split at ok
  · simp only [bind_eq_ok] at ok
    obtain ⟨_, count, t', applied, c, built, last⟩ := ok
    cases last
    obtain ⟨left, -, shape⟩ := implies_eq_ok.1 built
    exact ⟨_, _, t', rfl, by simpa using count, applied, left, shape⟩
  · cases ok

theorem instan2_conservative (ok : instan2 ts thm = .ok p)
    (legal : thm.Legal false n) (terms : ∀ t ∈ ts, t.Legal false n) : Conservative.{u} n n [] p.thm := by
  obtain ⟨vars, body, t', rfl, len, applied, bool, shape⟩ := instan2_eq_ok ok
  rw [shape]
  have legal' := legal.applyBody (.inr (by simp)) terms len applied
  refine .of_sound (legal_implies.2 ⟨⟨rfl, bool⟩, legal, legal'⟩) fun I _ => ?_
  obtain ⟨vs, fits, iff⟩ := I.toFrame.truth_applyBody legal.sorted (by simp) (.inr (by simp))
    (fun t mem => (terms t mem).sorted) len applied
  exact eval_implies.2 fun premise => iff.2 (by simpa using eval_forall.1 premise vs fits)

theorem forget2_conservative (ok : forget2 ts thm = .ok p)
    (legal : thm.Legal true n) (terms : ∀ t ∈ ts, t.Legal false n) : Conservative.{u} n n [] p.thm := by
  obtain ⟨vars, body, t', rfl, len, applied, bool, shape⟩ := forget2_eq_ok ok
  rw [shape]
  have legal' := legal.applyBody (.inl rfl) terms len applied
  refine .of_sound (legal_implies.2 ⟨⟨bool, rfl⟩, legal', legal.relax⟩) fun I _ => ?_
  obtain ⟨vs, fits, iff⟩ := I.toFrame.truth_applyBody legal.sorted (by simp) (.inl rfl)
    (fun t mem => (terms t mem).sorted) len applied
  exact eval_implies.2 fun holds => eval_exists.2 ⟨vs, fits, by simpa using iff.1 holds⟩

/-! ## New constants -/

theorem exists_choice (I : Interpretation U) {ss : List Srt} (sorts : cs.map range = ss)
    (nodup : cs.Nodup) (drawn : ∀ c ∈ cs, c.Drawn n m) (P : List U → Prop) :
    ∃ J : Interpretation U, I.AgreeOutside (Drawn n m) J.toFrame ∧ ∃ us, I.Fits us ss ∧
      (cs.map fun c => J.eval [] (.app c [])) = us ∧ ((∃ vs, I.Fits vs ss ∧ P vs) → P us) := by
  subst sorts
  obtain ⟨us, fits, choice⟩ : ∃ us, I.Fits us (cs.map range) ∧ ((∃ vs, I.Fits vs (cs.map range) ∧ P vs) → P us) := by
    by_cases some : ∃ vs, I.Fits vs (cs.map range) ∧ P vs
    · obtain ⟨vs, fits, holds⟩ := some
      exact ⟨vs, fits, fun _ => holds⟩
    · exact ⟨_, I.exists_fits _ |>.choose_spec, fun h => absurd h some⟩
  obtain ⟨J, agree, vals⟩ := I.exists_values nodup drawn fits
  exact ⟨J, agree, us, fits, vals, choice⟩

theorem freshVars_gives {k : Binder} (legal : (bind k vars body).Legal strict n)
    (ok : Gives (freshVars Text.stem vars) n vs m) :
    n ≤ m ∧ (openWith vs body).Legal strict m ∧ ∀ {U : Type u} (I : Interpretation U) (P : List U → Prop),
      ∃ J : Interpretation U, I.AgreeOutside (Drawn n m) J.toFrame ∧ ∃ us, I.Fits us (vars.map (·.2)) ∧
        J.eval [] (openWith vs body) = I.eval us.reverse body ∧ ((∃ us, I.Fits us (vars.map (·.2)) ∧ P us) → P us) := by
  obtain ⟨cs, rfl, sorts, nodup, drawn, le⟩ := freshConsts_gives (fun v : String × Srt => Text.stem v.1) (·.2) ok
  refine ⟨le, legal.openWith le sorts drawn, fun I P => ?_⟩
  obtain ⟨J, agree, us, fits, vals, choice⟩ := exists_choice I sorts nodup drawn P
  refine ⟨J, agree, us, fits, ?_, choice⟩
  have before : body.Before n := legal.before
  have inner : body.Sorted strict (binding k vars) := by simpa using legal.sorted.1
  rw [J.toFrame.eval_openWith inner sorts, vals, before.eval agree]

theorem einstan_gives (ok : Gives (einstan thm) n r m) : ∃ vars body vs, thm = .bind .exists vars body ∧
    Gives (freshVars Text.stem vars) n vs m ∧ (openWith vs body).sort = .bool ∧
    r.2.thm = .app .implies [thm, openWith vs body] := by
  unfold einstan at ok
  split at ok
  · simp only [bind_iff, ofChecked_fresh] at ok
    obtain ⟨vs, _, drawn, c, _, ⟨built, rfl⟩, last⟩ := ok
    cases last
    exact ⟨_, _, vs, rfl, drawn, (implies_eq_ok.1 built).2⟩
  · cases ok

theorem herb_gives (ok : Gives (herb thm) n r m) : ∃ vars body vs, thm = .bind .forall vars body ∧
    Gives (freshVars Text.stem vars) n vs m ∧ (openWith vs body).sort = .bool ∧
    r.2.thm = .app .implies [openWith vs body, thm] := by
  unfold herb at ok
  split at ok
  · simp only [bind_iff, ofChecked_fresh] at ok
    obtain ⟨vs, _, drawn, c, _, ⟨built, rfl⟩, last⟩ := ok
    cases last
    obtain ⟨left, -, shape⟩ := implies_eq_ok.1 built
    exact ⟨_, _, vs, rfl, drawn, left, shape⟩
  · cases ok

theorem einstan_conservative (ok : Gives (einstan thm) n r m)
    (legal : thm.Legal false n) : Conservative.{u} n m [] r.2.thm := by
  obtain ⟨vars, body, vs, rfl, drawn, bool, shape⟩ := einstan_gives ok
  rw [shape]
  obtain ⟨le, opened, choose⟩ := freshVars_gives legal drawn
  refine ⟨le, legal_implies.2 ⟨⟨rfl, bool⟩, legal.mono le, opened⟩, fun I _ => ?_⟩
  obtain ⟨J, agree, us, fits, value, choice⟩ := choose I fun us => I.eval us.reverse body = I.yes
  refine ⟨J, agree, eval_implies.2 fun premise => ?_⟩
  rw [← legal.before.eval agree, ← agree.yes, eval_exists] at premise
  rw [value, ← agree.yes]
  exact choice (by simpa using premise)

theorem skolem_conservative (ok : Gives (skolem pf) n r m)
    (legal : pf.thm.Legal false n) : Conservative.{u} n m [pf.thm] r.2.thm := by
  unfold skolem at ok
  split at ok
  swap
  · cases ok
  rename_i vars body shape
  rw [shape] at legal ⊢
  obtain ⟨vs, n', drawn, last⟩ := bind_iff.1 ok
  cases last
  obtain ⟨le, opened, choose⟩ := freshVars_gives legal drawn
  refine ⟨le, opened, fun I holds => ?_⟩
  obtain ⟨J, agree, us, fits, value, choice⟩ := choose I fun us => I.eval us.reverse body = I.yes
  refine ⟨J, agree, ?_⟩
  have premise := eval_exists.1 (holds _ mem_cons_self)
  show J.eval [] (openWith vs body) = J.yes
  rw [value, ← agree.yes]
  exact choice (by simpa using premise)

theorem herb_conservative (ok : Gives (herb thm) n r m) (legal : thm.Legal false n) : Conservative.{u} n m [] r.2.thm := by
  obtain ⟨vars, body, vs, rfl, drawn, bool, shape⟩ := herb_gives ok
  rw [shape]
  obtain ⟨le, opened, choose⟩ := freshVars_gives legal drawn
  refine ⟨le, legal_implies.2 ⟨⟨bool, rfl⟩, opened, legal.mono le⟩, fun I _ => ?_⟩
  -- The values are a counterexample to the body, if there is one.
  obtain ⟨J, agree, us, fits, value, choice⟩ := choose I fun us => I.eval us.reverse body ≠ I.yes
  refine ⟨J, agree, eval_implies.2 fun opened => ?_⟩
  rw [value, ← agree.yes] at opened
  rw [← legal.before.eval agree, ← agree.yes, eval_forall]
  intro vs fits'
  by_contra fails
  exact choice ⟨vs, fits', by simpa using fails⟩ opened

theorem consider_conservative (ok : Gives (consider t) n p m) (legal : t.Legal false n) : Conservative.{u} n m [] p.thm := by
  simp only [consider, bind_iff, ofChecked_fresh] at ok
  obtain ⟨c, _, drawn, e, _, ⟨built, rfl⟩, last⟩ := ok
  cases last
  obtain ⟨-, rfl, rfl⟩ := freshConst_gives.1 drawn
  rw [eq_of_sort (show (app (.supply "consider" n t.sort) []).sort = t.sort from rfl)] at built
  cases built
  have fresh : (supply "consider" n t.sort).Drawn n (n + 1) := ⟨_, n, _, by omega, by omega, rfl⟩
  have const : (app (.supply "consider" n t.sort) []).Legal false (n + 1) :=
    ⟨sorted_app.2 ⟨proper_of_isFree rfl, rfl, by simp⟩, before_supply fresh⟩
  refine ⟨by omega, legal_eq.2 ⟨⟨rfl, rfl⟩, const, legal.mono (by omega)⟩, fun I _ => ?_⟩
  have fits : I.Fits [I.eval [] t] ([supply "consider" n t.sort].map range) := .cons (I.eval_mem legal.sorted .nil) .nil
  obtain ⟨J, agree, vals⟩ := I.exists_values (nodup_singleton _) (by simpa using fresh) fits
  refine ⟨J, agree, eval_eq.2 ?_⟩
  rw [← legal.before.eval agree]
  simpa using vals

theorem forget_conservative (ok : Gives (forget ts pf) n p m)
    (legal : pf.thm.Legal false n) (terms : ∀ t ∈ ts, t.Legal false n) : Conservative.{u} n m [pf.thm] p.thm := by
  simp only [forget, bind_iff, ofChecked_fresh] at ok
  obtain ⟨vs, n', drawn, body, _, ⟨replaced, rfl⟩, q, _, ⟨closed, rfl⟩, last⟩ := ok
  obtain ⟨rfl, rfl⟩ := pure_iff.1 last
  obtain ⟨cs, rfl, sorts, nodup, drawn, le⟩ := freshConsts_gives (fun _ => "c") sort drawn
  obtain ⟨eq, rfl⟩ := substitute_eq_ok.1 replaced
  obtain ⟨⟨-, -, form⟩, rfl⟩ := quantify_eq_ok.1 closed
  have const : ∀ c ∈ cs, (app c []).Legal false n' := by
    intro c mem
    refine ⟨?_, before_supply (drawn c mem)⟩
    obtain ⟨_, _, _, -, -, rfl⟩ := drawn c mem
    exact sorted_app.2 ⟨proper_of_isFree rfl, rfl, by simp⟩
  have new : ∀ p ∈ ts.zip (cs.map (app · [])), p.2.Legal false n' := by
    intro p mem
    obtain ⟨c, mem', image⟩ := mem_map.1 (of_mem_zip mem).2
    exact image ▸ const c mem'
  have exchange : Exchange (ts.zip (cs.map (.app · []))) := fun p mem =>
    ⟨(terms _ (of_mem_zip mem).1).sorted.closed, (new p mem).sorted.closed, eq p mem⟩
  have sorted := legal.sorted.replaceAll exchange fun p mem => (new p mem).sorted
  rw [filterMap_bindingName]
  refine ⟨le, ⟨⟨?_, .inr (.inl ?_)⟩, ?_⟩, fun I holds => ?_⟩
  · simpa using sorted.abstract (.inr rfl)
  · rw [abstract, sort_abstractAt, form]
  · refine .of_mentions ((ts.zip (cs.map (.app · []))).map (·.2)) (fun c _ mem' => ?_) (legal.before.mono le) ?_
    · refine (mentions_replaceAll exchange (mentions_abstractAt mem')).imp_right ?_
      rintro ⟨p, mem, mem'⟩
      exact ⟨_, mem_map_of_mem mem, mem'⟩
    · intro u mem
      obtain ⟨p, mem', rfl⟩ := mem_map.1 mem
      exact (new p mem').before
  · have fits : I.Fits (ts.map (I.eval [])) (cs.map range) := sorts ▸ I.fits_eval fun t mem => (terms t mem).sorted
    obtain ⟨J, agree, vals⟩ := I.exists_values nodup drawn fits
    refine ⟨J, agree, eval_exists.2 ⟨ts.map (I.eval []), ?_, ?_⟩⟩
    · simpa [Fits, ← agree.carrier, Function.comp_def] using fits
    have equal : ∀ p ∈ ts.zip (cs.map (.app · [])), J.eval [] p.1 = J.eval [] p.2 := by
      refine (map_eq_map_iff.1 ?_).2
      rw [map_map]
      exact (map_congr_left fun t mem => ((terms t mem).before.eval agree []).symm).trans vals.symm
    rw [← vals, append_nil, eval_abstract sorted.closed, eval_replaceAll exchange equal, ← legal.before.eval agree, ← agree.yes]
    exact holds _ mem_cons_self

/-! ## Connectives -/

theorem modus_eq_ok {ab a : Proof} (ok : modus ab a = .ok p) : ∃ f, f.isOp "=>" ∧ ab.thm = .app f [a.thm, p.thm] := by
  unfold modus at ok
  split at ok
  · rename_i f h c shape
    split at ok
    · rename_i op
      cases ok
      exact ⟨f, op.1, op.2 ▸ shape⟩
    · cases ok
  · cases ok

theorem modus_conservative {ab a : Proof} (ok : modus ab a = .ok p) (legal : ab.thm.Legal false n) :
    Conservative.{u} n n [ab.thm, a.thm] p.thm := by
  obtain ⟨f, op, shape⟩ := modus_eq_ok ok
  rw [shape] at legal ⊢
  obtain rfl := (sorted_app.1 legal.sorted).1.eq_implies op
  refine .of_sound (legal_implies.1 legal).2.2 fun I holds => ?_
  have conclusion := eval_implies.1 (holds _ mem_cons_self)
  exact conclusion (holds a.thm (by simp))

theorem proj_conservative {i : Int} (ok : proj pf i = .ok p) (legal : pf.thm.Legal false n) :
    Conservative.{u} n n [pf.thm] p.thm := by
  unfold proj at ok
  split at ok
  swap
  · cases ok
  rename_i f args shape
  rw [shape] at legal ⊢
  split at ok
  swap
  · cases ok
  rename_i op
  obtain rfl := (sorted_app.1 legal.sorted).1.eq_and op
  split at ok
  · rename_i t hit
    cases ok
    have mem : t ∈ args := mem_of_getElem? (Option.ite_none_left_eq_some.1 hit).2
    refine .of_sound (legal_and.1 legal t mem).2 fun I holds => ?_
    exact eval_and.1 (holds _ mem_cons_self) t mem
  · cases ok

theorem andI_conservative {a b : Proof} (ok : andI a b = .ok p) (left : a.thm.Legal false n)
    (right : b.thm.Legal false n) : Conservative.{u} n n [a.thm, b.thm] p.thm := by
  obtain ⟨c, built, last⟩ := bind_eq_ok.1 ok
  cases last
  obtain ⟨formulas, rfl⟩ := and_eq_ok.1 built
  refine .of_sound (legal_and.2 fun t mem => ⟨formulas t mem, ?_⟩) fun I holds => eval_and.2 holds
  simp only [mem_cons, not_mem_nil, or_false] at mem
  rcases mem with rfl | rfl
  · exact left
  · exact right

/-! ## Equality -/

theorem sides?_eq_some (legal : t.Legal false n) (hit : sides? t = some (a, b)) :
    t = .app (.eq a.sort) [a, b] ∧ a.sort = b.sort ∧ a.Legal false n ∧ b.Legal false n := by
  unfold sides? at hit
  split at hit
  swap
  · cases hit
  rename_i f x y
  split at hit
  · rename_i op
    cases hit
    obtain ⟨s, rfl⟩ := (sorted_app.1 legal.sorted).1.eq_eq op
    obtain ⟨⟨rfl, eq⟩, parts⟩ := legal_eq.1 legal
    exact ⟨rfl, eq.symm, parts⟩
  · cases hit

theorem eqrefl_conservative (ok : eqrefl t = .ok p) (legal : t.Legal false n) : Conservative.{u} n n [] p.thm := by
  obtain ⟨e, built, last⟩ := bind_eq_ok.1 ok
  cases last
  rw [eq_of_sort rfl] at built
  cases built
  exact .of_sound (legal_eq.2 ⟨⟨rfl, rfl⟩, legal, legal⟩) fun I _ => eval_eq.2 rfl

theorem eqsym_conservative (ok : eqsym pf = .ok p) (legal : pf.thm.Legal false n) : Conservative.{u} n n [pf.thm] p.thm := by
  unfold eqsym at ok
  split at ok
  swap
  · cases ok
  rename_i a b hit
  obtain ⟨shape, eq, left, right⟩ := sides?_eq_some legal hit
  obtain ⟨e, built, last⟩ := bind_eq_ok.1 ok
  cases last
  rw [eq_of_sort eq.symm] at built
  cases built
  refine .of_sound (legal_eq.2 ⟨⟨rfl, eq⟩, right, left⟩) fun I holds => eval_eq.2 ?_
  exact (eval_eq.1 (shape ▸ holds pf.thm (by simp))).symm

theorem eqtrans_conservative {q r : Proof} (ok : eqtrans q r = .ok p) (first : q.thm.Legal false n)
    (second : r.thm.Legal false n) : Conservative.{u} n n [q.thm, r.thm] p.thm := by
  unfold eqtrans at ok
  split at ok
  swap
  · cases ok
  rename_i a b b' c hit hit'
  obtain ⟨shape, eq, left, -⟩ := sides?_eq_some first hit
  obtain ⟨shape', eq', -, right⟩ := sides?_eq_some second hit'
  obtain ⟨_, middle, rest⟩ := bind_eq_ok.1 ok
  obtain ⟨e, built, last⟩ := bind_eq_ok.1 rest
  cases last
  obtain rfl : b = b' := by simpa using middle
  rw [eq_of_sort (eq.trans eq')] at built
  cases built
  refine .of_sound (legal_eq.2 ⟨⟨rfl, (eq.trans eq').symm⟩, left, right⟩) fun I holds => ?_
  have one := eval_eq.1 (shape ▸ holds q.thm (by simp))
  have two := eval_eq.1 (shape' ▸ holds r.thm (by simp))
  exact eval_eq.2 (one.trans two)

theorem apply_of_sorts (sorts : args.map sort = f.domain) : f.apply args = .ok (.app f args) := by
  have cast : ∀ {ss : List Srt} {ts : List Term}, ts.map sort = ss → castAll ss ts = .ok ts := by
    rintro _ ts rfl
    induction ts with
    | nil => rfl
    | cons _ _ ih =>
      rw [map_cons, castAll, castTo_of_sort rfl, ih]
      rfl
  have len : args.length = f.arity := by rw [arity, ← sorts, length_map]
  rw [apply, if_neg (by simpa using len), cast sorts]
  exact if_pos sorts

theorem legal_apply (proper : f.Proper) (old : ∀ hint k s, n ≤ k → f ≠ .supply hint k s)
    (sorts : args.map sort = f.domain) (legal : ∀ a ∈ args, a.Legal strict n) : (app f args).Legal strict n := by
  have len : f.arity = args.length := by rw [arity, ← sorts, length_map]
  exact ⟨sorted_app.2 ⟨proper, by rw [placesOf, if_pos len, sorts], fun a mem => (legal a mem).sorted⟩,
    before_app.2 ⟨old, fun a mem => (legal a mem).before⟩⟩

theorem cong_conservative {pfs : List Proof} (ok : cong f pfs = .ok p) (proper : f.Proper)
    (old : ∀ hint k s, n ≤ k → f ≠ .supply hint k s) (legal : ∀ q ∈ pfs, q.thm.Legal false n) :
    Conservative.{u} n n (pfs.map Proof.thm) p.thm := by
  obtain ⟨_, count, rest⟩ := bind_eq_ok.1 ok
  split at rest
  swap
  · cases rest
  rename_i eqs hit
  simp only [bind_eq_ok] at rest
  obtain ⟨_, dom, l, left, r, right, e, built, last⟩ := rest
  cases last
  have sides := mapM_eq_some.1 hit
  have each : ∀ e ∈ eqs, ∃ q ∈ pfs, q.thm = .app (.eq e.1.sort) [e.1, e.2] ∧ e.1.sort = e.2.sort ∧
      e.1.Legal false n ∧ e.2.Legal false n := by
    intro e mem
    obtain ⟨q, mem', hit⟩ := Forall₂.exists_of_mem_right sides mem
    exact ⟨q, mem', sides?_eq_some (legal q mem') hit⟩
  have sorts : (eqs.map (·.1)).map sort = f.domain := by simpa [Function.comp_def] using dom
  have sorts' : (eqs.map (·.2)).map sort = f.domain := by
    rw [← sorts, map_map, map_map]
    refine map_congr_left fun e mem => ?_
    obtain ⟨_, -, -, eq, -⟩ := each e mem
    exact eq.symm
  rw [apply_of_sorts sorts] at left
  rw [apply_of_sorts sorts'] at right
  cases left
  cases right
  rw [eq_of_sort (a := .app f (eqs.map (·.1))) (b := .app f (eqs.map (·.2))) rfl] at built
  cases built
  refine .of_sound (legal_eq.2 ⟨⟨rfl, rfl⟩, legal_apply proper old sorts ?_, legal_apply proper old sorts' ?_⟩)
    fun I holds => eval_eq.2 ?_
  · intro a mem
    obtain ⟨e, mem', rfl⟩ := mem_map.1 mem
    obtain ⟨_, -, -, -, legal, -⟩ := each e mem'
    exact legal
  · intro b mem
    obtain ⟨e, mem', rfl⟩ := mem_map.1 mem
    obtain ⟨_, -, -, -, -, legal⟩ := each e mem'
    exact legal
  · rw [eval_app, eval_app, map_map, map_map]
    refine congrArg _ (map_congr_left fun e mem => ?_)
    obtain ⟨q, mem', shape, -⟩ := each e mem
    exact eval_eq.1 (shape ▸ holds q.thm (mem_map_of_mem mem'))

theorem equate_gives (ok : Gives (equate a b) w e v) : v = w ∧ w.equate a b = .ok e := by
  obtain ⟨built, rfl⟩ := ofChecked_session.1 (theWorld_bind.1 ok)
  exact ⟨rfl, built⟩

theorem equate_of_sort (same : a.sort = b.sort) (plain : w.method? "eq" a.sort = none) :
    w.equate a b = .ok (.app (.eq a.sort) [a, b]) ∨ w.equate a b = .ok (.app (.eq a.sort) [b, a]) := by
  unfold World.equate
  cases b.outranks a with
  | false => exact .inl (by simp [plain, eq_of_sort same])
  | true => exact .inr (by simp [← same, plain, eq_of_sort same.symm])

theorem subst_conservative (ok : Gives (subst pf t) w p v)
    (plain : w.method? "eq" t.sort = none) (premise : pf.thm.Legal false n) (legal : t.Legal false n) :
    v = w ∧ Conservative.{u} n n [pf.thm] p.thm := by
  unfold subst at ok
  split at ok
  swap
  · cases ok
  rename_i a b hit
  obtain ⟨shape, same, left, right⟩ := sides?_eq_some premise hit
  obtain ⟨q, w₁, step, rest⟩ := bind_iff.1 ok
  obtain ⟨replaced, rfl⟩ := ofChecked_session.1 step
  obtain ⟨e, w₂, step, last⟩ := bind_iff.1 rest
  cases last
  obtain ⟨rfl, built⟩ := equate_gives step
  obtain ⟨sorts, rfl⟩ := substitute_eq_ok.1 replaced
  have exchange : Exchange [(a, b)] := by simpa [Exchange] using ⟨left.sorted.closed, right.sorted.closed, same⟩
  have kept := sort_replaceAll exchange t
  have legal' : (t.replaceAll [(a, b)]).Legal false n := by
    refine ⟨legal.sorted.replaceAll exchange (by simpa using right.sorted), ?_⟩
    exact .of_mentions [b] (fun c _ mem => by simpa using mentions_replaceAll exchange mem)
      legal.before (by simpa using right.before)
  refine ⟨rfl, ?_⟩
  have equal {U : Type u} (I : Interpretation U) (holds : ∀ q ∈ [pf.thm], I.Holds q) :
      I.eval [] (t.replaceAll [(a, b)]) = I.eval [] t :=
    eval_replaceAll exchange (by simpa using eval_eq.1 (shape ▸ holds pf.thm mem_cons_self))
  rcases equate_of_sort kept.symm plain with shaped | shaped <;> cases built.symm.trans shaped
  · exact .of_sound (legal_eq.2 ⟨⟨rfl, kept⟩, legal, legal'⟩) fun I holds => eval_eq.2 (equal I holds).symm
  · exact .of_sound (legal_eq.2 ⟨⟨kept, rfl⟩, legal', legal⟩) fun I holds => eval_eq.2 (equal I holds)

/-! ## Lambdas -/

theorem select_eq_ok (ok : (bind .lambda vars body).select args = .ok e) :
    ∃ is, e = .app (.select (vars.map (·.2)) body.sort) (.bind .lambda vars body :: is) ∧
      is.map sort = vars.map (·.2) ∧ castAll (vars.map (·.2)) args = .ok is := by
  unfold Term.select at ok
  split at ok
  swap
  · cases ok
  rename_i domains range shape
  cases shape
  split at ok
  · cases ok
  obtain ⟨is, cast, last⟩ := bind_eq_ok.1 ok
  obtain ⟨sorts, rfl⟩ := op_eq_ok.1 last
  simp only [map_cons, builtin, List.cons.injEq] at sorts
  exact ⟨is, rfl, sorts.2, cast⟩

theorem castAll_reverse (len : args.length = vars.length) (cast : castAll (vars.map (·.2)) args = .ok is)
    (sorts : is.map sort = vars.map (·.2)) :
    ∀ (i : Nat) u k s, args.reverse[i]? = some u → (binding .lambda vars)[i]? = some (k, s) →
      is.reverse[i]? = some (adapt s u) ∧ Term.Widens s u.sort := by
  intro i u k s at' hit
  have count : is.length = vars.length := by simpa using congrArg List.length sorts
  have bound : i < args.length := by simpa using (List.getElem?_eq_some_iff.1 at').1
  rw [getElem?_reverse bound] at at'
  rw [binding, getElem?_reverse (by simp; omega), length_map, getElem?_map, Option.map_eq_some_iff] at hit
  obtain ⟨v, hit, eq⟩ := hit
  cases eq
  rw [getElem?_reverse (by omega)]
  have := castAll_eq_adapt cast sorts (args.length - 1 - i) v.2 u (by simp [len, hit]) at'
  rwa [count, ← len]

theorem betaConv_conservative (ok : betaConv lam args = .ok p) (legal : lam.Legal true n)
    (terms : ∀ t ∈ args, t.Legal false n) : Conservative.{u} n n [] p.thm := by
  unfold betaConv at ok
  split at ok
  swap
  · cases ok
  rename_i k vars body
  simp only [bind_eq_ok] at ok
  obtain ⟨_, count, _, kind, e, selected, body', applied, q, built, last⟩ := ok
  cases last
  obtain rfl : k = .lambda := by simpa using kind
  have len : args.length = vars.length := by simpa using count
  obtain ⟨is, rfl, sorts, cast⟩ := select_eq_ok selected
  have inner : body.Sorted true ([] ++ binding .lambda vars) := by simpa using legal.sorted.1
  have legal' := legal.applyBody (.inl rfl) terms len applied
  rw [applyBody_eq inner] at applied
  have flipped : args.reverse.length = (binding .lambda vars).length := by simpa using len
  have converted := castAll_reverse len cast sorts
  have widens := widens_instantiateAdaptingAt flipped (fun i u k s at' hit => (converted i u k s at' hit).2) inner applied
  obtain ⟨rfl, sort⟩ := eq_of_widens
    (a := .app (.select (vars.map (·.2)) body.sort) (.bind .lambda vars body :: is)) widens built
  have legalIs : ∀ t ∈ is, t.Legal false n := by
    intro t mem'
    obtain ⟨i, at'⟩ := mem_iff_getElem?.1 (mem_reverse.2 mem')
    have bound := (List.getElem?_eq_some_iff.1 at').1
    have count : is.length = vars.length := by simpa using congrArg List.length sorts
    rw [length_reverse] at bound
    obtain ⟨u, hit⟩ : ∃ u, args.reverse[i]? = some u := ⟨_, getElem?_eq_getElem (by simp; omega)⟩
    obtain ⟨e, hit'⟩ : ∃ e, (binding .lambda vars)[i]? = some e := ⟨_, getElem?_eq_getElem (by simp; omega)⟩
    rw [(converted i u e.1 e.2 hit hit').1] at at'
    cases at'
    exact (terms u (mem_reverse.1 (mem_of_getElem? hit))).adapt _
  have head : (app (.select (vars.map (·.2)) body.sort) (.bind .lambda vars body :: is)).Legal false n := by
    refine legal_apply (Symbol.Logical.select _ _).proper (before_of_not_free rfl) ?_ ?_
    · rw [map_cons, sorts]
      rfl
    intro a mem'
    rcases mem_cons.1 mem' with rfl | mem'
    · exact legal.relax
    · exact legalIs a mem'
  refine .of_sound (legal_eq.2 ⟨⟨rfl, sort⟩, head, legal'.adapt _⟩) fun I _ => eval_eq.2 ?_
  have fits : I.Fits (is.map (I.eval [])) (vars.map (·.2)) := sorts ▸ I.fits_eval fun t mem' => (legalIs t mem').sorted
  have shown := I.comprehension legal.sorted.1 .nil
  have stands : ∀ (i : Nat) u k s, args.reverse[i]? = some u → (binding .lambda vars)[i]? = some (k, s) →
      ∃ w, (is.map (I.eval [])).reverse[i]? = some w ∧ I.Stands s u w := by
    intro i u k s at' hit
    obtain ⟨image, wide⟩ := converted i u k s at' hit
    have mem' := mem_reverse.1 (mem_of_getElem? at')
    refine ⟨I.eval [] (adapt s u), by rw [← map_reverse, getElem?_map, image]; rfl, ?_, fun _ => rfl, ?_⟩
    · have mem := I.eval_mem ((terms u mem').sorted.adapt s) .nil
      rwa [wide.sort_adapt] at mem
    · rintro rfl
      rfl
  have value := (I.eval_instantiateAdaptingAt (ρ := []) flipped
    (fun u mem' => (terms u (mem_reverse.1 mem')).sorted) (.inl rfl) stands inner rfl applied).1 sort
  calc I.eval [] (.app (.select (vars.map (·.2)) body.sort) (.bind .lambda vars body :: is))
      = I.fn (.select (vars.map (·.2)) body.sort) (I.lam (vars.map (·.2)) body.sort
          (fun us => I.eval (us.reverse ++ []) body) :: is.map (I.eval [])) := by
        rw [eval_app, map_cons, Frame.eval]
    _ = I.eval ((is.map (I.eval [])).reverse ++ []) body := I.select_lam shown fits
    _ = _ := by rw [append_nil]; exact value.symm

/-! ## Runs -/

inductive Call where
  | instan (ts : List Term) (pf : Proof)
  | instan2 (ts : List Term) (thm : Term)
  | forget (ts : List Term) (pf : Proof)
  | forget2 (ts : List Term) (thm : Term)
  | einstan (thm : Term)
  | skolem (pf : Proof)
  | herb (thm : Term)
  | modus (ab a : Proof)
  | proj (pf : Proof) (n : Int)
  | andI (a b : Proof)
  | eqrefl (t : Term)
  | eqsym (pf : Proof)
  | eqtrans (p q : Proof)
  | cong (f : Symbol) (pfs : List Proof)
  | subst (pf : Proof) (t : Term)
  | betaConv (lam : Term) (args : List Term)
  | consider (t : Term)

namespace Call

def run : Call → Session Proof
  | .instan ts pf => liftM (Kernel.instan ts pf)
  | .instan2 ts thm => liftM (Kernel.instan2 ts thm)
  | .forget ts pf => liftM (Kernel.forget ts pf)
  | .forget2 ts thm => liftM (Kernel.forget2 ts thm)
  | .einstan thm => do return (← Kernel.einstan thm).2
  | .skolem pf => do return (← Kernel.skolem pf).2
  | .herb thm => do return (← Kernel.herb thm).2
  | .modus ab a => liftM (Kernel.modus ab a)
  | .proj pf n => liftM (Kernel.proj pf n)
  | .andI a b => liftM (Kernel.andI a b)
  | .eqrefl t => liftM (Kernel.eqrefl t)
  | .eqsym pf => liftM (Kernel.eqsym pf)
  | .eqtrans p q => liftM (Kernel.eqtrans p q)
  | .cong f pfs => liftM (Kernel.cong f pfs)
  | .subst pf t => Kernel.subst pf t
  | .betaConv lam args => liftM (Kernel.betaConv lam args)
  | .consider t => liftM (Kernel.consider t)

def premises : Call → List Proof
  | .instan _ pf | .forget _ pf | .skolem pf | .proj pf _ | .eqsym pf | .subst pf _ => [pf]
  | .modus p q | .andI p q | .eqtrans p q => [p, q]
  | .cong _ pfs => pfs
  | .instan2 .. | .forget2 .. | .einstan .. | .herb .. | .eqrefl .. | .betaConv .. | .consider .. => []

def terms : Call → List Term
  | .instan ts _ | .forget ts _ => ts
  | .instan2 ts thm | .forget2 ts thm => thm :: ts
  | .einstan t | .herb t | .eqrefl t | .subst _ t | .consider t => [t]
  | .betaConv lam args => lam :: args
  | .skolem .. | .modus .. | .proj .. | .andI .. | .eqsym .. | .eqtrans .. | .cong .. => []

def symbols : Call → List Symbol
  | .cong f _ => [f]
  | _ => []

/-- The terms for which a call asks the world for a notion of equality. -/
def equated : Call → List Term
  | .subst _ t => [t]
  | _ => []

/-- The call is made on closed terms and on symbols that were there before the supply went on, and equality is
plain equality. -/
structure Legal (w : World) (c : Call) : Prop where
  terms : ∀ t ∈ c.terms, t.Legal true w.next
  symbols : ∀ f ∈ c.symbols, f.Proper ∧ ∀ hint k s, w.next ≤ k → f ≠ .supply hint k s
  plain : ∀ t ∈ c.equated, w.method? "eq" t.sort = none

/-- What one call does: its theorem can be made true by values for the constants it draws. -/
theorem conservative {c : Call} (ok : Gives c.run w p v) (legal : c.Legal w)
    (premises : ∀ q ∈ c.premises, q.thm.Legal false w.next) :
    Conservative.{u} w.next v.next (c.premises.map Proof.thm) p.thm := by
  have terms : ∀ t ∈ c.terms, t.Legal false w.next := fun t mem => (legal.terms t mem).relax
  have pair {x : Fresh (List Term × Proof)} (ok : Gives (do return (← x).2 : Session Proof) w p v) :
      ∃ r, Gives x w.next r v.next ∧ p = r.2 := by
    obtain ⟨r, w', step, last⟩ := bind_iff.1 ok
    obtain ⟨n, made, rfl⟩ := ofFresh_iff.1 step
    cases last
    exact ⟨r, made, rfl⟩
  cases c with
  | instan _ pf =>
    obtain ⟨made, rfl⟩ := ofChecked_session.1 ok
    exact instan_conservative made (premises pf mem_cons_self) terms
  | instan2 _ thm =>
    obtain ⟨made, rfl⟩ := ofChecked_session.1 ok
    exact instan2_conservative made (terms thm mem_cons_self) fun t mem => terms t (mem_cons_of_mem _ mem)
  | forget _ pf =>
    obtain ⟨n, made, rfl⟩ := ofFresh_iff.1 ok
    exact forget_conservative made (premises pf mem_cons_self) terms
  | forget2 _ thm =>
    obtain ⟨made, rfl⟩ := ofChecked_session.1 ok
    exact forget2_conservative made (legal.terms thm mem_cons_self) fun t mem => terms t (mem_cons_of_mem _ mem)
  | einstan thm =>
    obtain ⟨r, made, rfl⟩ := pair ok
    exact einstan_conservative made (terms thm mem_cons_self)
  | skolem pf =>
    obtain ⟨r, made, rfl⟩ := pair ok
    exact skolem_conservative made (premises pf mem_cons_self)
  | herb thm =>
    obtain ⟨r, made, rfl⟩ := pair ok
    exact herb_conservative made (terms thm mem_cons_self)
  | modus ab =>
    obtain ⟨made, rfl⟩ := ofChecked_session.1 ok
    exact modus_conservative made (premises ab mem_cons_self)
  | proj pf =>
    obtain ⟨made, rfl⟩ := ofChecked_session.1 ok
    exact proj_conservative made (premises pf mem_cons_self)
  | andI a b =>
    obtain ⟨made, rfl⟩ := ofChecked_session.1 ok
    exact andI_conservative made (premises a mem_cons_self) (premises b (by simp [Call.premises]))
  | eqrefl t =>
    obtain ⟨made, rfl⟩ := ofChecked_session.1 ok
    exact eqrefl_conservative made (terms t mem_cons_self)
  | eqsym pf =>
    obtain ⟨made, rfl⟩ := ofChecked_session.1 ok
    exact eqsym_conservative made (premises pf mem_cons_self)
  | eqtrans q r =>
    obtain ⟨made, rfl⟩ := ofChecked_session.1 ok
    exact eqtrans_conservative made (premises q mem_cons_self) (premises r (by simp [Call.premises]))
  | cong f =>
    obtain ⟨made, rfl⟩ := ofChecked_session.1 ok
    obtain ⟨proper, old⟩ := legal.symbols f mem_cons_self
    exact cong_conservative made proper old premises
  | subst pf t =>
    obtain ⟨rfl, sound⟩ := subst_conservative ok (legal.plain t mem_cons_self)
      (premises pf mem_cons_self) (terms t mem_cons_self)
    exact sound
  | betaConv lam =>
    obtain ⟨made, rfl⟩ := ofChecked_session.1 ok
    exact betaConv_conservative made (legal.terms lam mem_cons_self) fun t mem => terms t (mem_cons_of_mem _ mem)
  | consider t =>
    obtain ⟨n, made, rfl⟩ := ofFresh_iff.1 ok
    exact consider_conservative made (terms t mem_cons_self)

end Call

/-- The proofs `ps` come from the axioms `A` and calls of the rules, which lead from the world `w` to `v`. -/
inductive Reaches (A : Set Term) (w : World) : List Proof → World → Prop
  | start : Reaches A w [] w
  | assume {ps : List Proof} {v : World} (p : Proof) (reached : Reaches A w ps v) (given : p.thm ∈ A) : Reaches A w (p :: ps) v
  | call {ps : List Proof} {v v' : World} {p : Proof} (c : Call) (reached : Reaches A w ps v)
    (earlier : ∀ q ∈ c.premises, q ∈ ps) (legal : c.Legal v) (done : Gives c.run v p v') : Reaches A w (p :: ps) v'

namespace Reaches
variable {A : Set Term} {w v : World} {ps : List Proof}

theorem next_le (reached : Reaches A w ps v) (axioms : ∀ a ∈ A, a.Legal true w.next) :
    w.next ≤ v.next ∧ ∀ p ∈ ps, p.thm.Legal false v.next := by
  induction reached with
  | start => exact ⟨le_rfl, by simp⟩
  | assume _ _ given ih =>
    exact ⟨ih.1, forall_mem_cons.2 ⟨(axioms _ given).relax.mono ih.1, ih.2⟩⟩
  | call _ _ earlier legal ok ih =>
    have step := Call.conservative.{0} ok legal fun q mem => ih.2 q (earlier q mem)
    exact ⟨ih.1.trans step.le, forall_mem_cons.2 ⟨step.legal, fun q mem => (ih.2 q mem).mono step.le⟩⟩

theorem exists_extension (reached : Reaches A w ps v) (axioms : ∀ a ∈ A, a.Legal true w.next)
    (I : Interpretation U) (model : ∀ a ∈ A, I.Holds a) :
    ∃ J : Interpretation U, I.AgreeOutside (Drawn w.next v.next) J.toFrame ∧ ∀ p ∈ ps, J.Holds p.thm := by
  induction reached with
  | start => exact ⟨I, agreeOutside_refl _, by simp⟩
  | assume _ _ given ih =>
    obtain ⟨J, agree, holds⟩ := ih
    refine ⟨J, agree, forall_mem_cons.2 ⟨?_, holds⟩⟩
    rw [Holds, ← (axioms _ given).before.eval agree, ← agree.yes]
    exact model _ given
  | call c reached earlier legal ok ih =>
    obtain ⟨J, agree, holds⟩ := ih
    obtain ⟨le, old⟩ := reached.next_le axioms
    have step := Call.conservative ok legal fun q mem => old q (earlier q mem)
    obtain ⟨K, agree', new⟩ := step.extend J fun t mem => by
      obtain ⟨q, mem', rfl⟩ := mem_map.1 mem
      exact holds q (earlier q mem')
    refine ⟨K, (agree.trans agree').mono fun c drawn => ?_, forall_mem_cons.2 ⟨new, fun q mem => ?_⟩⟩
    · rcases drawn with drawn | drawn
      · exact drawn.mono le_rfl step.le
      · exact drawn.mono le le_rfl
    · rw [Holds, ← (old q mem).before.eval agree', ← agree'.yes]
      exact holds q mem

/-- Every model of the axioms can be extended, by values for the constants that the run draws, to a model of all its theorems.
So theorems that mention none of these hold in every model of the axioms. -/
theorem extends_every_model {U : Type u} (reached : Reaches A w ps v) (axioms : ∀ a ∈ A, a.Legal true w.next)
    (I : Interpretation U) (model : ∀ a ∈ A, I.Holds a) :
    (∃ J : Interpretation U, I.AgreeOutside (Drawn w.next v.next) J.toFrame ∧ ∀ p ∈ ps, J.Holds p.thm) ∧
      ∀ p ∈ ps, (∀ c, p.thm.Mentions c → ¬ c.Drawn w.next v.next) → I.Holds p.thm := by
  obtain ⟨J, agree, holds⟩ := reached.exists_extension axioms I model
  refine ⟨⟨J, agree, holds⟩, fun p mem clean => ?_⟩
  rw [Holds, agree.eval (fun _ drawn => drawn.isFree) clean, agree.yes]
  exact holds p mem

def someHas : Term := .bind .exists [("x", .uninterpreted "T")] (.app ⟨"p", [.uninterpreted "T"], .bool, .free⟩
  [.var 0 (.uninterpreted "T")])

theorem someHas_legal (n : Nat) : someHas.Legal true n := by
  refine ⟨⟨sorted_app.2 ⟨proper_of_isFree rfl, rfl, ?_⟩, .inr (.inl rfl)⟩, ?_⟩
  · intro a mem
    obtain rfl := mem_singleton.1 mem
    exact ⟨.exists, rfl⟩
  intro hint k s _ mem'
  rcases mentions_app.1 mem' with eq | ⟨a, mem, mem'⟩
  · cases congrArg role eq
  · obtain rfl := mem_singleton.1 mem
    exact mem'

theorem someHas_holds : allTrue.Holds someHas := by
  refine eval_exists.2 ⟨[⟨.uninterpreted "T", ()⟩], .cons rfl .nil, ?_⟩
  exact Standard.allTrue_predicate (fun logical => Bool.noConfusion logical.isFree_eq_false) rfl _

/-- From the axiom that some thing has the property, a new constant that has it. -/
theorem skolem_extends_allTrue : (∀ a ∈ ({someHas} : Set Term), a.Legal true 0 ∧ allTrue.Holds a) ∧
    ∃ q : Proof, q.thm = .app ⟨"p", [.uninterpreted "T"], .bool, .free⟩ [.app (.supply "x" 0 (.uninterpreted "T")) []] ∧
      Reaches {someHas} {} [q, .byAxiom someHas] { next := 1 } ∧
      ∃ J : Interpretation _, allTrue.AgreeOutside (Drawn 0 1) J.toFrame ∧ J.Holds q.thm := by
  have axioms : ∀ a ∈ ({someHas} : Set Term), a.Legal true 0 := by
    rintro a rfl
    exact someHas_legal 0
  have model : ∀ a ∈ ({someHas} : Set Term), allTrue.Holds a := by
    rintro a rfl
    exact someHas_holds
  have given : Reaches {someHas} {} [.byAxiom someHas] {} := .assume _ .start rfl
  have reached : Reaches {someHas} {} [_, .byAxiom someHas] { next := 1 } :=
    .call (.skolem (.byAxiom someHas)) given (by simp [Call.premises])
      ⟨by simp [Call.terms], by simp [Call.symbols], by simp [Call.equated]⟩ rfl
  obtain ⟨⟨J, agree, holds⟩, -⟩ := reached.extends_every_model axioms allTrue model
  exact ⟨fun a mem => ⟨axioms a mem, model a mem⟩, _, rfl, reached, J, agree, holds _ mem_cons_self⟩

end Reaches

/-! ## Calls -/

variable {q r : Proof} {args : List Argument} {first : Term} {fuel : Nat}

/-- What a theorem asks for, if anything: terms for so many variables, or a proof of its hypothesis. -/
def asks : Term → Option (Option Nat)
  | .bind .forall vars _ => some (some vars.length)
  | t => if t.isImplies then some none else none

/-- The arguments lead from one proof to another step by step, through theorems that ask for what the first one does. -/
inductive Applies (first : Term) : Proof → List Argument → Proof → Prop
  | done (pf : Proof) : Applies first pf [] pf
  | instan {pf q r : Proof} (ts : List Term) {as : List Argument} (some : ts ≠ []) (like : asks pf.thm = asks first)
      (step : instan ts pf = .ok q) (rest : Applies first q as r) : Applies first pf (ts.map .term ++ as) r
  | modus {pf p q r : Proof} {as : List Argument} (like : asks pf.thm = asks first) (step : modus pf p = .ok q)
      (rest : Applies first q as r) : Applies first pf (.proof p :: as) r

theorem terms?_map (ts : List Term) : Argument.terms? (ts.map .term) = some ts := by
  unfold Argument.terms?
  induction ts with
  | nil => rfl
  | cons => simp_all

theorem Applies.callFrom (applies : Applies first pf args r) (bound : args.length ≤ fuel) :
    callFrom first fuel pf args = .ok r := by
  induction applies generalizing fuel with
  | done => rw [Kernel.callFrom]
  | @instan _ q _ ts _ some like step rest ih =>
    obtain ⟨inner, body, shape, len, -⟩ := instan_eq_ok step
    obtain ⟨t, ts, rfl⟩ := exists_cons_of_ne_nil some
    obtain ⟨fuel, rfl⟩ : ∃ k, fuel = k + 1 := Nat.exists_eq_succ_of_ne_zero (by rintro rfl; simp at bound)
    have rest := @ih fuel (by simp at bound; omega)
    rw [shape, asks, ← len] at like
    unfold asks at like
    split at like
    · rename_i vars _ _
      have count : ((t :: ts).map Argument.term).length = vars.length := by simpa using like
      rw [map_cons, cons_append, Kernel.callFrom, ← cons_append, ← map_cons]
      simp only [take_left' count, drop_left' count, shape, length_map, len, terms?_map, ne_eq, not_true_eq_false, if_false]
      exact bind_eq_ok.2 ⟨q, step, rest⟩
    · split at like <;> cases like
  | @modus _ _ q _ _ like step rest ih =>
    obtain ⟨f, op, shape⟩ := modus_eq_ok step
    obtain ⟨fuel, rfl⟩ : ∃ k, fuel = k + 1 := Nat.exists_eq_succ_of_ne_zero (by rintro rfl; simp at bound)
    have rest := @ih fuel (by simpa using bound)
    replace like : some none = asks first := by rw [← like, shape]; exact (if_pos op).symm
    unfold Kernel.callFrom
    unfold asks at like
    split at like
    · cases like
    split at like
    · rename_i implies
      simp only [implies, if_true]
      exact bind_eq_ok.2 ⟨q, step, rest⟩
    · cases like

/-- A call whose arguments can be taken step by step, as the first theorem asks for them, returns what the steps do. -/
theorem call_of_applies (applies : Applies pf.thm pf args r) : call pf args = .ok r := applies.callFrom (Nat.le_refl _)

theorem call_chain :
    let thm : Term := .bind .forall [("x", .int)] (.bind .forall [("y", .int)] (.app (.eq .int) [.var 0 .int, .var 1 .int]))
    ∃ r : Proof, r.thm = .app (.eq .int) [.int 3, .int 1] ∧ call (.byAxiom thm []) [.term (.int 1), .term (.int 3)] = .ok r :=
  ⟨_, rfl, call_of_applies (.instan [.int 1] (by simp) rfl rfl (.instan [.int 3] (by simp) rfl rfl (.done _)))⟩

end Kernel
end SortedLogic

import SortedLogic.Proofs.Quantification
import SortedLogic.Proofs.Recursion

/-!
# Structural induction

The induction scheme of a datatype quantifies over arguments with the conditions of well-formedness of their sorts
(`inductDatatypeBy_holds`), so it hands a property on to values of well-formed fields only. Over a freely generated datatype it
is true at every value that is made of such fields throughout (`Frame.WellMade`).
-/

namespace SortedLogic
open SortedLogic.Frame
open List
open Term
universe u
open Gives

namespace Frame
variable {U : Type u} (F : Frame U) (d : Datatype)

/-- `v` is made by a constructor from `u`, of the same datatype, and others. -/
def Inside (u v : U) : Prop :=
  ∃ c ∈ d.constructors, ∃ us, F.Fits us c.symbol.domain ∧ v = F.fn c.symbol us ∧ (u, d.sort) ∈ us.zip c.symbol.domain

/-- Each value of the datatype is made by a constructor, in one way, and taking values apart comes to an end. -/
structure FreelyGenerated : Prop where
  exhaustive : ∀ u ∈ F.carrier d.sort, ∃ c ∈ d.constructors, ∃ us, F.Fits us c.symbol.domain ∧ u = F.fn c.symbol us
  injective : ∀ c ∈ d.constructors, ∀ c' ∈ d.constructors, ∀ us us', F.Fits us c.symbol.domain →
    F.Fits us' c'.symbol.domain → F.fn c.symbol us = F.fn c'.symbol us' → c.symbol = c'.symbol ∧ us = us'
  wellFounded : WellFounded (F.Inside d)

/-- Every constructor hands on the property, as far as its arguments are well formed. -/
def HandsOn (W : Srt → U → Prop) (p : U → Prop) : Prop :=
  ∀ c ∈ d.constructors, ∀ us, F.Fits us c.symbol.domain → (∀ q ∈ us.zip c.symbol.domain, W q.2 q.1) →
    (∀ q ∈ us.zip c.symbol.domain, q.2 = d.sort → p q.1) → p (F.fn c.symbol us)

/-- The value is made of well-formed fields throughout. -/
inductive WellMade (W : Srt → U → Prop) : U → Prop
  | make {c : Constructor} {us : List U} : c ∈ d.constructors → F.Fits us c.symbol.domain →
      (∀ q ∈ us.zip c.symbol.domain, W q.2 q.1) → (∀ q ∈ us.zip c.symbol.domain, q.2 = d.sort → WellMade W q.1) →
      WellMade W (F.fn c.symbol us)

variable {F d} {W : Srt → U → Prop} {p : U → Prop} {u : U}

theorem WellMade.of_handsOn (made : F.WellMade d W u) (step : F.HandsOn d W p) : p u := by
  induction made with
  | make mem fits fields _ ih => exact step _ mem _ fits fields ih

theorem FreelyGenerated.wellMade (free : F.FreelyGenerated d)
    (all : ∀ c ∈ d.constructors, ∀ s ∈ c.symbol.domain, ∀ u ∈ F.carrier s, W s u) (mem : u ∈ F.carrier d.sort) :
    F.WellMade d W u := by
  induction u using free.wellFounded.induction with
  | h u ih =>
    obtain ⟨c, member, us, fits, rfl⟩ := free.exhaustive u mem
    have places {q : U × Srt} (mem' : q ∈ us.zip c.symbol.domain) : q.1 ∈ F.carrier q.2 := (forall₂_iff_zip.1 fits).2 mem'
    refine .make member fits (fun q mem' => ?_) fun q mem' same => ?_
    · exact all c member q.2 (of_mem_zip mem').2 q.1 (places mem')
    · refine ih q.1 ⟨c, member, us, fits, rfl, ?_⟩ (same ▸ places mem')
      rw [← same]
      exact mem'

end Frame

namespace Kernel
variable {U : Type u} {I : Interpretation U} {w v : World} {x : Term} {P : Term → Checked Term} {p : U → Prop}
  {W : Srt → U → Prop} {d : Datatype} {n : Nat}

def caseOf (x : Term) (P : Term → Checked Term) (c : Constructor) : Session Term := do
  let args ← (c.symbol.domain.zip c.accessors).mapM fun q => (liftM (freshConst q.2.name q.1) : Session Term)
  let head ← P (← c.symbol.apply args)
  let body ← (args.filter (·.sort = x.sort)).mapM fun a => (liftM (P a) : Session Term)
  if args.isEmpty then pure head else forallWhere args (body ++ [head])

theorem caseOf_gives {c : Constructor} {h : Term} (made : c.Made d.sort) (sort : x.sort = d.sort)
    (restricts : w.Restricts I n W) (denotes : Denotes I n d.sort P p) (le : n ≤ w.next)
    (ok : Gives (caseOf x P c) w h v) :
    (∃ m, w.next ≤ m ∧ v = { w with next := m }) ∧
      (I.Holds h ↔ ∀ us, I.Fits us c.symbol.domain → (∀ q ∈ us.zip c.symbol.domain, W q.2 q.1) →
        (∀ q ∈ us.zip c.symbol.domain, q.2 = d.sort → p q.1) → p (I.fn c.symbol us)) := by
  obtain ⟨args, _, drew, rest⟩ := bind_iff.1 ok
  obtain ⟨m, consts, rfl⟩ := mapM_ofFresh drew
  obtain ⟨cs, rfl, ranges, nodup, drawn, grown⟩ := freshConsts_gives (fun q : Srt × Symbol => q.2.name) Prod.fst consts
  have dom : cs.map Symbol.range = c.symbol.domain := by
    rw [ranges]
    exact map_fst_zip (by rw [← made.ranges, length_map])
  have drawn' : ∀ e ∈ cs, e.Drawn n m := fun e mem' => (drawn e mem').mono le (Nat.le_refl m)
  have sorts : (cs.map (.app · [])).map Term.sort = c.symbol.domain := by
    rw [← dom, map_map]
    rfl
  -- the constructor applied to the constants
  obtain ⟨whole, built, rest⟩ := checked_bind.1 rest
  rw [apply_of_sorts sorts] at built
  cases built
  obtain ⟨head, written, rest⟩ := checked_bind.1 rest
  have fixed : c.symbol.isFree = false := by simp [Symbol.isFree, made.role]
  have legal : (app c.symbol (cs.map (.app · []))).Legal true m := by
    refine legal_apply (Symbol.proper_of_role (by simp [made.role])) (before_of_not_free fixed) sorts fun a mem' => ?_
    obtain ⟨e, there, rfl⟩ := mem_map.1 mem'
    exact (drawn e there).legal
  obtain ⟨closedHead, headHolds⟩ := denotes legal made.range written
  obtain ⟨body, _, wrote, rest⟩ := bind_iff.1 rest
  obtain ⟨recursive, rfl⟩ := mapM_ofChecked.1 wrote
  rw [← dom, Interpretation.forall_varies nodup fun e mem' => (drawn e mem').isFree]
  have zipped (J : Interpretation U) : (cs.map fun e => J.eval [] (.app e [])).zip (cs.map Symbol.range)
      = cs.map fun e => (J.eval [] (.app e []), e.range) := by rw [zip_map']
  have mem' {t : Term} (mem : t ∈ body) : ∃ e ∈ cs, e.range = d.sort ∧ P (.app e []) = .ok t := by
    obtain ⟨a, kept, written⟩ := Forall₂.exists_of_mem_right recursive mem
    obtain ⟨image, eq⟩ := mem_filter.1 kept
    obtain ⟨e, there, rfl⟩ := mem_map.1 image
    exact ⟨e, there, (of_decide_eq_true eq).trans sort, written⟩
  have said {J : Interpretation U} (agree : I.AgreeOutside (Symbol.Drawn n m) J.toFrame) :
      (∀ t ∈ body, J.Holds t) ↔ ∀ e ∈ cs, e.range = d.sort → p (J.eval [] (.app e [])) := by
    constructor
    · intro holds e there eq
      obtain ⟨t, mem, written⟩ := Forall₂.exists_of_mem_left recursive
        (mem_filter.2 ⟨mem_map.2 ⟨e, there, rfl⟩, decide_eq_true (eq.trans sort.symm)⟩)
      exact ((denotes (drawn e there).legal eq written).2 J agree).1 (holds t mem)
    · intro all t mem
      obtain ⟨e, there, eq, written⟩ := mem' mem
      exact ((denotes (drawn e there).legal eq written).2 J agree).2 (all e there eq)
  have closed : ∀ t ∈ body ++ [head], t.Closed := by
    intro t mem
    obtain mem | mem := mem_append.1 mem
    · obtain ⟨e, there, eq, written⟩ := mem' mem
      exact (denotes (drawn e there).legal eq written).1
    · exact mem_singleton.1 mem ▸ closedHead
  have meaning : v = { w with next := m } ∧ (I.Holds h ↔ ∀ J : Interpretation U, I.Varies cs J →
      (∀ e ∈ cs, W e.range (J.eval [] (.app e []))) → (∀ t ∈ body, J.Holds t) → J.Holds head) := by
    split at rest
    · rename_i empty
      obtain rfl : cs = [] := by simpa using empty
      obtain rfl : body = [] := by simpa using recursive
      cases rest
      refine ⟨rfl, fun holds J varies _ _ => ?_, fun all => all I ⟨agreeOutside_refl _, fun _ _ _ => rfl⟩ (by simp) (by simp)⟩
      rwa [Frame.Holds, ← varies.agree.eval (by simp) (by simp), ← varies.agree.yes]
    · obtain ⟨rfl, -, meaning⟩ := Interpretation.holds_forallWhere rest (restricts.next m)
        (agreeOutside_refl _) nodup drawn' closed
      exact ⟨rfl, meaning⟩
  refine ⟨⟨m, grown, meaning.1⟩, meaning.2.trans (forall₂_congr fun J varies => ?_)⟩
  have agree := varies.drawn drawn'
  have whole : J.eval [] (.app c.symbol (cs.map (.app · []))) = I.fn c.symbol (cs.map fun e => J.eval [] (.app e [])) := by
    rw [eval_app, map_map, agree.fn c.symbol fun drawn => by simp [drawn.isFree] at fixed]
    rfl
  rw [zipped, said agree, headHolds J agree, whole]
  simp only [forall_mem_map]

theorem casesOf_gives {cs : List Constructor} (made : ∀ c ∈ cs, c.Made d.sort) (sort : x.sort = d.sort)
    (denotes : Denotes I n d.sort P p) : ∀ {w v : World} {hyps : List Term}, w.Restricts I n W → n ≤ w.next →
      Gives (cs.mapM (caseOf x P)) w hyps v →
      (∃ m, w.next ≤ m ∧ v = { w with next := m }) ∧ ((∀ h ∈ hyps, I.Holds h) ↔ ∀ c ∈ cs, ∀ us, I.Fits us c.symbol.domain →
          (∀ q ∈ us.zip c.symbol.domain, W q.2 q.1) → (∀ q ∈ us.zip c.symbol.domain, q.2 = d.sort → p q.1) →
          p (I.fn c.symbol us)) := by
  induction cs with
  | nil =>
    intro w v hyps _ _ ok
    obtain ⟨rfl, rfl⟩ := mapM_nil_iff.1 ok
    exact ⟨⟨w.next, le_rfl, rfl⟩, by simp⟩
  | cons c _ ih =>
    intro w v hyps restricts le ok
    obtain ⟨h, _, hs, head, tail, rfl⟩ := mapM_cons_iff.1 ok
    obtain ⟨⟨m, grown, rfl⟩, first⟩ := caseOf_gives (made c (by simp)) sort restricts denotes le head
    obtain ⟨⟨m', grown', rfl⟩, rest⟩ := ih (fun c mem => made c (by simp [mem])) (restricts.next m) (Nat.le_trans le grown) tail
    refine ⟨⟨m', Nat.le_trans grown grown', rfl⟩, ?_⟩
    rw [forall_mem_cons, forall_mem_cons, first, rest]

theorem inductDatatypeBy_holds {pf : Proof} (declares : w.Declares) (hit : w.datatype? x.sort = some d)
    (legal : x.Legal true w.next) (restricts : w.Restricts I w.next W) (denotes : Denotes I w.next d.sort P p)
    (ok : Gives (inductDatatypeBy x P) w pf v) : I.Holds pf.thm ↔ (I.HandsOn d W p → p (I.eval [] x)) := by
  obtain ⟨declared, sort⟩ := Datatype.datatype?_eq_some hit
  have rest := theWorld_bind.1 ok
  rw [hit] at rest
  obtain ⟨hyps, _, cases', rest⟩ := bind_iff.1 rest
  obtain ⟨⟨m, grown, rfl⟩, cases''⟩ := casesOf_gives (fun c mem => Datatype.made (declares d declared) mem)
    sort.symm denotes restricts le_rfl cases'
  simp only [↓checked_bind] at rest
  obtain ⟨conc, written, all, join, thm, built, rest⟩ := rest
  cases rest
  show I.Holds thm ↔ _
  rw [(Guards.many join built).holds, cases'', (denotes legal sort.symm written).2 I (agreeOutside_refl _)]
  rfl

/-- Over a freely generated datatype the induction scheme is true at every value that is made of well-formed fields
throughout, so at all values if no sort of a field has a condition. -/
theorem induction_true {P : Term} {pf : Proof} (declares : w.Declares) (found : w.datatype? x.sort = some d)
    (free : I.FreelyGenerated d) (legal : x.Legal true w.next) (predicate : P.Legal true w.next)
    (array : P.sort = .array [d.sort] .bool) (restricts : w.Restricts I w.next W)
    (done : Gives (inductDatatype x P) w pf v) : (I.WellMade d W (I.eval [] x) → I.Holds pf.thm) ∧
      ((∀ c ∈ d.constructors, ∀ s ∈ c.symbol.domain, w.method? "wf" s = none) → I.Holds pf.thm) := by
  have meaning := inductDatatypeBy_holds declares found legal restricts (denotes_call predicate array) done
  have made : I.WellMade d W (I.eval [] x) → I.Holds pf.thm := fun made => meaning.2 made.of_handsOn
  refine ⟨made, fun unconditional => made (free.wellMade (fun c mem s inside u _ => ?_) ?_)⟩
  · exact restricts.all s (unconditional c mem s inside) u
  · exact (Datatype.datatype?_eq_some found).2 ▸ I.eval_mem legal.sorted .nil

end Kernel

namespace Naturals
open Standard (numbers numbers_fn)

theorem numbers_freelyGenerated : numbers.FreelyGenerated naturals where
  exhaustive u mem := by
    obtain ⟨n, rfl⟩ := exists_value mem
    cases n with
    | zero => exact ⟨zero, .head _, [], .nil, zero_fn.symm⟩
    | succ n => exact ⟨succ, .tail _ (.head _), [value n], .cons rfl .nil, (succ_fn n).symm⟩
  injective c member c' member' us us' fits fits' eq := by
    obtain ⟨-, rfl | rfl⟩ := mem_world (mem_singleton.2 rfl) member <;>
      obtain ⟨-, rfl | rfl⟩ := mem_world (mem_singleton.2 rfl) member'
    · obtain rfl := forall₂_nil_right_iff.1 fits
      obtain rfl := forall₂_nil_right_iff.1 fits'
      exact ⟨rfl, rfl⟩
    · obtain rfl := forall₂_nil_right_iff.1 fits
      obtain ⟨m, rfl⟩ := fits_one fits'
      rw [zero_fn, succ_fn] at eq
      cases value_injective eq
    · obtain rfl := forall₂_nil_right_iff.1 fits'
      obtain ⟨m, rfl⟩ := fits_one fits
      rw [zero_fn, succ_fn] at eq
      cases value_injective eq
    · obtain ⟨k, rfl⟩ := fits_one fits
      obtain ⟨m, rfl⟩ := fits_one fits'
      rw [succ_fn, succ_fn] at eq
      cases value_injective eq
      exact ⟨rfl, rfl⟩
  wellFounded := by
    refine Subrelation.wf ?_ numbers_inductive.wellFounded
    rintro u v ⟨c, member, us, fits, built, mem'⟩
    exact ⟨naturals, mem_singleton.2 rfl, c, member, us, fits, built, (of_mem_zip mem').1⟩

/-- The natural numbers, of which only zero is well formed. -/
def onlyZero : World := { world with methods := [("wf", naturals.sort, .symbol zero.recognizer)] }

/-- A value of any sort, but of the natural numbers only zero. -/
def IsZero (s : Srt) (u : Standard.Universe fun _ => Nat) : Prop := s = naturals.sort → u = value 0

theorem recognizer_value (k : Nat) : numbers.fn zero.recognizer [value k] = numbers.yes ↔ k = 0 := by
  rw [numbers_fn (by simp [zero])]
  refine truth_eq_yes.trans ?_
  show 1 - k ≠ 0 ↔ k = 0
  omega

theorem onlyZero_restricts : onlyZero.Restricts numbers 0 IsZero where
  denotes s registered := by
    obtain rfl : s = naturals.sort := by
      by_contra other
      simp [onlyZero, World.method?, Ne.symm other] at registered
    intro m t φ legal sort ok
    have eq : onlyZero.wellFormed t = zero.recognizer.apply [t] := by
      simp only [World.wellFormed, World.wellFormedFrom, sort]
      rfl
    obtain ⟨closed, holds⟩ := denotes_apply (before_of_not_free rfl) rfl legal sort (eq ▸ ok)
    refine ⟨closed, fun J agree => (holds J agree).trans ?_⟩
    have mem : J.eval [] t ∈ numbers.carrier naturals.sort := by
      rw [agree.carrier, ← sort]
      exact J.eval_mem legal.sorted .nil
    obtain ⟨k, value⟩ := exists_value mem
    rw [value]
    refine (recognizer_value k).trans ?_
    exact ⟨fun zero _ => congrArg Naturals.value zero, fun eq => value_injective (eq rfl)⟩
  all s free u eq := by
    subst eq
    cases free

def one : Term := .app succ.symbol [.app zero.symbol []]

def two : Term := .app succ.symbol [one]

def atMostOne : Term :=
  .bind .lambda [("n", naturals.sort)] (.app .or
    [.app (.eq naturals.sort) [.var 0 naturals.sort, .app zero.symbol []], .app (.eq naturals.sort) [.var 0 naturals.sort, one]])

theorem eval_one : numbers.eval [] one = value 1 := by rw [one, eval_app, map_singleton, eval_app, map_nil, zero_fn, succ_fn]

theorem eval_two : numbers.eval [] two = value 2 := by rw [two, eval_app, map_singleton, eval_one, succ_fn]

theorem zero_legal : (app zero.symbol []).Legal true 0 :=
  Kernel.legal_apply (Symbol.proper_of_role (by simp [zero])) (before_of_not_free rfl) rfl (by simp)

theorem succ_legal {t : Term} (legal : t.Legal true 0) (sort : t.sort = naturals.sort) : (app succ.symbol [t]).Legal true 0 :=
  Kernel.legal_apply (Symbol.proper_of_role (by simp [succ])) (before_of_not_free rfl) (by simp [succ, sort])
    (by simpa using legal)

theorem one_legal : one.Legal true 0 := succ_legal zero_legal rfl

theorem two_legal : two.Legal true 0 := succ_legal one_legal rfl

theorem atMostOne_legal : atMostOne.Legal true 0 := by
  have eqn {t : Term} (legal : t.Legal true 0) (sort : t.sort = naturals.sort) :
      (app (.eq naturals.sort) [.var 0 naturals.sort, t]).Sorted true (Term.binding .lambda [("n", naturals.sort)] ++ []) ∧
        (app (.eq naturals.sort) [.var 0 naturals.sort, t]).Before 0 :=
    ⟨sorted_eq.2 ⟨⟨rfl, sort⟩, ⟨.lambda, rfl⟩, legal.sorted.weaken _⟩,
      before_app.2 ⟨before_of_not_free rfl, by simpa using ⟨fun _ _ _ _ => id, legal.before⟩⟩⟩
  obtain ⟨first, first'⟩ := eqn zero_legal rfl
  obtain ⟨second, second'⟩ := eqn one_legal rfl
  refine ⟨⟨?_, .inl rfl⟩, ?_⟩
  · exact sorted_app.2 ⟨Symbol.Logical.or.proper, rfl, by simpa using ⟨first, second⟩⟩
  · show Term.Before 0 (.app .or _)
    exact before_app.2 ⟨before_of_not_free rfl, by simpa using ⟨first', second'⟩⟩

theorem trueAt_atMostOne (k : Nat) : TrueAt numbers naturals.sort atMostOne (value k) ↔ k ≤ 1 := by
  have shown := numbers.comprehension atMostOne_legal.sorted.1 .nil
  have eq (j : Nat) : value k = value j ↔ k = j := ⟨value_injective, congrArg value⟩
  have read : numbers.fn (.select [naturals.sort] .bool) [numbers.eval [] atMostOne, value k] = numbers.yes ↔
      value k = value 0 ∨ value k = value 1 := by
    rw [show numbers.fn (.select [naturals.sort] .bool) [numbers.eval [] atMostOne, value k] = _ from
      numbers.select_lam shown (.cons rfl .nil), eval_or]
    simp only [exists_mem_cons_iff, not_mem_nil, false_and, exists_false, or_false, eval_eq]
    rw [eval_closed one_legal.sorted.closed, eval_one, eval_app, map_nil, zero_fn]
    rfl
  rw [TrueAt, read, eq, eq]
  omega

theorem handsOn_atMostOne : numbers.HandsOn naturals IsZero (TrueAt numbers naturals.sort atMostOne) := by
  intro c mem us fits fields inner
  obtain ⟨-, rfl | rfl⟩ := mem_world (mem_singleton.2 rfl) mem
  · obtain rfl := forall₂_nil_right_iff.1 fits
    rw [zero_fn]
    exact (trueAt_atMostOne 0).2 (by omega)
  obtain ⟨k, rfl⟩ := fits_one fits
  obtain rfl : k = 0 := value_injective (fields (value k, naturals.sort) (by simp [succ]) rfl)
  rw [succ_fn]
  exact (trueAt_atMostOne 1).2 (by omega)

theorem wellMade_one : numbers.WellMade naturals IsZero (numbers.eval [] one) := by
  have wellMade_zero : numbers.WellMade naturals IsZero (value 0) := by
    rw [← zero_fn]
    exact .make (.head _) .nil (by simp [zero]) (by simp [zero])
  rw [eval_one, ← succ_fn]
  refine .make (.tail _ (.head _)) (.cons rfl .nil) ?_ ?_
  · rintro q mem -
    rw [mem_singleton.1 mem]
  · rintro q mem -
    rw [mem_singleton.1 mem]
    exact wellMade_zero

/-- One is made from zero, which is well formed. -/
theorem induction_true_at_one : ∃ pf v, Gives (Kernel.inductDatatype one atMostOne) onlyZero pf v ∧
    numbers.WellMade naturals IsZero (numbers.eval [] one) ∧ numbers.Holds pf.thm := by
  obtain ⟨pf, v, done⟩ := exists_of_isSome (x := Kernel.inductDatatype one atMostOne) (s := onlyZero) (by decide)
  exact ⟨pf, v, done, wellMade_one, (Kernel.induction_true (w := onlyZero) world_declares rfl numbers_freelyGenerated one_legal
    atMostOne_legal rfl onlyZero_restricts done).1 wellMade_one⟩

/-- Two is made from one, which is not well formed: being at most one is handed on, but two is not. -/
theorem induction_false_at_two : ∃ pf v, Gives (Kernel.inductDatatype two atMostOne) onlyZero pf v ∧ ¬ numbers.Holds pf.thm := by
  obtain ⟨pf, v, done⟩ := exists_of_isSome (x := Kernel.inductDatatype two atMostOne) (s := onlyZero) (by decide)
  refine ⟨pf, v, done, fun holds => ?_⟩
  have meaning := Kernel.inductDatatypeBy_holds (w := onlyZero) world_declares rfl two_legal onlyZero_restricts
    (denotes_call atMostOne_legal rfl) done
  have atTwo := meaning.1 holds handsOn_atMostOne
  rw [eval_two, trueAt_atMostOne] at atTwo
  omega

end Naturals
end SortedLogic

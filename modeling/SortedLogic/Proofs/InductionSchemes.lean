import Mathlib.Data.Int.Init
import SortedLogic.Proofs.Quantification
import SortedLogic.Theory.Bounds

/-!
# Induction over the integers and over sequences

The schemes where integers and finite sequences are the usual ones, each first put into words (`upward_holds` and its fellows).
All are true but the one that may use all smaller numbers: there the condition that the number is not negative stands at the end
of the step.
-/

namespace SortedLogic
open Kernel
open SortedLogic.Frame
open List
open SortedLogic.Symbol (proper_builtin not_logical supply supply_number Drawn logicalNames builtin)
open Value (callPlain selectAt toSort toTerm term)
open Term
universe u
open Gives
variable {sign : String} {c f : Symbol} {a : Term}

/-! ## Numbers and sequences -/

namespace Frame
variable {U : Type u}

/-- The integers are the usual ones: `num` gives the value of each. -/
structure Integers (F : Frame U) (num : Int → U) : Prop where
  carrier : ∀ u, u ∈ F.carrier .int ↔ ∃ k, u = num k
  literal : ∀ k, F.fn (.int k) [] = num k
  add : ∀ k l, F.fn (.builtin "+" [.int, .int] .int) [num k, num l] = num (k + l)
  sub : ∀ k l, F.fn (.builtin "-" [.int, .int] .int) [num k, num l] = num (k - l)
  ge : ∀ k l, F.fn (.builtin ">=" [.int, .int] .bool) [num k, num l] = F.yes ↔ l ≤ k
  le : ∀ k l, F.fn (.builtin "<=" [.int, .int] .bool) [num k, num l] = F.yes ↔ k ≤ l
  lt : ∀ k l, F.fn (.builtin "<" [.int, .int] .bool) [num k, num l] = F.yes ↔ k < l

def AllIn (F : Frame U) (s : Srt) (us : List U) : Prop := ∀ u ∈ us, u ∈ F.carrier s

/-- The sequences over the sort are the lists of its values: `seq` gives the value of each. -/
structure Sequences (F : Frame U) (e : Srt) (seq : List U → U) : Prop where
  carrier : ∀ u, u ∈ F.carrier (.seq e) ↔ ∃ us, F.AllIn e us ∧ u = seq us
  empty : F.fn (.builtin "seq.empty" [] (.seq e)) [] = seq []
  unit : ∀ u ∈ F.carrier e, F.fn (.builtin "seq.unit" [e] (.seq e)) [u] = seq [u]
  join : ∀ us vs, F.AllIn e us → F.AllIn e vs →
    F.fn (.builtin "seq.++" [.seq e, .seq e] (.seq e)) [seq us, seq vs] = seq (us ++ vs)

variable {F G : Frame U} {n m : Nat}

theorem forall_fits_nil {q : List U → Prop} : (∀ us, F.Fits us [] → q us) ↔ q [] := by simp [Fits]

theorem forall_fits_cons {s : Srt} {ss : List Srt} {q : List U → Prop} :
    (∀ us, F.Fits us (s :: ss) → q us) ↔ ∀ u ∈ F.carrier s, ∀ us, F.Fits us ss → q (u :: us) := by
  constructor
  · exact fun each u mem us fits => each _ (.cons mem fits)
  · rintro each _ (_ | ⟨mem, fits⟩)
    exact each _ mem _ fits

theorem AgreeOutside.builtin (agree : F.AgreeOutside (Drawn n m) G) (name : String) (dom : List Srt) (range : Srt) :
    G.fn (.builtin name dom range) = F.fn (.builtin name dom range) :=
  (agree.fn _ fun drawn => by cases drawn.isFree).symm

theorem AgreeOutside.integers (agree : F.AgreeOutside (Drawn n m) G) {num : Int → U} (integers : F.Integers num) :
    G.Integers num where
  carrier := agree.carrier ▸ integers.carrier
  literal k := (congrFun (agree.fn _ fun drawn => by cases drawn.isFree) _).symm.trans (integers.literal k)
  add := agree.builtin .. ▸ integers.add
  sub := agree.builtin .. ▸ integers.sub
  ge := agree.builtin .. ▸ agree.yes ▸ integers.ge
  le := agree.builtin .. ▸ agree.yes ▸ integers.le
  lt := agree.builtin .. ▸ agree.yes ▸ integers.lt

end Frame

/-! ## Comparisons and neighbours -/

namespace Induction
variable {U : Type u} {J : Interpretation U} {num : Int → U} {t u φ : Term} {n : Nat} {k l : Int}

theorem legal_arith {name : String} (other : name ∉ logicalNames) {range : Srt} (sort : t.sort = .int)
    (sort' : u.sort = .int) (legal : t.Legal true n) (legal' : u.Legal true n) :
    (app (.builtin name [.int, .int] range) [t, u]).Legal true n :=
  legal_apply (proper_builtin other _ _) (before_of_not_free rfl) (by simp [sort, sort', builtin])
    (by simpa using ⟨legal, legal'⟩)

theorem legal_int (k : Int) (n : Nat) : (int k).Legal true n :=
  legal_apply (proper_int k) (before_of_not_free rfl) rfl (by simp)

theorem successor_legal (legal : t.Legal true n) (sort : t.sort = .int) : (successor t).Legal true n :=
  legal_arith (by decide) sort rfl legal (legal_int 1 n)

theorem predecessor_legal (legal : t.Legal true n) (sort : t.sort = .int) : (predecessor t).Legal true n :=
  legal_arith (by decide) sort rfl legal (legal_int 1 n)

theorem eval_int (integers : J.Integers num) (k : Int) : J.eval [] (.int k) = num k := by
  exact integers.literal k

theorem eval_successor (integers : J.Integers num) (value : J.eval [] t = num k) : J.eval [] (successor t) = num (k + 1) := by
  rw [successor, eval_app, map_cons, map_singleton, value, eval_int integers, integers.add]

theorem eval_predecessor (integers : J.Integers num) (value : J.eval [] t = num k) : J.eval [] (predecessor t) = num (k - 1) := by
  rw [predecessor, eval_app, map_cons, map_singleton, value, eval_int integers, integers.sub]

theorem compare_eq_ok (ok : compare sign t u = .ok φ) : φ = .app (.builtin sign [t.sort, t.sort] .bool) [t, u] := by
  unfold compare op at ok
  split at ok
  · exact (Except.ok.inj ok).symm
  · cases ok

theorem compare_closed (closed : t.Closed) (closed' : u.Closed) (ok : compare sign t u = .ok φ) : φ.Closed := by
  obtain rfl := compare_eq_ok ok
  exact closed_app.2 (by simpa using ⟨closed, closed'⟩)

theorem compare_holds {r : Int → Int → Prop} (sort : t.sort = .int) (ok : compare sign t u = .ok φ)
    (means : ∀ k l, J.fn (.builtin sign [.int, .int] .bool) [num k, num l] = J.yes ↔ r k l) (value : J.eval [] t = num k)
    (value' : J.eval [] u = num l) : J.Holds φ ↔ r k l := by
  obtain rfl := compare_eq_ok ok
  rw [Holds, eval_app, map_cons, map_singleton, value, value', sort, means]

theorem nonNegative_eq (sort : t.sort = .int) : nonNegative t = compare ">=" t (.int 0) := by
  unfold nonNegative numberLike
  rw [sort]
  rfl

theorem nonNegative_closed (sort : t.sort = .int) (closed : t.Closed) (ok : nonNegative t = .ok φ) : φ.Closed :=
  compare_closed closed (legal_int 0 0).sorted.closed (nonNegative_eq sort ▸ ok)

theorem nonNegative_holds (integers : J.Integers num) (sort : t.sort = .int) (ok : nonNegative t = .ok φ)
    (value : J.eval [] t = num k) : J.Holds φ ↔ 0 ≤ k :=
  compare_holds (r := fun k l => l ≤ k) sort (nonNegative_eq sort ▸ ok) integers.ge value (eval_int integers 0)

/-! ## The schemes for the integers -/

section
variable {I : Interpretation U} {w v : World} {W : Srt → U → Prop} {P Q : Predicate} {p : U → Prop} {x : Term} {m : Nat}

theorem holds_forall_drawn (cs : List Symbol) (hyps : List Term) (conc : Term)
    (ok : Gives (forallWhere (cs.map (.app · [])) (hyps ++ [conc])) w φ v) (restricts : w.Restricts I n W)
    (agree : I.AgreeOutside (Drawn n m) J.toFrame) (nodup : cs.Nodup) (drawn : ∀ c ∈ cs, c.Drawn n m)
    (all : ∀ c ∈ cs, ∀ u ∈ I.carrier c.range, W c.range u) (closed : ∀ t ∈ hyps ++ [conc], t.Closed) {q : List U → Prop}
    (means : ∀ J' : Interpretation U, J.Varies cs J' → I.AgreeOutside (Drawn n m) J'.toFrame →
      (((∀ t ∈ hyps, J'.Holds t) → J'.Holds conc) ↔ q (cs.map fun c => J'.eval [] (.app c [])))) :
    v = w ∧ (φ.Closed ∧ φ.sort = .bool ∧ J.eval [] φ ∈ J.carrier .bool) ∧
      (J.Holds φ ↔ ∀ us, I.Fits us (cs.map Symbol.range) → q us) := by
  obtain ⟨rfl, closed, meaning⟩ := Interpretation.holds_forallWhere ok restricts agree nodup drawn closed
  obtain ⟨-, _, _, -, -, quantified⟩ := forallWhere_gives ok
  obtain ⟨-, rfl⟩ := quantify_eq_ok.1 quantified
  refine ⟨rfl, ⟨closed, rfl, by rw [Frame.eval]; exact J.truth_mem _⟩, meaning.trans ?_⟩
  simp only [agree.fits, Interpretation.forall_varies nodup fun c mem => (drawn c mem).isFree]
  refine forall₂_congr fun J' varies => ?_
  have agree' := (agree.trans (varies.drawn drawn)).mono fun _ either => either.elim id id
  rw [← means J' varies agree']
  exact forall_prop_of_true fun c mem => all c mem _ (agree'.carrier ▸ J'.const_mem c)

theorem holds_forall_int (hyps : List Term) (conc : Term)
    (ok : Gives (forallWhere ([c].map (.app · [])) (hyps ++ [conc])) w φ v) (restricts : w.Restricts I n W)
    (integers : I.Integers num) (all : ∀ k, W .int (num k)) (agree : I.AgreeOutside (Drawn n m) J.toFrame)
    (drawn : c.Drawn n m) (range : c.range = .int) (closed : ∀ t ∈ hyps ++ [conc], t.Closed) {q : Int → Prop}
    (means : ∀ (J' : Interpretation U) (k : Int), J.Varies [c] J' → I.AgreeOutside (Drawn n m) J'.toFrame →
      J'.Integers num → J'.eval [] (.app c []) = num k → (((∀ t ∈ hyps, J'.Holds t) → J'.Holds conc) ↔ q k)) :
    v = w ∧ φ.Closed ∧ (J.Holds φ ↔ ∀ k, q k) := by
  obtain ⟨rfl, ⟨closed, -⟩, meaning⟩ := holds_forall_drawn
    (q := fun us => ∀ k, us = [num k] → q k) [c] hyps conc ok restricts agree
    (by simp) (by simpa using drawn) (by simpa [range, integers.carrier] using all) closed fun J' varies agree' => by
      have means' := fun k => means J' k varies agree' (agree'.integers integers)
      obtain ⟨k, value⟩ := ((agree'.integers integers).carrier _).1 (range ▸ J'.const_mem c)
      exact ⟨fun holds k value => (means' k (head_eq_of_cons_eq value)).1 holds,
        fun each => (means' k value).2 (each k (by simp [value]))⟩
  refine ⟨rfl, closed, meaning.trans ⟨fun each k => each _
    (.cons (range ▸ (integers.carrier _).2 ⟨k, rfl⟩) .nil) k rfl, fun each _ _ k _ => each k⟩⟩

theorem holds_step {move : Term} {f : Int → Int} {guard given next : Term} {r : Int → Prop}
    (ok : Gives (forallWhere ([c].map (.app · [])) [guard, given, next]) w φ v) (restricts : w.Restricts I n W)
    (integers : I.Integers num) (all : ∀ k, W .int (num k)) (denotes : Denotes I n .int P p) (drawn : c.Drawn n m)
    (range : c.range = .int) (atC : P (.app c []) = .ok given) (legal : move.Legal true m) (sort : move.sort = .int)
    (atMove : P move = .ok next) (closed : guard.Closed)
    (guarded : ∀ {J : Interpretation U} {k}, J.Integers num → J.eval [] (.app c []) = num k → (J.Holds guard ↔ r k))
    (moved : ∀ {J : Interpretation U} {k}, J.Integers num → J.eval [] (.app c []) = num k → J.eval [] move = num (f k)) :
    v = w ∧ (I.Holds φ ↔ ∀ l, r l → p (num l) → p (num (f l))) := by
  obtain ⟨closed', written⟩ := denotes drawn.legal range atC
  obtain ⟨closed'', written'⟩ := denotes legal sort atMove
  obtain ⟨rfl, -, steps⟩ := holds_forall_int [guard, given] next ok restricts integers all (agreeOutside_refl _) drawn
    range (by simpa using ⟨closed, closed', closed''⟩) (q := fun l => r l → p (num l) → p (num (f l)))
    fun J l _ agree integers value => by
      rw [written' J agree, moved integers value]
      simp [guarded integers value, written J agree, value]
  exact ⟨rfl, steps⟩

variable (restricts : w.Restricts I w.next W) (integers : I.Integers num) (all : ∀ k, W .int (num k))
  (legal : x.Legal true w.next) (sort : x.sort = .int) (value : I.eval [] x = num k)
include restricts integers all legal sort value

theorem upward_holds (denotes : Denotes I w.next .int P p) (ok : Gives (upward x P) w φ v) :
    I.Holds φ ↔ (p (num 0) → (∀ l, 0 ≤ l → p (num l) → p (num (l + 1))) → 0 ≤ k → p (num k)) := by
  have here := agreeOutside_refl (F := I.toFrame) (Drawn w.next w.next)
  have drawn : (supply "n" w.next .int).Drawn w.next (w.next + 1) := ⟨_, _, _, le_rfl, Nat.lt_succ_self _, rfl⟩
  have rest := draw_bind ok
  simp only [↓checked_bind, bind_iff, ofChecked_session] at rest
  obtain ⟨start, atZero, low, isLow, given, atN, next, atNext, step, _, quantified, low', isLow', hyps, joined, conc,
    atX, built, -⟩ := rest
  obtain ⟨rfl, steps⟩ := holds_step quantified (restricts.next _) integers all denotes drawn rfl
    atN (successor_legal drawn.legal rfl) rfl atNext (nonNegative_closed rfl drawn.legal.sorted.closed isLow)
    (fun integers => nonNegative_holds integers rfl isLow) eval_successor
  rw [(Guards.many joined built).holds, (denotes legal sort atX).2 I here, value]
  simp [(denotes (legal_int 0 w.next) rfl atZero).2 I here, eval_int integers, steps,
    nonNegative_holds integers sort isLow' value]

theorem upwardStrong_holds (denotes : Denotes I w.next .int P p) (ok : Gives (upwardStrong x P) w φ v) :
    I.Holds φ ↔ ((∀ l, 0 ≤ l → (∀ j, 0 ≤ j → j < l → p (num j)) → p (num l) → 0 ≤ k) → p (num k)) := by
  have here := agreeOutside_refl (F := I.toFrame) (Drawn w.next w.next)
  have first : (supply "n" w.next .int).Drawn w.next (w.next + 2) := ⟨_, _, _, le_rfl, by omega, rfl⟩
  have second : (supply "m" (w.next + 1) .int).Drawn w.next (w.next + 2) := ⟨_, _, _, by omega, by omega, rfl⟩
  have other : supply "n" w.next .int ∉ [supply "m" (w.next + 1) .int] := by
    intro mem
    have := supply_number (mem_singleton.1 mem)
    omega
  have rest := draw_bind (draw_bind ok)
  simp only [↓checked_bind, bind_iff, ofChecked_session] at rest
  obtain ⟨low, isLow, less, isLess, given, atM, before, _, quantified, low', isLow', mine, atN, last, isLast, step, _,
    quantified', conc, atX, built, -⟩ := rest
  obtain ⟨given', written⟩ := denotes second.legal rfl atM
  -- what `before` says once the first constant has a value
  have inner {J : Interpretation U} {l : Int} (agree : I.AgreeOutside (Drawn w.next (w.next + 2)) J.toFrame)
      (value : J.eval [] (.app (.supply "n" w.next .int) []) = num l) :=
    holds_forall_int [low, less] given quantified (restricts.next _) integers all agree second rfl
      (by simpa using ⟨nonNegative_closed rfl second.legal.sorted.closed isLow,
        compare_closed second.legal.sorted.closed first.legal.sorted.closed isLess, given'⟩)
      (q := fun j => 0 ≤ j → j < l → p (num j)) fun J' j varies agree' integers value' => by
        have kept : J'.eval [] (.app (.supply "n" w.next .int) []) = num l := by
          rw [← value, eval_app, eval_app, varies.agree.fn _ other]
          rfl
        simp [nonNegative_holds integers rfl isLow value', written J' agree', value',
          compare_holds rfl isLess integers.lt value' kept]
  obtain ⟨_, initial⟩ := (integers.carrier _).1 (I.const_mem (.supply "n" w.next .int))
  obtain ⟨rfl, closed, -⟩ := inner (agreeOutside_refl _) initial
  obtain ⟨mine', written⟩ := denotes first.legal rfl atN
  obtain ⟨rfl, -, steps⟩ := holds_forall_int [low', before, mine] last quantified' (restricts.next _) integers all
    (agreeOutside_refl _) first rfl
    (by simpa using ⟨nonNegative_closed rfl first.legal.sorted.closed isLow', closed, mine',
      nonNegative_closed sort legal.sorted.closed isLast⟩)
    (q := fun l => 0 ≤ l → (∀ j, 0 ≤ j → j < l → p (num j)) → p (num l) → 0 ≤ k) fun J l _ agree integers value' => by
      have kept : J.eval [] x = num k := by rw [← legal.before.eval agree, value]
      simp [nonNegative_holds integers rfl isLow' value', (inner agree value').2.2, written J agree, value',
        nonNegative_holds integers sort isLast kept]
  rw [(Guards.one built).holds, (denotes legal sort atX).2 I here, value]
  simp [steps]

theorem bothWays_holds (denotes : Denotes I w.next .int P p) (denotes' : Denotes I w.next .int Q p)
    (ok : Gives (bothWays x P Q) w φ v) :
    I.Holds φ ↔ ((∀ l, l ≤ 0 → p (num l) → p (num (l - 1))) → p (num 0) → (∀ l, 0 ≤ l → p (num l) → p (num (l + 1))) →
      p (num k)) := by
  have here := agreeOutside_refl (F := I.toFrame) (Drawn w.next w.next)
  have drawn : (supply "n" w.next .int).Drawn w.next (w.next + 1) := ⟨_, _, _, le_rfl, Nat.lt_succ_self _, rfl⟩
  have rest := draw_bind ok
  simp only [↓checked_bind, bind_iff, ofChecked_session] at rest
  obtain ⟨high, isHigh, below, atN, under, atUnder, down, _, lowered, start, atZero, low, isLow, given, atN', next,
    atNext, up, _, quantified, hyps, joined, conc, atX, built, -⟩ := rest
  obtain ⟨rfl, downs⟩ := holds_step lowered (restricts.next _) integers all denotes' drawn rfl
    atN (predecessor_legal drawn.legal rfl) rfl atUnder
    (compare_closed drawn.legal.sorted.closed (legal_int 0 0).sorted.closed isHigh)
    (fun integers value => compare_holds rfl isHigh integers.le value (eval_int integers 0)) eval_predecessor
  obtain ⟨rfl, ups⟩ := holds_step quantified (restricts.next _) integers all denotes' drawn rfl
    atN' (successor_legal drawn.legal rfl) rfl atNext (nonNegative_closed rfl drawn.legal.sorted.closed isLow)
    (fun integers => nonNegative_holds integers rfl isLow) eval_successor
  rw [(Guards.many joined built).holds, (denotes legal sort atX).2 I here, value]
  simp [(denotes (legal_int 0 w.next) rfl atZero).2 I here, eval_int integers, downs, ups]

end

/-! ## The schemes for sequences -/

section
variable {I : Interpretation U} {w v : World} {W : Srt → U → Prop} {P : Predicate} {p : U → Prop} {x : Term} {m : Nat}
  {e : Srt} {seq : List U → U} {us vs : List U}

theorem legal_unitSeq (legal : t.Legal true n) : (unitSeq t).Legal true n :=
  legal_apply (proper_builtin (by decide) _ _) (before_of_not_free rfl) rfl (by simpa using legal)

theorem legal_emptySeq (s : Srt) (n : Nat) : (emptySeq s).Legal true n :=
  legal_apply (proper_builtin (by decide) _ _) (before_of_not_free rfl) rfl (by simp)

theorem joinSeq_of_sort (sort : t.sort = .seq e) (ok : t.joinSeq u = .ok φ) :
    φ = .app (.builtin "seq.++" [.seq e, .seq e] (.seq e)) [t, u] ∧ u.sort = .seq e := by
  obtain ⟨_, -, built⟩ := Checked.bind_eq_ok.1 ok
  obtain ⟨sorts, rfl⟩ := op_eq_ok.1 built
  rw [sort]
  exact ⟨rfl, by simpa [sort, builtin] using sorts⟩

theorem legal_joinSeq (sort : t.sort = .seq e) (legal : t.Legal true n) (legal' : u.Legal true n)
    (ok : t.joinSeq u = .ok φ) : φ.Legal true n ∧ φ.sort = .seq e := by
  obtain ⟨rfl, sort'⟩ := joinSeq_of_sort sort ok
  exact ⟨legal_apply (proper_builtin (by decide) _ _) (before_of_not_free rfl)
    (by simp [sort, sort', builtin]) (by simpa using ⟨legal, legal'⟩), rfl⟩

theorem eval_emptySeq (sequences : J.Sequences e seq) : J.eval [] (.emptySeq (.seq e)) = seq [] := by
  exact sequences.empty

theorem forall_sequences (sequences : I.Sequences e seq) {q : U → Prop} :
    (∀ u ∈ I.carrier (.seq e), q u) ↔ ∀ us, I.AllIn e us → q (seq us) := by
  constructor
  · exact fun each us mem' => each _ ((sequences.carrier _).2 ⟨us, mem', rfl⟩)
  · intro each u mem
    obtain ⟨us, mem', rfl⟩ := (sequences.carrier u).1 mem
    exact each us mem'

variable (restricts : w.Restricts I w.next W) (sequences : I.Sequences e seq) (elements : ∀ u ∈ I.carrier e, W e u)
  (all : ∀ u ∈ I.carrier (.seq e), W (.seq e) u) (denotes : Denotes I w.next (.seq e) P p)
include restricts sequences elements all denotes

theorem fromBack_holds (legal : x.Legal true w.next) (sort : x.sort = .seq e) (ok : Gives (fromBack x P) w φ v) :
    I.Holds φ ↔ (p (seq []) → (∀ u ∈ I.carrier e, ∀ us, I.AllIn e us → p (seq us) → p (seq (u :: us))) → p (I.eval [] x)) := by
  have here := agreeOutside_refl (F := I.toFrame) (Drawn w.next w.next)
  have first : (supply "hd" w.next e).Drawn w.next (w.next + 2) := ⟨_, _, _, le_rfl, by omega, rfl⟩
  have second : (supply "tl" (w.next + 1) (.seq e)).Drawn w.next (w.next + 2) := ⟨_, _, _, by omega, by omega, rfl⟩
  have nodup : supply "hd" w.next e ≠ supply "tl" (w.next + 1) (.seq e) := by
    intro eq
    have := supply_number eq
    omega
  unfold fromBack at ok
  rw [sort] at ok
  have rest := draw_bind (draw_bind ok)
  simp only [↓checked_bind, bind_iff, ofChecked_session] at rest
  obtain ⟨given, atTl, whole, joined, next, atWhole, step, _, quantified, start, atEmpty, hyps, both, conc, atX, built, -⟩ := rest
  obtain ⟨legal', sort'⟩ := legal_joinSeq rfl (legal_unitSeq first.legal) second.legal joined
  obtain ⟨given', written⟩ := denotes second.legal rfl atTl
  obtain ⟨next', written'⟩ := denotes legal' sort' atWhole
  obtain ⟨rfl, -, steps⟩ := holds_forall_drawn [.supply "hd" w.next e, .supply "tl" (w.next + 1) (.seq e)] [given] next
    quantified (restricts.next _) (agreeOutside_refl _) (by simpa using nodup) (by simpa using ⟨first, second⟩)
    (by simpa using ⟨elements, all⟩) (by simpa using ⟨given', next'⟩)
    (q := fun us => ∀ u v, us = [u, v] → p v →
      p (I.fn (.builtin "seq.++" [.seq e, .seq e] (.seq e)) [I.fn (.builtin "seq.unit" [e] (.seq e)) [u], v])) fun J _ agree => by
      obtain ⟨rfl, -⟩ := joinSeq_of_sort rfl joined
      simp [written J agree, written' J agree, eval_app, unitSeq, agree.builtin]
      rfl
  have step' : I.Holds step ↔ ∀ u ∈ I.carrier e, ∀ us, I.AllIn e us → p (seq us) → p (seq (u :: us)) := by
    rw [steps, map_cons, forall_fits_cons]
    refine forall₂_congr fun u (mem : u ∈ I.carrier e) => forall_fits_cons.trans
      ((forall_sequences sequences).trans (forall₂_congr fun us inside => ?_))
    rw [map_nil, forall_fits_nil]
    simp [sequences.unit u mem, sequences.join [u] us (by simpa [Frame.AllIn] using mem) inside]
  rw [(Guards.many both built).holds, (denotes legal sort atX).2 I here]
  simp [(denotes (legal_emptySeq (.seq e) w.next) rfl atEmpty).2 I here, eval_emptySeq sequences, step']

theorem byJoining_holds (plain : w.method? "eq" .bool = none)
    (bool : ∀ ψ, P (.emptySeq (.seq e)) = .ok ψ → I.eval [] ψ ∈ I.carrier .bool) (ok : Gives (byJoining e P) w φ v) :
    I.Holds φ ↔ ((p (seq []) ∧ (∀ u ∈ I.carrier e, p (seq [u])) ∧
      ∀ us, I.AllIn e us → ∀ vs, I.AllIn e vs → p (seq us) → p (seq vs) → p (seq (us ++ vs))) ↔
        ∀ us, I.AllIn e us → p (seq us)) := by
  have here := agreeOutside_refl (F := I.toFrame) (Drawn w.next w.next)
  have one : (supply "z" w.next e).Drawn w.next (w.next + 3) := ⟨_, _, _, le_rfl, by omega, rfl⟩
  have first : (supply "c" (w.next + 1) (.seq e)).Drawn w.next (w.next + 3) := ⟨_, _, _, by omega, by omega, rfl⟩
  have second : (supply "c" (w.next + 2) (.seq e)).Drawn w.next (w.next + 3) := ⟨_, _, _, by omega, by omega, rfl⟩
  have nodup : supply "c" (w.next + 1) (.seq e) ≠ supply "c" (w.next + 2) (.seq e) := by
    intro same
    have := supply_number same
    omega
  have rest := draw_bind (draw_bind (draw_bind ok))
  simp only [↓checked_bind, bind_iff] at rest
  obtain ⟨unit, atUnit, single, _, each, left, atLeft, right, atRight, whole, made, next, atWhole, joined, _,
    quantified, start, atEmpty, parts, together, any, atAny, every, _, quantified', rest⟩ := rest
  obtain ⟨unit', written⟩ := denotes (legal_unitSeq one.legal) rfl atUnit
  obtain ⟨rfl, ⟨-, -, bool₁⟩, singles⟩ := holds_forall_drawn [.supply "z" w.next e] [] unit each
    (restricts.next _) (agreeOutside_refl _)
    (by simp) (by simpa using one) (by simpa [supply] using elements) (by simpa using unit')
    (q := fun us => p (I.fn (.builtin "seq.unit" [e] (.seq e)) us)) fun J _ agree => by
      simp only [not_mem_nil, false_implies, implies_true, forall_const, written J agree, unitSeq, eval_app, map_cons, map_nil]
      rw [← agree.builtin]
      rfl
  have single' : I.Holds single ↔ ∀ u ∈ I.carrier e, p (seq [u]) := by
    refine singles.trans (forall_fits_cons.trans (forall₂_congr fun u mem => ?_))
    rw [map_nil, forall_fits_nil, sequences.unit u mem]
  obtain ⟨legal', sort'⟩ := legal_joinSeq rfl first.legal second.legal made
  obtain ⟨left', written⟩ := denotes first.legal rfl atLeft
  obtain ⟨right', written'⟩ := denotes second.legal rfl atRight
  obtain ⟨next', written''⟩ := denotes legal' sort' atWhole
  obtain ⟨rfl, ⟨-, -, bool₂⟩, joins⟩ := holds_forall_drawn [.supply "c" (w.next + 1) (.seq e),
    .supply "c" (w.next + 2) (.seq e)] [left, right]
    next quantified (restricts.next _) (agreeOutside_refl _) (by simpa using nodup) (by simpa using ⟨first, second⟩)
    (by simpa [supply] using all) (by simpa using ⟨left', right', next'⟩)
    (q := fun us => (∀ u ∈ us, p u) → p (I.fn (.builtin "seq.++" [.seq e, .seq e] (.seq e)) us)) fun J _ agree => by
      obtain ⟨rfl, -⟩ := joinSeq_of_sort rfl made
      simp only [forall_mem_cons, written J agree, written' J agree, written'' J agree, eval_app, map_cons, map_nil,
        agree.builtin]
      simp
  have joined' : I.Holds joined ↔ ∀ us, I.AllIn e us → ∀ vs, I.AllIn e vs → p (seq us) → p (seq vs) → p (seq (us ++ vs)) := by
    refine joins.trans (forall_fits_cons.trans ((forall_sequences sequences).trans (forall₂_congr fun us mem' => ?_)))
    refine forall_fits_cons.trans ((forall_sequences sequences).trans (forall₂_congr fun vs mem'' => ?_))
    rw [map_nil, forall_fits_nil, sequences.join us vs mem' mem'']
    simp
  obtain ⟨-, rfl⟩ := and_eq_ok.1 together
  obtain ⟨any', written⟩ := denotes first.legal rfl atAny
  obtain ⟨rfl, ⟨-, sort, bool₃⟩, everys⟩ := holds_forall_drawn [.supply "c" (w.next + 1) (.seq e)] []
    any quantified' (restricts.next _)
    (agreeOutside_refl _) (by simp) (by simpa using first) (by simpa [supply] using all) (by simpa using any')
    (q := fun us => ∀ u ∈ us, p u) fun J _ agree => by simp [written J agree]
  have every' : I.Holds every ↔ ∀ us, I.AllIn e us → p (seq us) := by
    refine everys.trans (forall_fits_cons.trans ((forall_sequences sequences).trans (forall₂_congr fun us _ => ?_)))
    rw [map_nil, forall_fits_nil]
    simp
  have parts' : I.Holds (.app .and [start, single, joined]) ↔ p (seq []) ∧ (∀ u ∈ I.carrier e, p (seq [u])) ∧
      ∀ us, I.AllIn e us → ∀ vs, I.AllIn e vs → p (seq us) → p (seq vs) → p (seq (us ++ vs)) := by
    rw [Holds, eval_and, ← single', ← joined']
    simp [Holds, ← eval_emptySeq sequences, ← (denotes (legal_emptySeq (.seq e) w.next) rfl atEmpty).2 I here]
  rw [← every', ← parts']
  obtain ⟨-, equated⟩ := equate_gives rest
  have bool' : I.eval [] (.app .and [start, single, joined]) ∈ I.carrier .bool := by
    exact I.fn_mem .and _ (.cons (bool start atEmpty) (.cons bool₁ (.cons bool₂ .nil)))
  obtain built | built := equate_of_sort (a := .app .and [start, single, joined]) sort.symm plain
  · cases (built.symm.trans equated)
    rw [Holds, eval_eq]
    exact I.eq_iff_of_bool bool' bool₃
  · cases (built.symm.trans equated)
    rw [Holds, eval_eq, eq_comm]
    exact I.eq_iff_of_bool bool' bool₃

end

/-! ## Where the schemes are true -/

section
variable {I : Interpretation U} {w v : World} {W : Srt → U → Prop} {P Q : Predicate} {p : U → Prop} {x : Term}
  (restricts : w.Restricts I w.next W)
include restricts

section
variable (integers : I.Integers num) (all : ∀ k, W .int (num k)) (legal : x.Legal true w.next) (sort : x.sort = .int)
  (value : I.eval [] x = num k) (denotes : Denotes I w.next .int P p)
include integers all legal sort value denotes

theorem upward_true (ok : Gives (upward x P) w φ v) : I.Holds φ := by
  rw [upward_holds restricts integers all legal sort value denotes ok]
  intro start step pos
  obtain ⟨j, rfl⟩ := Int.eq_ofNat_of_zero_le pos
  clear value pos
  induction j with
  | zero => exact start
  | succ j ih => exact step j (Int.natCast_nonneg j) ih

theorem bothWays_true (denotes' : Denotes I w.next .int Q p) (ok : Gives (bothWays x P Q) w φ v) : I.Holds φ := by
  rw [bothWays_holds restricts integers all legal sort value denotes denotes' ok]
  intro down start up
  clear value
  induction k with
  | zero => exact start
  | succ j ih => exact up j (Int.natCast_nonneg j) ih
  | pred j ih => exact down (-j) (by omega) ih

/-- The condition of the strong scheme is met by all numbers if `x` is not negative, and by none of which all smaller ones
have the property if it is: then it says that zero does not have it. -/
theorem upwardStrong_true_iff (ok : Gives (upwardStrong x P) w φ v) : I.Holds φ ↔ p (num k) ∨ k < 0 ∧ p (num 0) := by
  rw [upwardStrong_holds restricts integers all legal sort value denotes ok]
  constructor
  · intro scheme
    by_cases pos : 0 ≤ k
    · exact .inl (scheme fun _ _ _ _ => pos)
    by_cases zero : p (num 0)
    · exact .inr ⟨by omega, zero⟩
    refine .inl (scheme fun l low before atL => absurd ?_ zero)
    obtain rfl | high := low.eq_or_lt
    · exact atL
    · exact before 0 (Int.le_refl 0) high
  · rintro (holds | ⟨negative, zero⟩) step
    · exact holds
    · exact absurd (step 0 (Int.le_refl 0) (fun j low high => by omega) zero) (by omega)

end

variable {e : Srt} {seq : List U → U} (sequences : I.Sequences e seq) (elements : ∀ u ∈ I.carrier e, W e u)
  (all : ∀ u ∈ I.carrier (.seq e), W (.seq e) u) (denotes : Denotes I w.next (.seq e) P p)
include sequences elements all denotes

theorem fromBack_true (legal : x.Legal true w.next) (sort : x.sort = .seq e) (ok : Gives (fromBack x P) w φ v) : I.Holds φ := by
  rw [fromBack_holds restricts sequences elements all denotes legal sort ok]
  intro start step
  obtain ⟨us, mem', value⟩ := (sequences.carrier _).1 (sort ▸ I.eval_mem legal.sorted .nil)
  rw [value]
  clear value
  induction us with
  | nil => exact start
  | cons u us ih =>
    obtain ⟨mem, mem'⟩ := forall_mem_cons.1 mem'
    exact step u mem us mem' (ih mem')

theorem byJoining_true (plain : w.method? "eq" .bool = none)
    (bool : ∀ ψ, P (.emptySeq (.seq e)) = .ok ψ → I.eval [] ψ ∈ I.carrier .bool) (ok : Gives (byJoining e P) w φ v) :
    I.Holds φ := by
  rw [byJoining_holds restricts sequences elements all denotes plain bool ok]
  constructor
  · rintro ⟨start, single, join⟩ us mem'
    induction us with
    | nil => exact start
    | cons u us ih =>
      obtain ⟨mem, mem'⟩ := forall_mem_cons.1 mem'
      exact join [u] (by simpa [Frame.AllIn] using mem) us mem' (single u mem) (ih mem')
  · intro every
    refine ⟨every [] (by simp [Frame.AllIn]), fun u mem => every [u] (by simpa [Frame.AllIn] using mem), ?_⟩
    exact fun us mem' vs mem'' _ _ => every _ fun u member => (mem_append.1 member).elim (mem' u) (mem'' u)

end
end Induction

/-! ## Properties that are given by values -/

namespace Theory
variable {U : Type u} {I : Interpretation U} {n m : Nat} {s : Srt} {P : Value} {w : World} {t φ : Term}

/-- The value is a property of terms of the sort: an array or a lambda with truth values, or a symbol. -/
inductive Property (n : Nat) (s : Srt) : Value → Prop
  | array {P : Term} : P.Legal true n → P.sort = .array [s] .bool → Property n s (.term P)
  | symbol {f : Symbol} : (∀ hint k r, n ≤ k → f ≠ .supply hint k r) → f.domain = [s] → f.range = .bool → Property n s (.symbol f)

def TrueOf (I : Interpretation U) (s : Srt) : Value → U → Prop
  | .term P, u => P.TrueAt I s u
  | .symbol f, u => I.fn f [u] = I.yes
  | _, _ => False

theorem selectAt_term (array : a.sort = .array [s] .bool) (sort : t.sort = s) :
    selectAt a [.term t] = .ok (.term (.app (.select [s] .bool) [a, t])) := by
  have cast : ([s].zip [term t]).mapM (fun q => toSort q.1 q.2) = .ok [t] := by simp [toSort, castTo_of_sort sort]
  unfold selectAt
  rw [array]
  show ((([s].zip [term t]).mapM fun q => toSort q.1 q.2) >>= fun is => a.select is >>= fun b => pure (term b)) = _
  rw [cast]
  show (a.select [t] >>= fun b => pure (term b)) = _
  rw [select_of_sorts array sort]
  rfl

theorem predicate_array (legal : a.Legal true n) (array : a.sort = .array [s] .bool) (sort : t.sort = s) :
    predicate w (.term a) t = callPredicate a [t] := by
  cases a with
  | var i => exact absurd rfl (legal.sorted.closed i)
  | app f args =>
    show (callPlain w (.term (.app f args)) [.term t] >>= toTerm) = (app f args).select [t]
    have call : callPlain w (.term (.app f args)) [.term t] = selectAt (.app f args) [.term t] := by
      unfold callPlain
      simp only [array]
    rw [call, selectAt_term array sort, select_of_sorts array sort]
    rfl
  | bind k vars body =>
    obtain rfl : k = .lambda := by cases k <;> first | rfl | cases array
    obtain ⟨v, rfl⟩ : ∃ v, vars = [v] := by
      obtain ⟨v, rest, rfl, -, none⟩ := map_eq_cons_iff.1 (Srt.array.inj array).1
      exact ⟨v, by rw [map_eq_nil_iff.1 none]⟩
    show ((applyBody [v] body [t] >>= fun b => pure (term b)) >>= toTerm) = applyBody [v] body [t]
    cases applyBody [v] body [t] <;> rfl

theorem predicateAt_array (legal : a.Legal true n) (array : a.sort = .array [s] .bool) (sort : t.sort = s) :
    predicateAt w (.term a) t = a.select [t] := by
  have index : Value.index w (.term a) (.term t) = selectAt a [.term t] := by
    cases a with
    | var i => exact absurd rfl (legal.sorted.closed i)
    | app =>
      unfold Value.index
      simp only [array]
      rfl
    | bind k =>
      obtain rfl : k = .lambda := by cases k <;> first | rfl | cases array
      rfl
  rw [predicateAt, index, selectAt_term array sort, select_of_sorts array sort]
  rfl

theorem predicate_symbol (dom : f.domain = [s]) (sort : t.sort = s) : predicate w (.symbol f) t = f.apply [t] := by
  have arity : f.arity = 1 := by rw [Symbol.arity, dom]; rfl
  have cast : Value.applySymbol f [.term t] = f.apply [t] := by
    simp [Value.applySymbol, arity, dom, toSort, castTo_of_sort sort]
    rfl
  rw [predicate, callPlain, cast, apply_of_sorts (by simp [dom, sort])]
  rfl

namespace Property

theorem denotes (property : Property n s P) : Denotes I n s (predicate w P) (TrueOf I s P) := by
  intro m t φ legal sort ok
  cases property with
  | array legal' array => exact denotes_call legal' array legal sort ((predicate_array legal' array sort).symm.trans ok)
  | symbol old dom => exact denotes_apply old dom legal sort ((predicate_symbol dom sort).symm.trans ok)

theorem denotesAt (property : Property n s P) : Denotes I n s (predicateAt w P) (TrueOf I s P) := by
  intro m t φ legal sort ok
  cases property with
  | array legal' array => exact denotes_select legal' array legal sort ((predicateAt_array legal' array sort).symm.trans ok)
  | symbol => cases ok

theorem bool (property : Property n s P) (legal : t.Legal true m) (sort : t.sort = s) (ok : predicate w P t = .ok φ) :
    I.eval [] φ ∈ I.carrier .bool := by
  cases property with
  | array legal' array =>
    rw [predicate_array legal' array sort] at ok
    rw [(eval_call legal' array legal sort ok).2]
    exact I.fn_mem (.select [s] .bool) _ (.cons (array ▸ I.eval_mem legal'.sorted .nil)
      (.cons (sort ▸ I.eval_mem legal.sorted .nil) .nil))
  | @symbol f _ dom range =>
    rw [predicate_symbol dom sort, apply_of_sorts (by simp [dom, sort])] at ok
    cases ok
    rw [eval_app, ← range]
    refine I.fn_mem f _ ?_
    rw [placesOf, if_pos (by simp [Symbol.arity, dom]), dom]
    exact .cons (sort ▸ I.eval_mem legal.sorted .nil) .nil

end Property

open Induction in
/-- Where integers and sequences are the usual ones and all well formed, the schemes are true but for the one with all smaller
numbers. That one is true just if the number has the property, or is negative while zero has it. -/
theorem induction_schemes {W : Srt → U → Prop} (restricts : w.Restricts I w.next W) :
    (∀ {num : Int → U}, I.Integers num → (∀ k, W .int (num k)) →
      ∀ {x : Term} {P : Value} {k : Int}, x.Legal true w.next → x.sort = .int → I.eval [] x = num k →
      Property w.next .int P → ∀ {φ : Term} {v : World}, (Gives (upward x (predicate w P)) w φ v → I.Holds φ) ∧
        (Gives (bothWays x (predicate w P) (predicateAt w P)) w φ v → I.Holds φ) ∧ (Gives (upwardStrong x (predicate w P)) w φ v →
          (I.Holds φ ↔ TrueOf I .int P (num k) ∨ k < 0 ∧ TrueOf I .int P (num 0)))) ∧
    (∀ {e : Srt} {seq : List U → U}, I.Sequences e seq → (∀ u ∈ I.carrier e, W e u) →
      (∀ u ∈ I.carrier (.seq e), W (.seq e) u) → ∀ {P : Value}, Property w.next (.seq e) P → ∀ {φ : Term} {v : World},
        (∀ {x : Term}, x.Legal true w.next → x.sort = .seq e → Gives (fromBack x (predicate w P)) w φ v → I.Holds φ) ∧
        (w.method? "eq" .bool = none → Gives (byJoining e (predicate w P)) w φ v → I.Holds φ)) := by
  refine ⟨fun integers all x P k legal sort value property φ v => ⟨?_, ?_, ?_⟩,
    fun sequences elements all P property φ v => ⟨fun legal sort => ?_, fun plain => ?_⟩⟩
  · exact upward_true restricts integers all legal sort value property.denotes
  · exact bothWays_true restricts integers all legal sort value property.denotes property.denotesAt
  · exact upwardStrong_true_iff restricts integers all legal sort value property.denotes
  · exact fromBack_true restricts sequences elements all property.denotes legal sort
  · exact byJoining_true restricts sequences elements all property.denotes plain
      fun ψ => property.bool (legal_emptySeq _ w.next) rfl

end Theory

/-! ## Integers and lists of integers -/

namespace Standard

def Atom : Srt → Type
  | .int => Int
  | .seq _ => List Int
  | _ => Unit

theorem nonempty_atom (s : Srt) : Nonempty (Atom s) := by
  cases s <;> exact ⟨by unfold Atom; exact default⟩

namespace Universe

def toInt : Universe Atom → Int
  | ⟨.int, k⟩ => k
  | _ => 0

def toInts : Universe Atom → List Int
  | ⟨.seq _, ks⟩ => ks
  | _ => []

end Universe

def answer (k : Int) (ks : List Int) (b : Bool) : (s : Srt) → Element Atom s
  | .bool => .ofBool b
  | .array _ r => .ofFun fun _ => answer k ks b r
  | .int => k
  | .seq _ => ks
  | .real | .string | .char | .roundingMode => ()
  | .bitvec _ | .float _ _ | .regex _ | .datatype _ | .uninterpreted _ => ()

def integer (f : Symbol) (us : List (Universe Atom)) : Int :=
  match f.role, f.name, us with
  | .int k, _, _ => k
  | _, "+", [u, v] => u.toInt + v.toInt
  | _, "-", [u, v] => u.toInt - v.toInt
  | _, _, _ => 0

def integerList (f : Symbol) (us : List (Universe Atom)) : List Int :=
  match f.name, us with
  | "seq.unit", [u] => [u.toInt]
  | "seq.++", [u, v] => u.toInts ++ v.toInts
  | _, _ => []

def comparison (f : Symbol) (us : List (Universe Atom)) : Bool :=
  match f.name, us with
  | ">=", [u, v] => decide (v.toInt ≤ u.toInt)
  | "<=", [u, v] => decide (u.toInt ≤ v.toInt)
  | "<", [u, v] => decide (u.toInt < v.toInt)
  | _, _ => false

noncomputable def arithmetic : Interpretation (Universe Atom) :=
  interpretation (fun f us => answer (integer f us) (integerList f us) (comparison f us) f.range) nonempty_atom

theorem arithmetic_fn (free : ¬ f.Logical) (us : List (Universe Atom)) :
    arithmetic.fn f us = ⟨f.range, answer (integer f us) (integerList f us) (comparison f us) f.range⟩ :=
  apply_free (fun f us => answer (integer f us) (integerList f us) (comparison f us) f.range) free us

theorem arithmetic_builtin {name : String} (other : name ∉ logicalNames) (dom : List Srt) (range : Srt)
    (us : List (Universe Atom)) : arithmetic.fn (.builtin name dom range) us =
      ⟨range, answer (integer (.builtin name dom range) us) (integerList (.builtin name dom range) us)
        (comparison (.builtin name dom range) us) range⟩ := arithmetic_fn (not_logical other) us

def ofInt (k : Int) : Universe Atom := ⟨.int, k⟩

def ofList (us : List (Universe Atom)) : Universe Atom := ⟨.seq .int, us.map Universe.toInt⟩

theorem truth_eq_yes_iff {b : Bool} : (⟨.bool, .ofBool b⟩ : Universe Atom) = arithmetic.yes ↔ b = true := by
  cases b with
  | true => exact iff_of_true rfl rfl
  | false => exact iff_of_false no_ne_yes (by simp)

theorem arithmetic_integers : arithmetic.Integers ofInt where
  carrier u := by
    constructor
    · intro mem
      obtain ⟨s, k⟩ := u
      cases mem
      exact ⟨k, rfl⟩
    · rintro ⟨k, rfl⟩
      rfl
  literal k := arithmetic_fn (not_logical (show "Int" ∉ logicalNames by decide)) []
  add k l := arithmetic_builtin (by decide) _ _ _
  sub k l := arithmetic_builtin (by decide) _ _ _
  ge k l := by
    rw [arithmetic_builtin (by decide)]
    exact truth_eq_yes_iff.trans decide_eq_true_iff
  le k l := by
    rw [arithmetic_builtin (by decide)]
    exact truth_eq_yes_iff.trans decide_eq_true_iff
  lt k l := by
    rw [arithmetic_builtin (by decide)]
    exact truth_eq_yes_iff.trans decide_eq_true_iff

theorem toInt_ofInt (ks : List Int) : (ks.map ofInt).map Universe.toInt = ks := by
  rw [map_map]
  exact map_id ks

theorem arithmetic_sequences : arithmetic.Sequences .int ofList where
  carrier u := by
    constructor
    · intro mem
      obtain ⟨s, ks⟩ := u
      cases mem
      refine ⟨map ofInt ks, ?_, ?_⟩
      · intro v mem'
        obtain ⟨k, -, rfl⟩ := mem_map.1 mem'
        rfl
      · exact congrArg (Universe.mk _) (toInt_ofInt ks).symm
    · rintro ⟨us, -, rfl⟩
      rfl
  empty := arithmetic_builtin (by decide) _ _ _
  unit u mem := arithmetic_builtin (by decide) _ _ _
  join us vs _ _ := by
    rw [arithmetic_builtin (by decide)]
    exact congrArg (Universe.mk _) (map_append).symm

end Standard

namespace Induction
open Standard (arithmetic ofInt ofList arithmetic_integers arithmetic_sequences)
open Theory (predicate predicateAt Property TrueOf)

def atLeast (c : Int) : Term :=
  .bind .lambda [("n", .int)] (.app (.builtin ">=" [.int, .int] .bool) [.var 0 .int, .int c])

theorem atLeast_property (c : Int) (n : Nat) : Property n .int (.term (atLeast c)) := by
  refine .array ⟨⟨?_, .inl rfl⟩, ?_⟩ rfl
  · refine sorted_app.2 ⟨proper_builtin (by decide) _ _, rfl, ?_⟩
    simpa using ⟨⟨.lambda, rfl⟩, (legal_int c 0).sorted.weaken _⟩
  · show Term.Before n (.app (.builtin ">=" [.int, .int] .bool) _)
    exact before_app.2 ⟨before_of_not_free rfl, by simpa using ⟨fun _ _ _ _ => id, (legal_int c n).before⟩⟩

theorem trueOf_atLeast (c k : Int) : TrueOf arithmetic .int (.term (atLeast c)) (ofInt k) ↔ c ≤ k := by
  obtain ⟨legal, array⟩ : (atLeast c).Legal true 0 ∧ (atLeast c).sort = .array [.int] .bool := by
    cases atLeast_property c 0 with
    | array legal array => exact ⟨legal, array⟩
  have shown := arithmetic.comprehension legal.sorted.1 .nil
  have read : arithmetic.fn (.select [.int] .bool) [arithmetic.eval [] (atLeast c), ofInt k]
      = arithmetic.fn (.builtin ">=" [.int, .int] .bool) [ofInt k, ofInt c] := by
    refine (arithmetic.select_lam shown (.cons rfl .nil)).trans ?_
    rw [eval_app, map_cons, map_singleton, eval_closed (legal_int c 0).sorted.closed, eval_int arithmetic_integers]
    rfl
  show arithmetic.fn (.select [.int] .bool) [arithmetic.eval [] (atLeast c), ofInt k] = arithmetic.yes ↔ _
  rw [read, arithmetic_integers.ge]

def marked : Symbol := ⟨"marked", [.seq .int], .bool, .free⟩

theorem marked_property (n : Nat) : Property n (.seq .int) (.symbol marked) := .symbol (by simp [marked, supply]) rfl rfl

theorem nothing_restricted : ({} : World).Restricts arithmetic 0 fun _ _ => True where
  denotes s registered := by cases registered
  all _ _ _ := trivial

/-- Three is not negative, by each of the schemes; the schemes for sequences are given an unknown property. -/
theorem schemes_at_three : (∃ φ v, Gives (upward (.int 3) (predicate {} (.term (atLeast 0)))) {} φ v ∧ arithmetic.Holds φ) ∧
    (∃ φ v, Gives (bothWays (.int 3) (predicate {} (.term (atLeast 0))) (predicateAt {} (.term (atLeast 0)))) {} φ v ∧
      arithmetic.Holds φ) ∧
    (∃ φ v, Gives (upwardStrong (.int 3) (predicate {} (.term (atLeast 0)))) {} φ v ∧ arithmetic.Holds φ) ∧
    (∃ φ v, Gives (fromBack (.emptySeq (.seq .int)) (predicate {} (.symbol marked))) {} φ v ∧ arithmetic.Holds φ) ∧
    (∃ φ v, Gives (byJoining .int (predicate {} (.symbol marked))) {} φ v ∧ arithmetic.Holds φ) := by
  obtain ⟨numbers, sequences⟩ := Theory.induction_schemes nothing_restricted
  have numbers := @numbers ofInt arithmetic_integers (fun _ => trivial) (.int 3) (.term (atLeast 0)) 3 (legal_int 3 0) rfl
    (eval_int arithmetic_integers 3) (atLeast_property 0 0)
  have sequences := @sequences .int ofList arithmetic_sequences (fun _ _ => trivial) (fun _ _ => trivial) (.symbol marked)
    (marked_property 0)
  refine ⟨?_, ?_, ?_, ?_, ?_⟩
  · obtain ⟨φ, v, done⟩ := exists_of_isSome (s := {}) (x := upward (.int 3) (predicate {} (.term (atLeast 0)))) (by decide)
    exact ⟨φ, v, done, numbers.1 done⟩
  · obtain ⟨φ, v, done⟩ := exists_of_isSome (s := {})
      (x := bothWays (.int 3) (predicate {} (.term (atLeast 0))) (predicateAt {} (.term (atLeast 0)))) (by decide)
    exact ⟨φ, v, done, numbers.2.1 done⟩
  · obtain ⟨φ, v, done⟩ := exists_of_isSome (s := {}) (x := upwardStrong (.int 3) (predicate {} (.term (atLeast 0)))) (by decide)
    exact ⟨φ, v, done, (numbers.2.2 done).2 (.inl ((trueOf_atLeast 0 3).2 (by decide)))⟩
  · obtain ⟨φ, v, done⟩ := exists_of_isSome (s := {}) (x := fromBack (.emptySeq (.seq .int))
      (predicate {} (.symbol marked))) (by decide)
    exact ⟨φ, v, done, sequences.1 (legal_emptySeq _ 0) rfl done⟩
  · obtain ⟨φ, v, done⟩ := exists_of_isSome (s := {}) (x := byJoining .int (predicate {} (.symbol marked))) (by decide)
    exact ⟨φ, v, done, sequences.2 rfl done⟩

/-- Zero is not positive, but the scheme with all smaller numbers says so. -/
theorem upwardStrong_false_at_zero : ∃ φ v, Gives (upwardStrong (.int 0) (predicate {} (.term (atLeast 1)))) {} φ v ∧
    ¬ arithmetic.Holds φ := by
  obtain ⟨φ, v, done⟩ := exists_of_isSome (s := {}) (x := upwardStrong (.int 0) (predicate {} (.term (atLeast 1)))) (by decide)
  refine ⟨φ, v, done, fun holds => ?_⟩
  obtain holds | ⟨negative, -⟩ := (upwardStrong_true_iff nothing_restricted arithmetic_integers (fun _ => trivial)
    (legal_int 0 0) rfl (eval_int arithmetic_integers 0) (atLeast_property 1 0).denotes done).1 holds
  · exact absurd ((trueOf_atLeast 1 0).1 holds) (by decide)
  · exact absurd negative (by decide)

end Induction
end SortedLogic

import SortedLogic.Proofs.Computation
import SortedLogic.Bag
import Mathlib.Data.DFinsupp.WellFounded
import Mathlib.Data.String.Basic

/-!
# The order of bags

Bags are compared by their counts, then by the least name of which they have different numbers: more of it makes a bag greater,
but having none of it makes it greater still. So adding a bag to both sides can turn the order around (`shortlex_add_iff`), and
completed rules need not end.
-/

open Relation (TransGen)

namespace SortedLogic.Bag
open List
open Checked (bind_eq_ok)
variable {xs ys zs s t : Bag} {a b x y : String} {w : String → Int} {q r : Rule}
  {R E R' before pairs : List Rule} {fuel n : Nat} {p : String × Int}

/-! ## Weights -/

/-- The sum of the counts, each times the weight of its name. -/
def weigh (w : String → Int) (xs : Bag) : Int := (xs.map fun p => w p.1 * p.2).sum

/-- How many a bag has of a name. -/
def mult (xs : Bag) (a : String) : Int := weigh (fun x => if x = a then 1 else 0) xs

@[simp] theorem weigh_cons (p : String × Int) (xs : Bag) : weigh w (p :: xs) = w p.1 * p.2 + weigh w xs := by simp [weigh]

theorem count_eq_weigh (xs : Bag) : count xs = weigh (fun _ => 1) xs := by simp [count, weigh, sum_eq_foldl]

theorem weigh_add (xs ys : Bag) : weigh w (add xs ys) = weigh w xs + weigh w ys := by
  fun_induction add xs ys with
  | case1 => simp [weigh]
  | case2 => simp [weigh]
  | case3 | case4 | case5 => grind [weigh_cons]

theorem weigh_sub (h : sub? xs ys = some zs) : weigh w xs = weigh w zs + weigh w ys := by
  fun_induction sub? xs ys generalizing zs with
  | case1 => simp_all [weigh]
  | _ => grind [weigh_cons, Option.map_eq_some_iff]

theorem weigh_replace (h : replace? s r = some t) : weigh w t = weigh w s - weigh w r.1 + weigh w r.2 := by
  obtain ⟨z, rest, rfl⟩ := Option.map_eq_some_iff.1 h
  have := weigh_sub (w := w) rest
  rw [weigh_add]
  omega

theorem mult_eq_zero (none : ∀ p ∈ xs, p.1 ≠ a) : mult xs a = 0 := by
  unfold mult
  induction xs with
  | nil => rfl
  | cons _ _ ih =>
    obtain ⟨here, rest⟩ := forall_mem_cons.1 none
    simp [here, ih rest]

/-! ## Counts stay positive -/

def Positive (xs : Bag) : Prop := ∀ p ∈ xs, 0 < p.2

@[simp] theorem positive_cons : Positive (p :: xs) ↔ 0 < p.2 ∧ Positive xs := forall_mem_cons

theorem Positive.weigh_le (positive : Positive xs) {w' : String → Int} (le : ∀ x, w x ≤ w' x) : weigh w xs ≤ weigh w' xs := by
  induction xs with
  | nil => rfl
  | cons p _ ih =>
    rw [positive_cons] at positive
    have first := Int.mul_le_mul_of_nonneg_right (le p.1) positive.1.le
    have rest := ih positive.2
    simp only [weigh_cons]
    omega

theorem Positive.mult_bounds (positive : Positive xs) (a : String) : 0 ≤ mult xs a ∧ mult xs a ≤ count xs := by
  rw [count_eq_weigh]
  constructor
  · have low (x : String) : (0 : Int) ≤ if x = a then 1 else 0 := by split <;> omega
    simpa [mult, weigh] using positive.weigh_le low
  · exact positive.weigh_le fun x => by split <;> omega

theorem positive_add (hx : Positive xs) (hy : Positive ys) : Positive (add xs ys) := by
  fun_induction add xs ys with grind [positive_cons]

theorem positive_sub (h : sub? xs ys = some zs) (hx : Positive xs) : Positive zs := by
  fun_induction sub? xs ys generalizing zs with grind [positive_cons, Option.map_eq_some_iff]

theorem positive_join (hx : Positive xs) (hy : Positive ys) : Positive (join xs ys).1 := by
  fun_induction join xs ys with grind [positive_cons]

theorem positive_replace (h : replace? s r = some t) (hs : Positive s) (hr : Positive r.2) : Positive t := by
  obtain ⟨z, rest, rfl⟩ := Option.map_eq_some_iff.1 h
  exact positive_add (positive_sub rest hs) hr

/-! ## Steps of rewriting -/

def Step (R : List Rule) (s t : Bag) : Prop := ∃ r ∈ R, replace? s r = some t

theorem sweep_cases (R : List Rule) (s : Bag) : sweep R s = (s, false) ∨ ∃ t, sweep R s = (t, true) ∧ TransGen (Step R) s t := by
  induction R generalizing s with
  | nil => exact .inl rfl
  | cons r R ih =>
    have later {s t : Bag} (run : TransGen (Step R) s t) : TransGen (Step (r :: R)) s t := by
      refine run.lift id fun s t step => ?_
      obtain ⟨q, mem, applied⟩ := step
      exact ⟨q, mem_cons_of_mem _ mem, applied⟩
    cases first : replace? s r with
    | none =>
      rw [show sweep (r :: R) s = sweep R s by simp only [sweep, first]]
      exact (ih s).imp_right fun h => h.imp fun t h => ⟨h.1, later h.2⟩
    | some t =>
      have here : Step (r :: R) s t := ⟨r, mem_cons_self, first⟩
      refine .inr ⟨(sweep R t).1, by simp only [sweep, first], ?_⟩
      rcases ih t with eq | ⟨u, eq, run⟩
      · rw [eq]
        exact .single here
      · rw [eq]
        exact .head here (later run)

theorem rewrite_keeps {P : Bag → Prop} (keeps : ∀ s t, P s → Step R s t → P t) (hs : P s)
    (ok : rewrite n R s = .ok t) : P t := by
  induction n generalizing s with
  | zero => cases ok
  | succ _ ih =>
    rcases sweep_cases R s with eq | ⟨u, eq, run⟩
    · simp only [rewrite, eq, Bool.false_eq_true, if_false, Except.ok.injEq] at ok
      exact ok ▸ hs
    simp only [rewrite, eq, if_true] at ok
    refine ih ?_ ok
    clear ok eq
    induction run with
    | single step => exact keeps _ _ hs step
    | tail _ step before => exact keeps _ _ before step

def Positives (E : List Rule) : Prop := ∀ e ∈ E, Positive e.1 ∧ Positive e.2

/-- What completion keeps of its rules: the left side is not the one with fewer elements. -/
def Descending (R : List Rule) : Prop := ∀ r ∈ R, (Positive r.1 ∧ Positive r.2) ∧ count r.2 ≤ count r.1

theorem Descending.step (descending : Descending R) (s t : Bag) (hs : Positive s) (step : Step R s t) : Positive t := by
  obtain ⟨r, mem, applied⟩ := step
  exact positive_replace applied hs (descending r mem).1.2

theorem shortlex?_cases (h : shortlex? xs ys = some r) : (r = (xs, ys) ∨ r = (ys, xs)) ∧ count r.2 ≤ count r.1 := by
  grind [shortlex?, order?, Option.map_eq_some_iff]

theorem reducts_positive (hq : Positive q.1 ∧ Positive q.2) (hr : Positive r.1 ∧ Positive r.2)
    (ok : reducts q r = .ok pairs) : Positives pairs := by
  have shared := positive_join hq.1 hr.1
  unfold reducts overlap? at ok
  grind [Positives, positive_replace]

theorem deduceFrom_positive (hb : Descending before) (hR : Descending R)
    (ok : deduceFrom before R = .ok pairs) : Positives pairs := by
  induction R generalizing before pairs with
  | nil =>
    cases ok
    exact forall_mem_nil _
  | cons _ _ ih =>
    obtain ⟨hr, hR⟩ := forall_mem_cons.1 hR
    obtain ⟨here, each, ok⟩ := bind_eq_ok.1 ok
    obtain ⟨later, rest, last⟩ := bind_eq_ok.1 ok
    cases last
    intro e mem
    rcases mem_append.1 mem with mem | mem
    · obtain ⟨list, mem', mem⟩ := mem_flatten.1 mem
      obtain ⟨q, known, made⟩ := Forall₂.exists_of_mem_right (Checked.mapM_eq_ok.1 each) mem'
      exact reducts_positive (hb q known).1 hr.1 made e mem
    · exact ih (forall_mem_append.2 ⟨hb, forall_mem_singleton.2 hr⟩) hR rest e mem

theorem addEquations_descending {added : Bool} (hE : Positives E) (hR : Descending R)
    (ok : addEquations fuel E R = .ok (R', added)) : Descending R' := by
  induction E generalizing R added with
  | nil =>
    cases ok
    exact hR
  | cons _ _ ih =>
    obtain ⟨he, hE⟩ := forall_mem_cons.1 hE
    obtain ⟨x, left, ok⟩ := bind_eq_ok.1 ok
    obtain ⟨y, right, ok⟩ := bind_eq_ok.1 ok
    have hx := rewrite_keeps hR.step he.1 left
    have hy := rewrite_keeps hR.step he.2 right
    by_cases eq : x = y
    · rw [if_pos eq] at ok
      exact ih hE hR ok
    rw [if_neg eq] at ok
    cases oriented : shortlex? x y with
    | none =>
      rw [oriented] at ok
      cases ok
    | some =>
      rw [oriented] at ok
      obtain ⟨⟨R'', _⟩, later, last⟩ := bind_eq_ok.1 ok
      cases last
      obtain ⟨sides, falls⟩ := shortlex?_cases oriented
      refine ih hE (forall_mem_append.2 ⟨hR, forall_mem_singleton.2 ?_⟩) later
      rcases sides with rfl | rfl
      · exact ⟨⟨hx, hy⟩, falls⟩
      · exact ⟨⟨hy, hx⟩, falls⟩

theorem completeFrom_descending (hE : Positives E) (hR : Descending R)
    (ok : completeFrom fuel n E R = .ok R') : Descending R' := by
  induction n generalizing E R with
  | zero => cases ok
  | succ _ ih =>
    obtain ⟨pairs, deduced, ok⟩ := bind_eq_ok.1 ok
    obtain ⟨⟨rules, added⟩, worked, last⟩ := bind_eq_ok.1 ok
    have new := deduceFrom_positive (forall_mem_nil _) hR deduced
    have kept := addEquations_descending (by grind [Positives]) hR worked
    cases added with
    | true => exact ih (forall_mem_nil _) kept last
    | false =>
      cases last
      exact kept

/-! ## When rewriting ends -/

/-- The least name of which the bags have different numbers. -/
def LeastDiff (xs ys : Bag) (a : String) : Prop := mult xs a ≠ mult ys a ∧ ∀ b, b < a → mult xs b = mult ys b

/-- The rules that keep the count all have more of the least name that tells their sides apart on the left, or, for `-1`, all
have less. -/
def Aligned (σ : Int) (R : List Rule) : Prop :=
  ∀ r ∈ R, count r.1 = count r.2 → ∃ a, LeastDiff r.1 r.2 a ∧ 0 < σ * (mult r.1 a - mult r.2 a)

def names (R : List Rule) : List String := R.flatMap fun r => (r.1 ++ r.2).map (·.1)

/-- The count, then the numbers of the names, least names first. -/
def rank (σ : Int) (R : List Rule) (s : Bag) : Nat ×ₗ Lex ({a // a ∈ names R} → Nat) :=
  toLex ((count s).toNat, toLex fun a => (count s + σ * mult s a).toNat)

section Ends
variable {σ : Int} (sign : σ = 1 ∨ σ = -1) (descending : Descending R) (aligned : Aligned σ R)
include sign descending aligned

theorem rank_step (hs : Positive s) (step : Step R s t) : rank σ R t < rank σ R s := by
  have ht := descending.step s t hs step
  obtain ⟨r, mem, applied⟩ := step
  have counts : count t = count s - count r.1 + count r.2 := by simpa only [count_eq_weigh] using weigh_replace applied
  have each (a : String) : mult t a = mult s a - mult r.1 a + mult r.2 a := weigh_replace applied
  have pos := ht.mult_bounds
  refine Prod.Lex.toLex_lt_toLex.2 ?_
  rcases (descending r mem).2.lt_or_eq with less | eq
  · have := pos ""
    exact .inl (by simp only; omega)
  obtain ⟨a, ⟨differ, below⟩, more⟩ := aligned r mem eq.symm
  have known : a ∈ names R := by
    by_contra unknown
    have left : mult r.1 a = 0 := mult_eq_zero (by grind [names])
    have right : mult r.2 a = 0 := mult_eq_zero (by grind [names])
    exact differ (left.trans right.symm)
  have total : count t = count s := by omega
  -- The names below `a` keep their numbers, and that of `a` goes down, or up if counted from the total.
  refine .inr ⟨by simp only [total], ⟨a, known⟩, fun b less => ?_, ?_⟩
  · show (count t + σ * mult t b).toNat = (count s + σ * mult s b).toNat
    rw [total, each, below b less, Int.sub_add_cancel]
  show (count t + σ * mult t a).toNat < (count s + σ * mult s a).toNat
  have := each a
  have := pos a
  rcases sign with rfl | rfl <;> omega

theorem exists_rewrite (hs : Positive s) : ∃ n t, rewrite n R s = .ok t := by
  induction s using (InvImage.wf (rank σ R) wellFounded_lt).induction with
  | _ s ih =>
    rcases sweep_cases R s with eq | ⟨t, eq, run⟩
    · exact ⟨1, s, by simp [rewrite, eq]⟩
    have below : Positive t ∧ rank σ R t < rank σ R s := by
      clear eq
      induction run with
      | single step => exact ⟨descending.step _ _ hs step, rank_step sign descending aligned hs step⟩
      | tail _ step before =>
        exact ⟨descending.step _ _ before.1 step, (rank_step sign descending aligned before.1 step).trans before.2⟩
    obtain ⟨n, u, ok⟩ := ih t below.2 below.1
    exact ⟨n + 1, u, by simpa only [rewrite, eq, if_true] using ok⟩

end Ends

/-! ## Comparing bags -/

/-- The names stand in order, each once, with positive counts. -/
structure Proper (xs : Bag) : Prop where
  sorted : xs.Pairwise (·.1 < ·.1)
  positive : Positive xs

theorem Proper.cons_iff {n : Int} : Proper ((x, n) :: xs) ↔ 0 < n ∧ Proper xs ∧ ∀ p ∈ xs, x < p.1 := by
  grind [Proper, positive_cons, pairwise_cons]

theorem mem_add (mem : p ∈ add xs ys) : ∃ n, (p.1, n) ∈ xs ∨ (p.1, n) ∈ ys := by fun_induction add xs ys with grind

theorem Proper.add (hx : Proper xs) (hy : Proper ys) : Proper (add xs ys) := by
  fun_induction Bag.add xs ys with
  | case1 => exact hy
  | case2 => exact hx
  | case3 | case4 | case5 => grind [cons_iff, mem_add]

theorem mult_cons (x : String) (n : Int) (xs : Bag) (a : String) :
    mult ((x, n) :: xs) a = (if x = a then n else 0) + mult xs a := by simp [mult]

theorem Proper.mult_head {n : Int} (h : Proper ((x, n) :: xs)) (le : a ≤ x) : mult ((x, n) :: xs) a = if a = x then n else 0 := by
  have tail : mult xs a = 0 := mult_eq_zero fun p mem => (le.trans_lt ((cons_iff.1 h).2.2 p mem)).ne'
  simp [mult_cons, tail, eq_comm]

theorem Positive.count_pos (h : Positive (p :: xs)) : 0 < count (p :: xs) := by
  obtain ⟨first, rest⟩ := positive_cons.1 h
  have := rest.mult_bounds ""
  rw [count_eq_weigh] at this ⊢
  rw [weigh_cons]
  omega

theorem LeastDiff.unique (ha : LeastDiff xs ys a) (hb : LeastDiff xs ys b) : a = b :=
  le_antisymm (not_lt.1 fun less => hb.1 (ha.2 b less)) (not_lt.1 fun less => ha.1 (hb.2 a less))

/-- Does the least name that tells two bags apart make the first one the greater? -/
def wins (xs ys : Bag) (a : String) : Bool := 0 < mult ys a && (mult xs a = 0 || mult ys a < mult xs a)

theorem LeastDiff.heads {n m : Int} (hx : Proper ((x, n) :: xs)) (hy : Proper ((y, m) :: ys)) (ax : a ≤ x)
    (ay : a ≤ y) (differ : (if a = x then n else 0) ≠ if a = y then m else 0) : LeastDiff ((x, n) :: xs) ((y, m) :: ys) a := by
  refine ⟨by rwa [hx.mult_head ax, hy.mult_head ay], fun b less => ?_⟩
  have bx := less.trans_le ax
  have by' := less.trans_le ay
  rw [hx.mult_head bx.le, hy.mult_head by'.le, if_neg bx.ne, if_neg by'.ne]

theorem dominates?_cases (hx : Proper xs) (hy : Proper ys) (eq : count xs = count ys) :
    (xs = ys ∧ dominates? xs ys = none) ∨ ∃ a, LeastDiff xs ys a ∧ dominates? xs ys = some (wins xs ys a) := by
  fun_induction dominates? xs ys with
  | case1 x _ _ _ _ _ less =>
    refine .inr ⟨x, .heads hx hy le_rfl less.le ?_, ?_⟩ <;> grind [wins, Proper.mult_head, Proper.cons_iff]
  | case2 _ _ _ y _ _ _ less =>
    refine .inr ⟨y, .heads hx hy less.le le_rfl ?_, ?_⟩ <;> grind [wins, Proper.mult_head, Proper.cons_iff]
  | case3 x n xs y m ys le ge | case4 x n xs y m ys le ge =>
    obtain rfl : x = y := le_antisymm (not_lt.1 ge) (not_lt.1 le)
    refine .inr ⟨x, .heads hx hy le_rfl le_rfl ?_, ?_⟩ <;> grind [wins, Proper.mult_head, Proper.cons_iff]
  | case5 x n xs y m ys le ge _ _ ih =>
    obtain rfl : x = y := le_antisymm (not_lt.1 ge) (not_lt.1 le)
    obtain rfl : n = m := by omega
    have tails : count xs = count ys := by simpa [count_eq_weigh] using eq
    rcases ih (Proper.cons_iff.1 hx).2.1 (Proper.cons_iff.1 hy).2.1 tails with ⟨rfl, none⟩ | ⟨a, ⟨differ, below⟩, hit⟩
    · exact .inl ⟨rfl, none⟩
    have ne : x ≠ a := by
      rintro rfl
      have left := hx.mult_head (le_refl x)
      have right := hy.mult_head (le_refl x)
      simp only [mult_cons] at left right
      omega
    refine .inr ⟨a, ⟨by simpa [mult_cons] using differ, fun b less => ?_⟩, ?_⟩
    · rw [mult_cons, mult_cons, below b less]
    · simpa only [wins, mult_cons, ne, if_false, Int.zero_add] using hit
  | case6 xs ys none =>
    -- One bag has ended; the counts are equal, so the other one has too.
    refine .inl ⟨?_, rfl⟩
    rcases xs with _ | ⟨p, xs⟩ <;> rcases ys with _ | ⟨q, ys⟩
    · rfl
    · exact absurd eq hy.positive.count_pos.ne
    · exact absurd eq hx.positive.count_pos.ne'
    · exact (none _ _ _ _ _ _ rfl rfl).elim

theorem shortlex?_iff (hx : Proper xs) (hy : Proper ys) : shortlex? xs ys = some (xs, ys) ↔
    count ys < count xs ∨ count xs = count ys ∧ ∃ a, LeastDiff xs ys a ∧ wins xs ys a = true := by
  unfold shortlex?
  by_cases up : count xs < count ys
  · have differ : xs ≠ ys := fun eq => by simp [eq] at up
    simp [up, differ.symm, up.not_gt, up.ne]
  by_cases down : count ys < count xs
  · simp [up, down]
  have eq : count xs = count ys := by omega
  rw [order?]
  rcases dominates?_cases hx hy eq with ⟨rfl, none⟩ | ⟨a, diff, hit⟩
  · simp [none, LeastDiff]
  have differ : xs ≠ ys := by
    rintro rfl
    exact diff.1 rfl
  have only : (∃ b, LeastDiff xs ys b ∧ wins xs ys b = true) ↔ wins xs ys a = true := by grind [LeastDiff.unique]
  rw [hit, only]
  cases wins xs ys a <;> simp [eq, differ.symm]

/-- Adding a bag to both sides keeps the order, unless the counts are equal, the greater side has none of the least name that
tells the sides apart, and the added bag has some. Completed rules end if those that keep the count agree in which side has more
of that name. -/
theorem shortlex_add_iff (xs ys zs s : Bag) (fuel : Nat) (E R : List Rule) :
    (Proper xs → Proper ys → Proper zs → shortlex? xs ys = some (xs, ys) →
      (shortlex? (add xs zs) (add ys zs) = some (add xs zs, add ys zs) ↔
        (count xs = count ys → ∀ a, LeastDiff xs ys a → mult xs a = 0 → mult zs a = 0))) ∧
    ((∀ e ∈ E, Proper e.1 ∧ Proper e.2) → complete fuel E = .ok R → Aligned 1 R ∨ Aligned (-1) R → Proper s →
      ∃ n t, rewrite n R s = .ok t) := by
  refine ⟨fun hx hy hz before => ?_, fun hE done aligned hs => ?_⟩
  · have counts (xs : Bag) : count (add xs zs) = count xs + count zs := by simp only [count_eq_weigh, weigh_add]
    have mults (xs : Bag) (a : String) : mult (add xs zs) a = mult xs a + mult zs a := weigh_add xs zs
    rw [shortlex?_iff (hx.add hz) (hy.add hz), counts, counts]
    rcases (shortlex?_iff hx hy).1 before with less | ⟨same, a, diff, won⟩
    · exact iff_of_true (.inl (by omega)) fun same => absurd same less.ne'
    · have moved (b : String) : LeastDiff (add xs zs) (add ys zs) b ↔ LeastDiff xs ys b := by simp [LeastDiff, mults]
      have pos := hz.positive.mult_bounds a
      simp only [moved, wins, mults, Bool.and_eq_true, Bool.or_eq_true, decide_eq_true_eq] at won ⊢
      constructor
      · rintro (less | ⟨-, b, diff', won'⟩) _ c diff'' none
        · omega
        · cases diff.unique diff'
          cases diff.unique diff''
          omega
      · intro none
        have := none same a diff
        exact .inr ⟨by omega, a, diff, by omega, by omega⟩
  · have descending : Descending R :=
      completeFrom_descending (fun e mem => ⟨(hE e mem).1.positive, (hE e mem).2.positive⟩) (forall_mem_nil _) done
    rcases aligned with up | down
    · exact exists_rewrite (.inl rfl) descending up hs.positive
    · exact exists_rewrite (.inr rfl) descending down hs.positive

/-- Two bags that keep their order, and a rule of one count that ends. -/
theorem shortlex_add_kept :
    shortlex? (add [("a", 2)] [("a", 1)]) (add [("a", 1), ("b", 1)] [("a", 1)]) =
      some (add [("a", 2)] [("a", 1)], add [("a", 1), ("b", 1)] [("a", 1)]) ∧
    complete 2 [([("a", 2)], [("a", 1), ("b", 1)])] = .ok [([("a", 2)], [("a", 1), ("b", 1)])] ∧
    ∃ n t, rewrite n [([("a", 2)], [("a", 1), ("b", 1)])] [("a", 5)] = .ok t := by
  have one (n : Int) (pos : 0 < n) : Proper [("a", n)] := ⟨by simp, by simpa [Positive] using pos⟩
  have mixed : Proper [("a", 1), ("b", 1)] := ⟨by decide, by simp [Positive]⟩
  have done : complete 2 [([("a", 2)], [("a", 1), ("b", 1)])] = .ok [([("a", 2)], [("a", 1), ("b", 1)])] := by
    decide +kernel
  have diff : LeastDiff [("a", 2)] [("a", 1), ("b", 1)] "a" := by
    refine ⟨by decide, fun b less => ?_⟩
    have := less.ne'
    have := (less.trans (show "a" < "b" by decide)).ne'
    simp_all [mult, weigh]
  obtain ⟨order, ends⟩ := shortlex_add_iff [("a", 2)] [("a", 1), ("b", 1)] [("a", 1)] [("a", 5)] 2 _ _
  refine ⟨(order (one 2 (by decide)) mixed (one 1 (by decide)) (by decide)).2 fun _ b diff' none => ?_, done,
    ends (by simp [one, mixed]) done (.inl fun r mem _ => ?_) (one 5 (by decide))⟩
  · cases diff.unique diff'
    exact absurd none (by decide)
  · cases mem_singleton.1 mem
    exact ⟨"a", diff, by decide⟩

/-- Two rules of one count, which lead from `a`, `b`, `b` to `a`, `a`, `b` and back. -/
def swapping : List Rule := [([("b", 2)], [("a", 1), ("b", 1)]), ([("a", 2)], [("a", 1), ("b", 1)])]

/-- With `b` twice above `a` and `b`, adding `a` to both turns the order around; and completion returns two rules that
undo each other. -/
theorem shortlex_reversed :
    shortlex? [("b", 2)] [("a", 1), ("b", 1)] = some ([("b", 2)], [("a", 1), ("b", 1)]) ∧
    shortlex? (add [("b", 2)] [("a", 1)]) (add [("a", 1), ("b", 1)] [("a", 1)]) =
      some (add [("a", 1), ("b", 1)] [("a", 1)], add [("b", 2)] [("a", 1)]) ∧
    complete 3 swapping.reverse = .ok swapping ∧ ∀ n t, rewrite n swapping [("a", 1), ("b", 2)] ≠ .ok t := by
  refine ⟨by decide, by decide +kernel, by decide +kernel, fun n t => ?_⟩
  induction n with
  | zero => nofun
  | succ n ih =>
    have again : sweep swapping [("a", 1), ("b", 2)] = ([("a", 1), ("b", 2)], true) := by decide +kernel
    rw [rewrite, again]
    exact ih

/-! ## Sums, differences and overlaps -/

theorem mem_join (mem : p ∈ (join xs ys).1) : ∃ n, (p.1, n) ∈ xs ∨ (p.1, n) ∈ ys := by fun_induction join xs ys with grind

theorem Proper.join (hx : Proper xs) (hy : Proper ys) : Proper (join xs ys).1 := by
  fun_induction Bag.join xs ys with
  | case1 => exact hy
  | case2 => exact hx
  | case3 | case4 | case5 => grind [cons_iff, mem_join]

theorem mem_sub (h : sub? xs ys = some zs) (mem : p ∈ zs) : ∃ n, (p.1, n) ∈ xs := by
  fun_induction sub? xs ys generalizing zs with grind [Option.map_eq_some_iff]

theorem Proper.sub (hx : Proper xs) (h : sub? xs ys = some zs) : Proper zs := by
  fun_induction sub? xs ys generalizing zs with grind [cons_iff, mem_sub, Option.map_eq_some_iff]

theorem Proper.mult_tail {n : Int} (h : Proper ((x, n) :: xs)) : 0 < n ∧ Proper xs ∧ mult xs x = 0 := by
  obtain ⟨pos, tail, -⟩ := cons_iff.1 h
  exact ⟨pos, tail, by simpa [mult_cons] using h.mult_head le_rfl⟩

theorem mult_join (hx : Proper xs) (hy : Proper ys) (a : String) : mult (join xs ys).1 a = max (mult xs a) (mult ys a) := by
  have proper := hx.join hy
  fun_induction join xs ys with
  | case1 => exact (max_eq_right (hy.positive.mult_bounds a).1).symm
  | case2 => exact (max_eq_left (hx.positive.mult_bounds a).1).symm
  | case3 x n xs y m ys less r b hit ih =>
    obtain ⟨pos, tail, -⟩ := hx.mult_tail
    rcases eq_or_ne x a with rfl | other
    · simp [proper.mult_head, hx.mult_head, hy.mult_head less.le, less.ne, pos.le]
    · simpa [mult_cons, other, hit] using ih tail hy (tail.join hy)
  | case4 x n xs y m ys _ less r b hit ih =>
    obtain ⟨pos, tail, -⟩ := hy.mult_tail
    rcases eq_or_ne y a with rfl | other
    · simp [proper.mult_head, hy.mult_head, hx.mult_head less.le, less.ne, pos.le]
    · simpa [mult_cons, other, hit] using ih hx tail (hx.join tail)
  | case5 x n xs y m ys le ge r b hit ih =>
    obtain rfl : x = y := le_antisymm (not_lt.1 ge) (not_lt.1 le)
    obtain ⟨-, tail, -⟩ := hx.mult_tail
    obtain ⟨-, tail', -⟩ := hy.mult_tail
    rcases eq_or_ne x a with rfl | other
    · simp [proper.mult_head, hx.mult_head, hy.mult_head]
    · simpa [mult_cons, other, hit] using ih tail tail' (tail.join tail')

theorem join_shares (hx : Proper xs) (hy : Proper ys) : (join xs ys).2 = true ↔ ∃ p ∈ xs, ∃ q ∈ ys, p.1 = q.1 := by
  fun_induction join xs ys with
  | case5 x n xs y m ys le ge =>
    exact iff_of_true rfl ⟨_, mem_cons_self, _, mem_cons_self, le_antisymm (not_lt.1 ge) (not_lt.1 le)⟩
  | _ => grind [Proper.cons_iff]

theorem exists_more (hx : Proper xs) (hy : Proper ys) (none : sub? xs ys = none) : ∃ a, mult xs a < mult ys a := by
  fun_induction sub? xs ys with
  | case1 => cases none
  | case2 q ys => exact ⟨q.1, (hy.mult_head le_rfl).trans (if_pos rfl) ▸ hy.mult_tail.1⟩
  | case3 x n xs y m ys less ih =>
    obtain ⟨-, tail, zero⟩ := hx.mult_tail
    obtain ⟨a, more⟩ := ih tail hy (Option.map_eq_none_iff.1 none)
    have other : x ≠ a := by
      rintro rfl
      exact more.ne (by rw [zero, hy.mult_head less.le, if_neg less.ne])
    exact ⟨a, by simpa [mult_cons, other] using more⟩
  | case4 x n xs y m ys _ less => exact ⟨y, by simpa [hx.mult_head less.le, less.ne, hy.mult_head] using hy.mult_tail.1⟩
  | case5 x xs y m ys up down ih | case6 x n xs y m ys up down _ _ ih =>
    obtain rfl : x = y := le_antisymm (not_lt.1 down) (not_lt.1 up)
    obtain ⟨-, tail, zero⟩ := hx.mult_tail
    obtain ⟨-, tail', zero'⟩ := hy.mult_tail
    obtain ⟨a, more⟩ := ih tail tail' (by simpa using none)
    have other : x ≠ a := by
      rintro rfl
      exact more.ne (zero.trans zero'.symm)
    exact ⟨a, by simpa [mult_cons, other] using more⟩
  | case7 x n xs y m ys up down =>
    obtain rfl : x = y := le_antisymm (not_lt.1 down) (not_lt.1 up)
    refine ⟨x, ?_⟩
    simp only [hx.mult_head le_rfl, hy.mult_head le_rfl, if_true]
    omega

theorem exists_reducts (hq : Proper q.1) (hr : Proper r.1) : ∃ pairs, reducts q r = .ok pairs := by
  have applies {s : Rule} (hs : Proper s.1) (le : ∀ a, mult s.1 a ≤ max (mult q.1 a) (mult r.1 a)) :
      ∃ t, replace? (join q.1 r.1).1 s = some t := by
    refine Option.ne_none_iff_exists'.1 fun none => ?_
    obtain ⟨a, more⟩ := exists_more (hq.join hr) hs (Option.map_eq_none_iff.1 none)
    rw [mult_join hq hr] at more
    exact (le a).not_gt more
  obtain ⟨t, first⟩ := applies hq fun a => le_max_left _ _
  obtain ⟨u, second⟩ := applies hr fun a => le_max_right _ _
  cases hit : overlap? q.1 r.1 with
  | none => exact ⟨[], by rw [reducts, hit]⟩
  | some o =>
    cases (Option.ite_none_right_eq_some.1 hit).2
    simp only [reducts, hit, first, second]
    exact ⟨_, rfl⟩

theorem exists_deduceFrom (hb : ∀ r ∈ before, Proper r.1) (hR : ∀ r ∈ R, Proper r.1) :
    ∃ pairs, deduceFrom before R = .ok pairs := by
  induction R generalizing before with
  | nil => exact ⟨_, rfl⟩
  | cons r R ih =>
    obtain ⟨hr, hR⟩ := forall_mem_cons.1 hR
    have each : ∀ q ∈ before, ∃ pairs, reducts q r = .ok pairs := fun q mem => exists_reducts (hb q mem) hr
    choose! hit spec using each
    obtain ⟨rest, later⟩ := ih (forall_mem_append.2 ⟨hb, forall_mem_singleton.2 hr⟩) hR
    exact ⟨_, bind_eq_ok.2 ⟨before.map hit, Checked.mapM_eq_ok.2 (forall₂_map_right_iff.2 (forall₂_same.2 spec)),
      bind_eq_ok.2 ⟨rest, later, rfl⟩⟩⟩

/-- Sum, difference and overlap of bags are bags again and count as they should: the difference is refused exactly if the second
bag has more of some name, the overlap exactly if no name is shared. So no overlap of rules is refused. -/
theorem merges_exact (hx : Proper xs) (hy : Proper ys) (hR : ∀ r ∈ R, Proper r.1) :
    (Proper (add xs ys) ∧ ∀ a, mult (add xs ys) a = mult xs a + mult ys a) ∧
    (sub? xs ys = none ↔ ∃ a, mult xs a < mult ys a) ∧
    (∀ zs, sub? xs ys = some zs → Proper zs ∧ (∀ a, mult zs a = mult xs a - mult ys a) ∧ add zs ys = xs) ∧
    (overlap? xs ys = none ↔ ∀ p ∈ xs, ∀ q ∈ ys, p.1 ≠ q.1) ∧
    (∀ zs, overlap? xs ys = some zs → Proper zs ∧ ∀ a, mult zs a = max (mult xs a) (mult ys a)) ∧
    ∃ pairs, deduce R = .ok pairs := by
  refine ⟨⟨hx.add hy, fun a => weigh_add xs ys⟩, ⟨exists_more hx hy, fun more => ?_⟩, fun zs found => ?_, ?_, fun zs found => ?_,
    exists_deduceFrom (forall_mem_nil _) hR⟩
  · obtain ⟨a, less⟩ := more
    refine Option.eq_none_iff_forall_ne_some.2 fun zs found => ?_
    have sum : mult xs a = mult zs a + mult ys a := weigh_sub found
    have := ((hx.sub found).positive.mult_bounds a).1
    omega
  · have sum (w : String → Int) := weigh_sub (w := w) found
    have hz := hx.sub found
    refine ⟨hz, fun a => eq_sub_of_add_eq (sum _).symm, ?_⟩
    have counts : count (add zs ys) = count xs := by rw [count_eq_weigh, count_eq_weigh, weigh_add, sum]
    rcases dominates?_cases (hz.add hy) hx counts with ⟨same, -⟩ | ⟨a, ⟨differ, -⟩, -⟩
    · exact same
    · exact absurd ((weigh_add zs ys).trans (sum _).symm) differ
  · have shares := join_shares hx hy
    unfold overlap?
    grind
  · cases (Option.ite_none_right_eq_some.1 found).2
    exact ⟨hx.join hy, mult_join hx hy⟩

theorem merges_exact_shared : overlap? [("a", 1), ("b", 2)] [("b", 1)] = some [("a", 1), ("b", 2)] ∧
    ∃ pairs, deduce [([("a", 1), ("b", 2)], []), ([("b", 1)], [])] = .ok pairs := by
  have left : Proper [("a", 1), ("b", 2)] := ⟨by decide, by simp [Positive]⟩
  have right : Proper [("b", 1)] := ⟨by simp, by simp [Positive]⟩
  exact ⟨by decide +kernel, (merges_exact left right (by simp [left, right])).2.2.2.2.2⟩

end SortedLogic.Bag

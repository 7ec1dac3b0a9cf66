import SortedLogic.Proofs.FirstOrder

/-!
# Least general patterns

The pattern of several terms has a symbol where all of them have it and a variable elsewhere, one for each list of terms that it
stands for (`Common`). Whatever else the terms are instances of has the pattern as an instance, as what such lists have in
common is unique (`Common.unique`).
-/

namespace SortedLogic.Generalization
open List
open Substitution
open Gives (pure_iff)
open Term
open Prod (fst snd)
variable {n m k i fuel : Nat} {f : Symbol} {T T' : Table} {p q t x y : Term} {xs ts args : List Term} {cs : List (List Term)}
  {overloads : Srt → Bool}

/-- A term of symbols with arguments of the declared sorts, none of which the supply makes from `n` on. -/
inductive Given (n : Nat) : Term → Prop
  | app {f : Symbol} {args : List Term} (latin : Text.isLatin f.name = true) (old : ∀ hint k s, n ≤ k → f ≠ .supply hint k s)
      (sorts : args.map sort = f.domain) (each : ∀ a ∈ args, Given n a) : Given n (.app f args)

def column (ts : List Term) (i : Nat) : List Term := ts.filterMap fun t => t.children[i]?

def Heads (f : Symbol) (n : Nat) (ts : List Term) : Prop := ∀ t ∈ ts, ∃ args, t = .app f args ∧ args.length = n

/-- The symbol that all terms start with, on what their arguments have in common, or the variable for the terms. -/
inductive Common (T : Table) : List Term → Term → Prop
  | app {xs args : List Term} {f : Symbol} (heads : Heads f args.length xs)
      (each : ∀ i (h : i < args.length), Common T (column xs i) args[i]) : Common T xs (.app f args)
  | var {xs : List Term} {z : Term} (mem : (xs, z) ∈ T) : Common T xs z

/-- Different lists of terms have different variables, which were drawn for terms that do not start with one symbol. -/
structure Memo (n m : Nat) (T : Table) : Prop where
  le : n ≤ m
  keys : (T.map fst).Nodup
  vars : (T.map snd).Nodup
  drawn : ∀ e ∈ T, ∃ c : Symbol, c.Drawn n m ∧ e.2 = .app c []
  sorts : ∀ e ∈ T, ∀ x ∈ e.1, x.sort = e.2.sort
  apart : ∀ e ∈ T, ∀ f n, ¬ Heads f n e.1

/-! ## What terms have in common -/

theorem mem_column : x ∈ column ts i ↔ ∃ t ∈ ts, t.children[i]? = some x := mem_filterMap

theorem Heads.column (heads : Heads f n ts) (lt : i < n) : (column ts i)[k]? = ts[k]?.bind (·.children[i]?) := by
  induction ts generalizing k with
  | nil => rfl
  | cons _ ts ih =>
    obtain ⟨⟨args, rfl, len⟩, rest⟩ := forall_mem_cons.1 heads
    have here : args[i]? = some args[i] := getElem?_eq_getElem _
    have split : Generalization.column (.app f args :: ts) i = args[i] :: Generalization.column ts i := filterMap_cons_some here
    rw [split]
    cases k with
    | zero => exact here.symm
    | succ => exact ih rest

theorem Given.column (given : ∀ t ∈ ts, Given n t) (mem : x ∈ column ts i) : Given n x := by
  obtain ⟨t, mem', here⟩ := mem_column.1 mem
  cases given t mem' with
  | app _ _ _ each => exact each x (mem_of_getElem? here)

theorem column_subterm (given : ∀ t ∈ ts, Given n t) (mem : x ∈ column ts i) (sub : y ∈ x.subterms false) :
    ∃ t ∈ ts, y ∈ t.subterms false := by
  obtain ⟨t, mem', here⟩ := mem_column.1 mem
  cases given t mem' with
  | app => exact ⟨_, mem', mem_subterms_arg (mem_of_getElem? here) sub⟩

theorem sameHead_iff : sameHead f n ts = true ↔ Heads f n ts := by
  refine all_eq_true.trans (forall₂_congr fun t _ => ?_)
  cases t <;> simp [eq_comm (a := f)]

namespace Common

theorem mono (h : Common T xs p) (sub : T ⊆ T') : Common T' xs p := by
  induction h with
  | app heads _ ih => exact .app heads ih
  | var mem => exact .var (sub mem)

theorem self (given : Given n t) (eq : ∀ x ∈ xs, x = t) : Common T xs t := by
  induction given generalizing xs with
  | @app _ args _ _ _ _ ih =>
    refine .app (fun x mem => ⟨args, eq x mem, rfl⟩) fun i h => ih _ (getElem_mem h) fun x mem => ?_
    obtain ⟨y, mem', here⟩ := mem_column.1 mem
    obtain rfl := eq y mem'
    exact (List.getElem?_eq_some_iff.1 here).2.symm

theorem sort (memo : Memo n m T) (h : Common T xs p) (mem : x ∈ xs) : p.sort = x.sort := by
  cases h with
  | app heads =>
    obtain ⟨args, rfl, -⟩ := heads x mem
    rfl
  | var entry => exact (memo.sorts _ entry x mem).symm

theorem of_heads (memo : Memo n m T) (heads : Heads f i xs) (some' : xs ≠ []) (h : Common T xs p) :
    ∃ args, p = .app f args ∧ args.length = i ∧ ∀ i (h : i < args.length), Common T (column xs i) args[i] := by
  obtain ⟨x, mem⟩ := exists_mem_of_ne_nil xs some'
  obtain ⟨r, rfl, rfl⟩ := heads x mem
  cases h with
  | @app _ args _ heads' each =>
    obtain ⟨r', eq, len⟩ := heads' _ mem
    cases eq
    exact ⟨args, rfl, len.symm, each⟩
  | var entry => exact absurd heads (memo.apart _ entry f _)

theorem unique (memo : Memo n m T) (some' : xs ≠ []) (h : Common T xs p) (h' : Common T xs q) : p = q := by
  induction h generalizing q with
  | @app xs _ _ heads _ ih =>
    obtain ⟨args', rfl, len, each'⟩ := of_heads memo heads some' h'
    obtain ⟨x, mem⟩ := exists_mem_of_ne_nil xs some'
    obtain ⟨r, rfl, len'⟩ := heads x mem
    refine congrArg _ (ext_getElem len.symm fun i h h' => ?_)
    have inside : r[i] ∈ column xs i := mem_column.2 ⟨_, mem, getElem?_eq_getElem _⟩
    exact ih i h (ne_nil_of_mem inside) (each' i h')
  | var mem =>
    cases h' with
    | app heads => exact absurd heads (memo.apart _ mem _ _)
    | var mem' => exact congrArg snd (inj_on_of_nodup_map memo.keys mem mem' rfl)

end Common

/-- The terms that the variables stand for in one of the terms. -/
def Table.fill (T : Table) (k : Nat) : Substitution := T.map fun e => (e.2, e.1.getD k e.2)

theorem Memo.fits (memo : Memo n m T) : ∀ e ∈ T.fill k, e.1.sort = e.2.sort := by
  intro e mem
  obtain ⟨⟨xs, z⟩, mem', rfl⟩ := mem_map.1 mem
  rw [getD_eq_getElem?_getD]
  cases here : xs[k]? with
  | none => rfl
  | some x => exact (memo.sorts _ mem' x (mem_of_getElem? here)).symm

theorem Common.replaceAll_fill (memo : Memo n m T) (h : Common T xs p) (given : ∀ x ∈ xs, Given n x) (here : xs[k]? = some x) :
    p.replaceAll (T.fill k) = x := by
  have names : (T.fill k).map fst = T.map snd := by simp [Table.fill]
  have keys : Keys (· ∈ T.map snd) (T.fill k) := fun e mem => names ▸ mem_map_of_mem mem
  induction h generalizing x with
  | @app _ args f heads _ ih =>
    obtain ⟨r, rfl, len⟩ := heads x (mem_of_getElem? here)
    have other : .app f args ∉ T.map snd := by
      intro key
      obtain ⟨e, entry, eq⟩ := mem_map.1 key
      obtain ⟨c, ⟨hint, j, s, le, -, rfl⟩, shape⟩ := memo.drawn e entry
      cases given _ (mem_of_getElem? here) with
      | app _ old => exact old hint j s le (Term.app.inj (eq.symm.trans shape)).1
    rw [keys.replace_app other]
    refine congrArg _ (ext_getElem (by simp [len]) fun i h h' => ?_)
    rw [getElem_map]
    refine ih i (len ▸ h') (fun x mem' => .column given mem') ?_
    rw [heads.column (len ▸ h'), here]
    exact getElem?_eq_getElem h'
  | @var _ _ mem =>
    obtain ⟨c, -, rfl⟩ := memo.drawn _ mem
    have nodup : ((T.fill k).map fst).Nodup := names ▸ memo.vars
    rw [(Leaf.const c).replaceAll, lookupLast_eq_get? nodup, get?_of_mem nodup (mem_map_of_mem mem), Option.getD_some,
      getD_eq_getElem?_getD, here, Option.getD_some]

/-! ## The run -/

theorem Memo.add {hint : String} {s : Srt} (memo : Memo n m T) (new : xs ∉ T.map fst) (sorts : ∀ x ∈ xs, x.sort = s)
    (apart : ∀ f n, ¬ Heads f n xs) : Memo n (m + 1) (T ++ [(xs, .app (.supply hint m s) [])]) := by
  have drawn : (Symbol.supply hint m s).Drawn m (m + 1) := ⟨hint, m, s, le_rfl, by omega, rfl⟩
  refine ⟨by have := memo.le; omega, ?_, ?_, ?_, ?_, ?_⟩
  · rw [map_append]
    exact memo.keys.append (by simp) (by simpa using new)
  · rw [map_append]
    refine memo.vars.append (by simp) (disjoint_singleton.2 fun mem => ?_)
    obtain ⟨e, entry, eq⟩ := mem_map.1 mem
    obtain ⟨c, before, shape⟩ := memo.drawn e entry
    cases shape.symm.trans eq
    exact before.not_later le_rfl drawn
  · refine forall_mem_append.2 ⟨fun e entry => ?_, ?_⟩
    · obtain ⟨c, before, shape⟩ := memo.drawn e entry
      exact ⟨c, before.mono le_rfl (by omega), shape⟩
    · simpa using drawn.mono memo.le le_rfl
  · exact forall_mem_append.2 ⟨memo.sorts, by simpa [Symbol.supply, sort] using sorts⟩
  · exact forall_mem_append.2 ⟨memo.apart, by simpa using apart⟩

/-- A run gives what is wanted of the table that it leaves. -/
def Finds {α : Type} (n m : Nat) (T : Table) (run : Fresh (α × Table)) (good : Table → α → Prop) : Prop :=
  ∃ a T' m', Gives run m (a, T') m' ∧ Memo n m' T' ∧ T ⊆ T' ∧ good T' a

theorem patternsFrom_gives (each : ∀ c ∈ cs, ∀ {m T}, Memo n m T → Finds n m T (patternFrom overloads fuel T c) (Common · c ·))
    (memo : Memo n m T) : Finds n m T (patternsFrom overloads fuel T cs) fun T ps => List.Forall₂ (Common T) cs ps := by
  induction cs generalizing m T with
  | nil => exact ⟨[], T, m, by rw [patternsFrom]; simp, memo, fun _ h => h, .nil⟩
  | cons _ _ ih =>
    obtain ⟨first, rest⟩ := forall_mem_cons.1 each
    obtain ⟨p, T₁, m₁, ok, memo₁, sub, common⟩ := first memo
    obtain ⟨ps, T₂, m₂, ok', memo₂, sub', commons⟩ := ih rest memo₁
    refine ⟨p :: ps, T₂, m₂, ?_, memo₂, fun e h => sub' (sub h), .cons (common.mono sub') commons⟩
    rw [patternsFrom]
    exact ok.bind (ok'.bind (pure_iff.2 ⟨rfl, rfl⟩))

theorem patternFrom_gives (given : ∀ x ∈ xs, Given n x) (plain : ∀ x ∈ xs, ∀ y ∈ x.subterms false, overloads y.sort = false)
    (sorts : ∀ x ∈ xs, ∀ y ∈ xs, x.sort = y.sort) (enough : ∃ t ∈ xs.head?, t.size ≤ fuel) (memo : Memo n m T) :
    Finds n m T (patternFrom overloads fuel T xs) (Common · xs ·) := by
  induction fuel generalizing xs m T with
  | zero =>
    obtain ⟨t, -, le⟩ := enough
    have := t.size_pos
    omega
  | succ fuel ih =>
    obtain _ | ⟨t, ts⟩ := xs
    · obtain ⟨t, none', -⟩ := enough
      cases none'
    have first := given t mem_cons_self
    cases first with
    | @app f args latin _ dom each =>
      rw [patternFrom]
      by_cases eq : ts.all (· = .app f args) = true
      · have all : ∀ x ∈ .app f args :: ts, x = .app f args := forall_mem_cons.2 ⟨rfl, by simpa using eq⟩
        exact ⟨_, T, m, by rw [if_pos eq]; simp, memo, fun _ h => h, .self (given _ mem_cons_self) all⟩
      rw [if_neg eq]
      cases hit : T.find? (·.1 = .app f args :: ts) with
      | some e =>
        obtain ⟨ks, z⟩ := e
        obtain rfl : ks = .app f args :: ts := by simpa using find?_some hit
        have here : overloads (Term.app f args).sort = false := plain _ mem_cons_self _ (self_mem_subterms _ _)
        simp only [here, Bool.false_eq_true, if_false]
        exact ⟨z, T, m, pure_iff.2 ⟨rfl, rfl⟩, memo, fun _ h => h, .var (mem_of_find?_eq_some hit)⟩
      | none =>
        have apps : (.app f args :: ts).all isApp = true := all_eq_true.2 fun x mem => by cases given x mem; rfl
        simp only [apps, Bool.not_true, Bool.false_eq_true, if_false]
        by_cases head : sameHead f args.length ts = true
        · rw [if_pos head]
          have heads : Heads f args.length (.app f args :: ts) := forall_mem_cons.2 ⟨⟨args, rfl, rfl⟩, sameHead_iff.1 head⟩
          have each : ∀ c ∈ columns args.length (.app f args :: ts), ∀ {m T}, Memo n m T →
              Finds n m T (patternFrom overloads fuel T c) (Common · c ·) := by
            intro c mem m T memo
            obtain ⟨i, inside, rfl⟩ := mem_map.1 mem
            have lt := mem_range.1 inside
            have place {x : Term} (mem : x ∈ column (.app f args :: ts) i) : f.domain[i]? = some x.sort := by
              obtain ⟨y, mem, here⟩ := mem_column.1 mem
              obtain ⟨r, rfl, -⟩ := heads y mem
              cases given _ mem with
              | app _ _ dom =>
                rw [← dom, getElem?_map]
                exact congrArg _ here
            refine ih (fun x mem => .column given mem) (fun x mem y sub => ?_) (fun x mem y mem' => ?_) ⟨args[i], ?_, ?_⟩ memo
            · obtain ⟨t, mem, sub⟩ := column_subterm given mem sub
              exact plain t mem y sub
            · exact Option.some.inj ((place mem).symm.trans (place mem'))
            · rw [head?_eq_getElem?]
              exact (heads.column lt).trans (getElem?_eq_getElem lt)
            obtain ⟨_, ⟨⟩, le⟩ := enough
            have := size_le_sizes (getElem_mem lt)
            rw [size] at le
            omega
          obtain ⟨ps, T', m', ok, memo', sub, commons⟩ := patternsFrom_gives each memo
          rw [columns, List.forall₂_iff_get] at commons
          obtain ⟨count, commons⟩ := commons
          have count : ps.length = args.length := by simpa using count.symm
          have common : ∀ i h, Common T' (column (.app f args :: ts) i) ps[i] := fun i h => by
            simpa [column] using commons i (by simpa [count] using h) h
          have dom' : ps.map sort = f.domain := dom ▸ ext_getElem (by simp [count]) fun i h h' => by
            rw [getElem_map, getElem_map]
            exact (common i _).sort memo' (mem_column.2 ⟨_, mem_cons_self, getElem?_eq_getElem _⟩)
          exact ⟨.app f ps, T', m', ok.bind ((Gives.ofChecked_fresh.2 ⟨Kernel.apply_of_sorts dom', rfl⟩).bind
            (pure_iff.2 ⟨rfl, rfl⟩)), memo', sub, .app (count ▸ heads) common⟩
        · rw [if_neg head]
          refine ⟨_, _, m + 1, (freshConst_gives.2 ⟨latin, rfl, rfl⟩).bind (pure_iff.2 ⟨rfl, rfl⟩), memo.add ?_ ?_ ?_,
            subset_append_left _ _, .var (by simp)⟩
          · intro mem
            obtain ⟨e, entry, eq⟩ := mem_map.1 mem
            exact find?_eq_none.1 hit e entry (decide_eq_true eq)
          · exact fun x mem => sorts x mem _ mem_cons_self
          · intro g l heads
            obtain ⟨⟨_, ⟨⟩, rfl⟩, rest⟩ := forall_mem_cons.1 heads
            exact head (sameHead_iff.2 rest)

/-! ## Other patterns -/

section
variable {ws : List Term} {ρs : List Substitution} {τ : Substitution} (memo : Memo n m T) (some' : ρs ≠ [])
  (keys : ∀ ρ ∈ ρs, Keys (· ∈ ws) ρ) (given : ∀ x ∈ ρs.map (q.replaceAll ·), Given n x) (h : Common T (ρs.map (q.replaceAll ·)) p)
include memo some' keys given h

theorem Common.replaceAll_eq (keys' : Keys (· ∈ ws) τ)
    (vals : ∀ w ∈ ws, (∃ a, Common T (ρs.map (w.replaceAll ·)) a) → Common T (ρs.map (w.replaceAll ·)) (w.replaceAll τ)) :
    q.replaceAll τ = p := by
  obtain ⟨ρ, mem⟩ := exists_mem_of_ne_nil ρs some'
  induction q generalizing p with
  | var | bind =>
    refine (em (_ ∈ ws)).elim (fun mine => (vals _ mine ⟨p, h⟩).unique memo (by simpa using some') h) fun mine => ?_
    have here := given _ (mem_map_of_mem mem)
    rw [replaceAll, (keys ρ mem).lookupLast mine] at here
    cases here
  | app f qs ih =>
    by_cases mine : .app f qs ∈ ws
    · exact (vals _ mine ⟨p, h⟩).unique memo (by simpa using some') h
    have shape : ∀ ρ ∈ ρs, (Term.app f qs).replaceAll ρ = .app f (qs.map (replaceAll ρ)) :=
        fun ρ mem => (keys ρ mem).replace_app mine
    have heads : Heads f qs.length (ρs.map ((Term.app f qs).replaceAll ·)) := by
      simpa [Heads] using fun ρ mem => ⟨_, shape ρ mem, by simp⟩
    obtain ⟨args, rfl, len, each⟩ := h.of_heads memo heads (by simpa using some')
    rw [keys'.replace_app mine]
    refine congrArg _ (ext_getElem (by simpa using len.symm) fun i h h' => ?_)
    have lt : i < qs.length := by simpa using h
    have eq : column (ρs.map ((Term.app f qs).replaceAll ·)) i = ρs.map (qs[i].replaceAll ·) := by
      rw [map_congr_left shape]
      simp [column, filterMap_map, children, lt]
    rw [getElem_map]
    exact ih _ (getElem_mem lt) (eq ▸ fun x mem => .column given mem) (eq ▸ each i h')

theorem Common.exists_instance (consts : ∀ w ∈ ws, w.isConst = true) (fits : ∀ ρ ∈ ρs, ∀ e ∈ ρ, e.1.sort = e.2.sort) :
    ∃ τ, Keys (· ∈ ws) τ ∧ q.substitute τ = .ok p := by
  classical
  let hit (w : Term) : Prop := ∃ a, Common T (ρs.map (w.replaceAll ·)) a
  choose! value common using fun w (h : hit w) => h
  let τ : Substitution := (ws.dedup.filter hit).map fun w => (w, value w)
  have names : τ.map fst = ws.dedup.filter hit := by simp [τ, Function.comp_def]
  have nodup : (τ.map fst).Nodup := names ▸ (nodup_dedup ws).filter _
  have entry {e : Term × Term} (mem : e ∈ τ) : e.1 ∈ ws ∧ Common T (ρs.map (e.1.replaceAll ·)) e.2 := by
    obtain ⟨w, mem', rfl⟩ := mem_map.1 mem
    simp only [mem_filter, mem_dedup, decide_eq_true_eq] at mem'
    exact ⟨mem'.1, common w mem'.2⟩
  refine ⟨τ, fun e mem => (entry mem).1, substitute_eq_ok.2 ⟨fun e mem => ?_, Eq.symm ?_⟩⟩
  · obtain ⟨ρ, mem'⟩ := exists_mem_of_ne_nil ρs some'
    obtain ⟨c, shape⟩ := isConst_iff.1 (consts _ (entry mem).1)
    refine Eq.trans ?_ ((entry mem).2.sort memo (mem_map_of_mem mem')).symm
    exact (sort_replaceAll_of_isApp (fits ρ mem') (shape ▸ rfl)).symm
  refine h.replaceAll_eq memo some' keys given (fun e mem => (entry mem).1) fun w mine exists' => ?_
  have mem : (w, value w) ∈ τ := mem_map_of_mem (by simpa using ⟨mine, exists'⟩)
  obtain ⟨c, rfl⟩ := isConst_iff.1 (consts w mine)
  rw [(Leaf.const c).replaceAll τ, lookupLast_eq_get? nodup, get?_of_mem nodup mem]
  exact common _ exists'

end

/-- If no part of the terms is of a sort with an equality of its own, their pattern has each of them as an instance, and is an
instance of every other pattern that does. It has one variable for each list of terms at a place where they differ. -/
theorem pattern_leastGeneral (some' : ts ≠ []) (given : ∀ t ∈ ts, Given n t) (sorts : ∀ t ∈ ts, ∀ u ∈ ts, t.sort = u.sort)
    (plain : ∀ t ∈ ts, ∀ u ∈ t.subterms false, overloads u.sort = false) :
    ∃ p T m, Gives (pattern overloads ts) n (T.map snd, p) m ∧ Memo n m T ∧ Common T ts p ∧
      (∀ k t, ts[k]? = some t → p.substitute (T.fill k) = .ok t) ∧
      ∀ (ws : List Term) (q : Term), (∀ w ∈ ws, w.isConst = true) → (∀ t ∈ ts, ∃ ρ, Keys (· ∈ ws) ρ ∧ q.substitute ρ = .ok t) →
        ∃ τ, Keys (· ∈ ws) τ ∧ q.substitute τ = .ok p := by
  obtain ⟨t, rest, rfl⟩ := exists_cons_of_ne_nil some'
  obtain ⟨p, T, m, done, memo, -, common⟩ := patternFrom_gives (T := []) given plain sorts ⟨t, rfl, le_rfl⟩
    ⟨le_rfl, by simp, by simp, by simp, by simp, by simp⟩
  refine ⟨p, T, m, ?_, memo, common, fun k x here => ?_, fun ws q constants others => ?_⟩
  · have one : (t :: rest).all (·.sort = t.sort) = true := by
      simpa using fun x mem => sorts x (mem_cons_of_mem _ mem) t mem_cons_self
    unfold pattern
    simp only [one, Bool.not_true, Bool.false_eq_true, if_false]
    exact done.bind (pure_iff.2 ⟨rfl, rfl⟩)
  · exact substitute_eq_ok.2 ⟨memo.fits, (common.replaceAll_fill memo given here).symm⟩
  · choose! ρ keys same using others
    have instances : ((t :: rest).map ρ).map (q.replaceAll ·) = t :: rest := by
      rw [map_map]
      exact (map_congr_left fun x mem => (substitute_eq_ok.1 (same x mem)).2.symm).trans (map_id _)
    rw [← instances] at given common
    refine common.exists_instance memo (by simp) ?_ given constants ?_
    · exact forall_mem_map.2 keys
    · exact forall_mem_map.2 fun x mem => (substitute_eq_ok.1 (same x mem)).1

open Term.Sample in
theorem numbers_generalized : ∃ p m, ∃ T : Table, Gives (pattern isReal [number "x", number "y"]) 0 (T.map snd, p) m ∧
    p.substitute (T.fill 1) = .ok (number "y") := by
  have given (name : String) (latin : Text.isLatin name = true) : Given 0 (number name) := by
    refine .app latin ?_ rfl (by simp)
    rintro hint k s - same
    cases congrArg Symbol.role same
  have both : ∀ t ∈ [number "x", number "y"], Given 0 t := by simpa using ⟨given "x" (by decide), given "y" (by decide)⟩
  obtain ⟨p, T, m, done, -, -, filled, -⟩ := pattern_leastGeneral (by simp) both
    (by simp [number, const, Symbol.const, sort]) (show ∀ t ∈ [number "x", number "y"], ∀ u ∈ t.subterms false,
      isReal u.sort = false by
      decide)
  exact ⟨p, m, T, done, filled 1 _ rfl⟩

end SortedLogic.Generalization

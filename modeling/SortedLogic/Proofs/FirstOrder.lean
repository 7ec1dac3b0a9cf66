import SortedLogic.Proofs.Matching
import SortedLogic.Proofs.Unification

/-!
# First-order matching

Each variable of a pattern without binders and applied variables has at most one term that makes it equal to a term, so no step
of the work list loses an answer or adds one, and the general matcher takes the same steps (`Matching.solve_settles`).
-/

namespace SortedLogic
open List
open Substitution
variable {vs : List Term} {a b p t x : Term} {f : Symbol} {ρ σ τ : Substitution} {todo rest : List (Term × Term)}
  {overloads : Srt → Bool}

namespace Term

theorem alphaEq_exact (left : a.Exact) (right : b.Exact) : alphaEq a b = .ok (decide (a = b)) := by
  have all : ∀ {as bs : List Term}, as.length = bs.length →
      (∀ a ∈ as, ∀ b ∈ bs, alphaEq a b = .ok (decide (a = b))) → alphaEqs as bs = .ok (decide (as = bs)) := by
    intro as
    induction as with
    | nil => intro bs len _; cases bs <;> simp_all [alphaEqs]
    | cons a as ih =>
      intro bs len each
      cases bs with
      | nil => cases len
      | cons b bs =>
        have rest := ih (by simpa using len) fun a mem b mem' => each a (mem_cons_of_mem _ mem) b (mem_cons_of_mem _ mem')
        rw [alphaEqs, each a mem_cons_self b mem_cons_self]
        show (if decide (a = b) = true then alphaEqs as bs else .ok false) = _
        by_cases h : a = b <;> simp [h, rest]
  induction a generalizing b with
  | var => cases b <;> simp [alphaEq]
  | app f _ ih =>
    cases b with
    | app g =>
      rw [alphaEq]
      by_cases h : f = g
      · subst h
        obtain ⟨sorts, as'⟩ := exact_app.1 left
        obtain ⟨sorts', bs'⟩ := exact_app.1 right
        rw [all (map_eq_map_iff.1 (sorts.trans sorts'.symm)).1 fun a mem b mem' => ih a mem (as' a mem) (bs' b mem')]
        simp
      · simp [h]
    | var | bind => simp [alphaEq]
  | bind => exact left.elim

theorem isConst_iff : x.isConst = true ↔ ∃ c, x = .app c [] := by
  unfold isConst
  split <;> simp_all

theorem sizes_eq_sum (ts : List Term) : sizes ts = (ts.map size).sum := by
  induction ts with
  | nil => rfl
  | cons _ _ ih => simp [sizes, ih]

/-- A pattern for the variables `vs` that has neither binders nor loose variables, nor variables that are applied. -/
structure FirstOrderPattern (vs : List Term) (p : Term) : Prop where
  fits : p.Exact
  closed : ∀ y ∈ p.subterms false, y.isVar = false
  plain : ∀ y ∈ p.subterms false, y.isOp "select" = true → ∀ F ∈ y.children.head?, F ∉ vs

theorem FirstOrderPattern.exists_app (h : FirstOrderPattern vs p) : ∃ f args, p = .app f args := by
  cases p with
  | var => exact absurd (h.closed _ (self_mem_subterms _ _)) (by simp [isVar])
  | app f args => exact ⟨f, args, rfl⟩
  | bind => exact h.fits.elim

theorem FirstOrderPattern.head {args : List Term} (h : FirstOrderPattern vs (.app f args)) :
    f.isOp "select" = true → ∀ F ∈ args.head?, F ∉ vs := h.plain _ (self_mem_subterms _ _)

theorem FirstOrderPattern.arg {args : List Term} (h : FirstOrderPattern vs (.app f args)) (mem : a ∈ args) :
    FirstOrderPattern vs a :=
  have sub := mem_subterms_arg mem (self_mem_subterms false a)
  ⟨(exact_app.1 h.fits).2 a mem, fun y mem' => h.closed y (subterms_trans mem' sub),
    fun y mem' => h.plain y (subterms_trans mem' sub)⟩

end Term

namespace Matching
open Term

theorem avoids_nil (t : Term) : avoids [] t = true := by
  induction t with
  | var | bind => simp_all [avoids]
  | app _ _ ih => simp [avoids, avoidsAll_eq_true.2 ih]

theorem step_app {args : List Term} {q : Problem} (plain : f.isOp "select" = true → ∀ F ∈ args.head?, F ∉ vs)
    (unknown : ¬ vs.contains (.app f args) = true) : step overloads vs (.app f args) t q =
      step.decompose t q f args := by
  unfold step
  rw [if_neg unknown]
  cases args with
  | nil => rfl
  | cons F => exact if_neg fun h => plain h.1 F rfl (by simpa using h.2)

def Answers (ρ : Substitution) (es : List (Term × Term)) : Prop := ∀ e ∈ es, e.1.replaceAll ρ = e.2

/-- What is left to match with terms of fitting sorts, and what was found for variables. -/
structure Searching (vs : List Term) (todo : List (Term × Term)) (σ : Substitution) : Prop where
  todo : ∀ e ∈ todo, FirstOrderPattern vs e.1 ∧ e.2.Exact ∧ e.1.sort = e.2.sort
  found : ∀ e ∈ σ, e.1 ∈ vs ∧ e.2.Exact ∧ e.1.sort = e.2.sort
  nodup : (σ.map Prod.fst).Nodup

/-- Both runs return terms that only answers agree with, or nothing if there is no answer. -/
def Settles (vs : List Term) (todo : List (Term × Term)) (σ : Substitution) (run : Checked (Option Substitution))
    (general : Fresh (Option Substitution)) : Prop :=
  ∃ r, run = .ok r ∧ general = pure r ∧ match r with
    | some τ => Searching vs [] τ ∧ ∀ ρ, Keys (· ∈ vs) ρ → Answers ρ τ → Answers ρ todo ∧ Answers ρ σ
    | none => ∀ ρ, Keys (· ∈ vs) ρ → ¬ (Answers ρ todo ∧ Answers ρ σ)

theorem settles_none (clash : ∀ ρ, Keys (· ∈ vs) ρ → Answers ρ todo → ¬ Answers ρ σ) :
    Settles vs todo σ (.ok none) (pure none) := ⟨none, rfl, rfl, fun ρ hρ both => clash ρ hρ both.1 both.2⟩

theorem Settles.of_step {todo' : List (Term × Term)} {σ' : Substitution} {run : Checked (Option Substitution)}
    {general : Fresh (Option Substitution)} (h : Settles vs todo' σ' run general)
    (eq : ∀ ρ, Keys (· ∈ vs) ρ → (Answers ρ todo' ∧ Answers ρ σ' ↔ Answers ρ todo ∧ Answers ρ σ)) :
    Settles vs todo σ run general := by
  obtain ⟨r, ok, ok', h⟩ := h
  refine ⟨r, ok, ok', ?_⟩
  cases r with
  | none => exact fun ρ hρ => mt (eq ρ hρ).2 (h ρ hρ)
  | some => exact ⟨h.1, fun ρ hρ agrees => (eq ρ hρ).1 (h.2 ρ hρ agrees)⟩

/-- With fuel for the sizes of the patterns, both matchers settle the work list: they take the same steps, and each step keeps
the answers. -/
theorem solve_settles (plain : ∀ v ∈ vs, overloads v.sort = false) (fuel : Nat) (todo : List (Term × Term))
    (σ : Substitution) (h : Searching vs todo σ) (enough : (todo.map (·.1.size)).sum ≤ fuel) :
    Settles vs todo σ (pmatchFirstOrderFrom overloads vs fuel todo σ) (solve overloads vs fuel ⟨todo, σ, []⟩) := by
  -- outside the variables an application keeps its head
  have rigid {f : Symbol} {args : List Term} {ρ : Substitution} (other : ¬ vs.contains (.app f args) = true)
      (hρ : Keys (· ∈ vs) ρ) : (app f args).replaceAll ρ = .app f (args.map (·.replaceAll ρ)) :=
    hρ.replace_app (by simpa using other)
  have less {p t : Term} {rest : List (Term × Term)} {fuel : Nat} (enough : (((p, t) :: rest).map (·.1.size)).sum ≤ fuel + 1) :
      (rest.map (·.1.size)).sum ≤ fuel := by
    have := p.size_pos
    simp only [map_cons, sum_cons] at enough
    omega
  induction fuel, todo, σ using pmatchFirstOrderFrom.induct overloads vs with
  | case1 _ σ => exact ⟨some σ, by rw [pmatchFirstOrderFrom], by rw [solve], h, by simp [Answers]⟩
  | case2 todo _ some' =>
    obtain _ | ⟨⟨p, t⟩, rest⟩ := todo
    · exact absurd rfl some'
    · have := p.size_pos
      simp at enough
      omega
  | case3 _ _ _ _ _ known _ _ own => exact absurd own (by simp [plain _ (by simpa using known)])
  | case4 _ _ t _ σ known u hit own ih =>
    obtain ⟨⟨pat, fits, -⟩, rest'⟩ := forall_mem_cons.1 h.todo
    have mem := mem_of_get? hit
    have alike := alphaEq_exact (h.found _ mem).2.1 fits
    rw [solve]
    obtain ⟨f, args, rfl⟩ := pat.exists_app
    unfold pmatchFirstOrderFrom step assign
    simp only [known, if_true, hit, own]
    simp only [alike]
    by_cases eq : u = t
    · rw [decide_eq_true eq]
      refine (ih ⟨rest', h.found, h.nodup⟩ (less enough)).of_step fun ρ _ => ?_
      have first (agrees : Answers ρ σ) : (app f args).replaceAll ρ = t := (agrees _ mem).trans eq
      simp only [Answers, forall_mem_cons]
      tauto
    · rw [decide_eq_false eq]
      exact settles_none fun ρ _ todo agrees => eq ((agrees _ mem).symm.trans (todo _ mem_cons_self))
  | case5 _ p _ _ σ known hit ih =>
    obtain ⟨⟨pat, fits, sorts⟩, rest'⟩ := forall_mem_cons.1 h.todo
    have new : p ∉ σ.map Prod.fst := get?_eq_none.1 hit
    rw [solve]
    obtain ⟨f, args, rfl⟩ := pat.exists_app
    unfold pmatchFirstOrderFrom step assign
    simp only [known, if_true, hit, avoids_nil]
    refine (ih ⟨rest', forall_mem_append.2 ⟨h.found, ?_⟩, ?_⟩ (less enough)).of_step fun ρ _ => ?_
    · simpa using ⟨by simpa using known, fits, sorts⟩
    · rw [map_append]
      exact h.nodup.append (by simp) (by simpa using new)
    · simp only [Answers, forall_mem_append, forall_mem_cons]
      tauto
  | case6 _ _ _ args _ ts other ih =>
    obtain ⟨⟨pat, fits, -⟩, rest'⟩ := forall_mem_cons.1 h.todo
    obtain ⟨len, sorts⟩ := map_eq_map_iff.1 ((exact_app.1 pat.fits).1.trans (exact_app.1 fits).1.symm)
    rw [solve, step_app pat.head other]
    unfold pmatchFirstOrderFrom step.decompose pairArgs
    simp only [other, if_true, len, le_refl]
    refine (ih (args.zip ts).reverse ⟨forall_mem_append.2 ⟨fun e mem => ?_, rest'⟩, h.found, h.nodup⟩ ?_).of_step fun ρ hρ => ?_
    · obtain ⟨left, right⟩ := of_mem_zip (a := e.1) (b := e.2) (mem_reverse.1 mem)
      exact ⟨pat.arg left, (exact_app.1 fits).2 _ right, sorts e (mem_reverse.1 mem)⟩
    · have pairs : (args.zip ts).map (·.1.size) = args.map size :=
        map_map.symm.trans (congrArg (List.map size) (map_fst_zip len.le))
      simp only [map_cons, sum_cons, size, sizes_eq_sum] at enough
      rw [map_append, map_reverse, pairs, sum_append, sum_reverse]
      omega
    · have args' : args.map (replaceAll ρ) = ts ↔ Answers ρ (args.zip ts).reverse := by
        rw [← map_id ts, map_eq_map_iff]
        simp [Answers, len]
      simp only [Answers, forall_mem_append, forall_mem_cons, rigid other hρ, app.injEq, args', true_and]
  | case7 _ _ _ _ _ _ _ clash other =>
    rw [solve, step_app (h.todo _ mem_cons_self).1.head other]
    unfold pmatchFirstOrderFrom step.decompose
    simp only [other, if_false, clash]
    refine settles_none fun ρ hρ todo _ => clash ?_
    exact (app.inj ((rigid other hρ).symm.trans (todo _ mem_cons_self))).1
  | case8 _ t _ _ _ _ clash other =>
    obtain ⟨⟨pat, fits, -⟩, -⟩ := forall_mem_cons.1 h.todo
    rw [solve, step_app pat.head other]
    unfold pmatchFirstOrderFrom step.decompose
    simp only [other]
    cases t with
    | var => exact settles_none fun ρ hρ todo _ => by cases (rigid other hρ).symm.trans (todo _ mem_cons_self)
    | app g ts => exact (clash g ts rfl).elim
    | bind => exact fits.elim
  | case9 _ _ _ _ _ _ other =>
    obtain ⟨f, args, rfl⟩ := (h.todo _ mem_cons_self).1.exists_app
    exact (other f args rfl).elim

end Matching

namespace Term
open Matching (Answers)

theorem replace_injective (consts : ∀ v ∈ vs, v.Leaf) (hρ : Keys (· ∈ vs) ρ) (hσ : Keys (· ∈ vs) σ) (fits : p.Exact)
    (eq : p.replaceAll ρ = p.replaceAll σ) (mine : x ∈ vs) (sub : x ∈ p.subterms false) : x.replaceAll ρ = x.replaceAll σ := by
  induction p with
  | var i s =>
    obtain rfl : x = .var i s := by simpa [subterms] using sub
    exact eq
  | app f args ih =>
    rcases mem_subterms_app.1 sub with rfl | ⟨a, mem, sub⟩
    · exact eq
    have other : ¬ .app f args ∈ vs := fun key => by
      cases args with
      | nil => cases mem
      | cons => exact not_leaf (consts _ key)
    rw [hρ.replace_app other, hσ.replace_app other, app.injEq] at eq
    exact ih a mem ((exact_app.1 fits).2 a mem) (map_inj_left.1 eq.2 a mem) sub
  | bind => exact fits.elim

/-- If no variable is of a sort with an equality of its own, the two matchers return the same: the terms for the variables of the
pattern that make it the term, and these are the only ones; or nothing, if there are none. -/
theorem pmatch_exact (constants : ∀ v ∈ vs, v.isConst = true) (plain : ∀ v ∈ vs, overloads v.sort = false)
    (pattern : FirstOrderPattern vs p) (fits : t.Exact) :
    ∃ r, pmatchFirstOrder vs p t overloads = .ok r ∧ (∀ n, Gives (pmatch vs p t overloads) n r n) ∧ match r with
      | some σ => Keys (· ∈ vs) σ ∧ p.substitute σ = .ok t ∧ ∀ ρ, Keys (· ∈ vs) ρ → p.substitute ρ = .ok t →
          ∀ x ∈ vs, x ∈ p.subterms false → x.replaceAll ρ = x.replaceAll σ
      | none => ¬ ∃ ρ, Keys (· ∈ vs) ρ ∧ p.substitute ρ = .ok t := by
  have leaf : ∀ v ∈ vs, v.Leaf := fun v mem => by
    obtain ⟨c, rfl⟩ := isConst_iff.1 (constants v mem)
    exact .const c
  unfold pmatchFirstOrder pmatch
  by_cases sorts : p.sort = t.sort
  · rw [if_pos sorts, if_pos sorts]
    obtain ⟨r, done, general, h⟩ := Matching.solve_settles plain p.size [(p, t)] []
      ⟨by simpa using ⟨pattern, fits, sorts⟩, by simp, by simp⟩ (by simp)
    refine ⟨r, done, fun n => general ▸ Gives.pure_iff.2 ⟨rfl, rfl⟩, ?_⟩
    have alone {ρ : Substitution} (same : p.substitute ρ = .ok t) : Answers ρ [(p, t)] := by
      simpa [Answers] using (substitute_eq_ok.1 same).2.symm
    cases r with
    | none =>
      rintro ⟨ρ, hρ, same⟩
      exact h ρ hρ ⟨alone same, by simp [Answers]⟩
    | some σ =>
      have keys : Keys (· ∈ vs) σ := fun e mem => (h.1.found e mem).1
      have itself : Answers σ σ := fun e mem => by
        rw [(leaf _ (keys e mem)).replaceAll, lookupLast_eq_get? h.1.nodup, get?_of_mem h.1.nodup mem, Option.getD_some]
      have same := (h.2 σ keys itself).1 _ mem_cons_self
      refine ⟨keys, substitute_eq_ok.2 ⟨fun e mem => (h.1.found e mem).2.2, same.symm⟩, fun ρ hρ other x mine sub => ?_⟩
      exact replace_injective leaf hρ keys pattern.fits ((alone other _ mem_cons_self).trans same.symm) mine sub
  · rw [if_neg sorts, if_neg sorts]
    refine ⟨none, rfl, fun n => rfl, ?_⟩
    rintro ⟨ρ, -, same⟩
    obtain ⟨fitting, rfl⟩ := substitute_eq_ok.1 same
    obtain ⟨f, args, rfl⟩ := pattern.exists_app
    exact sorts (sort_replaceAll_of_isApp fitting rfl).symm

namespace Sample

def isReal (s : Srt) : Bool := s = .real

def twice (name : String) : Term := pair (next (number name)) (next (number name))

/-- The variable stands at two places. -/
theorem twice_matched : ∃ r, r = some [(number "x", number "z")] ∧
    ∀ n, Gives (pmatch [number "x"] (twice "x") (twice "z") isReal) n r n := by
  have fits (name : String) : (twice name).Exact := by
    simp [twice, pair, next, number, const, Exact, ExactAll, sort, Symbol.const]
  have pattern : FirstOrderPattern [number "x"] (twice "x") := ⟨fits "x", by decide, by decide⟩
  have plain : ∀ v ∈ [number "x"], isReal v.sort = false := by decide
  obtain ⟨r, done, general, -⟩ := pmatch_exact (by decide) plain pattern (fits "z")
  exact ⟨r, Except.ok.inj (done.symm.trans (by cbv)), general⟩

end Sample
end Term
end SortedLogic

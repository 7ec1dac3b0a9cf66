import SortedLogic.Proofs.FirstOrder
import SortedLogic.Proofs.Unfolding

/-!
# Normal forms

Rewriting works from the inside out and tries, at each place, the rules whose left side has the head of the term there. What it
returns is a normal form (`normalize_normal`).
-/

namespace SortedLogic
open Gives (bind_iff)
open List (forall_mem_append forall_mem_cons)
open Term (pmatch sorted_app)
variable {vs args : List Term} {t u : Term} {f : Symbol} {n m fuel limit : Nat}
  {overloads : Srt → Bool}

/-- A pattern for the variables `vs` that has neither binders nor loose variables, nor variables that are applied. -/
inductive Term.Rigid (vs : List Term) : Term → Prop
  | app {f : Symbol} {args : List Term} (plain : f.isOp "select" = true → ∀ F ∈ args.head?, F ∉ vs)
      (each : ∀ a ∈ args, Rigid vs a) : Rigid vs (.app f args)

theorem Term.Rigid.isApp (h : t.Rigid vs) : t.isApp = true := by
  cases h
  rfl

namespace Matching

theorem solve_rigid (fuel : Nat) (todo : List (Term × Term)) (σ : Substitution)
    (h : ∀ e ∈ todo, e.1.Rigid vs ∧ e.2.Sorted true []) (hit : ∀ e ∈ σ, e.1 ∈ vs ∧ e.2.Sorted true []) :
    ∃ r : Checked (Option Substitution), solve overloads vs fuel ⟨todo, σ, []⟩ = liftM r ∧
      ∀ τ, r = .ok (some τ) → ∀ e ∈ τ, e.1 ∈ vs ∧ e.2.Sorted true [] := by
  induction fuel generalizing todo σ with
  | zero =>
    cases todo with
    | nil => exact ⟨.ok (some σ), rfl, fun _ eq => by cases eq; exact hit⟩
    | cons => exact ⟨.ok none, rfl, by simp⟩
  | succ _ ih =>
    obtain _ | ⟨⟨p, t⟩, rest⟩ := todo
    · exact ⟨.ok (some σ), rfl, fun _ eq => by cases eq; exact hit⟩
    obtain ⟨⟨⟨plain, each⟩, sorted⟩, others⟩ := forall_mem_cons.1 h
    rename_i f args
    by_cases known : vs.contains (.app f args) = true
    · rw [solve]
      unfold step assign
      rw [if_pos known]
      cases here : σ.get? (.app f args) with
      | some u =>
        dsimp only
        by_cases own : overloads (Term.app f args).sort = true
        · exact ⟨.error .illFormed, by simp [own]; rfl, by simp⟩
        rw [if_neg own]
        rcases u.alphaEq t with e | _ | _
        · exact ⟨.error e, rfl, by simp⟩
        · exact ⟨.ok none, rfl, by simp⟩
        · exact ih _ _ others hit
      | none =>
        simp only [avoids_nil, if_true]
        exact ih _ _ others (forall_mem_append.2 ⟨hit, by simpa using ⟨by simpa using known, sorted⟩⟩)
    · rw [solve, step_app plain known]
      unfold step.decompose pairArgs
      cases t with
      | var | bind => exact ⟨.ok none, rfl, by simp⟩
      | app g =>
        by_cases eq : f = g
        · simp only [eq, if_true]
          split
          · refine ih _ _ (forall_mem_append.2 ⟨fun e mem => ?_, others⟩) hit
            obtain ⟨left, right⟩ := List.of_mem_zip (List.mem_reverse.1 mem)
            exact ⟨each _ left, (sorted_app.1 sorted).2.2 _ right⟩
          · exact ⟨.error .illFormed, rfl, by simp⟩
        · simp only [eq, if_false]
          exact ⟨.ok none, rfl, by simp⟩

end Matching

namespace Rewrite
variable {r : Rule} {rules : List Rule} {trace : Trace}

/-- A rule between terms of one sort whose left side is not a variable. -/
structure Rule.FirstOrder (r : Rule) : Prop where
  closed : ∀ v ∈ r.vars, v.Closed
  proper : r.lhs ∉ r.vars
  rigid : r.lhs.Rigid r.vars
  sorts : r.lhs.sort = r.rhs.sort
  sorted : r.rhs.Sorted true []

/-- The left side of the rule does not match the term. -/
def Rule.Fails (overloads : Srt → Bool) (r : Rule) (t : Term) : Prop := pmatch r.vars r.lhs t overloads = pure none

/-- No rule matches anywhere in the term. -/
def Normal (overloads : Srt → Bool) (rules : List Rule) (t : Term) : Prop :=
  ∀ s ∈ t.subterms false, ∀ r ∈ rules, r.Fails overloads s

theorem Rule.FirstOrder.rewrite_cases (h : r.FirstOrder) (sorted : t.Sorted true []) :
    r.rewrite t overloads = pure none ∧ r.Fails overloads t ∨
      (∃ x, r.rewrite t overloads = pure (some x) ∧ x.1.Sorted true [] ∧ x.1.sort = t.sort) ∨
      ∃ e, r.rewrite t overloads = throw e := by
  unfold Rule.rewrite Rule.Fails pmatch
  by_cases sorts : r.lhs.sort = t.sort
  · obtain ⟨c, eq, hit⟩ := Matching.solve_rigid r.lhs.size [(r.lhs, t)] [] (by simpa using ⟨h.rigid, sorted⟩) (by simp)
    rw [if_pos sorts, eq]
    rcases c with e | _ | σ
    · exact .inr (.inr ⟨e, rfl⟩)
    · exact .inl ⟨rfl, rfl⟩
    replace hit := hit σ rfl
    rw [show (liftM (Except.ok (some σ))) = pure (some σ) from rfl, pure_bind]
    dsimp only
    cases made : r.rhs.substitute σ with
    | error e => exact .inr (.inr ⟨e, rfl⟩)
    | ok =>
      obtain ⟨fits, rfl⟩ := Term.substitute_eq_ok.1 made
      have ex : Term.Exchange σ := fun e mem => ⟨h.closed _ (hit e mem).1, (hit e mem).2.closed, fits e mem⟩
      refine .inr (.inl ⟨(_, σ), rfl, h.sorted.replaceAll ex fun e mem => (hit e mem).2, ?_⟩)
      exact (Term.sort_replaceAll ex _).trans (h.sorts.symm.trans sorts)
  · rw [if_neg sorts]
    exact .inl ⟨rfl, rfl⟩

theorem firstAtRoot_cases (h : ∀ r ∈ rules, r.FirstOrder) (sorted : t.Sorted true []) :
    firstAtRoot overloads rules t = pure none ∧ (∀ r ∈ rules, r.Fails overloads t) ∨
      (∃ x, firstAtRoot overloads rules t = pure (some x) ∧ x.1.Sorted true [] ∧ x.1.sort = t.sort) ∨
      ∃ e, firstAtRoot overloads rules t = throw e := by
  induction rules with
  | nil => exact .inl ⟨rfl, by simp⟩
  | cons r _ ih =>
    obtain ⟨first, rest⟩ := forall_mem_cons.1 h
    rw [firstAtRoot]
    rcases first.rewrite_cases sorted with ⟨eq, here⟩ | ⟨x, eq, good⟩ | ⟨e, eq⟩ <;> rw [eq]
    · rw [pure_bind]
      exact (ih rest).imp_left fun below => ⟨below.1, forall_mem_cons.2 ⟨here, below.2⟩⟩
    · exact .inr (.inl ⟨(x.1, r, x.2), rfl, good⟩)
    · exact .inr (.inr ⟨e, rfl⟩)

theorem Rule.FirstOrder.fails (h : r.FirstOrder) (other : ∀ f args, t = .app f args → r.lhs.head? ≠ some f) :
    r.Fails overloads t := by
  obtain ⟨-, proper, rigid, -⟩ := h
  unfold Rule.Fails pmatch
  split
  · generalize r.lhs = p at proper rigid other
    obtain ⟨plain, -⟩ := rigid
    rw [Term.size, Nat.add_comm, Matching.solve, Matching.step_app plain (by simpa using proper)]
    cases t with
    | var | bind => rfl
    | app f args =>
      rw [Matching.step.decompose, if_neg fun eq => other f args rfl (by simp [Term.head?, eq])]
      rfl
  · rfl

/-- A term that is normal and stays as it is when it is rewritten with as much fuel. -/
structure Settled (overloads : Srt → Bool) (rules : List Rule) (fuel : Nat) (u : Term) : Prop where
  sorted : u.Sorted true []
  normal : Normal overloads rules u
  again : ∀ l, normalizeWith overloads (withHead rules) (l + fuel) u = pure (u, [])

variable (h : ∀ r ∈ rules, r.FirstOrder)
include h

theorem settled_bind {k : Binder} {vars : Vars} {body : Term} (sorted : (Term.bind k vars body).Sorted true []) :
    Settled overloads rules (fuel + 1) (.bind k vars body) := by
  refine ⟨sorted, fun t sub r mem => ?_, fun _ => rfl⟩
  cases List.mem_singleton.1 sub
  exact (h r mem).fails (by simp)

theorem settled_app (sorted : (Term.app f args).Sorted true []) (dom : args.map Term.sort = f.domain)
    (normal : ∀ a ∈ args, Normal overloads rules a)
    (again : ∀ l, normalizeAllWith overloads (withHead rules) (l + fuel) args = pure (args, []))
    (root : firstAtRoot overloads (withHead rules f) (.app f args) = pure none ∧
      ∀ r ∈ withHead rules f, r.Fails overloads (.app f args)) :
    Settled overloads rules (fuel + 1) (.app f args) := by
  refine ⟨sorted, fun s sub r mem => ?_, fun l => ?_⟩
  · rcases Term.mem_subterms_app.1 sub with rfl | ⟨a, arg, sub⟩
    · by_cases head : r.lhs.head? = some f
      · exact root.2 r (by simpa [withHead] using ⟨mem, head⟩)
      · refine (h r mem).fails fun _ _ eq => ?_
        cases eq
        exact head
    · exact normal a arg s sub r mem
  · rw [← Nat.add_assoc, normalizeWith, again, pure_bind]
    simp only [Kernel.apply_of_sorts dom]
    show (firstAtRoot _ _ _ >>= _) = _
    rw [root.1]
    rfl

/-- What a run with fuel returns is settled: by induction on the fuel, for one term and for a list of arguments. -/
theorem normalizeWith_gives : (∀ {t u trace n m}, t.Sorted true [] →
      Gives (normalizeWith overloads (withHead rules) fuel t) n (u, trace) m →
      u.sort = t.sort ∧ Settled overloads rules fuel u) ∧
    ∀ {ts us trace n m}, (∀ t ∈ ts, t.Sorted true []) →
      Gives (normalizeAllWith overloads (withHead rules) fuel ts) n (us, trace) m →
      us.map Term.sort = ts.map Term.sort ∧ (∀ u ∈ us, u.Sorted true [] ∧ Normal overloads rules u) ∧
        ∀ l, normalizeAllWith overloads (withHead rules) (l + fuel) us = pure (us, []) := by
  have empty (l : Nat) : normalizeAllWith overloads (withHead rules) l [] = pure ([], []) := by rw [normalizeAllWith]
  induction fuel with
  | zero =>
    refine ⟨fun _ ok => by simp [normalizeWith] at ok, fun {ts us trace n m} sorted ok => ?_⟩
    cases ts with
    | nil =>
      cases ok
      exact ⟨rfl, by simp, fun _ => empty _⟩
    | cons => simp [normalizeAllWith] at ok
  | succ fuel ih =>
    refine ⟨fun {t u trace n m} sorted ok => ?_, fun {ts us trace n m} sorted ok => ?_⟩
    · cases t with
      | var => cases sorted.choose_spec
      | bind =>
        cases ok
        exact ⟨rfl, settled_bind h sorted⟩
      | app f =>
        obtain ⟨proper, places, sorted⟩ := sorted_app.1 sorted
        obtain ⟨⟨args', _⟩, k, inner, ok⟩ := bind_iff.1 ok
        obtain ⟨sorts, parts, again⟩ := ih.2 sorted inner
        obtain ⟨t, k, applied, ok⟩ := bind_iff.1 ok
        have places : args'.map Term.sort = Term.placesOf f args'.length := by
          have len := congrArg List.length sorts
          rw [List.length_map, List.length_map] at len
          rw [sorts, places, len]
        obtain ⟨dom, rfl⟩ := Kernel.apply_of_places places (Gives.ofChecked_fresh.1 applied).1
        have sorted := sorted_app.2 ⟨proper, places, fun a mem => (parts a mem).1⟩
        have tried : ∀ r ∈ withHead rules f, r.FirstOrder := fun r mem => h r (List.mem_of_mem_filter mem)
        rcases firstAtRoot_cases tried sorted with root | ⟨x, hit, good, sort⟩ | ⟨e, err⟩
        · rw [root.1] at ok
          cases ok
          exact ⟨rfl, settled_app h sorted dom (fun a mem => (parts a mem).2) again root⟩
        · rw [hit, pure_bind] at ok
          obtain ⟨⟨w, _⟩, _, inner, ok⟩ := bind_iff.1 ok
          cases ok
          obtain ⟨sort', settled⟩ := ih.1 good inner
          exact ⟨sort'.trans sort, { settled with again := fun l => Nat.succ_add_eq_add_succ l fuel ▸ settled.again (l + 1) }⟩
        · rw [err] at ok
          cases ok
    · cases ts with
      | nil =>
        cases ok
        exact ⟨rfl, by simp, fun _ => empty _⟩
      | cons =>
        obtain ⟨first, rest⟩ := forall_mem_cons.1 sorted
        obtain ⟨⟨u, _⟩, k, one, ok⟩ := bind_iff.1 ok
        obtain ⟨⟨us, _⟩, k', others, ok⟩ := bind_iff.1 ok
        cases ok
        obtain ⟨sort, settled⟩ := ih.1 first one
        obtain ⟨sorts, parts, again⟩ := ih.2 rest others
        refine ⟨by simp [sort, sorts], forall_mem_cons.2 ⟨⟨settled.sorted, settled.normal⟩, parts⟩, fun l => ?_⟩
        rw [← Nat.add_assoc, normalizeAllWith, settled.again, again]
        rfl

omit h

/-- What rewriting returns under any limit is a normal form: no rule matches anywhere in it, and rewriting it again under that
limit or a higher one takes no step. -/
theorem normalize_normal (firstOrder : ∀ r ∈ rules, r.FirstOrder) (sorted : t.Sorted true [])
    (done : Gives (normalizeWithin limit rules t overloads) n (u, trace) m) :
    Normal overloads rules u ∧ ∀ more, normalizeWithin (more + limit) rules u overloads = pure (u, []) := by
  have apps : rules.all (·.lhs.isApp) = true := List.all_eq_true.2 fun r mem => (firstOrder r mem).rigid.isApp
  have within (k : Nat) (t : Term) : normalizeWithin k rules t overloads = normalizeWith overloads (withHead rules) k t := by
    rw [normalizeWithin, apps]
    rfl
  obtain ⟨-, settled⟩ := (normalizeWith_gives firstOrder).1 sorted (within limit t ▸ done)
  exact ⟨settled.normal, fun more => within _ u ▸ settled.again more⟩

namespace Sample
open Term.Sample (next number)

/-- Of two steps in a row one is left out. -/
def shorten : Rule := { vars := [number "x"], lhs := next (next (number "x")), rhs := next (number "x") }

theorem shorten_normal : ∃ trace,
    Gives (normalizeWithin 9 [shorten] (next (next (next (number "z"))))) 0 (next (number "z"), trace) 0 ∧
    Normal (fun _ => false) [shorten] (next (number "z")) := by
  have var (name : String) : (number name).Sorted true [] := Term.sorted_const rfl
  have sorted {a : Term} (h : a.Sorted true []) (int : a.sort = .int) : (next a).Sorted true [] :=
    sorted_app.2 ⟨Symbol.proper_of_isFree rfl, by simp [int]; rfl, by simpa using h⟩
  have rigid {a : Term} (h : a.Rigid [number "x"]) : (next a).Rigid [number "x"] :=
    .app (fun h => absurd h (by decide)) (by simpa using h)
  have done : ∃ trace, Gives (normalizeWithin 9 [shorten] (next (next (next (number "z"))))) 0 (next (number "z"), trace) 0 :=
    ⟨_, rfl⟩
  refine done.imp fun _ done => ⟨done, (normalize_normal (fun r mem => ?_)
    (sorted (sorted (sorted (var "z") rfl) rfl) rfl) done).1⟩
  cases List.mem_singleton.1 mem
  exact ⟨by simpa [shorten] using (var "x").closed, by decide, rigid (rigid (.app (by decide) (by simp))), rfl, sorted (var "x") rfl⟩

end Sample
end Rewrite
end SortedLogic

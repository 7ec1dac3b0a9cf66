import SortedLogic.Proofs.Patterns

/-!
# What pattern matching means

Where every variable of a pattern has the value of the term that a match found for it, the pattern has the value of the term
that was matched (`pmatch_gives`). The surplus of the longer of two argument lists is never looked at, so all this is about
terms that apply each symbol to one number of arguments (`Term.AtArity`).
-/

namespace SortedLogic
open Substitution
open SortedLogic.Frame
open List hiding range
open Term hiding isOp
open SortedLogic.Symbol (isOp range)
universe u
open Gives
variable {u body t g a old pattern target tbody : Term} {f c : Symbol}
  {args vs is opened targs ts ws : List Term} {k : Binder} {vars wars : Vars} {n m n' d i : Nat}
  {cs ds : List Symbol} {ar : Symbol → Nat} {U : Type u} {q : Term × Term} {σ : Substitution}
  {r : Option Substitution} {overloads : Srt → Bool}

namespace Term

/-! ## Numbers of arguments -/

/-- Every symbol stands before a number of arguments that `ok` allows. -/
def Uses (ok : Symbol → Nat → Prop) (t : Term) : Prop := ∀ f args, .app f args ∈ t.subterms true → ok f args.length

variable {ok : Symbol → Nat → Prop}

theorem uses_app : (app f args).Uses ok ↔ ok f args.length ∧ ∀ a ∈ args, a.Uses ok := by
  constructor
  · intro uses
    exact ⟨uses f args (self_mem_subterms _ _), fun a mem g bs sub => uses g bs (mem_subterms_arg mem sub)⟩
  rintro ⟨here, below⟩ g bs sub
  rcases mem_subterms_app.1 sub with eq | ⟨a, mem, sub⟩
  · cases eq
    exact here
  · exact below a mem g bs sub

theorem uses_bind : (bind k vars body).Uses ok ↔ body.Uses ok := by simp [Uses, subterms]

theorem Uses.var (ok : Symbol → Nat → Prop) (i : Nat) (s : Srt) : (var i s).Uses ok := by simp [Uses, subterms]

theorem Traverses.uses {h : Nat → Term → Option Term} {g : Nat → Term → Term} (tr : Traverses h g)
    (new : ∀ {d t u}, h d t = some u → u.Uses ok) (d : Nat) : t.Uses ok → (g d t).Uses ok := by
  refine tr.relates (M := fun _ t u => t.Uses ok → u.Uses ok) (fun found _ => new found) (fun _ uses => uses) ?_
    (fun ih uses => uses_bind.2 (ih (uses_bind.1 uses))) t d
  intro d f args _ ih uses
  obtain ⟨here, below⟩ := uses_app.1 uses
  exact uses_app.2 ⟨by simpa using here, forall_mem_map.2 fun a mem => ih a mem (below a mem)⟩

theorem Uses.lift (n : Nat) {c : Nat} (uses : t.Uses ok) : (t.lift n c).Uses ok := by
  refine (traverses_lift n).uses (fun hit => ?_) c uses
  obtain ⟨i, s, -, -, rfl⟩ := lifted_eq_some hit
  exact .var ok _ _

theorem Uses.instantiateAt (terms : ∀ u ∈ ts, u.Uses ok) (uses : t.Uses ok) : (t.instantiateAt ts d).Uses ok := by
  refine (traverses_instantiateAt ts).uses (fun hit => ?_) d uses
  obtain ⟨i, s, v, -, -, at', rfl⟩ := placed_eq_some hit
  exact (terms v (mem_of_getElem? at')).lift _

theorem Uses.abstractAt {pairs : List (Term × Nat)} (uses : t.Uses ok) : (t.abstractAt pairs d).Uses ok := by
  refine (traverses_abstractAt pairs).uses (fun hit => ?_) d uses
  obtain ⟨p, -, rfl⟩ := Option.map_eq_some_iff.1 hit
  exact .var ok _ _

theorem Uses.openWith (consts : ∀ c ∈ cs, ok c 0) (uses : body.Uses ok) : (openWith (cs.map (app · [])) body).Uses ok := by
  refine uses.instantiateAt fun u mem => ?_
  obtain ⟨c, mem', rfl⟩ := mem_map.1 (mem_reverse.1 mem)
  exact uses_app.2 ⟨consts c mem', by simp⟩

theorem Uses.of_subterm (uses : u.Uses ok) (sub : t ∈ u.subterms false) : t.Uses ok :=
  fun f args mem => uses f args (subterms_trans mem (subterms_of_false sub))

abbrev AtArity (ar : Symbol → Nat) (t : Term) : Prop := t.Uses fun f n => n = ar f

/-! ## Equality up to the names of bound variables -/

variable {b : Term}

theorem alphaEq_var {s : Srt} (eq : alphaEq (var i s) b = .ok true) : b = .var i s := by
  cases b with
  | var =>
    simp only [alphaEq, Except.ok.injEq, decide_eq_true_eq] at eq
    rw [eq.1, eq.2]
  | app | bind => simp [alphaEq] at eq

theorem alphaEq_app (eq : alphaEq (app f args) b = .ok true) : ∃ args', b = .app f args' ∧ alphaEqs args args' = .ok true := by
  cases b with
  | app g args' =>
    rw [alphaEq] at eq
    by_cases heads : f = g
    · rw [if_pos heads] at eq
      exact ⟨args', by rw [heads], eq⟩
    · rw [if_neg heads] at eq
      cases eq
  | var | bind => simp [alphaEq] at eq

theorem alphaEq_bind (eq : alphaEq (bind k vars a) b = .ok true) :
    ∃ wars body, b = .bind k wars body ∧ vars.length = wars.length ∧ alphaEq a body = .ok true := by
  cases b with
  | bind l wars body =>
    rw [alphaEq] at eq
    by_cases shape : k = l ∧ vars.length = wars.length
    · rw [if_pos shape] at eq
      exact ⟨wars, body, by rw [shape.1], shape.2, eq⟩
    · rw [if_neg shape] at eq
      cases eq
  | var | app => simp [alphaEq] at eq

theorem alphaEqs_forall₂ : ∀ {as bs : List Term}, as.length = bs.length → alphaEqs as bs = .ok true →
    List.Forall₂ (fun a b => alphaEq a b = .ok true) as bs
  | [], [], _, _ => .nil
  | a :: as, b :: bs, len, eq => by
    obtain ⟨here, first, rest⟩ := Checked.bind_eq_ok.1 eq
    cases here with
    | true => exact .cons first (alphaEqs_forall₂ (by simpa using len) rest)
    | false => cases rest

theorem alphaEq_args (eq : alphaEq (app f args) b = .ok true) (exactA : (app f args).AtArity ar) (exactB : b.AtArity ar) :
    ∃ args', b = .app f args' ∧ List.Forall₂ (fun a b => alphaEq a b = .ok true) args args' := by
  obtain ⟨args', rfl, each⟩ := alphaEq_app eq
  refine ⟨args', rfl, alphaEqs_forall₂ ?_ each⟩
  rw [(uses_app.1 exactA).1, (uses_app.1 exactB).1]

theorem alphaEq_loose : ∀ {b : Term} {Γ Δ : List (Binder × Srt)} {i : Nat}, alphaEq a b = .ok true →
    a.AtArity ar → b.AtArity ar → a.Sorted true Γ → b.Sorted true Δ → a.Loose i → (Γ.map (·.2))[i]? = (Δ.map (·.2))[i]? := by
  induction a with
  | var =>
    rintro b Γ Δ i eq - - ⟨k, hit⟩ sortedB rfl
    obtain rfl := alphaEq_var eq
    obtain ⟨l, hit'⟩ := sortedB
    simp [hit, hit']
  | app _ _ ih =>
    intro b Γ Δ i eq exactA exactB sortedA sortedB loose
    obtain ⟨args', rfl, each⟩ := alphaEq_args eq exactA exactB
    obtain ⟨a, mem, loose⟩ := loose_app.1 loose
    obtain ⟨b, mem', eq⟩ := Forall₂.exists_of_mem_left each mem
    exact ih a mem eq ((uses_app.1 exactA).2 a mem) ((uses_app.1 exactB).2 b mem')
      ((sorted_app.1 sortedA).2.2 a mem) ((sorted_app.1 sortedB).2.2 b mem') loose
  | bind _ _ _ ih =>
    intro b Γ Δ i eq exactA exactB sortedA sortedB loose
    obtain ⟨wars, body', rfl, len, eq⟩ := alphaEq_bind eq
    have hit := ih eq (uses_bind.1 exactA) (uses_bind.1 exactB) sortedA.1 sortedB.1 loose
    rw [map_append, map_append, getElem?_append_right (by simp), getElem?_append_right (by simp [len])] at hit
    simpa [len] using hit

end Term

namespace Frame
variable {F : Frame U}

theorem Fits.exists_refit {us : List U} {ss : List Srt} (fits : F.Fits us ss) : ∀ {rs : List Srt}, rs.length = ss.length →
      ∃ vs, F.Fits vs rs ∧ ∀ i : Nat, rs[i]? = ss[i]? → vs[i]? = us[i]? := by
  induction fits with
  | nil =>
    intro rs len
    obtain rfl := length_eq_zero_iff.1 len
    exact ⟨[], .nil, fun _ _ => rfl⟩
  | @cons u s _ _ mem _ ih =>
    intro rs len
    obtain ⟨r, rs, rfl⟩ := exists_cons_of_length_eq_add_one len
    obtain ⟨vs, fits, kept⟩ := ih (by simpa using len)
    obtain ⟨v, mem', keep⟩ : ∃ v ∈ F.carrier r, r = s → v = u := by
      by_cases h : u ∈ F.carrier r
      · exact ⟨u, h, fun _ => rfl⟩
      · obtain ⟨v, mem'⟩ := F.nonempty r
        exact ⟨v, mem', fun e => absurd (e ▸ mem) h⟩
    refine ⟨v :: vs, .cons mem' fits, fun i eq => ?_⟩
    cases i with
    | zero => exact congrArg some (keep (by simpa using eq))
    | succ i => simpa using kept i (by simpa using eq)

end Frame

theorem Term.Sorted.body_bool {Γ : List (Binder × Srt)}
    (sorted : (Term.bind k vars body).Sorted true Γ) (quantifier : k ≠ .lambda) : body.sort = .bool := by
  rcases sorted.2 with h | h | ⟨h, -⟩
  · exact absurd h quantifier
  · exact h
  · cases h

namespace Frame
variable {F : Frame U}

theorem Fits.exists_partner {us : List U} (fits : F.Fits us (vars.map (·.2)))
    (len : vars.length = wars.length) : ∃ vs, F.Fits vs (wars.map (·.2)) ∧
      ∀ i : Nat, (vars.map (·.2)).reverse[i]? = (wars.map (·.2)).reverse[i]? → us.reverse[i]? = vs.reverse[i]? := by
  have count : (wars.map (·.2)).reverse.length = (vars.map (·.2)).reverse.length := by simp [len]
  obtain ⟨vs, fits', kept⟩ := fits.reverse.exists_refit count
  refine ⟨vs.reverse, by simpa using fits'.reverse, fun i eq => ?_⟩
  rw [reverse_reverse, kept i eq.symm]

theorem eval_alphaEq : ∀ {b : Term} {Γ Δ : List (Binder × Srt)} {ρ σ : List U},
    Term.alphaEq a b = .ok true → a.AtArity ar → b.AtArity ar → a.Sorted true Γ → b.Sorted true Δ → a.sort = b.sort →
    (∀ i, a.Loose i → ρ.getD i F.yes = σ.getD i F.yes) → F.eval ρ a = F.eval σ b := by
  induction a with
  | var i =>
    intro b Γ Δ ρ σ eq _ _ _ _ _ agree
    obtain rfl := alphaEq_var eq
    simpa only [eval] using agree i rfl
  | app _ args ih =>
    intro b Γ Δ ρ σ eq exactA exactB sortedA sortedB _ agree
    obtain ⟨args', rfl, each⟩ := alphaEq_args eq exactA exactB
    obtain ⟨-, placesA, sortedA⟩ := sorted_app.1 sortedA
    obtain ⟨-, placesB, sortedB⟩ := sorted_app.1 sortedB
    have sorts : args.map sort = args'.map sort := by rw [placesA, placesB, each.length_eq]
    rw [eval_app, eval_app]
    -- The arguments are compared place by place, where their sorts are those of the places.
    refine congrArg _ (map_eq_map_iff.2 ⟨each.length_eq, fun e mem => ?_⟩)
    obtain ⟨left, right⟩ := of_mem_zip mem
    exact ih _ left ((List.forall₂_iff_zip.1 each).2 mem) ((uses_app.1 exactA).2 _ left)
      ((uses_app.1 exactB).2 _ right) (sortedA _ left) (sortedB _ right) ((map_eq_map_iff.1 sorts).2 e mem)
      fun i loose => agree i (loose_app.2 ⟨_, left, loose⟩)
  | bind k vars body ih =>
    intro b Γ Δ ρ σ eq exactA exactB sortedA sortedB sorts agree
    obtain ⟨wars, body', rfl, len, eq⟩ := alphaEq_bind eq
    have bodySorts : body.sort = body'.sort := by
      by_cases quantifier : k = .lambda
      · subst quantifier
        exact (Srt.array.inj sorts).2
      · rw [sortedA.body_bool quantifier, sortedB.body_bool quantifier]
    have bodies : ∀ us vs, F.Fits us (vars.map (·.2)) → F.Fits vs (wars.map (·.2)) →
        (∀ i : Nat, (vars.map (·.2)).reverse[i]? = (wars.map (·.2)).reverse[i]? → us.reverse[i]? = vs.reverse[i]?) →
        F.eval (us.reverse ++ ρ) body = F.eval (vs.reverse ++ σ) body' := by
      intro us vs fits fits' partner
      have count : us.length = vars.length := by simpa using fits.length_eq
      have count' : vs.length = vars.length := by simpa [len] using fits'.length_eq
      refine ih eq (uses_bind.1 exactA) (uses_bind.1 exactB) sortedA.1 sortedB.1 bodySorts fun i loose => ?_
      by_cases inner : i < vars.length
      · have sortsAt := alphaEq_loose eq (uses_bind.1 exactA) (uses_bind.1 exactB) sortedA.1 sortedB.1 loose
        rw [map_append, map_append, getElem?_append_left (by simpa using inner),
          getElem?_append_left (by simpa [← len] using inner)] at sortsAt
        have := partner i (by simpa [binding, Function.comp_def] using sortsAt)
        rw [getD, getD, getElem?_append_left (by simp; omega), getElem?_append_left (by simp; omega), this]
      · have := agree (i - vars.length) (by rw [Term.Loose, Nat.sub_add_cancel (by omega)]; exact loose)
        rw [getD, getD, getElem?_append_right (by simp; omega), getElem?_append_right (by simp; omega)]
        simpa [getD, count, count'] using this
    cases k with
    | «forall» =>
      simp only [eval]
      congr 1
      refine propext ⟨fun all vs fits => ?_, fun all us fits => ?_⟩
      · obtain ⟨us, fits', partner⟩ := fits.exists_partner len.symm
        rw [← bodies us vs fits' fits fun i h => (partner i h.symm).symm]
        exact all us fits'
      · obtain ⟨vs, fits', partner⟩ := fits.exists_partner len
        rw [bodies us vs fits fits' partner]
        exact all vs fits'
    | «exists» =>
      simp only [eval]
      congr 1
      refine propext ⟨?_, ?_⟩
      · rintro ⟨us, fits, here⟩
        obtain ⟨vs, fits', partner⟩ := fits.exists_partner len
        exact ⟨vs, fits', bodies us vs fits fits' partner ▸ here⟩
      · rintro ⟨vs, fits, here⟩
        obtain ⟨us, fits', partner⟩ := fits.exists_partner len.symm
        exact ⟨us, fits', (bodies us vs fits' fits fun i h => (partner i h.symm).symm).trans here⟩
    | lambda =>
      obtain ⟨domains, -⟩ := Srt.array.inj sorts
      simp only [eval, bodySorts, ← domains]
      exact (Alike.refl F).lam fun us fits => bodies us us fits (domains ▸ fits) fun _ _ => rfl

end Frame

/-- Conjunction, disjunction, sums and products take any number of arguments; all others as many as their signature has. -/
def Arities (ar : Symbol → Nat) : Prop :=
  ∀ f : Symbol, (∀ name ∈ ["and", "or", "+", "*"], f.isOp name = false) → ar f = f.arity

theorem Arities.drawn (arities : Arities ar) (drawn : c.Drawn n m) : ar c = 0 := by
  obtain ⟨hint, k, s, -, -, rfl⟩ := drawn
  exact arities _ (by simp [Symbol.supply, isOp])

theorem Term.lambda_eq_ok : t.lambda vs = .ok g ↔
    (vs ≠ [] ∧ ∀ v ∈ vs, v.isApp = true) ∧ g = .bind .lambda (vs.filterMap Term.bindingName?) (abstract vs t) := by
  have err : (vs.isEmpty || !vs.all isApp) = true ↔ ¬ (vs ≠ [] ∧ ∀ v ∈ vs, v.isApp = true) := by
    rw [Classical.not_and_iff_not_or_not]
    simp
  rw [Term.lambda, ← ite_not, Checked.ite_eq_ok, err, not_not]

theorem Term.Legal.lambda (legal : t.Legal true n) (ok : t.lambda vs = .ok g) :
    g.Legal true n ∧ g.sort = .array (vs.map sort) t.sort := by
  obtain ⟨⟨-, apps⟩, rfl⟩ := lambda_eq_ok.1 ok
  refine ⟨⟨⟨by simpa using legal.sorted.abstract_apps (.inl rfl) apps, .inl rfl⟩, ?_⟩, ?_⟩
  · exact .of_mentions [] (fun c _ mem => .inl (mentions_abstractAt mem)) legal.before (by simp)
  · simp only [sort, sorts_bindingName apps, abstract, sort_abstractAt]

theorem Interpretation.select_lambda (I : Interpretation U) (ok : t.lambda vs = .ok g)
    (sorted : t.Sorted true []) (keys : ∀ v ∈ vs, v.Sorted true []) :
    I.fn (.select (vs.map sort) t.sort) (I.eval [] g :: vs.map (I.eval [])) = I.eval [] t := by
  obtain ⟨⟨-, apps⟩, rfl⟩ := lambda_eq_ok.1 ok
  have inner : (abstract vs t).Sorted true (binding .lambda (vs.filterMap Term.bindingName?) ++ []) := by
    simpa using sorted.abstract_apps (.inl rfl) apps
  obtain ⟨a, shows⟩ := I.comprehension inner .nil
  have fits := I.fits_eval keys
  rw [sorts_bindingName apps, abstract, sort_abstractAt] at shows
  simp only [eval, sorts_bindingName apps, abstract, sort_abstractAt]
  rw [I.select_lam ⟨a, shows⟩ fits, append_nil]
  exact eval_abstract_terms sorted.closed fun v mem => (keys v mem).closed

theorem Frame.eval_bind_names {F : Frame U} {ρ : List U} (sorts : vars.map (·.2) = wars.map (·.2)) :
    F.eval ρ (.bind k vars body) = F.eval ρ (.bind k wars body) := by
  cases k <;> simp only [eval, sorts]

namespace Matching

/-! ## The work list -/

theorem avoidsAll_eq_true : avoidsAll vs ts = true ↔ ∀ t ∈ ts, avoids vs t = true := by
  induction ts with
  | nil => simp [avoidsAll]
  | cons _ _ ih => simp [avoidsAll, ih]

theorem not_mentions_of_avoids (const : ar c = 0) (mem' : .app c [] ∈ vs) :
    t.AtArity ar → avoids vs t = true → ¬ t.Mentions c := by
  induction t with
  | var => exact fun _ _ h => h
  | app _ _ ih =>
    intro exact' clear mentioned
    obtain ⟨here, below⟩ := uses_app.1 exact'
    rw [avoids, Bool.and_eq_true, avoidsAll_eq_true] at clear
    rcases mentions_app.1 mentioned with rfl | ⟨a, mem, mentioned⟩
    · obtain rfl := length_eq_zero_iff.1 (here.trans const)
      simp [mem'] at clear
    · exact ih a mem (below a mem) (clear.2 a mem) mentioned
  | bind _ _ _ ih =>
    intro exact' clear
    rw [avoids, Bool.and_eq_true] at clear
    exact ih (uses_bind.1 exact') clear.2

/-- A pattern and a term that can be compared: closed, of one sort, and made before the supply came to `n`. -/
structure Ready (ar : Symbol → Nat) (n : Nat) (q : Term × Term) : Prop where
  pattern : q.1.Legal true n
  term : q.2.Legal true n
  sort : q.1.sort = q.2.sort
  arity : q.1.AtArity ar ∧ q.2.AtArity ar

/-- A term that was found for one of the variables `cs`. It mentions neither these nor what stands for bound
variables. -/
structure Found (ar : Symbol → Nat) (cs : List Symbol) (n : Nat) (opened : List Term) (q : Term × Term) : Prop where
  key : ∃ c ∈ cs, q.1 = .app c []
  sort : q.1.sort = q.2.sort
  legal : q.2.Legal true n
  arity : q.2.AtArity ar
  apart : q.2.Avoids fun f => f ∈ cs ∨ .app f [] ∈ opened

/-- What holds of a problem with the variables `cs`, which were drawn before the supply came to `m`. -/
structure Problem.Legal (ar : Symbol → Nat) (cs : List Symbol) (m n : Nat) (p : Problem) : Prop where
  todo : ∀ q ∈ p.todo, Ready ar n q ∧ q.2.Avoids (· ∈ cs)
  found : ∀ q ∈ p.found, Found ar cs n p.opened q
  keys : (p.found.map Prod.fst).Nodup
  opened : ∀ v ∈ p.opened, ∃ c : Symbol, v = .app c [] ∧ c.Drawn m n

theorem Ready.mono (ready : Ready ar n q) (le : n ≤ n') : Ready ar n' q :=
  { ready with pattern := ready.pattern.mono le, term := ready.term.mono le }

theorem Found.open (hit : Found ar cs n opened q) (le : n ≤ n') (drawn : ∀ d ∈ ds, d.Drawn n n') :
    Found ar cs n' (opened ++ ds.map (.app · [])) q where
  key := hit.key
  sort := hit.sort
  legal := hit.legal.mono le
  arity := hit.arity
  apart f mentioned := by
    rintro (variable' | mem')
    · exact hit.apart f mentioned (.inl variable')
    rcases mem_append.1 mem' with mem' | mem'
    · exact hit.apart f mentioned (.inr mem')
    · obtain ⟨d, mem, eq⟩ := mem_map.1 mem'
      cases eq
      exact hit.legal.before.not_drawn mentioned (drawn _ mem)

def Satisfies {U : Type u} (I : Interpretation U) (σ : List (Term × Term)) : Prop :=
  ∀ q ∈ σ, I.eval [] q.1 = I.eval [] q.2

/-- What one step does: the problem it leaves says that the pattern has the value of the term. -/
structure Advances (ar : Symbol → Nat) (cs : List Symbol) (m n n' : Nat) (pattern t : Term) (p p' : Problem) : Prop where
  le : n ≤ n'
  legal : p'.Legal ar cs m n'
  found : ∀ q ∈ p.found, q ∈ p'.found
  opened : ∀ v ∈ p.opened, v ∈ p'.opened
  todo : ∀ q ∈ p.todo, q ∈ p'.todo
  eval : ∀ {U : Type u} {σ : Substitution} {N : Nat}, (∀ q ∈ p'.found, q ∈ σ) → (∀ q ∈ σ, Found ar cs N p'.opened q) →
    (∀ J : Interpretation U, Satisfies J σ → Satisfies J p'.todo) →
    ∀ I : Interpretation U, Satisfies I σ → I.eval [] pattern = I.eval [] t

section
variable {p p' : Problem}

theorem assign_gives (arities : Arities ar) (legal : p.Legal ar cs m n)
    (ready : Ready ar n (pattern, t)) (apart : t.Avoids (· ∈ cs)) (key : ∃ c ∈ cs, pattern = .app c [])
    (ok : assign overloads pattern t p = .ok (some p')) : Advances.{u} ar cs m n n pattern t p p' := by
  unfold assign at ok
  cases known : p.found.get? pattern with
  | some =>
    simp only [known] at ok
    split at ok
    · cases ok
    obtain ⟨here, eq, ok⟩ := Checked.bind_eq_ok.1 ok
    cases here with
    | false => cases ok
    | true =>
      cases ok
      have before := mem_of_get? known
      refine ⟨Nat.le_refl n, legal, fun _ h => h, fun _ h => h, fun _ h => h, fun later _ _ I holds => ?_⟩
      have hit := legal.found _ before
      rw [holds _ (later _ before)]
      exact eval_alphaEq eq hit.arity ready.arity.2 hit.legal.sorted ready.term.sorted
        (hit.sort.symm.trans ready.sort) fun i loose => absurd loose (hit.legal.sorted.closed i)
  | none =>
    rw [known] at ok
    by_cases clear : avoids p.opened t = true
    · rw [if_pos clear] at ok
      cases ok
      refine ⟨Nat.le_refl n, ⟨legal.todo, fun q mem => ?_, ?_, legal.opened⟩, fun q h => mem_append_left _ h,
        fun _ h => h, fun _ h => h, fun later _ _ I holds => holds (pattern, t) (later _ (by simp))⟩
      · rcases mem_append.1 mem with mem | mem
        · exact legal.found q mem
        obtain rfl := mem_singleton.1 mem
        refine ⟨key, ready.sort, ready.term, ready.arity.2, fun f mentioned => ?_⟩
        rintro (variable' | inside)
        · exact apart f mentioned variable'
        · obtain ⟨c, eq, drawn⟩ := legal.opened _ inside
          cases eq
          exact not_mentions_of_avoids (arities.drawn drawn) inside ready.arity.2 clear mentioned
      · rw [map_append, nodup_append]
        refine ⟨legal.keys, by simp, fun x mem y mem' => ?_⟩
        obtain rfl : y = pattern := by simpa using mem'
        rintro rfl
        exact get?_eq_none.1 known mem
    · rw [if_neg clear] at ok
      cases ok

theorem advances_select {F : Symbol} (arities : Arities ar) (op : f.isOp "select" = true)
    (legal : p.Legal ar cs m n) (ready : Ready ar n (.app f (.app F [] :: is), t)) (apart : t.Avoids (· ∈ cs))
    (ok : t.lambda is = .ok g) :
    Advances.{u} ar cs m n n (.app f (.app F [] :: is)) t p { p with todo := (.app F [], g) :: p.todo } := by
  obtain ⟨proper, places, sorted⟩ := sorted_app.1 ready.pattern.sorted
  obtain ⟨ds, r, rfl⟩ := proper.eq_select op
  have count : (.app F [] :: is).length = (Symbol.select ds r).arity :=
    (uses_app.1 ready.arity.1).1.trans (arities _ (by simp [Symbol.select, Symbol.builtin, isOp]))
  rw [Term.placesOf, if_pos count.symm] at places
  obtain ⟨head, tail⟩ := List.cons.inj places
  obtain ⟨legal', sort'⟩ := ready.term.lambda ok
  have sort : r = t.sort := ready.sort
  have keys : ∀ v ∈ is, v.Sorted true [] := fun v mem => sorted v (mem_cons_of_mem _ mem)
  have parts := uses_app.1 ready.arity.1
  have before := (before_app.1 ready.pattern.before).2
  refine ⟨Nat.le_refl n, ⟨fun q mem => ?_, legal.found, legal.keys, legal.opened⟩, fun _ h => h, fun _ h => h,
    fun _ h => mem_cons_of_mem _ h, fun _ _ later I holds => ?_⟩
  · rcases mem_cons.1 mem with rfl | mem
    · have shape := (lambda_eq_ok.1 ok).2
      refine ⟨⟨⟨sorted _ mem_cons_self, before _ mem_cons_self⟩, legal', ?_, parts.2 _ mem_cons_self, ?_⟩, ?_⟩
      · rw [sort', ← sort, tail]
        exact head
      · rw [shape]
        exact uses_bind.2 ready.arity.2.abstractAt
      · rw [shape]
        exact fun h mentioned => apart h (mentions_abstractAt mentioned)
    · exact legal.todo q mem
  · have eq : I.eval [] (.app F []) = I.eval [] g := later I holds (.app F [], g) mem_cons_self
    have read := I.select_lambda ok ready.term.sorted keys
    rw [eval_app, map_cons, eq, ← read, tail, sort]

theorem advances_bind (arities : Arities ar) (drawn : ∀ c ∈ cs, c.Drawn 0 m) (le : m ≤ n)
    (legal : p.Legal ar cs m n) (ready : Ready ar n (.bind k vars body, .bind k wars tbody))
    (apart : (Term.bind k wars tbody).Avoids (· ∈ cs)) (sorts : vars.map (·.2) = wars.map (·.2))
    {hint : String → String} (ok : Gives (Term.freshVars hint vars) n ws n') :
    Advances.{u} ar cs m n n' (.bind k vars body) (.bind k wars tbody) p
      { p with todo := (openWith ws body, openWith ws tbody) :: p.todo, opened := p.opened ++ ws } := by
  obtain ⟨ds, rfl, ranges, nodup, new, le'⟩ := freshConsts_gives (fun v : String × Srt => hint v.1) (·.2) ok
  have zero : ∀ d ∈ ds, 0 = ar d := fun d mem => (arities.drawn (new d mem)).symm
  have other : ∀ d ∈ ds, d ∉ cs := fun d mem mem' => (drawn d mem').not_later le (new d mem)
  have inner : body.Sorted true (binding k vars) := by simpa using ready.pattern.sorted.1
  have inner' : tbody.Sorted true (binding k wars) := by simpa using ready.term.sorted.1
  have opened : (openWith (ds.map (.app · [])) body).Legal true n' := ready.pattern.openWith le' ranges new
  have opened' : (openWith (ds.map (.app · [])) tbody).Legal true n' := ready.term.openWith le' (ranges.trans sorts) new
  have bodySorts : body.sort = tbody.sort := by
    by_cases quantifier : k = .lambda
    · subst quantifier
      exact (Srt.array.inj ready.sort).2
    · rw [ready.pattern.sorted.body_bool quantifier, ready.term.sorted.body_bool quantifier]
  refine ⟨le', ⟨fun q mem => ?_, fun q mem => (legal.found q mem).open le' new, legal.keys, fun v mem => ?_⟩,
    fun _ h => h, fun _ h => mem_append_left _ h, fun _ h => mem_cons_of_mem _ h, fun {U σ N} _ found later I holds => ?_⟩
  · rcases mem_cons.1 mem with rfl | mem
    · refine ⟨⟨opened, opened', ?_, (uses_bind.1 ready.arity.1).openWith zero,
        (uses_bind.1 ready.arity.2).openWith zero⟩, fun f mentioned => ?_⟩
      · exact (sort_openWith inner ranges).trans (bodySorts.trans (sort_openWith inner' (ranges.trans sorts)).symm)
      rcases mentions_instantiateAt mentioned with mentioned | ⟨u, mem, mentioned⟩
      · exact apart f mentioned
      · obtain ⟨d, mem', rfl⟩ := mem_map.1 (mem_reverse.1 mem)
        obtain rfl : d = f := by simpa [mentions_app] using mentioned
        exact other d mem'
    · exact ⟨(legal.todo q mem).1.mono le', (legal.todo q mem).2⟩
  · rcases mem_append.1 mem with mem | mem
    · obtain ⟨c, rfl, drawn⟩ := legal.opened v mem
      exact ⟨c, rfl, drawn.mono (Nat.le_refl m) le'⟩
    · obtain ⟨d, mem', rfl⟩ := mem_map.1 mem
      exact ⟨d, rfl, (new d mem').mono le (Nat.le_refl n')⟩
  · rw [eval_bind_names sorts]
    refine I.eval_bind_congr bodySorts fun us fits => ?_
    -- The new constants get the values of the bound variables; what was found stays as it is.
    have free : ∀ f, f ∈ ds → f.isFree = true := fun d mem => (new d mem).isFree
    have fitting : I.Fits us (ds.map range) := by rw [ranges, sorts]; exact fits
    obtain ⟨J, agree, -, vals⟩ := I.exists_assigned nodup free fitting
    have kept : Satisfies J σ := by
      intro q mem
      obtain ⟨c, variable', key⟩ := (found q mem).key
      rw [← agree.eval free fun f mentioned mem' => (found q mem).apart f mentioned
          (.inr (mem_append_right _ (mem_map_of_mem mem'))), ← holds q mem]
      refine (agree.eval free fun f mentioned mem' => ?_).symm
      rw [key] at mentioned
      obtain rfl : c = f := by simpa [mentions_app] using mentioned
      exact other c mem' variable'
    have eq : J.eval [] _ = J.eval [] _ := later J kept _ mem_cons_self
    rw [eval_openWith inner ranges, eval_openWith inner' (ranges.trans sorts), vals] at eq
    rw [append_nil, agree.eval (t := body) free fun f mentioned mem' => ready.pattern.before.not_drawn mentioned (new f mem'),
      agree.eval (t := tbody) free fun f mentioned mem' => ready.term.before.not_drawn mentioned (new f mem')]
    exact eq

end

section
variable {p p' : Problem}

theorem advances_args (legal : p.Legal ar cs m n) (ready : Ready ar n (.app f args, .app f targs))
    (apart : (Term.app f targs).Avoids (· ∈ cs)) :
    Advances.{u} ar cs m n n (.app f args) (.app f targs) p { p with todo := (args.zip targs).reverse ++ p.todo } := by
  obtain ⟨-, places, sorted⟩ := sorted_app.1 ready.pattern.sorted
  obtain ⟨-, places', sorted'⟩ := sorted_app.1 ready.term.sorted
  obtain ⟨here, below⟩ := uses_app.1 ready.arity.1
  obtain ⟨here', below'⟩ := uses_app.1 ready.arity.2
  have before := (before_app.1 ready.pattern.before).2
  have before' := (before_app.1 ready.term.before).2
  have count : args.length = targs.length := here.trans here'.symm
  have sorts : args.map sort = targs.map sort := by rw [places, places', count]
  refine ⟨Nat.le_refl n, ⟨fun q mem => ?_, legal.found, legal.keys, legal.opened⟩, fun _ h => h, fun _ h => h,
    fun _ h => mem_append_right _ h, fun _ _ later I holds => ?_⟩
  · rcases mem_append.1 mem with mem | mem
    · have mem := mem_reverse.1 mem
      obtain ⟨left, right⟩ := of_mem_zip mem
      exact ⟨⟨⟨sorted _ left, before _ left⟩, ⟨sorted' _ right, before' _ right⟩, (map_eq_map_iff.1 sorts).2 q mem,
        below _ left, below' _ right⟩, (avoids_app.1 apart).2 _ right⟩
    · exact legal.todo q mem
  · have pairwise : ∀ q ∈ args.zip targs, I.eval [] q.1 = I.eval [] q.2 := fun q mem =>
      later I holds q (mem_append_left _ (mem_reverse.2 mem))
    rw [eval_app, eval_app]
    exact congrArg _ (map_eq_map_iff.2 ⟨count, pairwise⟩)

theorem decompose_gives (legal : p.Legal ar cs m n) (ready : Ready ar n (.app f args, t))
    (apart : t.Avoids (· ∈ cs)) (ok : Gives (step.decompose t p f args) n (some p') n') :
    Advances.{u} ar cs m n n' (.app f args) t p p' := by
  cases t with
  | var => simp [step.decompose] at ok
  | bind => simp [step.decompose] at ok
  | app g targs =>
    unfold step.decompose at ok
    by_cases eq : f = g
    · subst eq
      simp only [if_true, bind_iff, ofChecked_fresh, pure_iff] at ok
      obtain ⟨pairs, n₁, ⟨paired, rfl⟩, shape, rfl⟩ := ok
      unfold pairArgs at paired
      by_cases enough : args.length ≤ targs.length
      · rw [if_pos enough] at paired
        cases paired
        cases shape
        exact advances_args legal ready apart
      · rw [if_neg enough] at paired
        cases paired
    · simp [eq] at ok

theorem step_gives (arities : Arities ar) (drawn : ∀ c ∈ cs, c.Drawn 0 m) (le : m ≤ n) (legal : p.Legal ar cs m n)
    (ready : Ready ar n (pattern, t)) (apart : t.Avoids (· ∈ cs))
    (ok : Gives (step overloads (cs.map (.app · [])) pattern t p) n (some p') n') : Advances.{u} ar cs m n n' pattern t p p' := by
  unfold step at ok
  by_cases variable' : (cs.map (.app · [])).contains pattern = true
  · rw [if_pos variable', ofChecked_fresh] at ok
    obtain ⟨ok, rfl⟩ := ok
    obtain ⟨c, mem, rfl⟩ := mem_map.1 (contains_iff_mem.1 variable')
    exact assign_gives arities legal ready apart ⟨c, mem, rfl⟩ ok
  rw [if_neg variable'] at ok
  cases pattern with
  | var => simp at ok
  | app f args =>
    cases args with
    | nil => exact decompose_gives legal ready apart ok
    | cons F =>
      simp only at ok
      by_cases applied : f.isOp "select" = true ∧ (cs.map (.app · [])).contains F = true
      · rw [if_pos applied] at ok
        simp only [bind_iff, ofChecked_fresh, pure_iff] at ok
        obtain ⟨g, n₁, ⟨ok, rfl⟩, shape, rfl⟩ := ok
        cases shape
        obtain ⟨c, -, rfl⟩ := mem_map.1 (contains_iff_mem.1 applied.2)
        exact advances_select arities applied.1 legal ready apart ok
      · rw [if_neg applied] at ok
        exact decompose_gives legal ready apart ok
  | bind k vars =>
    cases t with
    | var => simp at ok
    | app => simp at ok
    | bind l wars =>
      simp only at ok
      by_cases shape : k = l ∧ vars.map (·.2) = wars.map (·.2)
      · rw [if_pos shape] at ok
        obtain ⟨rfl, sorts⟩ := shape
        simp only [Term.openFresh, bind_iff, pure_iff] at ok
        obtain ⟨r, n₁, ⟨ws, n₂, fresh, rfl, rfl⟩, shape, rfl⟩ := ok
        cases shape
        exact advances_bind arities drawn le legal ready apart sorts fresh
      · rw [if_neg shape] at ok
        simp at ok

end

theorem solve_gives (arities : Arities ar) (drawn : ∀ c ∈ cs, c.Drawn 0 m) :
    ∀ {fuel n : Nat} {p : Problem}, m ≤ n → p.Legal ar cs m n →
      Gives (solve overloads (cs.map (.app · [])) fuel p) n (some σ) n' →
      n ≤ n' ∧ (∀ q ∈ p.found, q ∈ σ) ∧ (∀ q ∈ σ, Found ar cs n' p.opened q) ∧ (σ.map Prod.fst).Nodup ∧
        ∀ {U : Type u} (I : Interpretation U), Satisfies I σ → Satisfies I p.todo := by
  have finished {fuel n : Nat} {p : Problem} (legal : p.Legal ar cs m n) (empty : p.todo = [])
      (ok : Gives (solve overloads (cs.map (.app · [])) fuel p) n (some σ) n') : p.found = σ ∧ n = n' := by
    obtain ⟨todo, hit, opened⟩ := p
    cases empty
    simpa [solve] using ok
  intro fuel
  induction fuel with
  | zero =>
    intro n p le legal ok
    cases todo : p.todo with
    | nil =>
      obtain ⟨rfl, rfl⟩ := finished legal todo ok
      exact ⟨le_rfl, fun _ h => h, legal.found, legal.keys, fun _ _ => by simp [Satisfies]⟩
    | cons =>
      obtain ⟨pairs, hit, opened⟩ := p
      cases todo
      simp [solve] at ok
  | succ _ ih =>
    intro n p le legal ok
    cases todo : p.todo with
    | nil =>
      obtain ⟨rfl, rfl⟩ := finished legal todo ok
      exact ⟨le_rfl, fun _ h => h, legal.found, legal.keys, fun _ _ => by simp [Satisfies]⟩
    | cons q rest =>
      obtain ⟨pairs, hit, opened⟩ := p
      cases todo
      rw [solve, bind_iff] at ok
      obtain ⟨p', n₁, stepped, ok⟩ := ok
      cases p' with
      | none => simp at ok
      | some =>
        obtain ⟨ready, apart⟩ := legal.todo q mem_cons_self
        have legal' : Problem.Legal ar cs m n ⟨rest, hit, opened⟩ :=
          { legal with todo := fun q mem => legal.todo q (mem_cons_of_mem _ mem) }
        have adv := step_gives arities drawn le legal' ready apart stepped
        obtain ⟨le', grows, vals, keys, eval⟩ := ih (le.trans adv.le) adv.legal ok
        refine ⟨adv.le.trans le', fun q mem => grows q (adv.found q mem), fun q mem => ?_, keys, fun I holds r mem => ?_⟩
        · have hit := vals q mem
          exact { hit with
            apart := fun f mentioned mem' => hit.apart f mentioned (mem'.imp_right (adv.opened _)) }
        · rcases mem_cons.1 mem with rfl | mem
          · exact adv.eval grows vals eval I holds
          · exact eval I holds r (adv.todo r mem)

end Matching

/-! ## Matching whole terms -/

theorem openFresh_gives {r : List Term × Term} (ok : Gives (Term.bind k vars body).openFresh n r m) : ∃ cs : List Symbol,
      r = (cs.map (.app · []), openWith (cs.map (.app · [])) body) ∧ cs.map range = vars.map (·.2) ∧
      cs.Nodup ∧ (∀ c ∈ cs, c.Drawn n m) ∧ n ≤ m := by
  simp only [Term.openFresh, bind_iff, pure_iff] at ok
  obtain ⟨vs, m', fresh, rfl, rfl⟩ := ok
  obtain ⟨cs, rfl, ranges, nodup, drawn, le⟩ :=
    freshConsts_gives (fun v : String × Srt => Text.stem (Text.upper v.1)) (·.2) fresh
  exact ⟨cs, rfl, ranges, nodup, drawn, le⟩

namespace Matching

theorem step_le {p : Problem} {r : Option Problem} (ok : Gives (step overloads vs pattern t p) n r n') : n ≤ n' := by
  unfold step step.decompose at ok
  repeat' split at ok
  -- only opening binders draws constants
  all_goals first
    | exact (throw_iff.1 ok).elim
    | exact le_of_eq (pure_iff.1 ok).2
    | exact le_of_eq (ofChecked_fresh.1 ok).2
    | simp only [bind_iff, ofChecked_fresh, pure_iff] at ok
      obtain ⟨-, _, ⟨-, rfl⟩, -, rfl⟩ := ok
      exact le_rfl
    | obtain ⟨_, _, opened, last⟩ := bind_iff.1 ok
      obtain ⟨-, -, -, -, -, le⟩ := openFresh_gives opened
      exact (pure_iff.1 last).2 ▸ le

theorem solve_le : ∀ {fuel n : Nat} {p : Problem}, Gives (solve overloads vs fuel p) n r n' → n ≤ n'
  | _, n, ⟨[], hit, opened⟩, ok => by
    rw [solve, pure_iff] at ok
    exact le_of_eq ok.2
  | 0, n, ⟨q :: rest, hit, opened⟩, ok => by
    simp only [solve, pure_iff] at ok
    exact le_of_eq ok.2
  | fuel + 1, n, ⟨q :: rest, hit, opened⟩, ok => by
    rw [solve, bind_iff] at ok
    obtain ⟨p', n₁, stepped, ok⟩ := ok
    refine (step_le stepped).trans ?_
    cases p' with
    | none => exact le_of_eq (pure_iff.1 ok).2
    | some => exact solve_le ok

end Matching

namespace Term

theorem pmatch_le (ok : Gives (pmatch vs pattern t overloads) n r n') : n ≤ n' := by
  unfold pmatch at ok
  split at ok
  · exact Matching.solve_le ok
  · exact le_of_eq (pure_iff.1 ok).2

/-- A match finds terms with which the pattern has the value of the term that was matched. -/
theorem pmatch_gives (arities : Arities ar) (drawn : ∀ c ∈ cs, c.Drawn 0 m) (le : m ≤ n) (legal : pattern.Legal true n)
    (legal' : t.Legal true n) (arity : pattern.AtArity ar ∧ t.AtArity ar) (apart : t.Avoids (· ∈ cs))
    (ok : Gives (pmatch (cs.map (app · [])) pattern t overloads) n (some σ) n') :
    (∀ q ∈ σ, Matching.Found ar cs n' [] q) ∧ (σ.map Prod.fst).Nodup ∧
      ∀ {U : Type u} (I : Interpretation U), Matching.Satisfies I σ → I.eval [] pattern = I.eval [] t := by
  unfold pmatch at ok
  by_cases sort : pattern.sort = t.sort
  · rw [if_pos sort] at ok
    have start : Matching.Problem.Legal ar cs m n ⟨[(pattern, t)], [], []⟩ := by
      refine ⟨fun q mem => ?_, by simp, by simp, by simp⟩
      obtain rfl := mem_singleton.1 mem
      exact ⟨⟨legal, legal', sort, arity⟩, apart⟩
    obtain ⟨-, -, hit, keys, eval⟩ := Matching.solve_gives arities drawn le start ok
    exact ⟨hit, keys, fun I holds => eval I holds (pattern, t) mem_cons_self⟩
  · rw [if_neg sort] at ok
    simp at ok

theorem pmatchAmong_gives : ∀ {fuel n : Nat} {ts : List Term}, (∀ t ∈ ts, t ∈ target.subterms false) →
      Gives (pmatchAmong overloads vs pattern false fuel ts) n (some (old, σ)) n' →
      old ∈ target.subterms false ∧ ∃ n₁, n ≤ n₁ ∧ Gives (pmatch vs pattern old overloads) n₁ (some σ) n'
  | _, n, [], _, ok => by simp [pmatchAmong] at ok
  | 0, n, t :: ts, _, ok => by simp [pmatchAmong] at ok
  | fuel + 1, n, t :: ts, sub, ok => by
    obtain ⟨r, n₁, tried, ok⟩ := bind_iff.1 ok
    have rest : ∀ u ∈ ts, u ∈ target.subterms false := fun u mem => sub u (mem_cons_of_mem _ mem)
    cases r with
    | some =>
      simp only [pure_iff, Option.some.injEq, Prod.mk.injEq] at ok
      obtain ⟨⟨rfl, rfl⟩, rfl⟩ := ok
      exact ⟨sub t mem_cons_self, n, Nat.le_refl n, tried⟩
    | none =>
      have later {us : List Term} (mem' : ∀ u ∈ us, u ∈ target.subterms false)
          (ok : Gives (pmatchAmong overloads vs pattern false fuel us) n₁ (some (old, σ)) n') :
          old ∈ target.subterms false ∧ ∃ n₁, n ≤ n₁ ∧ Gives (pmatch vs pattern old overloads) n₁ (some σ) n' := by
        obtain ⟨sub, n₂, le, matched⟩ := pmatchAmong_gives mem' ok
        exact ⟨sub, n₂, (pmatch_le tried).trans le, matched⟩
      cases t with
      | var => exact later rest ok
      | app =>
        refine later (fun u mem => ?_) ok
        rcases mem_append.1 mem with mem | mem
        · exact subterms_trans (mem_subterms_arg (mem_reverse.1 mem) (self_mem_subterms _ u)) (sub _ mem_cons_self)
        · exact rest u mem
      | bind => exact later rest ok

theorem Legal.of_subterm {strict : Bool} (legal : u.Legal strict n) (sub : t ∈ u.subterms false) : t.Legal strict n := by
  induction u with
  | var i s =>
    obtain rfl : t = .var i s := by simpa [subterms] using sub
    exact legal
  | app _ _ ih =>
    rcases mem_subterms_app.1 sub with rfl | ⟨a, mem, sub⟩
    · exact legal
    · exact ih a mem ⟨(sorted_app.1 legal.sorted).2.2 a mem, (before_app.1 legal.before).2 a mem⟩ sub
  | bind k vars body =>
    obtain rfl : t = .bind k vars body := by simpa [subterms] using sub
    exact legal

end Term

/-- The variables of a pattern can be given the values of the terms found for them; every term then has its value with these
terms in their place. -/
theorem Interpretation.exists_satisfying (I : Interpretation U) (hit : ∀ q ∈ σ, Matching.Found ar cs n [] q)
    (keys : (σ.map Prod.fst).Nodup) (nodup : cs.Nodup) (free : ∀ c ∈ cs, c.isFree = true)
    (all : ∀ c ∈ cs, ∃ u, σ.get? (.app c []) = some u) :
    ∃ J : Interpretation U, I.AgreeOutside (· ∈ cs) J.toFrame ∧ Matching.Satisfies J σ ∧
      ∀ t : Term, I.eval [] (t.replaceAll σ) = J.eval [] t := by
  choose! value given using all
  have mem : ∀ c ∈ cs, (.app c [], value c) ∈ σ := fun c mem' => mem_of_get? (given c mem')
  have fits : I.Fits (cs.map fun c => I.eval [] (value c)) (cs.map range) := by
    refine I.fits_map.2 fun c mem' => ?_
    have sort : c.range = (value c).sort := (hit _ (mem c mem')).sort
    exact sort ▸ I.eval_mem (hit _ (mem c mem')).legal.sorted .nil
  obtain ⟨J, agree, eq, vals⟩ := I.exists_assigned nodup free fits
  have vals : ∀ c ∈ cs, J.eval [] (.app c []) = I.eval [] (value c) := map_inj_left.1 vals
  have unchanged : ∀ q ∈ σ, I.eval [] q.2 = J.eval [] q.2 := fun q mem' =>
    agree.eval free fun f mentioned variable' => (hit q mem').apart f mentioned (.inl variable')
  have satisfied : Matching.Satisfies J σ := by
    intro q mem'
    obtain ⟨c, variable', key⟩ := (hit q mem').key
    have here : σ.get? q.1 = some q.2 := get?_of_mem keys mem'
    rw [key, given c variable', Option.some.injEq] at here
    rw [key, vals c variable', here, unchanged q mem']
  refine ⟨J, agree, satisfied, fun t => ?_⟩
  refine eval_replaceAll_of_agree agree free (fun q mem' => ?_) (fun {t u} here => ?_) fun c variable' => ?_
  · obtain ⟨c, -, key⟩ := (hit q mem').key
    exact ⟨key ▸ closed_app.2 (by simp), (hit q mem').legal.sorted.closed, (hit q mem').sort⟩
  · have mem' := lookupLast_mem here
    exact (unchanged _ mem').trans (satisfied _ mem').symm
  · rw [lookupLast_eq_get? keys, given c variable']
    exact ⟨fun h => absurd h (by simp), eq c⟩

end SortedLogic

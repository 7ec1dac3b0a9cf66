import SortedLogic.Proofs.Matching
import SortedLogic.Proofs.Recursion

/-!
# What unfolding keeps

Where the laws that unfolding notes hold, the unfolded term has the value of the term (`unfold_gives`). A binder is opened with
constants of its own names, which keeps the value as long as no name is met twice on the way (`Term.Hygienic`).
-/

namespace SortedLogic
open SortedLogic.Frame
open Gives
open List
open Term
universe u
variable {laws s s' : List Proof} {vars : Vars} {args : List Term} {cs : List Symbol} {body u : Term}
  {pairs : List (Term × Term)} {k : Binder} {c f : Symbol} {d : Definition} {U : Type u}

/-! ## Noting laws -/

namespace Gives
variable {α : Type}

@[simp] theorem ofChecked_traced {x : Checked α} {a : α} : Gives (liftM x : Traced α) s a s' ↔ x = .ok a ∧ s = s' := by
  show (x, s) = (.ok a, s') ↔ _
  simp

@[simp] theorem note_iff {r : Unit} : Gives (Traced.note laws) s r s' ↔ s' = s ++ laws := by
  show (.ok (), s ++ laws) = (Except.ok r, s') ↔ _
  simp [eq_comm]

theorem of_outcome {x : Traced α} {a : α} (hit : x.outcome = (.ok a, laws)) : Gives x [] a laws := hit

end Gives

/-! ## Names of bound variables -/

namespace Term

/-- The constants of the names under which variables are bound. -/
def named (vars : Vars) : List Symbol := vars.map fun v => .const v.1 v.2

theorem namedVars_eq (vars : Vars) : namedVars vars = (named vars).map (app · []) := by
  rw [named, map_map]
  rfl

theorem named_isFree : ∀ c ∈ named vars, c.isFree = true := by
  intro c mem
  obtain ⟨v, -, rfl⟩ := mem_map.1 mem
  rfl

theorem range_named (vars : Vars) : (named vars).map Symbol.range = vars.map (·.2) := by
  rw [named, map_map]
  rfl

theorem names_named (vars : Vars) : (named vars).map (fun c => (c.name, c.range)) = vars := by
  rw [named, map_map]
  exact map_id vars

theorem named_before (mem : c ∈ named vars) (n : Nat) : (app c []).Before n := by
  obtain ⟨v, -, rfl⟩ := mem_map.1 mem
  exact before_app.2 ⟨fun hint k s _ eq => (by cases congrArg Symbol.role eq), by simp⟩

mutual
/-- No bound variable has the name of a constant that occurs below it, of one of `P`, or of a variable bound further
out. -/
def Hygienic : (Symbol → Prop) → Term → Prop
  | _, .var _ _ => True
  | P, .app _ args => HygienicAll P args
  | P, .bind _ vars body => (named vars).Nodup ∧ (∀ c ∈ named vars, ¬ P c ∧ ¬ body.Mentions c) ∧
      Hygienic (fun f => P f ∨ f ∈ named vars) body

def HygienicAll : (Symbol → Prop) → List Term → Prop
  | _, [] => True
  | P, t :: ts => Hygienic P t ∧ HygienicAll P ts
end

variable {P : Symbol → Prop} {t : Term}

theorem hygienic_app : (app f args).Hygienic P ↔ ∀ a ∈ args, a.Hygienic P := by
  rw [Hygienic]
  induction args with
  | nil => simp [HygienicAll]
  | cons _ _ ih => simp [HygienicAll, ih]

theorem Hygienic.instantiateAt : ∀ {P : Symbol → Prop} {d : Nat}, (∀ c ∈ cs, P c) → t.Hygienic P →
    (t.instantiateAt (cs.map (app · [])) d).Hygienic P := by
  induction t with
  | var =>
    intro P d _ _
    rw [Term.instantiateAt]
    split
    · trivial
    split
    · rename_i u hit
      obtain ⟨c, -, rfl⟩ := mem_map.1 (mem_of_getElem? hit)
      exact hygienic_app.2 (by simp [lifts])
    · trivial
  | app _ _ ih =>
    intro P d taken hygienic
    rw [Term.instantiateAt, instantiatesAt_eq_map, hygienic_app]
    intro a mem
    obtain ⟨b, mem', rfl⟩ := mem_map.1 mem
    exact ih b mem' taken (hygienic_app.1 hygienic b mem')
  | bind _ _ _ ih =>
    intro P d taken hygienic
    obtain ⟨nodup, apart, inner⟩ := hygienic
    refine ⟨nodup, fun c mem => ⟨(apart c mem).1, fun mentioned => ?_⟩, ih (fun c h => .inl (taken c h)) inner⟩
    rcases mentions_instantiateAt mentioned with mentioned | ⟨u, mem', mentioned⟩
    · exact (apart c mem).2 mentioned
    · obtain ⟨d, there, rfl⟩ := mem_map.1 mem'
      obtain rfl : d = c := by simpa [mentions_app] using mentioned
      exact (apart d mem).1 (taken d there)

end Term

/-! ## Definitions -/

/-- The law of a definition of `f` at the constants `cs` says that `f` has the value of the body there. -/
structure Definition.Lawful (n : Nat) (f : Symbol) (cs : List Symbol) (d : Definition) : Prop where
  args : d.args = cs.map (.app · [])
  distinct : cs.Nodup
  consts : ∀ c ∈ cs, c.isFree = true
  domain : cs.map Symbol.range = f.domain
  range : d.body.sort = f.range
  legal : d.body.Legal true n
  explains : ∀ {U : Type u} (I J : Interpretation U), I.Holds d.law.thm → I.AgreeOutside (· ∈ cs) J.toFrame →
    (∀ f u us, I.fn f (u :: us) = J.fn f (u :: us)) → I.fn f (cs.map fun c => J.eval [] (.app c [])) = J.eval [] d.body

namespace Term
variable {ok : Symbol → Nat → Prop} {t : Term}

theorem Uses.replaceAll (ex : Exchange pairs) (new : ∀ p ∈ pairs, p.2.Uses ok) (uses : t.Uses ok) :
    (t.replaceAll pairs).Uses ok := (traverses_replaceAll ex).uses (fun hit => new _ (lookupLast_mem hit)) 0 uses

theorem Legal.replaceAll {n : Nat} (ex : Exchange pairs)
    (new : ∀ p ∈ pairs, p.2.Legal true n) (legal : t.Legal true n) : (t.replaceAll pairs).Legal true n := by
  refine ⟨legal.sorted.replaceAll ex fun p mem => (new p mem).sorted, ?_⟩
  refine .of_mentions (pairs.map Prod.snd) (fun c _ mem' => ?_) legal.before fun u mem => ?_
  · refine (mentions_replaceAll ex mem').imp_right ?_
    rintro ⟨p, mem, mem'⟩
    exact ⟨p.2, mem_map_of_mem mem, mem'⟩
  · obtain ⟨p, mem', rfl⟩ := mem_map.1 mem
    exact (new p mem').before

end Term

namespace Definition.Lawful
variable {n : Nat}

theorem exchange (lawful : Lawful.{u} n f cs d) (sorts : args.map sort = f.domain) (closed : ∀ a ∈ args, a.Closed) :
    Term.Exchange (d.args.zip args) := by
  intro p mem
  rw [lawful.args] at mem
  obtain ⟨key, value⟩ := of_mem_zip mem
  obtain ⟨c, -, eq⟩ := mem_map.1 key
  refine ⟨eq ▸ closed_app.2 (by simp), closed _ value, (map_eq_map_iff.1 ?_).2 p mem⟩
  rw [sorts, ← lawful.domain, map_map]
  rfl

theorem eval_body (lawful : Lawful.{u} n f cs d) (sorts : args.map sort = f.domain)
    (sorted : ∀ a ∈ args, a.Sorted true []) (I : Interpretation U) (holds : I.Holds d.law.thm) :
    I.eval [] (d.body.replaceAll (d.args.zip args)) = I.fn f (args.map (I.eval [])) := by
  have ranges : args.map sort = cs.map Symbol.range := sorts.trans lawful.domain.symm
  have fits : I.Fits (args.map (I.eval [])) (cs.map Symbol.range) := ranges ▸ I.fits_eval sorted
  have len : args.length = cs.length := by simpa using congrArg List.length ranges
  obtain ⟨J, agree, eq, vals⟩ := I.exists_assigned lawful.distinct lawful.consts fits
  rw [eval_replaceAll_of_agree agree lawful.consts
    (lawful.exchange sorts fun a mem => (sorted a mem).closed) (fun {t u} found => ?_) fun c mem => ⟨?_, eq c⟩,
    ← lawful.explains I J holds agree eq, vals]
  · have mem := lookupLast_mem found
    rw [lawful.args] at mem
    exact ((map_eq_map_iff.1 (map_map.trans vals)).2 _ mem).symm
  · have key : .app c [] ∈ (d.args.zip args).map Prod.fst := by
      rw [map_fst_zip (by simp [lawful.args, len]), lawful.args]
      exact mem_map_of_mem mem
    obtain ⟨p, mem', eq⟩ := mem_map.1 key
    exact eq ▸ lookupLast_ne_none mem'

end Definition.Lawful

theorem Kernel.apply_of_places (places : args.map sort = placesOf f args.length) (applied : f.apply args = .ok u) :
    args.map sort = f.domain ∧ u = .app f args := by
  have arity : args.length = f.arity := by
    unfold Symbol.apply at applied
    by_contra wrong
    rw [if_pos wrong] at applied
    cases applied
  have dom : args.map sort = f.domain := by rw [places, placesOf, if_pos arity.symm]
  rw [apply_of_sorts dom] at applied
  cases applied
  exact ⟨dom, rfl⟩

namespace Rewrite

/-! ## One sweep -/

variable {defs : Symbol → Option Definition} {n : Nat} {ok : Symbol → Nat → Prop}

def InLaws (defs : Symbol → Option Definition) (c : Symbol) : Prop := ∃ f d, defs f = some d ∧ d.law.thm.Mentions c

/-- The definitions can be unfolded in terms that use symbols as `ok` says. -/
structure Unfoldable (n : Nat) (ok : Symbol → Nat → Prop) (defs : Symbol → Option Definition) : Prop where
  lawful : ∀ {f d}, defs f = some d → ∃ cs, Definition.Lawful.{u} n f cs d
  bodies : ∀ {f d}, defs f = some d → d.body.Uses ok
  arity : ∀ {f d m}, defs f = some d → ok f m → m = f.arity
  constants : ∀ c : Symbol, c.isFree = true → c.domain = [] → ok c 0

def LawsHold {U : Type u} (defs : Symbol → Option Definition) (s : List Proof) (I : Interpretation U) : Prop :=
  ∀ f d, defs f = some d → d.law ∈ s → I.Holds d.law.thm

/-- What unfolding `t` to `u` keeps; the trace goes from `s` to `s'`. -/
structure Unfolds (defs : Symbol → Option Definition) (n : Nat) (ok : Symbol → Nat → Prop) (t u : Term)
    (s s' : List Proof) : Prop where
  grows : ∀ p ∈ s, p ∈ s'
  legal : u.Legal true n
  uses : u.Uses ok
  sort : u.sort = t.sort
  eval : ∀ {U : Type u} (I : Interpretation U), LawsHold defs s' I → I.eval [] u = I.eval [] t

theorem LawsHold.of_subset {I : Interpretation U} (sub : ∀ p ∈ s, p ∈ s') (hold : LawsHold defs s' I) : LawsHold defs s I :=
  fun f d hit mem => hold f d hit (sub _ mem)

theorem law_mem_lawsAt (ok : lawsAt d args = .ok laws) : d.law ∈ laws := by
  unfold lawsAt at ok
  split at ok
  · obtain ⟨p, -, rest⟩ := Checked.bind_eq_ok.1 ok
    cases rest
    simp
  · cases ok
    simp

theorem unfoldAll_gives {ts : List Term} (each : ∀ t ∈ ts, ∀ {u : Term} {s s' : List Proof}, Gives (unfold defs true t) s u s' →
    Unfolds.{u} defs n ok t u s s') : ∀ {us : List Term} {s s' : List Proof}, Gives (unfoldAll defs true ts) s us s' →
      (∀ p ∈ s, p ∈ s') ∧ (∀ u ∈ us, u.Legal true n ∧ u.Uses ok) ∧ us.map sort = ts.map sort ∧
        ∀ {U : Type u} (I : Interpretation U), LawsHold defs s' I → us.map (I.eval []) = ts.map (I.eval []) := by
  induction ts with
  | nil =>
    intro us s s' done
    rw [unfoldAll] at done
    obtain ⟨rfl, rfl⟩ := done
    simp
  | cons t _ ih =>
    intro us s s' done
    rw [unfoldAll, bind_iff] at done
    obtain ⟨u, s₁, first, done⟩ := done
    obtain ⟨us', s₂, rest, done⟩ := bind_iff.1 done
    cases done
    have head := each t mem_cons_self first
    obtain ⟨grows, good, sorts, eval⟩ := ih (fun t mem => each t (mem_cons_of_mem _ mem)) rest
    refine ⟨fun p mem => grows p (head.grows p mem), fun v mem => ?_, ?_, fun I hold => ?_⟩
    · rcases mem_cons.1 mem with rfl | mem
      · exact ⟨head.legal, head.uses⟩
      · exact good v mem
    · rw [map_cons, map_cons, head.sort, sorts]
    · rw [map_cons, map_cons, head.eval I (hold.of_subset grows), eval I hold]

theorem unfold_app (able : Unfoldable.{u} n ok defs) (legal : (app f args).Legal true n) (uses : (app f args).Uses ok)
    (each : ∀ t ∈ args, ∀ {u : Term} {s s' : List Proof}, Gives (unfold defs true t) s u s' → Unfolds.{u} defs n ok t u s s')
    (done : Gives (unfold defs true (.app f args)) s u s') : Unfolds.{u} defs n ok (.app f args) u s s' := by
  obtain ⟨proper, places, -⟩ := sorted_app.1 legal.sorted
  obtain ⟨here, -⟩ := uses_app.1 uses
  rw [unfold, bind_iff] at done
  obtain ⟨us, s₁, below, done⟩ := done
  obtain ⟨grows, good, sorts, eval⟩ := unfoldAll_gives each below
  have count : us.length = args.length := by simpa using congrArg List.length sorts
  cases hit : defs f with
  | none =>
    rw [hit] at done
    obtain ⟨applied, rfl⟩ := ofChecked_traced.1 done
    obtain ⟨dom, rfl⟩ := Kernel.apply_of_places (by rw [sorts, places, count]) applied
    refine ⟨grows, ?_, uses_app.2 ⟨count ▸ here, fun u mem => (good u mem).2⟩, rfl, fun I hold => ?_⟩
    · exact Kernel.legal_apply proper (before_app.1 legal.before).1 dom fun u mem => (good u mem).1
    · rw [eval_app, eval_app, eval I hold]
  | some d =>
    rw [hit] at done
    obtain ⟨cs, lawful⟩ := able.lawful hit
    obtain ⟨t, s₂, first, rest⟩ := bind_iff.1 done
    obtain ⟨replaced, rfl⟩ := ofChecked_traced.1 first
    obtain ⟨laws, s₃, second, rest'⟩ := bind_iff.1 rest
    obtain ⟨checked, rfl⟩ := ofChecked_traced.1 second
    obtain ⟨_, s₄, noted, last⟩ := bind_iff.1 rest'
    obtain rfl := note_iff.1 noted
    cases last
    obtain ⟨-, rfl⟩ := substitute_eq_ok.1 replaced
    have dom : us.map sort = f.domain := by rw [sorts, places, placesOf, if_pos (able.arity hit here).symm]
    have ex := lawful.exchange dom fun u mem => (good u mem).1.sorted.closed
    refine ⟨fun p mem => mem_append_left _ (grows p mem), lawful.legal.replaceAll ex fun p mem => ?_,
      (able.bodies hit).replaceAll ex fun p mem => ?_, ?_, fun I hold => ?_⟩
    · exact (good _ (of_mem_zip mem).2).1
    · exact (good _ (of_mem_zip mem).2).2
    · exact (sort_replaceAll ex _).trans lawful.range
    · rw [lawful.eval_body dom (fun u mem => (good u mem).1.sorted) I
        (hold f d hit (mem_append_right _ (law_mem_lawsAt checked))), eval_app,
        eval I (hold.of_subset fun p mem => mem_append_left _ mem)]

theorem bindConsts_eq_ok {t : Term} (ok : bindConsts k (cs.map (.app · [])) t = .ok u) : (k = .lambda ∨ t.sort = .bool) ∧
      u = .bind k (cs.map fun c => (c.name, c.range)) (abstract (cs.map (.app · [])) t) := by
  cases k with
  | lambda =>
    obtain ⟨-, rfl⟩ := lambda_eq_ok.1 ok
    exact ⟨.inl rfl, by rw [filterMap_bindingName]⟩
  | «forall» | «exists» =>
    obtain ⟨⟨-, -, sort⟩, rfl⟩ := quantify_eq_ok.1 ok
    exact ⟨.inr sort, by rw [filterMap_bindingName]⟩

theorem legal_openNamed (legal : (bind k vars body).Legal true n) : (openWith (namedVars vars) body).Legal true n := by
  rw [namedVars_eq]
  have inner : body.Sorted true ([] ++ binding k vars) := by simpa using legal.sorted.1
  refine ⟨inner.instantiateAt (sorts_consts k (range_named vars)) fun t mem => ?_, ?_⟩
  · obtain ⟨c, mem', rfl⟩ := mem_map.1 (mem_reverse.1 mem)
    exact sorted_const (named_isFree c mem')
  · refine .of_mentions ((named vars).map (.app · [])) (fun _ _ => mentions_instantiateAt_reverse) legal.before fun u mem => ?_
    obtain ⟨c, mem', rfl⟩ := mem_map.1 mem
    exact named_before mem' n

theorem unfold_bind {P : Symbol → Prop}
    (laws : ∀ c, InLaws defs c → P c) (legal : (bind k vars body).Legal true n) (hygienic : (bind k vars body).Hygienic P)
    (inner : ∀ {u : Term} {s s' : List Proof}, Gives (unfold defs true (openWith (namedVars vars) body)) s u s' →
      Unfolds.{u} defs n ok (openWith (namedVars vars) body) u s s')
    (done : Gives (unfold defs true (.bind k vars body)) s u s') : Unfolds.{u} defs n ok (.bind k vars body) u s s' := by
  obtain ⟨nodup, apart, -⟩ := hygienic
  rw [unfold, bind_iff] at done
  obtain ⟨b, s₁, below, done⟩ := done
  obtain ⟨closed, rfl⟩ := ofChecked_traced.1 done
  have opened := inner below
  rw [namedVars_eq] at closed opened
  have sorted : body.Sorted true (binding k vars) := by simpa using legal.sorted.1
  have bodySort := sort_openWith sorted (range_named vars)
  obtain ⟨form, shape⟩ := bindConsts_eq_ok closed
  rw [names_named] at shape
  subst shape
  have abstracted : (abstract ((named vars).map (.app · [])) b).sort = body.sort := by
    rw [abstract, sort_abstractAt, opened.sort, bodySort]
  refine ⟨opened.grows, ⟨⟨?_, ?_⟩, ?_⟩, uses_bind.2 opened.uses.abstractAt, ?_, fun I hold => ?_⟩
  · have : (abstract ((named vars).map (.app · [])) b).Sorted true
        (binding k ((named vars).map fun c => (c.name, c.range))) := opened.legal.sorted.abstract (.inl rfl)
    rw [names_named] at this
    simpa using this
  · rw [abstract, sort_abstractAt]
    exact form.imp_right .inl
  · exact fun hint j r le mem' => opened.legal.before hint j r le (mentions_abstractAt mem')
  · cases k <;> simp [sort, abstracted]
  refine I.eval_bind_congr abstracted fun us fits => ?_
  -- The constants of the names get the values of the bound variables; no law mentions them.
  have ranges : I.Fits us ((named vars).map Symbol.range) := by rwa [range_named]
  obtain ⟨J, agree, eq, vals⟩ := I.exists_assigned nodup named_isFree ranges
  have kept : LawsHold defs s₁ J := by
    intro f d hit mem
    have here := hold f d hit mem
    rw [Frame.Holds, agree.eval named_isFree fun c mentioned mem' =>
      (apart c mem').1 (laws c ⟨f, d, hit, mentioned⟩), agree.yes] at here
    exact here
  have left := eval_abstract_agree agree named_isFree (fun c mem => ⟨mem, eq c⟩) opened.legal.sorted.closed
  rw [vals] at left
  rw [append_nil, left, opened.eval J kept, eval_openWith sorted (range_named vars), vals]
  exact (agree.eval named_isFree fun c mentioned mem' => (apart c mem').2 mentioned).symm

/-- Unfolding keeps the value of a term wherever the laws that it notes are true. -/
theorem unfold_gives (able : Unfoldable.{u} n ok defs) {t : Term} : ∀ {P : Symbol → Prop} {u : Term} {s s' : List Proof},
    (∀ c, InLaws defs c → P c) → t.Legal true n → t.Uses ok → t.Hygienic P → Gives (unfold defs true t) s u s' →
    Unfolds.{u} defs n ok t u s s' := by
  -- The body of a binder is opened before it is unfolded, so the induction is on the size.
  induction same : t.size using Nat.strong_induction_on generalizing t with
  | h size ih =>
    intro P u s s' laws legal uses hygienic done
    cases t with
    | var i => exact absurd rfl (legal.sorted.closed i)
    | app =>
      refine unfold_app able legal uses (fun a mem {u s s'} done => ?_) done
      have smaller : a.size < size := by
        have := size_le_sizes mem
        rw [← same, Term.size]
        omega
      exact ih _ smaller rfl laws ⟨(sorted_app.1 legal.sorted).2.2 a mem, (before_app.1 legal.before).2 a mem⟩
        ((uses_app.1 uses).2 a mem) (hygienic_app.1 hygienic a mem) done
    | bind _ vars body =>
      refine unfold_bind laws legal hygienic (fun {u s s'} done => ?_) done
      have smaller : (openWith (namedVars vars) body).size < size := by
        rw [size_openWith_namedVars, ← same, Term.size]
        omega
      refine ih _ smaller rfl (P := fun f => P f ∨ f ∈ named vars) (fun c inside => .inl (laws c inside))
        (legal_openNamed legal) ?_ ?_ done
      · rw [namedVars_eq]
        refine (uses_bind.1 uses).openWith fun c mem => ?_
        refine able.constants c (named_isFree c mem) ?_
        obtain ⟨v, -, rfl⟩ := mem_map.1 mem
        rfl
      · rw [namedVars_eq, openWith, ← map_reverse]
        exact hygienic.2.2.instantiateAt fun c mem => .inr (mem_reverse.1 mem)

end Rewrite
end SortedLogic

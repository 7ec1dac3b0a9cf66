import SortedLogic.Kernel
import Mathlib.Data.List.Forall2
import Mathlib.Data.Set.Insert

/-!
# Interpretations

A `Frame` gives every sort a nonempty set of values and every symbol an operation on values; connectives, equality and the
reading of arrays have their fixed meaning. Values of all sorts live in one type `U`, so every term has a value (`Frame.eval`).
In an `Interpretation` there is an array for each lambda, though an array sort need not hold all functions.
-/

namespace SortedLogic
open List
universe u
variable {f c : Symbol} {i d n : Nat} {ts args : List Term} {t a body u : Term} {strict : Bool}
  {Γ : List (Binder × Srt)} {ds ss : List Srt} {r : Srt} {k : Binder} {vars : Vars} {name : String}

namespace Symbol

/-- The operation that reads an array at places of the sorts `domains`. -/
def select (domains : List Srt) (range : Srt) : Symbol :=
  .builtin "select" (.array domains range :: domains) range

/-- The operations that mean the same in every interpretation. -/
inductive Logical : Symbol → Prop
  | tt : Logical .tt
  | ff : Logical .ff
  | and : Logical .and
  | or : Logical .or
  | not : Logical .not
  | implies : Logical .implies
  | eq (s : Srt) : Logical (.eq s)
  | distinct (ss : List Srt) : Logical (.distinct ss)
  | ite (s : Srt) : Logical (.ite s)
  | select (domains : List Srt) (range : Srt) : Logical (.select domains range)

def logicalNames : List String :=
  ["true", "false", "and", "or", "not", "=>", "=", "distinct", "if", "select"]

/-- An operation of such a name has the signature that belongs to the name. -/
def Proper (f : Symbol) : Prop := ∀ name ∈ logicalNames, f.isOp name = true → f.Logical

theorem Logical.proper (h : f.Logical) : f.Proper := fun _ _ _ => h

theorem Logical.isFree_eq_false (h : f.Logical) : f.isFree = false := by cases h <;> rfl

theorem not_logical (other : f.name ∉ logicalNames) : ¬ f.Logical := by rintro ⟨⟩ <;> exact other (of_decide_eq_true rfl)

theorem proper_of_isFree (free : f.isFree = true) : f.Proper := by
  intro name _ op
  cases role : f.role <;> simp [isFree, isOp, role] at free op

theorem proper_builtin (other : name ∉ logicalNames) (dom : List Srt) (range : Srt) : (builtin name dom range).Proper := by
  intro logical mem op
  obtain rfl : name = logical := by simpa [isOp, builtin] using op
  exact absurd mem other

theorem Logical.name_cases (h : f.Logical) :
    f.name = "true" ∧ f = .tt ∨ f.name = "false" ∧ f = .ff ∨ f.name = "and" ∧ f = .and ∨ f.name = "or" ∧ f = .or ∨
    f.name = "not" ∧ f = .not ∨ f.name = "=>" ∧ f = .implies ∨ f.name = "=" ∧ (∃ s, f = .eq s) ∨
    f.name = "distinct" ∧ (∃ ss, f = .distinct ss) ∨ f.name = "if" ∧ (∃ s, f = .ite s) ∨
    f.name = "select" ∧ ∃ ds r, f = .select ds r := by
  cases h <;> simp [Symbol.builtin, Symbol.tt, Symbol.ff, Symbol.and, Symbol.or, Symbol.not, Symbol.implies, Symbol.eq,
    Symbol.distinct, Symbol.ite, Symbol.select]

theorem name_of_isOp (op : f.isOp name = true) : f.name = name := by
  unfold isOp at op
  split at op
  · exact eq_of_beq op
  · cases op

namespace Proper

theorem eq_and (h : f.Proper) (op : f.isOp "and" = true) : f = .and := by
  simpa [name_of_isOp op] using (h "and" (by decide) op).name_cases

theorem eq_or (h : f.Proper) (op : f.isOp "or" = true) : f = .or := by
  simpa [name_of_isOp op] using (h "or" (by decide) op).name_cases

theorem eq_not (h : f.Proper) (op : f.isOp "not" = true) : f = .not := by
  simpa [name_of_isOp op] using (h "not" (by decide) op).name_cases

theorem eq_implies (h : f.Proper) (op : f.isOp "=>" = true) : f = .implies := by
  simpa [name_of_isOp op] using (h "=>" (by decide) op).name_cases

theorem eq_eq (h : f.Proper) (op : f.isOp "=" = true) : ∃ s, f = .eq s := by
  simpa [name_of_isOp op] using (h "=" (by decide) op).name_cases

theorem eq_distinct (h : f.Proper) (op : f.isOp "distinct" = true) : ∃ ss, f = .distinct ss := by
  simpa [name_of_isOp op] using (h "distinct" (by decide) op).name_cases

theorem eq_select (h : f.Proper) (op : f.isOp "select" = true) : ∃ ds r, f = .select ds r := by
  simpa [name_of_isOp op] using (h "select" (by decide) op).name_cases

end Proper
end Symbol

/-! ## Induction on terms -/

namespace Term

/-- Induction on terms, with the hypothesis for all arguments of an application. -/
@[elab_as_elim, induction_eliminator]
theorem inductArgs {P : Term → Prop} (var : ∀ i s, P (.var i s)) (app : ∀ f args, (∀ a ∈ args, P a) → P (.app f args))
    (bind : ∀ k vars body, P body → P (.bind k vars body)) (t : Term) : P t :=
  @Term.rec P (fun ts => ∀ a ∈ ts, P a) var app bind (fun _ h => absurd h not_mem_nil) (fun _ _ head tail a h => by
      rcases mem_cons.1 h with rfl | h
      · exact head
      · exact tail a h) t

theorem lifts_eq_map (n c : Nat) (ts : List Term) : lifts n c ts = ts.map (lift n c) := by
  induction ts with
  | nil => rfl
  | cons _ _ ih => simp [lifts, ih]

theorem instantiatesAt_eq_map (ts : List Term) (d : Nat) (us : List Term) :
    instantiatesAt ts d us = us.map (instantiateAt ts d) := by
  induction us with
  | nil => rfl
  | cons _ _ ih => simp [instantiatesAt, ih]

theorem replacesAll_eq_map (pairs : List (Term × Term)) (ts : List Term) : replacesAll pairs ts = ts.map (replaceAll pairs) := by
  induction ts with
  | nil => rfl
  | cons _ _ ih => simp [replacesAll, ih]

theorem abstractsAt_eq_map (pairs : List (Term × Nat)) (d : Nat) (ts : List Term) :
    abstractsAt pairs d ts = ts.map (abstractAt pairs d) := by
  induction ts with
  | nil => rfl
  | cons _ _ ih => simp [abstractsAt, ih]

/-! ## Traversals -/

/-- `g d` puts `h d t` in the place of every outermost subterm `t` for which there is one, where `d` counts the variables
bound on the way to it. -/
def Traverses (h : Nat → Term → Option Term) (g : Nat → Term → Term) : Prop :=
  ∀ d t, g d t = (h d t).getD (match t with
    | .var i s => .var i s
    | .app f args => .app f (args.map (g d))
    | .bind k vars body => .bind k vars (g (d + vars.length) body))

section Traverses
variable {h : Nat → Term → Option Term} {g : Nat → Term → Term} (tr : Traverses h g)
include tr

theorem Traverses.relates {M : Nat → Term → Term → Prop} (replaced : ∀ {d t u}, h d t = some u → M d t u)
    (var : ∀ {d i s}, h d (.var i s) = none → M d (.var i s) (.var i s))
    (app : ∀ {d f args}, h d (.app f args) = none → (∀ a ∈ args, M d a (g d a)) → M d (.app f args) (.app f (args.map (g d))))
    (bind : ∀ {d k vars body}, M (d + vars.length) body (g (d + vars.length) body) →
      M d (.bind k vars body) (.bind k vars (g (d + vars.length) body))) (t : Term) : ∀ d, M d t (g d t) := by
  induction t with
  | var i s =>
    intro d
    rw [tr]
    cases hit : h d (.var i s) with
    | none => exact var hit
    | some => exact replaced hit
  | app f args ih =>
    intro d
    rw [tr]
    cases hit : h d (.app f args) with
    | none => exact app hit fun a mem => ih a mem d
    | some => exact replaced hit
  | bind k vars body ih =>
    intro d
    rw [tr]
    cases hit : h d (.bind k vars body) with
    | none => exact bind (ih _)
    | some => exact replaced hit

theorem Traverses.sort (eq : ∀ {d t u}, h d t = some u → u.sort = t.sort) (t : Term) (d : Nat) : (g d t).sort = t.sort := by
  refine tr.relates eq (fun _ => rfl) (fun _ _ => rfl) (fun ih => ?_) t d
  rename_i k _ _
  cases k <;> simp [Term.sort, ih]

end Traverses

def lifted (n d : Nat) : Term → Option Term
  | .var i s => if i < d then none else some (.var (i + n) s)
  | _ => none

def placed (ts : List Term) (d : Nat) : Term → Option Term
  | .var i _ => if i < d then none else ts[i - d]?.map (lift d 0)
  | _ => none

theorem lifted_eq_some (hit : lifted n d t = some u) : ∃ i s, t = .var i s ∧ d ≤ i ∧ u = .var (i + n) s := by
  cases t with
  | var i s =>
    obtain ⟨le, rfl⟩ : d ≤ i ∧ Term.var (i + n) s = u := by simpa [lifted] using hit
    exact ⟨i, s, rfl, le, rfl⟩
  | app | bind => cases hit

theorem placed_eq_some (hit : placed ts d t = some u) :
    ∃ i s v, t = .var i s ∧ d ≤ i ∧ ts[i - d]? = some v ∧ u = v.lift d 0 := by
  cases t with
  | var i s =>
    obtain ⟨le, v, at', rfl⟩ : d ≤ i ∧ ∃ v, ts[i - d]? = some v ∧ v.lift d 0 = u := by simpa [placed] using hit
    exact ⟨i, s, v, rfl, le, at', rfl⟩
  | app | bind => cases hit

theorem traverses_lift (n : Nat) : Traverses (lifted n) (lift n) := by
  intro d t
  cases t with
  | var i => by_cases inner : i < d <;> simp [lift, lifted, inner]
  | app => simp [lift, lifted, lifts_eq_map]
  | bind => rfl

theorem traverses_instantiateAt (ts : List Term) : Traverses (placed ts) (instantiateAt ts) := by
  intro d t
  cases t with
  | var i => by_cases inner : i < d <;> cases found : ts[i - d]? <;> simp [instantiateAt, placed, inner, found]
  | app => simp [instantiateAt, placed, instantiatesAt_eq_map]
  | bind => rfl

theorem traverses_abstractAt (pairs : List (Term × Nat)) :
    Traverses (fun d t => (pairs.find? (·.1 = t)).map fun p => .var (d + p.2) t.sort) (abstractAt pairs) := by
  intro d t
  cases t with
  | var i s => cases hit : pairs.find? (·.1 = .var i s) <;> simp [abstractAt, hit, Term.sort]
  | app f args => cases hit : pairs.find? (·.1 = .app f args) <;> simp [abstractAt, hit, abstractsAt_eq_map, Term.sort]
  | bind k vars body => cases hit : pairs.find? (·.1 = .bind k vars body) <;> simp [abstractAt, hit]

/-! ## Loose variables, symbols and sorts -/

mutual
/-- Does the variable `i` steps outward occur without its binder? -/
def Loose (i : Nat) : Term → Prop
  | .var j _ => j = i
  | .app _ args => LooseIn i args
  | .bind _ vars body => Loose (i + vars.length) body

def LooseIn (i : Nat) : List Term → Prop
  | [] => False
  | t :: ts => Loose i t ∨ LooseIn i ts
end

mutual
def Mentions (c : Symbol) : Term → Prop
  | .var _ _ => False
  | .app f args => f = c ∨ MentionsIn c args
  | .bind _ _ body => Mentions c body

def MentionsIn (c : Symbol) : List Term → Prop
  | [] => False
  | t :: ts => Mentions c t ∨ MentionsIn c ts
end

def Closed (t : Term) : Prop := ∀ i, ¬ t.Loose i

theorem looseIn_iff : LooseIn i ts ↔ ∃ t ∈ ts, t.Loose i := by
  induction ts with
  | nil => simp [LooseIn]
  | cons _ _ ih => simp [LooseIn, ih]

theorem mentionsIn_iff : MentionsIn c ts ↔ ∃ t ∈ ts, t.Mentions c := by
  induction ts with
  | nil => simp [MentionsIn]
  | cons _ _ ih => simp [MentionsIn, ih]

theorem loose_app : Loose i (.app f args) ↔ ∃ a ∈ args, a.Loose i := by rw [Loose, looseIn_iff]

theorem mentions_app : Mentions c (.app f args) ↔ f = c ∨ ∃ a ∈ args, a.Mentions c := by rw [Mentions, mentionsIn_iff]

theorem Closed.of_mem (closed : Closed (.app f args)) (mem : a ∈ args) : a.Closed :=
  fun i loose => closed i (loose_app.2 ⟨a, mem, loose⟩)

theorem closed_app : Closed (.app f args) ↔ ∀ a ∈ args, a.Closed := by
  refine ⟨fun closed a mem => closed.of_mem mem, fun closed i loose => ?_⟩
  obtain ⟨a, mem, loose⟩ := loose_app.1 loose
  exact closed a mem i loose

theorem loose_bound (small : ∀ i, (Term.bind k vars body).Loose i → i < d) (i : Nat) (loose : body.Loose i) :
    i < d + vars.length := by
  by_cases inner : i < vars.length
  · omega
  · have := small (i - vars.length) (by rw [Loose, Nat.sub_add_cancel (by omega)]; exact loose)
    omega

theorem lift_of_lt (n : Nat) (t : Term) (c : Nat) : (∀ i, t.Loose i → i < c) → lift n c t = t := by
  refine (traverses_lift n).relates (M := fun d t u => (∀ i, t.Loose i → i < d) → u = t) ?_ (fun _ _ => rfl) ?_ ?_ t c
  · intro d t u hit small
    obtain ⟨i, s, rfl, le, rfl⟩ := lifted_eq_some hit
    exact absurd (small i rfl) (by omega)
  · intro d f args _ ih small
    have eq : ∀ a ∈ args, lift n d a = a := fun a mem => ih a mem fun i loose => small i (loose_app.2 ⟨a, mem, loose⟩)
    rw [map_congr_left eq, map_id']
  · intro d k vars body ih small
    rw [ih (loose_bound small)]

theorem Closed.lift (closed : t.Closed) (n c : Nat) : t.lift n c = t := lift_of_lt n t c fun i loose => absurd loose (closed i)

/-- Variables that binders add to a context, the last one first. -/
def binding (k : Binder) (vars : Vars) : List (Binder × Srt) :=
  (vars.map fun v => (k, v.2)).reverse

mutual
/-- Variables have the sorts of the context, operations of a fixed name their signature, and arguments the sorts of their
places. A quantifier binds a formula or, unless `strict`, another term whose loose variables existential quantifiers bind. -/
def Sorted (strict : Bool) : List (Binder × Srt) → Term → Prop
  | Γ, .var i s => ∃ k, Γ[i]? = some (k, s)
  | Γ, .app f args => f.Proper ∧ args.map sort = placesOf f args.length ∧ SortedAll strict Γ args
  | Γ, .bind k vars body =>
    Sorted strict (binding k vars ++ Γ) body ∧ (k = .lambda ∨ body.sort = .bool ∨
        (strict = false ∧ ∀ i, body.Loose i → ∃ s, (binding k vars ++ Γ)[i]? = some (.exists, s)))

def SortedAll (strict : Bool) : List (Binder × Srt) → List Term → Prop
  | _, [] => True
  | Γ, t :: ts => Sorted strict Γ t ∧ SortedAll strict Γ ts
end

theorem sortedAll_iff : SortedAll strict Γ ts ↔ ∀ t ∈ ts, t.Sorted strict Γ := by
  induction ts with
  | nil => simp [SortedAll]
  | cons _ _ ih => simp [SortedAll, ih]

theorem sorted_app : Sorted strict Γ (.app f args) ↔
      f.Proper ∧ args.map sort = placesOf f args.length ∧ ∀ a ∈ args, a.Sorted strict Γ := by rw [Sorted, sortedAll_iff]

@[simp] theorem length_binding (k : Binder) (vars : Vars) : (binding k vars).length = vars.length := by simp [binding]

theorem Sorted.lt_length : ∀ {Γ : List (Binder × Srt)}, t.Sorted strict Γ → ∀ i, t.Loose i → i < Γ.length := by
  induction t with
  | var =>
    rintro Γ ⟨k, hit⟩ i rfl
    exact (List.getElem?_eq_some_iff.1 hit).1
  | app _ _ ih =>
    intro Γ sorted i loose
    obtain ⟨a, mem, loose⟩ := loose_app.1 loose
    exact ih a mem ((sorted_app.1 sorted).2.2 a mem) i loose
  | bind _ _ _ ih =>
    intro Γ sorted i loose
    have := ih sorted.1 _ loose
    simp at this
    omega

theorem Sorted.closed (sorted : t.Sorted strict []) : t.Closed := by
  intro i loose
  exact absurd (sorted.lt_length i loose) (by simp)

theorem Sorted.relax : ∀ {Γ : List (Binder × Srt)}, t.Sorted true Γ → t.Sorted false Γ := by
  induction t with
  | var => exact fun h => h
  | app _ args ih =>
    intro Γ sorted
    obtain ⟨proper, places, args⟩ := sorted_app.1 sorted
    exact sorted_app.2 ⟨proper, places, fun a mem => ih a mem (args a mem)⟩
  | bind _ _ _ ih =>
    rintro Γ ⟨inner, kind⟩
    refine ⟨ih inner, ?_⟩
    rcases kind with h | h | ⟨h, -⟩
    · exact .inl h
    · exact .inr (.inl h)
    · cases h

theorem Sorted.weaken (Δ : List (Binder × Srt)) : ∀ {Γ : List (Binder × Srt)}, t.Sorted strict Γ → t.Sorted strict (Γ ++ Δ) := by
  induction t with
  | var =>
    rintro Γ ⟨k, hit⟩
    exact ⟨k, by rw [List.getElem?_append_left (List.getElem?_eq_some_iff.1 hit).1]; exact hit⟩
  | app _ args ih =>
    intro Γ sorted
    obtain ⟨proper, places, args⟩ := sorted_app.1 sorted
    exact sorted_app.2 ⟨proper, places, fun a mem => ih a mem (args a mem)⟩
  | bind _ _ _ ih =>
    rintro Γ ⟨inner, kind⟩
    rw [Sorted, ← append_assoc]
    refine ⟨ih inner, kind.imp_right (Or.imp_right ?_)⟩
    rintro ⟨h, outer⟩
    refine ⟨h, fun i loose => ?_⟩
    obtain ⟨s, hit⟩ := outer i loose
    exact ⟨s, by rw [List.getElem?_append_left (List.getElem?_eq_some_iff.1 hit).1]; exact hit⟩

end Term

/-! ## Frames -/

/-- What sorts and symbols stand for, among the values `U`. -/
structure Frame (U : Type u) where
  carrier : Srt → Set U
  nonempty : ∀ s, (carrier s).Nonempty
  yes : U
  no : U
  no_ne_yes : no ≠ yes
  carrier_bool : carrier .bool = {yes, no}
  fn : Symbol → List U → U
  fn_mem : ∀ f us, List.Forall₂ (fun u s => u ∈ carrier s) us (Term.placesOf f us.length) → fn f us ∈ carrier f.range
  fn_tt : fn .tt [] = yes
  fn_ff : fn .ff [] = no
  fn_and : ∀ us, fn .and us = yes ↔ ∀ u ∈ us, u = yes
  fn_or : ∀ us, fn .or us = yes ↔ ∃ u ∈ us, u = yes
  fn_not : ∀ u, fn .not [u] = yes ↔ u ≠ yes
  fn_implies : ∀ u v, fn .implies [u, v] = yes ↔ (u = yes → v = yes)
  fn_eq : ∀ s u v, fn (.eq s) [u, v] = yes ↔ u = v
  fn_distinct : ∀ ss us, fn (.distinct ss) us = yes ↔ us.Nodup
  fn_ite_yes : ∀ s u v, fn (.ite s) [yes, u, v] = u
  fn_ite_no : ∀ s c u v, c ≠ yes → fn (.ite s) [c, u, v] = v
  /-- Arrays that agree at all places are equal. -/
  extensional : ∀ ds r a b, a ∈ carrier (.array ds r) → b ∈ carrier (.array ds r) →
    (∀ us, List.Forall₂ (fun u s => u ∈ carrier s) us ds → fn (.select ds r) (a :: us) = fn (.select ds r) (b :: us)) → a = b

namespace Frame
variable {U : Type u} (F : Frame U) {us vs ρ ρ' : List U} {g h : List U → U} {body' : Term} {G : Frame U}

def Fits (us : List U) (ss : List Srt) : Prop := List.Forall₂ (fun u s => u ∈ F.carrier s) us ss

theorem fits_map {as : List α} {f : α → U} {s : α → Srt} : F.Fits (as.map f) (as.map s) ↔ ∀ a ∈ as, f a ∈ F.carrier (s a) := by
  rw [Fits, forall₂_map_left_iff, forall₂_map_right_iff, forall₂_same]

open Classical in
noncomputable def truth (p : Prop) : U := if p then F.yes else F.no

/-- The array `a` has the values of `g` at all places. -/
def Shows (ds : List Srt) (r : Srt) (g : List U → U) (a : U) : Prop :=
  a ∈ F.carrier (.array ds r) ∧ ∀ us, F.Fits us ds → F.fn (.select ds r) (a :: us) = g us

open Classical in
/-- A value with a property, if there is one, else any value of a set. -/
noncomputable def pick (P : U → Prop) {A : Set U} (nonempty : A.Nonempty) : U :=
  if h : ∃ a, P a then h.choose else nonempty.some

/-- The array that shows `g`, if there is one. -/
noncomputable def lam (ds : List Srt) (r : Srt) (g : List U → U) : U :=
  pick (F.Shows ds r g) (F.nonempty (.array ds r))

mutual
/-- The value of a term, where `ρ` holds the values of its loose variables. -/
noncomputable def eval : List U → Term → U
  | ρ, .var i _ => ρ.getD i F.yes
  | ρ, .app f args => F.fn f (evals ρ args)
  | ρ, .bind .forall vars body =>
    F.truth (∀ us, F.Fits us (vars.map (·.2)) → eval (us.reverse ++ ρ) body = F.yes)
  | ρ, .bind .exists vars body =>
    F.truth (∃ us, F.Fits us (vars.map (·.2)) ∧ eval (us.reverse ++ ρ) body = F.yes)
  | ρ, .bind .lambda vars body =>
    F.lam (vars.map (·.2)) body.sort fun us => eval (us.reverse ++ ρ) body

noncomputable def evals : List U → List Term → List U
  | _, [] => []
  | ρ, t :: ts => eval ρ t :: evals ρ ts
end

def Holds (t : Term) : Prop := F.eval [] t = F.yes

theorem evals_eq_map (ρ : List U) (ts : List Term) : F.evals ρ ts = ts.map (F.eval ρ) := by
  induction ts with
  | nil => simp [evals]
  | cons _ _ ih => simp [evals, ih]

theorem eval_app (ρ : List U) (f : Symbol) (args : List Term) : F.eval ρ (.app f args) = F.fn f (args.map (F.eval ρ)) := by
  rw [eval, evals_eq_map]

theorem yes_mem : F.yes ∈ F.carrier .bool := by simp [F.carrier_bool]

theorem no_mem : F.no ∈ F.carrier .bool := by simp [F.carrier_bool]

theorem truth_eq_yes {p : Prop} : F.truth p = F.yes ↔ p := by by_cases h : p <;> simp [truth, h, F.no_ne_yes]

theorem truth_mem (p : Prop) : F.truth p ∈ F.carrier .bool := by by_cases h : p <;> simp [truth, h, F.carrier_bool]

theorem lam_mem (ds : List Srt) (r : Srt) (g : List U → U) : F.lam ds r g ∈ F.carrier (.array ds r) := by
  by_cases shown : ∃ a, F.Shows ds r g a
  · rw [lam, pick, dif_pos shown]
    exact shown.choose_spec.1
  · rw [lam, pick, dif_neg shown]
    exact (F.nonempty (.array ds r)).some_mem

theorem select_lam (shown : ∃ a, F.Shows ds r g a) (fits : F.Fits us ds) : F.fn (.select ds r) (F.lam ds r g :: us) = g us := by
  rw [lam, pick, dif_pos shown]
  exact shown.choose_spec.2 us fits

theorem Fits.length_eq {F : Frame U} (fits : F.Fits us ss) : us.length = ss.length := List.Forall₂.length_eq fits

/-- Two frames with the same values, in which arrays are read alike. -/
structure Alike (F G : Frame U) : Prop where
  carrier : F.carrier = G.carrier
  yes : F.yes = G.yes
  no : F.no = G.no
  select : ∀ ds r, F.fn (.select ds r) = G.fn (.select ds r)

theorem Alike.refl (F : Frame U) : F.Alike F := ⟨rfl, rfl, rfl, fun _ _ => rfl⟩

theorem Alike.fits {F : Frame U} (alike : F.Alike G) : F.Fits = G.Fits := by
  funext us ss
  simp only [Fits, alike.carrier]

theorem Alike.truth {F : Frame U} (alike : F.Alike G) (p : Prop) : F.truth p = G.truth p := by
  simp only [Frame.truth, alike.yes, alike.no]

theorem Alike.shows {F : Frame U} (alike : F.Alike G) (eq : ∀ us, F.Fits us ds → g us = h us) :
    F.Shows ds r g = G.Shows ds r h := by
  funext a
  simp only [Shows, ← alike.carrier, ← alike.select, ← alike.fits]
  exact propext (and_congr_right fun _ => forall₂_congr fun us fits => by rw [eq us fits])

theorem Alike.lam {F : Frame U} (alike : F.Alike G) (eq : ∀ us, F.Fits us ds → g us = h us) : F.lam ds r g = G.lam ds r h := by
  have shows : F.Shows ds r g = G.Shows ds r h := alike.shows eq
  have pick_eq : ∀ {A B : Set U} (a : A.Nonempty) (b : B.Nonempty), A = B →
      pick (F.Shows ds r g) a = pick (G.Shows ds r h) b := by
    rintro A _ _ _ rfl
    rw [shows]
  exact pick_eq _ _ (by rw [alike.carrier])

theorem Alike.eval_bind {F : Frame U} (alike : F.Alike G) (sorts : body.sort = body'.sort)
    (eq : ∀ us, F.Fits us (vars.map (·.2)) → F.eval (us.reverse ++ ρ) body = G.eval (us.reverse ++ ρ') body') :
    F.eval ρ (.bind k vars body) = G.eval ρ' (.bind k vars body') := by
  cases k with
  | «forall» =>
    simp only [eval]
    rw [alike.truth, ← alike.fits, ← alike.yes]
    congr 1
    exact propext (forall₂_congr fun us fits => by rw [eq us fits])
  | «exists» =>
    simp only [eval]
    rw [alike.truth, ← alike.fits, ← alike.yes]
    congr 1
    exact propext (exists_congr fun us => and_congr_right fun fits => by rw [eq us fits])
  | lambda =>
    simp only [eval, sorts]
    exact alike.lam eq

theorem eval_bind_congr (sorts : body.sort = body'.sort)
    (eq : ∀ us, F.Fits us (vars.map (·.2)) → F.eval (us.reverse ++ ρ) body = F.eval (us.reverse ++ ρ') body') :
    F.eval ρ (.bind k vars body) = F.eval ρ' (.bind k vars body') := (Alike.refl F).eval_bind sorts eq

theorem eval_bind_mem (ρ : List U) (k : Binder) (vars : Vars) (body : Term) :
    F.eval ρ (.bind k vars body) ∈ F.carrier (Term.bind k vars body).sort := by
  cases k with
  | «forall» => simpa only [eval, Term.sort] using F.truth_mem _
  | «exists» => simpa only [eval, Term.sort] using F.truth_mem _
  | lambda => simpa only [eval, Term.sort] using F.lam_mem _ _ _

theorem Fits.append {F : Frame U} {rs : List Srt} (h : F.Fits us ss) (h' : F.Fits vs rs) :
    F.Fits (us ++ vs) (ss ++ rs) := rel_append h h'

theorem Fits.reverse {F : Frame U} (h : F.Fits us ss) : F.Fits us.reverse ss.reverse := rel_reverse h

theorem exists_fits (ss : List Srt) : ∃ us, F.Fits us ss := by
  induction ss with
  | nil => exact ⟨[], .nil⟩
  | cons s _ ih =>
    obtain ⟨us, fits⟩ := ih
    exact ⟨_ :: us, .cons (F.nonempty s).some_mem fits⟩

theorem Fits.push {F : Frame U} (new : F.Fits us (vars.map (·.2))) (old : F.Fits ρ (Γ.map (·.2))) :
    F.Fits (us.reverse ++ ρ) ((Term.binding k vars ++ Γ).map (·.2)) := by
  have : (Term.binding k vars ++ Γ).map (·.2) = (vars.map (·.2)).reverse ++ Γ.map (·.2) := by
    simp [Term.binding, Function.comp_def]
  rw [this]
  exact new.reverse.append old

theorem eval_mem : ∀ {Γ : List (Binder × Srt)} {ρ : List U},
    t.Sorted strict Γ → F.Fits ρ (Γ.map (·.2)) → F.eval ρ t ∈ F.carrier t.sort := by
  induction t with
  | var i =>
    rintro Γ ρ ⟨k, hit⟩ fits
    obtain ⟨mem', eq⟩ := List.getElem?_eq_some_iff.1 hit
    have mem'' : i < ρ.length := by simpa [fits.length_eq] using mem'
    have mem := (forall₂_iff_get.1 fits).2 i mem'' (by simpa using mem')
    simpa [eval, Term.sort, mem'', eq] using mem
  | app f _ ih =>
    intro Γ ρ sorted fits
    obtain ⟨-, places, sorted⟩ := Term.sorted_app.1 sorted
    rw [eval_app]
    refine F.fn_mem f _ ?_
    rw [length_map, ← places]
    exact F.fits_map.2 fun a member => ih a member (sorted a member) fits
  | bind => exact fun _ _ => F.eval_bind_mem _ _ _ _

theorem const_mem (c : Symbol) : F.eval [] (.app c []) ∈ F.carrier c.range := by
  have none : Term.placesOf c 0 = [] := by
    unfold Term.placesOf
    split
    · exact length_eq_zero_iff.1 ‹_›
    · rfl
  exact F.fn_mem c [] (none ▸ .nil)

theorem fits_eval (sorted : ∀ t ∈ ts, t.Sorted strict []) : F.Fits (ts.map (F.eval [])) (ts.map Term.sort) :=
  F.fits_map.2 fun t mem => F.eval_mem (sorted t mem) .nil

/-! ### Changing what symbols stand for -/

/-- New operations for some of the symbols without meaning of their own. -/
structure Choice where
  value : Symbol → Option (List U → U)
  free : ∀ {f g}, value f = some g → f.isFree = true
  mem : ∀ {f g}, value f = some g → ∀ us, F.Fits us (Term.placesOf f us.length) → g us ∈ F.carrier f.range

variable {F}

theorem Choice.value_of_not_free (σ : F.Choice) (fixed : f.isFree = false) : σ.value f = none := by
  cases hit : σ.value f with
  | none => rfl
  | some => rw [σ.free hit] at fixed; cases fixed

variable (F)

/-- The frame in which some symbols stand for what was chosen. -/
def assign (σ : F.Choice) : Frame U :=
  have same {f : Symbol} (fixed : f.isFree = false) : (σ.value f).getD (F.fn f) = F.fn f := by
    rw [σ.value_of_not_free fixed, Option.getD_none]
  { F with
    fn := fun f => (σ.value f).getD (F.fn f)
    fn_mem := by
      intro f us fits
      cases found : σ.value f with
      | none => exact F.fn_mem f us fits
      | some g => exact σ.mem found us fits
    fn_tt := by rw [same rfl, F.fn_tt]
    fn_ff := by rw [same rfl, F.fn_ff]
    fn_and := by rw [same rfl]; exact F.fn_and
    fn_or := by rw [same rfl]; exact F.fn_or
    fn_not := by rw [same rfl]; exact F.fn_not
    fn_implies := by rw [same rfl]; exact F.fn_implies
    fn_eq := by intro s; rw [same rfl]; exact F.fn_eq s
    fn_distinct := by intro ss; rw [same rfl]; exact F.fn_distinct ss
    fn_ite_yes := by intro s; rw [same rfl]; exact F.fn_ite_yes s
    fn_ite_no := by intro s; rw [same rfl]; exact F.fn_ite_no s
    extensional := by intro ds r; rw [same rfl]; exact F.extensional ds r }

/-- The frames differ at most in what the symbols of `P` stand for. -/
structure AgreeOutside (P : Symbol → Prop) (F G : Frame U) : Prop where
  carrier : F.carrier = G.carrier
  yes : F.yes = G.yes
  no : F.no = G.no
  fn : ∀ f, ¬ P f → F.fn f = G.fn f

variable {F} {H : Frame U} {P Q : Symbol → Prop}

theorem agreeOutside_refl (P : Symbol → Prop) : F.AgreeOutside P F := ⟨rfl, rfl, rfl, fun _ _ => rfl⟩

theorem AgreeOutside.trans (h : F.AgreeOutside P G) (h' : G.AgreeOutside Q H) : F.AgreeOutside (fun f => P f ∨ Q f) H where
  carrier := h.carrier.trans h'.carrier
  yes := h.yes.trans h'.yes
  no := h.no.trans h'.no
  fn f out := (h.fn f fun p => out (.inl p)).trans (h'.fn f fun q => out (.inr q))

theorem AgreeOutside.mono (h : F.AgreeOutside P G) (sub : ∀ f, P f → Q f) : F.AgreeOutside Q G :=
  { h with fn := fun f out => h.fn f fun p => out (sub f p) }

theorem assign_agreeOutside (σ : F.Choice) : F.AgreeOutside (fun f => σ.value f ≠ none) (F.assign σ) where
  carrier := rfl
  yes := rfl
  no := rfl
  fn f out := by
    have : σ.value f = none := not_not.1 out
    simp only [assign, this, Option.getD_none]

theorem AgreeOutside.alike (h : F.AgreeOutside P G) (free : ∀ f, P f → f.isFree = true) : F.Alike G where
  carrier := h.carrier
  yes := h.yes
  no := h.no
  select ds r := h.fn _ fun p => by have := free _ p; simp [Symbol.select, Symbol.builtin, Symbol.isFree] at this

theorem AgreeOutside.eval (h : F.AgreeOutside P G) (free : ∀ f, P f → f.isFree = true) :
    ∀ {ρ : List U}, (∀ f, t.Mentions f → ¬ P f) → F.eval ρ t = G.eval ρ t := by
  induction t with
  | var => intro ρ _; simp only [Frame.eval, h.yes]
  | app f args ih =>
    intro ρ out
    have args' : args.map (F.eval ρ) = args.map (G.eval ρ) := map_congr_left fun a mem =>
      ih a mem fun f mem' => out f (Term.mentions_app.2 (.inr ⟨a, mem, mem'⟩))
    rw [eval_app, eval_app, args', h.fn f (out f (Term.mentions_app.2 (.inl rfl)))]
  | bind _ _ _ ih => exact fun out => (h.alike free).eval_bind rfl fun us _ => ih out

end Frame

/-- A frame in which every lambda stands for an array that shows its body, whatever the values of its loose
variables are. -/
structure Interpretation (U : Type u) extends Frame U where
  comprehension : ∀ {Γ : List (Binder × Srt)} {ρ : List U} {vars : Vars} {body : Term},
    body.Sorted true (Term.binding .lambda vars ++ Γ) → toFrame.Fits ρ (Γ.map (·.2)) →
    ∃ a, toFrame.Shows (vars.map (·.2)) body.sort (fun us => toFrame.eval (us.reverse ++ ρ) body) a

end SortedLogic

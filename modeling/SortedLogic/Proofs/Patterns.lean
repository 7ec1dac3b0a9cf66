import SortedLogic.Datatype.Pattern
import SortedLogic.Proofs.Soundness

/-!
# What a match means

Where the conditions that `matchPattern` gives hold, the pattern with the values for its variables is the term that was matched
(`matchPattern_matched`), in a frame in which what constructors make can be recognized and taken apart, and that comes to an end
(`Frame.Inductive`).

A variable of several patterns keeps its last value only. A call of a function descends at a place if its argument there is a
strict part of the pattern there and no later pattern interferes (`descends`).
-/

namespace SortedLogic
open Substitution
open List
open Term
open SortedLogic.Frame (eval_app)
open Prod (fst snd)
open SortedLogic.Symbol (isFree isLiteral)
universe u
open Checked (bind_eq_ok)
variable {inside : Bool} {t v x p a q u : Term} {f : Symbol} {args bs cs patterns ts xs : List Term}
  {pairs : List (Term × Term)} {d : Datatype} {w : World} {m' : Datatype.Match} {ps qs : Substitution}
  {c c₀ : Constructor}

/-! ## Subterms -/

namespace Term

theorem mem_subtermsOfAll : t ∈ subtermsOfAll inside ts ↔ ∃ a ∈ ts, t ∈ a.subterms inside := by
  induction ts with
  | nil => simp [subtermsOfAll]
  | cons _ _ ih => simp [subtermsOfAll, ih, or_comm]

theorem mem_subterms_app : t ∈ (app f args).subterms inside ↔ t = .app f args ∨ ∃ a ∈ args, t ∈ a.subterms inside := by
  rw [subterms, mem_cons, mem_subtermsOfAll]

theorem self_mem_subterms (inside : Bool) (t : Term) : t ∈ t.subterms inside := by
  cases t <;> simp [subterms]

theorem mem_subterms_arg (mem : a ∈ args) (sub : t ∈ a.subterms inside) : t ∈ (app f args).subterms inside :=
  mem_subterms_app.2 (.inr ⟨a, mem, sub⟩)

theorem subterms_trans : t ∈ u.subterms inside → u ∈ v.subterms inside → t ∈ v.subterms inside := by
  intro first
  induction v with
  | var i s =>
    intro second
    obtain rfl : u = .var i s := by simpa [subterms] using second
    exact first
  | app _ _ ih =>
    intro second
    rcases mem_subterms_app.1 second with rfl | ⟨a, mem, second⟩
    · exact first
    · exact mem_subterms_arg mem (ih a mem second)
  | bind _ _ _ ih =>
    intro second
    rcases mem_cons.1 second with rfl | second
    · rwa [subterms] at first
    · cases inside with
      | true => exact mem_cons_of_mem _ (ih second)
      | false => cases second

theorem subterms_of_false (sub : t ∈ v.subterms false) : t ∈ v.subterms true := by
  induction v with
  | var => exact sub
  | app _ _ ih =>
    rcases mem_subterms_app.1 sub with rfl | ⟨a, mem, sub⟩
    · exact self_mem_subterms _ _
    · exact mem_subterms_arg mem (ih a mem sub)
  | bind k vars body =>
    obtain rfl : t = .bind k vars body := by simpa [subterms] using sub
    exact self_mem_subterms _ _

theorem occurs_cases (x t : Term) : occurs x t = .ok (decide (x ∈ t.subterms false)) ∨
    (∃ e, occurs x t = .error e) ∧ ∃ y ∈ t.subterms false, y.isBind = true := by
  induction t with
  | var => simp [occurs, subterms]
  | app f args ih =>
    have any {ts : List Term} (sub : ts ⊆ args) : occursAny x ts = .ok (decide (∃ a ∈ ts, x ∈ a.subterms false)) ∨
        (∃ e, occursAny x ts = .error e) ∧ ∃ a ∈ args, ∃ y ∈ a.subterms false, y.isBind = true := by
      induction ts with
      | nil => simp [occursAny]
      | cons a _ rest =>
        obtain ⟨here, later⟩ := cons_subset.1 sub
        rw [occursAny]
        rcases ih a here with hit | ⟨⟨e, hit⟩, y, mem, bind⟩
        · by_cases inside : x ∈ a.subterms false
          · exact .inl (by simp [hit, inside, Bind.bind, Except.bind])
          · simpa [hit, inside, Bind.bind, Except.bind] using rest later
        · exact .inr ⟨⟨e, by simp [hit, Bind.bind, Except.bind]⟩, a, here, y, mem, bind⟩
    rw [occurs]
    by_cases eq : x = .app f args
    · exact .inl (by simp [eq, self_mem_subterms])
    simp only [mem_subterms_app, eq, false_or]
    refine (any fun _ => id).imp_right (And.imp_right ?_)
    rintro ⟨a, mem, y, sub, bind⟩
    exact ⟨y, .inr ⟨a, mem, sub⟩, bind⟩
  | bind k vars body =>
    rw [occurs]
    by_cases eq : x = .bind k vars body <;> simp [eq, subterms, isBind]

theorem occurs_eq (plain : ∀ y ∈ t.subterms false, y.isBind = false) : occurs x t = .ok (decide (x ∈ t.subterms false)) :=
  (occurs_cases x t).resolve_right fun h => by
    obtain ⟨-, y, mem, bind⟩ := h
    simp [plain y mem] at bind

theorem occurs_eq_true (hit : occurs x t = .ok true) : x ∈ t.subterms false := by
  rcases occurs_cases x t with answer | ⟨⟨e, err⟩, -⟩
  · simpa [hit] using answer
  · simp [hit] at err

theorem calls_eq_ok (ok : calls f t = .ok cs) :
    (∀ u ∈ t.subterms false, u.isApp = true) ∧ cs = (t.subterms false).filter (·.head? = some f) := by
  unfold calls at ok
  by_cases all : (t.subterms false).all isApp = true
  · rw [if_pos all] at ok
    exact ⟨all_eq_true.1 all, (Except.ok.inj ok).symm⟩
  · rw [if_neg all] at ok
    cases ok

def Avoids (P : Symbol → Prop) (t : Term) : Prop := ∀ f, t.Mentions f → ¬ P f

theorem avoids_app {P : Symbol → Prop} : (app f args).Avoids P ↔ ¬ P f ∧ ∀ a ∈ args, a.Avoids P := by
  simp only [Avoids, mentions_app]
  constructor
  · intro avoids
    exact ⟨avoids f (.inl rfl), fun a mem g inside => avoids g (.inr ⟨a, mem, inside⟩)⟩
  · rintro ⟨head, inside⟩ g (rfl | ⟨a, mem, named⟩)
    · exact head
    · exact inside a mem g named

theorem before_iff_avoids {n : Nat} : t.Before n ↔ t.Avoids fun f => ∃ hint k s, n ≤ k ∧ f = .supply hint k s := by
  constructor
  · rintro before f inside ⟨hint, k, s, le, rfl⟩
    exact before hint k s le inside
  · exact fun avoids hint k s le inside => avoids _ inside ⟨hint, k, s, le, rfl⟩

/-! ### Replacing in terms without binders -/

theorem replaceAll_app (key : lookupLast pairs (.app f args) = none) :
    (app f args).replaceAll pairs = .app f (args.map (replaceAll pairs)) := by rw [replaceAll, key, replacesAll_eq_map]

theorem replaceAll_key (key : lookupLast pairs (.app f args) = some u) : (app f args).replaceAll pairs = u := by
  rw [replaceAll, key]

theorem sort_replaceAll_of_isApp (sorts : ∀ p ∈ pairs, p.1.sort = p.2.sort)
    (isApp : t.isApp = true) : (t.replaceAll pairs).sort = t.sort := by
  cases t with
  | app f args =>
    cases key : lookupLast pairs (.app f args) with
    | none => rw [replaceAll_app key]; rfl
    | some => rw [replaceAll_key key]; exact (sorts _ (lookupLast_mem key)).symm
  | var => cases isApp
  | bind => cases isApp

end Term

/-! ## Substitutions that are built key by key -/

namespace Substitution
variable {σ τ : Substitution} {y : Term}

theorem get?_map_replace : get? (σ.map fun p => if p.1 = x then (p.1, t) else (p.1, p.2)) y =
    if y = x then (σ.get? y).map fun _ => t else σ.get? y := by
  induction σ with
  | nil => simp [get?]
  | cons p _ ih =>
    simp only [get?, map_cons, find?_cons] at ih ⊢
    by_cases eq : p.1 = x <;> by_cases here : p.1 = y <;> grind

theorem get?_append : get? (ps ++ qs) y = (get? ps y).or (get? qs y) := by
  simp only [get?, find?_append]
  cases List.find? (fun p => decide (p.1 = y)) ps <;> simp

theorem get?_set : (σ.set x t).get? y = if y = x then some t else σ.get? y := by
  unfold set
  by_cases has : (σ.get? x).isSome = true
  · rw [if_pos has]
    refine get?_map_replace.trans ?_
    by_cases eq : y = x
    · subst eq
      obtain ⟨u, hit⟩ := Option.isSome_iff_exists.1 has
      simp [hit]
    · simp [eq]
  · rw [if_neg has, get?_append]
    have none' : σ.get? x = none := by simpa using has
    by_cases eq : y = x
    · subst eq
      rw [none']
      simp [get?]
    · have : get? [(x, t)] y = none := by simp [get?, Ne.symm eq]
      simp [this, eq]

theorem mem_set {p : Term × Term} (mem : p ∈ σ.set x t) : p = (x, t) ∨ p ∈ σ := by
  unfold set at mem
  by_cases has : (σ.get? x).isSome = true
  · rw [if_pos has] at mem
    obtain ⟨q, old, rfl⟩ := mem_map.1 mem
    by_cases eq : q.1 = x
    · exact .inl (by simp [eq])
    · exact .inr (by simpa [eq] using old)
  · rw [if_neg has] at mem
    simpa [or_comm] using mem

theorem get?_eq_none : σ.get? y = none ↔ y ∉ σ.map fst := by
  simp only [get?, Option.map_eq_none_iff, find?_eq_none, decide_eq_true_eq, mem_map, not_exists, not_and]

theorem mem_of_get? (hit : σ.get? y = some t) : (y, t) ∈ σ := by
  obtain ⟨p, first, rfl⟩ := Option.map_eq_some_iff.1 hit
  have key : p.1 = y := by simpa using find?_some first
  exact key ▸ mem_of_find?_eq_some first

theorem nodup_set (nodup : (σ.map fst).Nodup) : ((σ.set x t).map fst).Nodup := by
  unfold set
  by_cases has : (σ.get? x).isSome = true
  · rw [if_pos has, map_map]
    refine (map_congr_left fun p _ => ?_ : _ = σ.map fst) ▸ nodup
    by_cases eq : p.1 = x <;> simp [eq]
  · rw [if_neg has, map_append]
    have new : x ∉ σ.map fst := get?_eq_none.1 (by simpa using has)
    exact nodup.append (by simp) (by simpa using new)

theorem get?_of_mem (nodup : (σ.map fst).Nodup) {p : Term × Term} (mem : p ∈ σ) : σ.get? p.1 = some p.2 := by
  induction σ with
  | nil => cases mem
  | cons q _ ih =>
    obtain ⟨new, nodup⟩ := nodup_cons.1 nodup
    rcases mem_cons.1 mem with rfl | mem
    · simp [get?]
    · have other : q.1 ≠ p.1 := fun same => new (same ▸ mem_map_of_mem mem)
      simpa [get?, find?_cons, other] using ih nodup mem

theorem lookupLast_eq_get? (nodup : (σ.map fst).Nodup) (y : Term) : lookupLast σ y = σ.get? y := by
  induction σ with
  | nil => rfl
  | cons p σ ih =>
    obtain ⟨new, nodup⟩ := nodup_cons.1 nodup
    have rest := ih nodup
    simp only [lookupLast, get?, reverse_cons, find?_append, find?_cons] at rest ⊢
    by_cases same : p.1 = y
    · have absent : σ.reverse.find? (fun q => decide (q.1 = y)) = none := by
        simp only [find?_eq_none, mem_reverse, decide_eq_true_eq]
        exact fun q mem eq => new (mem_map.2 ⟨q, mem, eq.trans same.symm⟩)
      simp [absent, same]
    · simpa [same] using rest

/-- The keys of `τ` are set one after the other. -/
def setAll (σ τ : Substitution) : Substitution := τ.foldl (fun σ p => σ.set p.1 p.2) σ

theorem get?_setAll (nodup : (τ.map fst).Nodup) : (σ.setAll τ).get? y = (τ.get? y).or (σ.get? y) := by
  induction τ generalizing σ with
  | nil => simp [setAll, get?]
  | cons p _ ih =>
    obtain ⟨new, nodup⟩ := nodup_cons.1 nodup
    refine (ih nodup).trans ?_
    rw [get?_set]
    by_cases eq : p.1 = y
    · subst eq
      rw [get?_eq_none.2 new]
      simp [get?]
    · simp [get?, eq, Ne.symm eq]

theorem mem_setAll {p : Term × Term} (mem : p ∈ σ.setAll τ) : p ∈ τ ∨ p ∈ σ := by
  induction τ generalizing σ with
  | nil => exact .inr mem
  | cons q _ ih =>
    rcases ih mem with later | now
    · exact .inl (mem_cons_of_mem q later)
    · rcases mem_set now with rfl | old
      · exact .inl mem_cons_self
      · exact .inr old

theorem nodup_setAll (nodup : (σ.map fst).Nodup) : ((σ.setAll τ).map fst).Nodup := by
  induction τ generalizing σ with
  | nil => exact nodup
  | cons _ _ ih => exact ih (nodup_set nodup)

end Substitution

/-! ## Inductive datatypes -/

theorem Symbol.proper_of_role (role : ∀ is, f.role ≠ .builtin is) : f.Proper := by
  intro name _ op
  unfold isOp at op
  split at op
  · exact absurd ‹_› (role _)
  · cases op

/-- The symbols of a constructor of the sort `s` fit together. -/
structure Constructor.Made (s : Srt) (c : Constructor) : Prop where
  role : c.symbol.role = .constructor
  range : c.symbol.range = s
  ranges : c.accessors.map Symbol.range = c.symbol.domain
  accessor : ∀ a ∈ c.accessors, a.domain = [s] ∧ ∃ n i, a.role = .accessor n i
  recognizer : c.recognizer.domain = [s] ∧ c.recognizer.range = .bool ∧ ∃ n, c.recognizer.role = .recognizer n

theorem Datatype.made (made : ∃ cons, d = .make d.name cons) (mem : c ∈ d.constructors) : c.Made d.sort := by
  obtain ⟨cons, made⟩ := made
  rw [made] at mem
  obtain ⟨⟨name, fields⟩, -, rfl⟩ := mem_map.1 mem
  refine ⟨rfl, rfl, ?_, ?_, rfl, rfl, name, rfl⟩
  · simp only [map_map]
    have : fields.map snd = (fields.zipIdx.map fst).map snd := by rw [zipIdx_map_fst]
    rw [this, map_map]
    exact map_congr_left fun p _ => rfl
  · intro a mem
    obtain ⟨p, -, rfl⟩ := mem_map.1 mem
    exact ⟨rfl, name, p.2, rfl⟩

def World.Declares (w : World) : Prop := ∀ d ∈ w.datatypes, ∃ cons, d = .make d.name cons

/-- Only operations with a fixed meaning take any number of arguments, literals take none, and a constructor is one of the
datatype of its range. -/
structure Symbol.Known (w : World) (f : Symbol) (n : Nat) : Prop where
  arity : (∀ is, f.role ≠ .builtin is) → f.arity = n
  literal : f.isLiteral = true → f.arity = 0
  constructor : f.isConstructor = true → ∃ d c, w.datatype? f.range = some d ∧ c ∈ d.constructors ∧ c.symbol = f

/-- All symbols of the term, below binders apart, stand before arguments as they can. -/
def Term.Known (w : World) (t : Term) : Prop := ∀ f args, .app f args ∈ t.subterms false → f.Known w args.length

theorem Term.Known.of_mem (known : Known w (.app f args)) (mem : a ∈ args) : a.Known w :=
  fun g bs sub => known g bs (mem_subterms_arg mem sub)

theorem Term.known_app : (app f args).Known w ↔ f.Known w args.length ∧ ∀ a ∈ args, a.Known w := by
  constructor
  · exact fun known => ⟨known f args (self_mem_subterms _ _), fun a mem => known.of_mem mem⟩
  rintro ⟨head, inside⟩ g bs sub
  rcases mem_subterms_app.1 sub with eq | ⟨a, mem, sub⟩
  · cases eq
    exact head
  · exact inside a mem g bs sub

namespace Frame
variable {U : Type u} (F : Frame U) (w : World)

/-- `v` is made by a constructor from `u` and others. -/
def Part (u v : U) : Prop :=
  ∃ d ∈ w.datatypes, ∃ c ∈ d.constructors, ∃ us, F.Fits us c.symbol.domain ∧ v = F.fn c.symbol us ∧ u ∈ us

/-- What constructors make can be recognized and taken apart, and that comes to an end. -/
structure Inductive : Prop where
  recognizes : ∀ d ∈ w.datatypes, ∀ c ∈ d.constructors, ∀ u ∈ F.carrier d.sort,
    (F.fn c.recognizer [u] = F.yes ↔ ∃ us, F.Fits us c.symbol.domain ∧ u = F.fn c.symbol us)
  reads : ∀ d ∈ w.datatypes, ∀ c ∈ d.constructors, ∀ us, F.Fits us c.symbol.domain →
    (c.accessors.map fun a => F.fn a [F.fn c.symbol us]) = us
  wellFounded : WellFounded (F.Part w)

variable {F w} {G : Frame U} {P : Symbol → Prop}

theorem AgreeOutside.fits (agree : F.AgreeOutside P G) : F.Fits = G.Fits := by
  funext us ss
  simp only [Fits, agree.carrier]

theorem AgreeOutside.inductive (agree : F.AgreeOutside P G) (free : ∀ f, P f → f.isFree = true) (declares : w.Declares)
    (types : F.Inductive w) : G.Inductive w ∧ G.Part w = F.Part w := by
  have fixed {f : Symbol} (role : f.role ≠ .free ∧ f.role ≠ .fresh) : G.fn f = F.fn f := by
    refine (agree.fn f fun p => ?_).symm
    have := free f p
    unfold isFree at this
    split at this <;> simp_all
  have symbol {d : Datatype} (hd : d ∈ w.datatypes) {c : Constructor} (hc : c ∈ d.constructors) :
      G.fn c.symbol = F.fn c.symbol := fixed (by simp [(Datatype.made (declares d hd) hc).role])
  have part : G.Part w = F.Part w := by
    funext u v
    refine propext (exists_congr fun d => and_congr_right fun hd => exists_congr fun c => and_congr_right fun hc => ?_)
    rw [symbol hd hc, agree.fits]
  refine ⟨⟨fun d hd c hc u mem => ?_, fun d hd c hc us fits => ?_, part ▸ types.wellFounded⟩, part⟩
  · obtain ⟨-, -, n, role⟩ := (Datatype.made (declares d hd) hc).recognizer
    rw [fixed (by simp [role]), symbol hd hc, ← agree.yes, ← agree.fits]
    exact types.recognizes d hd c hc u (agree.carrier ▸ mem)
  rw [symbol hd hc]
  refine (map_congr_left fun a mem' => ?_).trans (types.reads d hd c hc us (agree.fits ▸ fits))
  obtain ⟨-, n, i, role⟩ := (Datatype.made (declares d hd) hc).accessor a mem'
  rw [fixed (by simp [role])]

end Frame

/-! ## Matches -/

namespace Datatype

/-- A constant that a pattern takes for a variable. -/
def isVariable (w : World) : Term → Bool
  | .app f [] => !f.isConstructor && !isComparedLiteral (.app f []) && !w.isDefined f
  | _ => false

/-- A term of constructors over constants. -/
inductive IsPattern (w : World) : Term → Prop
  | construct {f : Symbol} {args : List Term} {d : Datatype} {c : Constructor} (role : f.isConstructor = true)
      (found : w.datatype? f.range = some d) (mem : c ∈ d.constructors) (symbol : c.symbol = f)
      (arity : f.arity = args.length) (fields : ∀ a ∈ args, IsPattern w a) : IsPattern w (.app f args)
  | leaf {f : Symbol} (other : f.isConstructor = false) : IsPattern w (.app f [])

theorem isVariable_constructor (role : f.isConstructor = true) : isVariable w (.app f args) = false := by
  cases args <;> simp [isVariable, role]

/-- Variables have values of their sorts, conditions are formulas, and no symbol of `P` occurs. -/
structure Match.Clean (w : World) (P : Symbol → Prop) (m : Match) : Prop where
  nodup : (m.values.map fst).Nodup
  keys : ∀ p ∈ m.values, isVariable w p.1 = true
  values : ∀ p ∈ m.values, p.1.sort = p.2.sort ∧ p.2.Sorted true [] ∧ p.2.Avoids P
  conditions : ∀ c ∈ m.conditions, c.sort = .bool ∧ c.Sorted true [] ∧ c.Avoids P

variable {P : Symbol → Prop} {m m₁ m₂ m₃ : Match}

theorem isVariable_closed (variable' : isVariable w v = true) : v.Closed := by
  unfold isVariable at variable'
  split at variable'
  · exact closed_app.2 (by simp)
  · cases variable'

theorem Match.Clean.empty : (({} : Match)).Clean w P := ⟨by simp, by simp, by simp, by simp⟩

theorem Match.Clean.get?_of_not (clean : m.Clean w P) (other : isVariable w v = false) : m.values.get? v = none := by
  refine get?_eq_none.2 fun key => ?_
  obtain ⟨p, mem, rfl⟩ := mem_map.1 key
  rw [clean.keys p mem] at other
  cases other

theorem Match.Clean.exchange (clean : m.Clean w P) : Term.Exchange m.values :=
  fun p mem => ⟨isVariable_closed (clean.keys p mem), (clean.values p mem).2.1.closed, (clean.values p mem).1⟩

theorem Match.Clean.lookup (clean : m.Clean w P) (v : Term) : lookupLast m.values v = m.values.get? v :=
  lookupLast_eq_get? clean.nodup v

theorem Match.Clean.require (clean : m.Clean w P) {c : Term} (new : c.sort = .bool ∧ c.Sorted true [] ∧ c.Avoids P) :
    Match.Clean w P { m with conditions := m.conditions ++ [c] } where
  nodup := clean.nodup
  keys := clean.keys
  values := clean.values
  conditions c' mem := by
    rcases mem_append.1 mem with old | last
    · exact clean.conditions c' old
    · exact mem_singleton.1 last ▸ new

theorem Match.Clean.set (clean : m.Clean w P) (key : isVariable w v = true) (sort : v.sort = x.sort)
    (sorted : x.Sorted true []) (apart : x.Avoids P) : Match.Clean w P { m with values := m.values.set v x } where
  nodup := nodup_set clean.nodup
  keys p mem := (mem_set mem).elim (fun new => new ▸ key) (clean.keys p)
  values p mem := (mem_set mem).elim (fun new => new ▸ ⟨sort, sorted, apart⟩) (clean.values p)
  conditions := clean.conditions

section
variable {U : Type u} {H : Frame U}

def Match.True (H : Frame U) (m : Match) : Prop := ∀ c ∈ m.conditions, H.Holds c

/-- The second match adds conditions, under which the variables of the first keep their values. -/
structure Match.Grows (H : Frame U) (m m' : Match) : Prop where
  conditions : m.conditions ⊆ m'.conditions
  values : ∀ v t, m.values.get? v = some t → ∃ t', m'.values.get? v = some t' ∧ (m'.True H → H.eval [] t' = H.eval [] t)

theorem Match.Grows.refl (m : Match) : m.Grows H m := ⟨fun _ h => h, fun _ t found => ⟨t, found, fun _ => rfl⟩⟩

theorem Match.Grows.true (grows : m₁.Grows H m₂) (true' : m₂.True H) : m₁.True H := fun c mem => true' c (grows.conditions mem)

theorem Match.Grows.trans (h : m₁.Grows H m₂) (h' : m₂.Grows H m₃) : m₁.Grows H m₃ where
  conditions _ mem := h'.conditions (h.conditions mem)
  values v t found := by
    obtain ⟨t', found', eq⟩ := h.values v t found
    obtain ⟨t'', found'', eq'⟩ := h'.values v t' found'
    exact ⟨t'', found'', fun true' => (eq' true').trans (eq (h'.true true'))⟩

theorem Match.Grows.require (m : Match) (c : Term) : m.Grows H { m with conditions := m.conditions ++ [c] } :=
  ⟨fun _ mem => mem_append_left _ mem, fun _ t found => ⟨t, found, fun _ => rfl⟩⟩

theorem eval_replaceAll_grows (pat : IsPattern w p) (clean : m₁.Clean w P) (clean' : m₂.Clean w P)
    (grows : m₁.Grows H m₂) (true' : m₂.True H)
    (bound : ∀ v ∈ p.subterms false, isVariable w v = true → ∃ t, m₁.values.get? v = some t) :
    H.eval [] (p.replaceAll m₂.values) = H.eval [] (p.replaceAll m₁.values) := by
  induction pat with
  | @construct f args _ _ role _ mem _ _ _ ih =>
    have other : isVariable w (.app f args) = false := isVariable_constructor role
    rw [replaceAll_app (by rw [clean'.lookup, clean'.get?_of_not other]),
      replaceAll_app (by rw [clean.lookup, clean.get?_of_not other]), eval_app, eval_app, map_map, map_map]
    refine congrArg _ (map_congr_left fun a mem => ?_)
    exact ih a mem fun v sub => bound v (mem_subterms_arg mem sub)
  | @leaf f =>
    cases key : isVariable w (.app f []) with
    | true =>
      obtain ⟨t, hit⟩ := bound _ (self_mem_subterms _ _) key
      obtain ⟨t', hit', eq⟩ := grows.values _ _ hit
      rw [replaceAll_key (by rw [clean'.lookup, hit']), replaceAll_key (by rw [clean.lookup, hit])]
      exact eq true'
    | false =>
      rw [replaceAll_app (by rw [clean'.lookup, clean'.get?_of_not key]),
        replaceAll_app (by rw [clean.lookup, clean.get?_of_not key])]
      rfl

/-- A term and a pattern of its sort, in which equality is plain equality. -/
structure Ready (w : World) (P : Symbol → Prop) (x p : Term) : Prop where
  sort : x.sort = p.sort
  term : x.Sorted true []
  apart : x.Avoids P
  pattern : p.Sorted true []
  patternApart : p.Avoids P
  plain : ∀ t ∈ p.subterms false, w.method? "eq" t.sort = none

structure Matched (H : Frame U) (w : World) (P : Symbol → Prop) (x p : Term) (m m' : Match) : Prop where
  clean : m'.Clean w P
  grows : m.Grows H m'
  keys : ∀ v t, m'.values.get? v = some t → (∃ t, m.values.get? v = some t) ∨ v ∈ p.subterms false
  bound : ∀ v ∈ p.subterms false, isVariable w v = true → ∃ t, m'.values.get? v = some t
  /-- Where the conditions hold, the pattern with the values is the term. -/
  value : m'.True H → H.eval [] (p.replaceAll m'.values) = H.eval [] x

theorem requireEq_eq_ok (ok : m.requireEq w x t = .ok m') (sort : x.sort = t.sort)
    (plain : w.method? "eq" x.sort = none) (sorted : x.Sorted true [] ∧ t.Sorted true [])
    (free : ∀ f, P f → f.isFree = true) (apart : x.Avoids P ∧ t.Avoids P) :
    ∃ c, m' = { m with conditions := m.conditions ++ [c] } ∧ (c.sort = .bool ∧ c.Sorted true [] ∧ c.Avoids P) ∧
      ∀ {U : Type u} (H : Frame U), H.Holds c ↔ H.eval [] x = H.eval [] t := by
  obtain ⟨c, made, last⟩ := bind_eq_ok.1 ok
  have eq_clean : ∀ {a b : Term}, a.sort = x.sort → b.sort = x.sort → a.Sorted true [] → b.Sorted true [] →
      a.Avoids P → b.Avoids P → (app (.eq x.sort) [a, b]).sort = .bool ∧
        (app (.eq x.sort) [a, b]).Sorted true [] ∧ (app (.eq x.sort) [a, b]).Avoids P := by
    intro a b ha hb sa sb na nb
    refine ⟨rfl, sorted_eq.2 ⟨⟨ha, hb⟩, sa, sb⟩, avoids_app.2 ⟨fun named => ?_, by simp [na, nb]⟩⟩
    cases free _ named
  refine ⟨c, (Except.ok.inj last).symm, ?_⟩
  rcases Kernel.equate_of_sort sort plain with eq | eq <;> rw [eq] at made <;> cases made
  · exact ⟨eq_clean rfl sort.symm sorted.1 sorted.2 apart.1 apart.2, fun H => Frame.eval_eq⟩
  · exact ⟨eq_clean sort.symm rfl sorted.2 sorted.1 apart.2 apart.1, fun H => Frame.eval_eq.trans eq_comm⟩

theorem args_of_isComparedLiteral (literal : isComparedLiteral (.app f args) = true)
    (known : f.Known w args.length) : args = [] := by
  have of_literal (is : f.isLiteral = true) : args = [] := by
    have arity := known.arity (fun is' role => by simp [isLiteral, role] at is)
    rw [known.literal is] at arity
    exact length_eq_zero_iff.1 arity.symm
  simp only [isComparedLiteral, Bool.or_eq_true, decide_eq_true_eq] at literal
  rcases literal with ((int | rat) | tt) | ff
  · refine of_literal ?_
    unfold int? at int
    split at int
    · simp_all [isLiteral]
    · cases int
  · refine of_literal ?_
    unfold rat? at rat
    split at rat
    · simp_all [isLiteral]
    · cases rat
  · exact (app.inj tt).2
  · exact (app.inj ff).2

theorem matched_compare (ok : m.requireEq w x (.app f []) = .ok m')
    (ready : Ready w P x (.app f [])) (free : ∀ f, P f → f.isFree = true) (clean : m.Clean w P)
    (compared : isVariable w (.app f []) = false) : Matched H w P x (.app f []) m m' := by
  have plain : w.method? "eq" x.sort = none := ready.sort ▸ ready.plain _ (self_mem_subterms _ _)
  obtain ⟨c, rfl, good, holds⟩ := requireEq_eq_ok ok ready.sort plain ⟨ready.term, ready.pattern⟩
    free ⟨ready.apart, ready.patternApart⟩
  have clean' := clean.require good
  refine ⟨clean', .require m c, fun v t hit => .inl ⟨t, hit⟩, fun v sub key => ?_, fun true' => ?_⟩
  · rw [mem_subterms_app] at sub
    obtain rfl : v = .app f [] := by simpa using sub
    rw [compared] at key
    cases key
  · rw [replaceAll_app (by rw [clean.lookup, clean.get?_of_not compared])]
    exact ((holds H).1 (true' c (by simp))).symm

theorem matched_variable {m' : Match} (ok : (match m.values.get? (.app f []) with
      | some t => do
        let m ← m.requireEq w x t
        return { m with values := m.values.set (.app f []) x }
      | none => .ok { m with values := m.values.set (.app f []) x } : Checked Match) = .ok m')
    (ready : Ready w P x (.app f [])) (free : ∀ f, P f → f.isFree = true) (clean : m.Clean w P)
    (key : isVariable w (.app f []) = true) : Matched H w P x (.app f []) m m' := by
  have set_matched {m₁ : Match} (clean : m₁.Clean w P) (grows : m.Grows H m₁) (values : m₁.values = m.values)
      (same : ∀ t, m.values.get? (.app f []) = some t → m₁.True H → H.eval [] x = H.eval [] t) :
      Matched H w P x (.app f []) m { m₁ with values := m₁.values.set (.app f []) x } := by
    have clean' := clean.set key ready.sort.symm ready.term ready.apart
    refine ⟨clean', ⟨grows.conditions, fun v t hit => ?_⟩, fun v t hit => ?_, fun v sub _ => ?_, fun _ => ?_⟩
    · rw [get?_set, values]
      by_cases here : v = .app f []
      · subst here
        exact ⟨x, by simp, same t hit⟩
      · exact ⟨t, by simp [here, hit], fun _ => rfl⟩
    · rw [get?_set, values] at hit
      by_cases here : v = .app f []
      · exact .inr (here ▸ self_mem_subterms _ _)
      · exact .inl ⟨t, by simpa [here] using hit⟩
    · obtain rfl : v = .app f [] := by simpa [mem_subterms_app] using sub
      exact ⟨x, by simp [get?_set]⟩
    · rw [replaceAll_key (by rw [clean'.lookup, get?_set, if_pos rfl])]
  cases hit : m.values.get? (.app f []) with
  | none =>
    rw [hit] at ok
    cases ok
    exact set_matched clean (.refl m) rfl fun t hit' => by simp [hit] at hit'
  | some =>
    rw [hit] at ok
    obtain ⟨m₁, step, last⟩ := bind_eq_ok.1 ok
    cases last
    obtain ⟨sort, sorted, apart⟩ := clean.values _ (mem_of_get? hit)
    have plain : w.method? "eq" x.sort = none := ready.sort ▸ ready.plain _ (self_mem_subterms _ _)
    obtain ⟨c, rfl, good, holds⟩ := requireEq_eq_ok step (ready.sort.trans sort) plain ⟨ready.term, sorted⟩
      free ⟨ready.apart, apart⟩
    refine set_matched (clean.require good) (.require m c) rfl fun t' hit' true' => ?_
    rw [hit] at hit'
    cases hit'
    exact (holds H).1 (true' c (by simp))

structure FieldsMatched (H : Frame U) (w : World) (P : Symbol → Prop) (x : Term) (as : List Symbol) (ps : List Term)
    (m m' : Match) : Prop where
  clean : m'.Clean w P
  grows : m.Grows H m'
  keys : ∀ v t, m'.values.get? v = some t → (∃ t, m.values.get? v = some t) ∨ ∃ p ∈ ps, v ∈ p.subterms false
  bound : ∀ p ∈ ps, ∀ v ∈ p.subterms false, isVariable w v = true → ∃ t, m'.values.get? v = some t
  value : m'.True H → (ps.map fun p => H.eval [] (p.replaceAll m'.values)) = as.map fun a => H.fn a [H.eval [] x]

theorem matchFields_matched {ps : List Term} (shapes : ∀ p ∈ ps, IsPattern w p)
    (ih : ∀ p ∈ ps, ∀ {y : Term} {m m' : Match}, matchPattern w y m p = .ok m' → Ready w P y p → m.Clean w P →
      Matched H w P y p m m')
    (patterns : ∀ p ∈ ps, p.Sorted true [] ∧ p.Avoids P ∧ ∀ t ∈ p.subterms false, w.method? "eq" t.sort = none) :
    ∀ {as : List Symbol} {m m' : Match}, matchFields w x m as ps = .ok m' → as.map Symbol.range = ps.map Term.sort →
      (∀ a ∈ as, a.apply [x] = .ok (.app a [x]) ∧ (app a [x]).Sorted true [] ∧ (app a [x]).Avoids P) →
      m.Clean w P → FieldsMatched H w P x as ps m m' := by
  induction ps with
  | nil =>
    intro as m m' ok sorts _ clean
    obtain rfl : as = [] := by simpa using sorts
    cases ok
    exact ⟨clean, .refl m, fun v t hit => .inl ⟨t, hit⟩, by simp, fun _ => rfl⟩
  | cons p _ tail =>
    intro as m m' ok sorts reads clean
    cases as with
    | nil => cases sorts
    | cons a =>
      obtain ⟨sort, sorts⟩ := List.cons.inj sorts
      obtain ⟨m₁, rest, step⟩ := bind_eq_ok.1 ok
      obtain ⟨apply, sorted, apart⟩ := reads a mem_cons_self
      rw [apply] at step
      have others := tail (fun q mem => shapes q (mem_cons_of_mem p mem)) (fun q mem => ih q (mem_cons_of_mem p mem))
        (fun q mem => patterns q (mem_cons_of_mem p mem)) rest sorts
        (fun b mem => reads b (mem_cons_of_mem a mem)) clean
      obtain ⟨pat, patternApart, plain⟩ := patterns p mem_cons_self
      have first := ih p mem_cons_self step ⟨sort, sorted, apart, pat, patternApart, plain⟩ others.clean
      refine ⟨first.clean, others.grows.trans first.grows, ?_, ?_, ?_⟩
      · intro v t hit
        rcases first.keys v t hit with ⟨t', earlier⟩ | here
        · rcases others.keys v t' earlier with old | ⟨q, mem, sub⟩
          · exact .inl old
          · exact .inr ⟨q, mem_cons_of_mem p mem, sub⟩
        · exact .inr ⟨p, mem_cons_self, here⟩
      · intro q mem v sub key
        rcases mem_cons.1 mem with rfl | mem
        · exact first.bound v sub key
        · obtain ⟨t, hit⟩ := others.bound q mem v sub key
          obtain ⟨t', hit', -⟩ := first.grows.values v t hit
          exact ⟨t', hit'⟩
      · intro true'
        have here : H.eval [] (p.replaceAll m'.values) = H.fn a [H.eval [] x] := by
          rw [first.value true', eval_app, map_singleton]
        have later := others.value (first.grows.true true')
        rw [map_cons, map_cons, here, ← later]
        refine congrArg _ (map_congr_left fun q mem => ?_)
        exact eval_replaceAll_grows (shapes q (mem_cons_of_mem p mem)) others.clean first.clean first.grows true'
          (others.bound q mem)

theorem constructorOf_known (hit : w.datatype? f.range = some d) (mem : c ∈ d.constructors)
    (symbol : c.symbol = f) : ∃ c' ∈ d.constructors, c'.symbol = f ∧ constructorOf w f = .ok c' := by
  cases first : d.constructors.find? (·.symbol = f) with
  | none => exact absurd symbol (by simpa using find?_eq_none.1 first c mem)
  | some c' =>
    refine ⟨c', mem_of_find?_eq_some first, by simpa using find?_some first, ?_⟩
    simp [constructorOf, hit, first]

theorem datatype?_eq_some {s : Srt} (hit : w.datatype? s = some d) : d ∈ w.datatypes ∧ d.sort = s :=
  ⟨mem_of_find?_eq_some hit, by simpa using find?_some hit⟩

theorem matched_construct {m' : Match} (declares : w.Declares) (types : H.Inductive w)
    (free : ∀ f, P f → f.isFree = true) (role : f.isConstructor = true) (hit : w.datatype? f.range = some d)
    (member₀ : c₀ ∈ d.constructors) (symbol₀ : c₀.symbol = f) (arity : f.arity = args.length)
    (shapes : ∀ p ∈ args, IsPattern w p) (ok : (do
      let c ← constructorOf w f
      let here ← c.recognizer.apply [x]
      matchFields w x { m with conditions := m.conditions ++ [here] } c.accessors args : Checked Match) = .ok m')
    (ready : Ready w P x (.app f args)) (clean : m.Clean w P)
    (ih : ∀ p ∈ args, ∀ {y : Term} {m m' : Match}, matchPattern w y m p = .ok m' → Ready w P y p → m.Clean w P →
      Matched H w P y p m m') : Matched H w P x (.app f args) m m' := by
  obtain ⟨c, mem, symbol, chosen⟩ := constructorOf_known hit member₀ symbol₀
  obtain ⟨declared, sort⟩ := datatype?_eq_some hit
  have made := Datatype.made (declares d declared) mem
  have xsort : x.sort = d.sort := ready.sort.trans sort.symm
  -- the recognizer and the accessors apply to the term as it is
  have reads {a : Symbol} (dom : a.domain = [d.sort]) (builtin : ∀ is, a.role ≠ .builtin is) (fixed : a.isFree = false) :
      a.apply [x] = .ok (.app a [x]) ∧ (app a [x]).Sorted true [] ∧ (app a [x]).Avoids P := by
    refine ⟨Kernel.apply_of_sorts (by simp [dom, xsort]), sorted_app.2 ⟨Symbol.proper_of_role builtin, ?_, ?_⟩, ?_⟩
    · simp [placesOf, Symbol.arity, dom, xsort]
    · simpa using ready.term
    · refine avoids_app.2 ⟨fun named => ?_, by simpa using ready.apart⟩
      rw [free a named] at fixed
      cases fixed
  obtain ⟨dom, range, n, recognizer⟩ := made.recognizer
  obtain ⟨apply, sorted, apart⟩ := reads dom (by simp [recognizer]) (by simp [isFree, recognizer])
  rw [chosen] at ok
  obtain ⟨here, first, rest⟩ := bind_eq_ok.1 (show (c.recognizer.apply [x] >>= _) = _ from ok)
  rw [apply] at first
  cases first
  have sorts : args.map Term.sort = f.domain := by rw [(sorted_app.1 ready.pattern).2.1, placesOf, if_pos arity]
  have fields := matchFields_matched shapes ih
    (fun p inside => ⟨(sorted_app.1 ready.pattern).2.2 p inside, (avoids_app.1 ready.patternApart).2 p inside,
      fun t sub => ready.plain t (mem_subterms_arg inside sub)⟩)
    rest (by rw [made.ranges, symbol, sorts])
    (fun a inside => by
      obtain ⟨dom, n, i, accessor⟩ := made.accessor a inside
      exact reads dom (by simp [accessor]) (by simp [isFree, accessor]))
    (clean.require ⟨range, sorted, apart⟩)
  have other : isVariable w (.app f args) = false := isVariable_constructor role
  refine ⟨fields.clean, (Match.Grows.require m _).trans fields.grows, fun v t bound => ?_, fun v sub key => ?_, fun true' => ?_⟩
  · rcases fields.keys v t bound with old | ⟨p, inside, sub⟩
    · exact .inl old
    · exact .inr (mem_subterms_arg inside sub)
  · rcases mem_subterms_app.1 sub with rfl | ⟨p, inside, sub⟩
    · rw [other] at key
      cases key
    · exact fields.bound p inside v sub key
  have recognized : H.fn c.recognizer [H.eval [] x] = H.yes := by
    have := true' _ (fields.grows.conditions (mem_append_right _ mem_cons_self))
    simpa [Frame.Holds, eval_app] using this
  obtain ⟨us, fits, built⟩ := (types.recognizes d declared c mem _ (xsort ▸ H.eval_mem ready.term .nil)).1 recognized
  have vals := (fields.value true').trans (built ▸ types.reads d declared c mem us fits)
  rw [replaceAll_app (by rw [fields.clean.lookup, fields.clean.get?_of_not other]), eval_app, map_map, built, symbol]
  exact congrArg _ vals

theorem isPattern_of_matchPattern (declares : w.Declares) : ∀ {x : Term} {m m' : Match},
    matchPattern w x m p = .ok m' → p.Known w → IsPattern w p := by
  induction p with
  | var => intro x m m' ok; cases ok
  | bind => intro x m m' ok; cases ok
  | app f args ih =>
    intro x m m' ok known
    have here := known f args (self_mem_subterms _ _)
    rw [matchPattern] at ok
    cases role : f.isConstructor with
    | true =>
      rw [if_pos role] at ok
      obtain ⟨d, c₀, hit, member₀, symbol₀⟩ := here.constructor role
      obtain ⟨c, mem, symbol, chosen⟩ := constructorOf_known hit member₀ symbol₀
      have arity : f.arity = args.length := here.arity fun is builtin => by simp [Symbol.isConstructor, builtin] at role
      have len : c.accessors.length = args.length := by
        have made := Datatype.made (declares d (datatype?_eq_some hit).1) mem
        rw [← arity, ← symbol, Symbol.arity, ← made.ranges, length_map]
      rw [chosen] at ok
      obtain ⟨recognized, -, fields⟩ := bind_eq_ok.1 (show (c.recognizer.apply [x] >>= _) = _ from ok)
      have each : ∀ {as : List Symbol} {ps : List Term} {m m' : Match}, as.length = ps.length →
          matchFields w x m as ps = .ok m' → ∀ p ∈ ps, ∃ y m₁ m₂, matchPattern w y m₁ p = .ok m₂ := by
        intro as ps
        induction ps generalizing as with
        | nil => simp
        | cons _ _ tail =>
          intro m m' len ok
          cases as with
          | nil => cases len
          | cons =>
            obtain ⟨m₁, rest, step⟩ := bind_eq_ok.1 ok
            obtain ⟨y, -, matched⟩ := bind_eq_ok.1 step
            intro q inside
            rcases mem_cons.1 inside with rfl | inside
            · exact ⟨y, m₁, m', matched⟩
            · exact tail (by simpa using len) rest q inside
      refine .construct role hit member₀ symbol₀ arity fun p inside => ?_
      obtain ⟨y, m₁, m₂, matched⟩ := each len fields p inside
      exact ih p inside matched (known.of_mem inside)
    | false =>
      by_cases const : args = []
      · exact const ▸ .leaf role
      have literal : ¬ isComparedLiteral (.app f args) = true :=
        fun literal => const (args_of_isComparedLiteral literal here)
      simp only [role, Bool.false_eq_true, if_false, literal] at ok
      rw [if_pos (by simpa using const)] at ok
      cases ok

/-- Where the conditions of a match hold, the pattern with the values for its variables is the term. -/
theorem matchPattern_matched (declares : w.Declares) (types : H.Inductive w) (free : ∀ f, P f → f.isFree = true)
    (shape : IsPattern w p) : ∀ {x : Term} {m m' : Match}, matchPattern w x m p = .ok m' → Ready w P x p → m.Clean w P →
      Matched H w P x p m m' := by
  induction shape with
  | construct role hit mem symbol arity fields ih =>
    intro x m m' ok ready clean
    rw [matchPattern, if_pos role] at ok
    exact matched_construct declares types free role hit mem symbol arity fields ok ready clean ih
  | @leaf f role =>
    intro x m m' ok ready clean
    rw [matchPattern] at ok
    simp only [role, Bool.false_eq_true, if_false] at ok
    by_cases literal : isComparedLiteral (.app f []) = true
    · rw [if_pos literal] at ok
      exact matched_compare ok ready free clean (by simp [isVariable, literal])
    by_cases defined : w.isDefined f = true
    · simp only [literal, isEmpty_nil, Bool.not_true, Bool.false_eq_true, if_false, defined, if_true] at ok
      exact matched_compare ok ready free clean (by simp [isVariable, defined])
    · simp only [literal, isEmpty_nil, Bool.not_true, Bool.false_eq_true, if_false, defined] at ok
      exact matched_variable ok ready free clean (by simp [isVariable, role, literal, defined])

/-! ### Parts of patterns -/

theorem IsPattern.of_mem_subterms (pat : IsPattern w p) (sub : q ∈ p.subterms false) : IsPattern w q := by
  induction pat with
  | construct role hit mem symbol arity fields ih =>
    rcases mem_subterms_app.1 sub with rfl | ⟨a, inside, sub⟩
    · exact .construct role hit mem symbol arity fields
    · exact ih a inside sub
  | leaf other =>
    obtain rfl : q = .app _ [] := by simpa [mem_subterms_app] using sub
    exact .leaf other

theorem IsPattern.replaceAll_congr (pat : IsPattern w p) (clean : m₁.Clean w P) (clean' : m₂.Clean w P)
    (eq : ∀ v ∈ p.subterms false, isVariable w v = true → m₁.values.get? v = m₂.values.get? v) :
    p.replaceAll m₁.values = p.replaceAll m₂.values := by
  induction pat with
  | @construct f args _ _ role _ _ _ _ _ ih =>
    have other : isVariable w (.app f args) = false := isVariable_constructor role
    rw [replaceAll_app (by rw [clean.lookup, clean.get?_of_not other]),
      replaceAll_app (by rw [clean'.lookup, clean'.get?_of_not other])]
    exact congrArg _ (map_congr_left fun a inside =>
      ih a inside fun v sub => eq v (mem_subterms_arg inside sub))
  | @leaf f =>
    have lookup : m₁.values.get? (.app f []) = m₂.values.get? (.app f []) := by
      cases key : isVariable w (.app f []) with
      | true => exact eq _ (self_mem_subterms _ _) key
      | false => rw [clean.get?_of_not key, clean'.get?_of_not key]
    rw [replaceAll, replaceAll, clean.lookup, clean'.lookup, lookup]
    rfl

theorem IsPattern.part (pat : IsPattern w p) (sorted : p.Sorted true []) (clean : m.Clean w P)
    (sub : q ∈ p.subterms false) : q = p ∨
      Relation.TransGen (H.Part w) (H.eval [] (q.replaceAll m.values)) (H.eval [] (p.replaceAll m.values)) := by
  induction pat with
  | @construct f args d c role hit mem symbol arity _ ih =>
    rcases mem_subterms_app.1 sub with rfl | ⟨a, inside, sub⟩
    · exact .inl rfl
    have other : isVariable w (.app f args) = false := isVariable_constructor role
    have sorts : args.map Term.sort = f.domain := by rw [(sorted_app.1 sorted).2.1, placesOf, if_pos arity]
    have sortedArgs := (sorted_app.1 sorted).2.2
    have fits : H.Fits (args.map fun a => H.eval [] (a.replaceAll m.values)) c.symbol.domain := by
      rw [symbol, ← sorts]
      refine H.fits_map.2 fun b inside => ?_
      rw [← sort_replaceAll clean.exchange b]
      exact H.eval_mem ((sortedArgs b inside).replaceAll clean.exchange fun p mem => (clean.values p mem).2.1) .nil
    have whole : H.eval [] ((app f args).replaceAll m.values) =
        H.fn c.symbol (args.map fun a => H.eval [] (a.replaceAll m.values)) := by
      rw [replaceAll_app (by rw [clean.lookup, clean.get?_of_not other]), eval_app, map_map, symbol]
      rfl
    have step : H.Part w (H.eval [] (a.replaceAll m.values)) (H.eval [] ((app f args).replaceAll m.values)) :=
      ⟨d, (datatype?_eq_some hit).1, c, mem, _, fits, whole, mem_map.2 ⟨a, inside, rfl⟩⟩
    rcases ih a inside (sortedArgs a inside) sub with rfl | below
    · exact .inr (.single step)
    · exact .inr (below.tail step)
  | leaf => exact .inl (by simpa [mem_subterms_app] using sub)

structure AllMatched (H : Frame U) (w : World) (P : Symbol → Prop) (cases : List (Term × Term)) (m m' : Match) : Prop where
  clean : m'.Clean w P
  conditions : m.conditions ⊆ m'.conditions
  /-- Only variables of the patterns get new values. -/
  keeps : ∀ v, (∀ q ∈ cases, v ∉ q.2.subterms false) → m'.values.get? v = m.values.get? v
  /-- Each pattern is matched on its own; its variables keep their values unless a later pattern has them too. -/
  each : ∀ (i : Nat) q, cases[i]? = some q → ∃ m₀, Matched H w P q.1 q.2 {} m₀ ∧ m₀.conditions ⊆ m'.conditions ∧
    ∀ v ∈ q.2.subterms false, isVariable w v = true → (∀ r ∈ cases.drop (i + 1), v ∉ r.2.subterms false) →
      m'.values.get? v = m₀.values.get? v

theorem matchAll_matched (declares : w.Declares) (types : H.Inductive w) (free : ∀ f, P f → f.isFree = true)
    {cases : List (Term × Term)} (ready : ∀ q ∈ cases, IsPattern w q.2 ∧ Ready w P q.1 q.2)
    (ok : matchAll w cases = .ok m') : AllMatched H w P cases {} m' := by
  have run : ∀ {cases : List (Term × Term)}, (∀ q ∈ cases, IsPattern w q.2 ∧ Ready w P q.1 q.2) → ∀ {m m' : Match},
      cases.foldlM (fun m q => do
        let here ← matchPattern w q.1 {} q.2
        return (⟨m.conditions ++ here.conditions, m.values.setAll here.values⟩)) m = (.ok m') →
      m.Clean w P → AllMatched H w P cases m m' := by
    intro cases
    induction cases with
    | nil =>
      intro _ m m' ok clean
      cases ok
      exact ⟨clean, fun _ h => h, fun _ _ => rfl, by simp⟩
    | cons q cases ih =>
      intro ready m m' ok clean
      obtain ⟨m₁, step, rest⟩ := bind_eq_ok.1 ((foldlM_cons ..).symm.trans ok)
      obtain ⟨here, matched, last⟩ := bind_eq_ok.1 step
      have first : Matched H w P q.1 q.2 {} here :=
        matchPattern_matched declares types free (ready q mem_cons_self).1 matched (ready q mem_cons_self).2 .empty
      cases last
      have clean₁ : Match.Clean w P ⟨m.conditions ++ here.conditions, m.values.setAll here.values⟩ :=
        { nodup := nodup_setAll clean.nodup
          keys := fun p mem => (mem_setAll mem).elim (first.clean.keys p) (clean.keys p)
          values := fun p mem => (mem_setAll mem).elim (first.clean.values p) (clean.values p)
          conditions := fun c mem =>
            (mem_append.1 mem).elim (clean.conditions c) (first.clean.conditions c) }
      have later := ih (fun r mem => ready r (mem_cons_of_mem q mem)) rest clean₁
      refine ⟨later.clean, fun c mem => later.conditions (mem_append_left _ mem), fun v absent => ?_, fun i r hit => ?_⟩
      · have none' : here.values.get? v = none := by
          cases hit : here.values.get? v with
          | none => rfl
          | some t =>
            rcases first.keys v t hit with ⟨t', empty⟩ | sub
            · cases empty
            · exact absurd sub (absent q mem_cons_self)
        rw [later.keeps v fun r mem => absent r (mem_cons_of_mem q mem), get?_setAll first.clean.nodup, none', Option.none_or]
      · cases i with
        | zero =>
          cases hit
          refine ⟨here, first, fun c mem => later.conditions (mem_append_right _ mem), fun v sub key absent => ?_⟩
          obtain ⟨t, hit⟩ := first.bound v sub key
          rw [later.keeps v (by simpa using absent), get?_setAll first.clean.nodup, hit, Option.some_or]
        | succ i => simpa using later.each i r (by simpa using hit)
  exact run ready ok .empty

/-! ## Descending calls -/

/-- The argument of the call at the place `i` is a strict part of the pattern there, and no later pattern gives its
variables other values. -/
def descends (w : World) (i : Nat) (patterns : List Term) (call : Term) : Bool :=
  match call.children[i]?, patterns[i]? with
  | some a, some p =>
    decide (isStrictSubterm a p = .ok true) &&
      (a.subterms false).all fun v => !isVariable w v || (patterns.drop (i + 1)).all fun q => v ∉ q.subterms false
  | _, _ => false

/-- The left side has as many patterns as places, and all calls of `g` on the right side descend at the place `i`. -/
def equationDescends (w : World) (g : Symbol) (i : Nat) (e : Term) : Bool :=
  match Kernel.sides? e with
  | some (.app f patterns, rhs) =>
    decide (patterns.length = f.arity) && (rhs.subterms false).all fun t => t.head? ≠ some g || descends w i patterns t
  | _ => false

theorem descends_part {g : Symbol} {i : Nat} (all : AllMatched H w P (xs.zip patterns) {} m')
    (ready : ∀ q ∈ xs.zip patterns, IsPattern w q.2 ∧ Ready w P q.1 q.2) (true' : m'.True H)
    (down : descends w i patterns (.app g bs) = true) (len : xs.length = patterns.length) :
    ∃ b x, bs[i]? = some b ∧ xs[i]? = some x ∧
      Relation.TransGen (H.Part w) (H.eval [] (b.replaceAll m'.values)) (H.eval [] x) := by
  unfold descends at down
  split at down
  swap
  · cases down
  rename_i a p arg pat
  rw [Bool.and_eq_true, decide_eq_true_eq, all_eq_true] at down
  obtain ⟨strict, alone⟩ := down
  obtain ⟨x, place⟩ : ∃ x, xs[i]? = some x := ⟨_, List.getElem?_eq_getElem (len ▸ (List.getElem?_eq_some_iff.1 pat).1)⟩
  have hit : (xs.zip patterns)[i]? = some (x, p) := getElem?_zip_eq_some.2 ⟨place, pat⟩
  obtain ⟨shape, good⟩ := ready _ (mem_of_getElem? hit)
  obtain ⟨m₀, matched, conditions, vals⟩ := all.each i _ hit
  have sub : a ≠ p ∧ a ∈ p.subterms false := by
    unfold isStrictSubterm at strict
    by_cases eq : a = p
    · rw [if_pos eq] at strict
      cases strict
    · rw [if_neg eq] at strict
      exact ⟨eq, occurs_eq_true strict⟩
  have sameValues : a.replaceAll m'.values = a.replaceAll m₀.values := by
    refine (shape.of_mem_subterms sub.2).replaceAll_congr all.clean matched.clean fun v inside key => ?_
    have later := (Bool.or_eq_true _ _ ▸ alone v inside).resolve_left (by simp [key])
    refine vals v (subterms_trans inside sub.2) key fun r mem => ?_
    rw [zip, drop_zipWith] at mem
    exact of_decide_eq_true (all_eq_true.1 later r.2 (of_mem_zip mem).2)
  have whole := matched.value fun c mem => true' c (conditions mem)
  refine ⟨a, x, arg, place, ?_⟩
  rw [sameValues, ← whole]
  exact (shape.part good.pattern matched.clean sub.2).resolve_left sub.1

end
end Datatype
end SortedLogic

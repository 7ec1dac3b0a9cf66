import SortedLogic.Proofs.Unification
import SortedLogic.Rewrite.Completion

/-!
# Term orders

Both comparisons decide a relation: `Path`, where a term is above its parts and above whatever has a lower head and parts below
it, and `Heavier`, where weights come first. Each has a step in which the heads decide, or else the first arguments that differ
(`Leads`). That step has no infinite descent as long as the arguments have none (`inductLeads`).
-/

namespace SortedLogic
open List
open Substitution
open Term
variable {S : List Symbol} {above : Precedence} {vs as bs cs : List Term} {s t u a b c x y : Term} {f g h : Symbol}
  {σ : Substitution} {R : Term → Term → Prop}

/-- Terms without binders over the symbols `S`, each with as many arguments as it has places. -/
inductive Term.Over (S : List Symbol) : Term → Prop
  | app {f : Symbol} {args : List Term} (mem : f ∈ S) (arity : args.length = f.arity) (each : ∀ a ∈ args, Over S a) :
      Over S (.app f args)

/-- A strict order of symbols that is total on `S`. -/
structure Precedence.Orders (above : Precedence) (S : List Symbol) : Prop where
  irrefl : ∀ f, ¬ above f f
  trans : ∀ {f g h}, above f g → above g h → above f h
  total : ∀ f ∈ S, ∀ g ∈ S, f ≠ g → above f g ∨ above g f

/-! ## The first arguments that differ -/

/-- After a common beginning the lists have `a` and `b`. -/
inductive Differ : List Term → List Term → Term → Term → Prop
  | here {a b : Term} {as bs : List Term} : Differ (a :: as) (b :: bs) a b
  | there {a b c : Term} {as bs : List Term} (rest : Differ as bs a b) : Differ (c :: as) (c :: bs) a b

namespace Differ

theorem left_mem (d : Differ as bs a b) : a ∈ as := by
  induction d with
  | here => exact mem_cons_self
  | there _ ih => exact mem_cons_of_mem _ ih

theorem symm (d : Differ as bs a b) : Differ bs as b a := by
  induction d with
  | here => exact .here
  | there _ ih => exact .there ih

theorem right_mem (d : Differ as bs a b) : b ∈ bs := d.symm.left_mem

theorem map (d : Differ as bs a b) (φ : Term → Term) : Differ (as.map φ) (bs.map φ) (φ a) (φ b) := by
  induction d with
  | here => exact .here
  | there _ ih => exact .there ih

theorem append (l : List Term) : Differ (l ++ s :: as) (l ++ t :: bs) s t := by
  induction l with
  | nil => exact .here
  | cons _ _ ih => exact .there ih

/-- Of two places the earlier one decides. -/
theorem trans (d : Differ as bs a b) (ab : R a b) (e : Differ bs cs x c) (bc : R x c)
    (both : ∀ {a b c}, a ∈ as → b ∈ bs → c ∈ cs → R a b → R b c → R a c) : ∃ y z, Differ as cs y z ∧ R y z := by
  induction d generalizing cs with
  | here =>
    cases e with
    | here => exact ⟨_, _, .here, both mem_cons_self mem_cons_self mem_cons_self ab bc⟩
    | there => exact ⟨_, _, .here, ab⟩
  | there _ ih =>
    cases e with
    | here => exact ⟨_, _, .here, bc⟩
    | there rest' =>
      obtain ⟨y, z, d, yz⟩ := ih ab rest' fun a b c => both (mem_cons_of_mem _ a) (mem_cons_of_mem _ b) (mem_cons_of_mem _ c)
      exact ⟨y, z, .there d, yz⟩

theorem exists_of_ne (len : as.length = bs.length) (ne : as ≠ bs) : ∃ a b, Differ as bs a b ∧ a ≠ b := by
  induction as generalizing bs with
  | nil => exact absurd (length_eq_zero_iff.1 len.symm).symm ne
  | cons a _ ih =>
    cases bs with
    | nil => cases len
    | cons b =>
      by_cases eq : a = b
      · subst eq
        obtain ⟨x, y, d, other⟩ := ih (by simpa using len) (by simpa using ne)
        exact ⟨x, y, .there d, other⟩
      · exact ⟨a, b, .here, eq⟩

theorem unique (d : Differ as bs a b) (ne : a ≠ b) (e : Differ as bs x y) (ne' : x ≠ y) : a = x ∧ b = y := by
  induction d with
  | here =>
    cases e with
    | here => exact ⟨rfl, rfl⟩
    | there => exact absurd rfl ne
  | there _ ih =>
    cases e with
    | here => exact absurd rfl ne'
    | there rest => exact ih ne rest

end Differ

/-- The head `f` is above `g`, or they are the same and the first arguments that differ are `a` and `b`. -/
structure Heads (above : Precedence) (f : Symbol) (as : List Term) (g : Symbol) (bs : List Term) (a b : Term) : Prop where
  higher : f ≠ g → above f g
  args : f = g → Differ as bs a b

/-- The heads decide, or else the first arguments that differ. -/
def Leads (above : Precedence) (R : Term → Term → Prop) (f : Symbol) (as : List Term) (g : Symbol) (bs : List Term) : Prop :=
  ∃ a b, Heads above f as g bs a b ∧ (f = g → R a b)

namespace Leads

theorem of_higher (order : above.Orders S) (higher : above f g) : Leads above R f as g bs :=
  have ne : f ≠ g := fun same => order.irrefl g (same ▸ higher)
  ⟨.app f as, .app g bs, ⟨fun _ => higher, fun same => absurd same ne⟩, fun same => absurd same ne⟩

theorem of_differ (d : Differ as bs a b) (rel : R a b) : Leads above R f as f bs :=
  ⟨a, b, ⟨fun ne => absurd rfl ne, fun _ => d⟩, fun _ => rel⟩

theorem trans (order : above.Orders S) (left : Leads above R f as g bs) (right : Leads above R g bs h cs)
    (both : ∀ {a b c}, a ∈ as → b ∈ bs → c ∈ cs → R a b → R b c → R a c) : Leads above R f as h cs := by
  obtain ⟨a, b, fg, ab⟩ := left
  obtain ⟨x, c, gh, xc⟩ := right
  by_cases eq : f = g
  · subst eq
    by_cases eq : f = h
    · subst eq
      obtain ⟨y, z, d, yz⟩ := (fg.args rfl).trans (ab rfl) (gh.args rfl) (xc rfl) both
      exact of_differ d yz
    · exact of_higher order (gh.higher eq)
  · by_cases eq' : g = h
    · exact of_higher order (eq' ▸ fg.higher eq)
    · exact of_higher order (order.trans (fg.higher eq) (gh.higher eq'))

theorem total (order : above.Orders S) (fit : (Term.app f as).Over S) (fit' : (Term.app g bs).Over S)
    (ne : Term.app f as ≠ .app g bs) (inner : ∀ a ∈ as, ∀ b ∈ bs, a ≠ b → R a b ∨ R b a) :
    Leads above R f as g bs ∨ Leads above R g bs f as := by
  obtain ⟨mem, arity, -⟩ := fit
  obtain ⟨mem', arity', -⟩ := fit'
  by_cases eq : f = g
  · subst eq
    obtain ⟨a, b, d, other⟩ := Differ.exists_of_ne (arity.trans arity'.symm) fun h => ne (h ▸ rfl)
    exact (inner a d.left_mem b d.right_mem other).imp (of_differ d) (of_differ d.symm)
  · exact (order.total f mem g mem' eq).imp (of_higher order) (of_higher order)

end Leads

/-- Induction on lists of accessible terms, with the hypothesis for those that are smaller where they differ first. -/
theorem inductAccessible {n : Nat} {P : List Term → Prop} (step : ∀ as, (∀ a ∈ as, Acc R a) →
      (∀ bs a b, bs.length = as.length → (∀ b ∈ bs, Acc R b) → Differ as bs a b → R b a → P bs) → P as)
    (len : as.length = n) (acc : ∀ a ∈ as, Acc R a) : P as := by
  induction n generalizing as P with
  | zero =>
    cases length_eq_zero_iff.1 len
    refine step _ acc fun bs a b _ _ d => ?_
    cases d
  | succ n ih =>
    obtain ⟨a, as, rfl⟩ := exists_cons_of_length_eq_add_one len
    suffices all : ∀ as, as.length = n → (∀ x ∈ as, Acc R x) → P (a :: as) from
      all as (by simpa using len) fun x mem => acc x (mem_cons_of_mem _ mem)
    -- on the first term, and for each first term on the others
    have first := acc a mem_cons_self
    clear len acc
    induction first with
    | intro a below lower =>
      intro as len acc
      refine ih (P := fun as => as.length = n → P (a :: as)) (fun as acc smaller len => ?_) len acc len
      refine step _ (forall_mem_cons.2 ⟨⟨a, below⟩, acc⟩) fun bs x y len' acc' d rel => ?_
      cases d with
      | @here _ _ _ bs => exact lower _ rel bs (by simpa [len] using len') fun z mem => acc' z (mem_cons_of_mem _ mem)
      | @there _ _ _ _ bs rest =>
        have len' : bs.length = as.length := by simpa using len'
        exact smaller bs x y len' (fun z mem => acc' z (mem_cons_of_mem _ mem)) rest rel (len'.trans len)

/-- `t` is below `s`, and both are terms over `S`. -/
def Descent (S : List Symbol) (R : Term → Term → Prop) (t s : Term) : Prop := s.Over S ∧ t.Over S ∧ R s t

theorem Descent.irrefl (wf : WellFounded (Descent S R)) (fit : s.Over S) : ¬ R s s :=
  fun rel => wf.asymmetric _ _ ⟨fit, fit, rel⟩ ⟨fit, fit, rel⟩

/-- Induction on terms with accessible arguments, with the hypothesis for what heads and arguments put below. -/
theorem inductLeads (order : above.Orders S) {P : Term → Prop} (step : ∀ f as, (app f as).Over S →
      (∀ a ∈ as, Acc (Descent S R) a) → (∀ g bs, (app g bs).Over S → (∀ b ∈ bs, Acc (Descent S R) b) →
        Leads above R f as g bs → P (.app g bs)) → P (.app f as))
    (fit : (app f as).Over S) (acc : ∀ a ∈ as, Acc (Descent S R) a) : P (.app f as) := by
  have : IsTrans {f // f ∈ S} (fun f g => above g f) := ⟨fun _ _ _ fg gh => order.trans gh fg⟩
  have : Std.Irrefl (fun f g : {f // f ∈ S} => above g f) := ⟨fun f => order.irrefl f⟩
  have wf : WellFounded (fun f g : {f // f ∈ S} => above g f) := Finite.wellFounded_of_trans_of_irrefl _
  suffices all : ∀ f : {f // f ∈ S}, ∀ as, (app f as).Over S → (∀ a ∈ as, Acc (Descent S R) a) → P (.app f as) by
    obtain ⟨mem, -, -⟩ := id fit
    exact all ⟨f, mem⟩ as fit acc
  intro f
  induction f using wf.induction with
  | h f lower =>
    intro as fit acc
    refine inductAccessible (P := fun as => (app f as).Over S → P (.app f as)) (fun as acc smaller fit => ?_) rfl acc fit
    refine step f as fit acc fun g bs fit' acc' leads => ?_
    obtain ⟨-, arity, each⟩ := fit
    obtain ⟨mem', arity', each'⟩ := id fit'
    obtain ⟨a, b, heads, rel⟩ := leads
    by_cases eq : f = g
    · subst eq
      have d := heads.args rfl
      exact smaller bs a b (arity'.trans arity.symm) acc' d ⟨each a d.left_mem, each' b d.right_mem, rel rfl⟩ fit'
    · exact lower ⟨g, mem'⟩ (heads.higher eq) bs fit' acc'

theorem size_lt_of_mem (f : Symbol) (mem : a ∈ as) : a.size < (app f as).size := by
  have := size_le_sizes mem
  rw [size]
  omega

/-- Constants that a term order treats as variables. -/
def Constants (vs : List Term) : Prop := ∀ v ∈ vs, ∃ c, v = .app c []

theorem Constants.nil_of_mem (vars : Constants vs) (mem : app f as ∈ vs) : as = [] := by
  obtain ⟨c, eq⟩ := vars _ mem
  exact (app.inj eq).2

theorem Constants.notMem (vars : Constants vs) (mem : a ∈ as) (f : Symbol) : app f as ∉ vs := fun mem' => by
  cases vars.nil_of_mem mem'
  cases mem

theorem Constants.notMem_map (vars : Constants vs) (other : app f as ∉ vs) (φ : Term → Term) : app f (as.map φ) ∉ vs :=
  fun mem => other (map_eq_nil_iff.1 (vars.nil_of_mem mem) ▸ vars.nil_of_mem mem ▸ mem)

/-- None of the variables occurs in the term. -/
def Ground (vs : List Term) (t : Term) : Prop := ∀ v ∈ vs, v ∉ t.subterms false

theorem Ground.arg (ground : Ground vs (.app f as)) (mem : a ∈ as) : Ground vs a :=
  fun v key sub => ground v key (mem_subterms_arg mem sub)

theorem Ground.notMem (ground : Ground vs t) : t ∉ vs := fun key => ground t key (self_mem_subterms _ _)

/-! ## The path order -/

/-- An argument of `s` is `t` or above it, or `s` is above all arguments of `t` and the heads or arguments decide. -/
inductive Path (above : Precedence) (vs : List Term) : Term → Term → Prop
  | arg {f : Symbol} {as : List Term} {t : Term} (mem : t ∈ as) : Path above vs (.app f as) t
  | sub {f : Symbol} {as : List Term} {a t : Term} (mem : a ∈ as) (part : Path above vs a t) : Path above vs (.app f as) t
  | step {f g : Symbol} {as bs : List Term} {a b : Term} (left : .app f as ∉ vs) (right : .app g bs ∉ vs)
      (all : ∀ b ∈ bs, Path above vs (.app f as) b) (heads : Heads above f as g bs a b) (rel : f = g → Path above vs a b) :
      Path above vs (.app f as) (.app g bs)

namespace Path

theorem of_part (part : ∃ a ∈ as, a = t ∨ Path above vs a t) : Path above vs (.app f as) t := by
  obtain ⟨a, mem, rfl | part⟩ := part
  · exact .arg mem
  · exact .sub mem part

theorem of_leads (left : .app f as ∉ vs) (right : .app g bs ∉ vs) (all : ∀ b ∈ bs, Path above vs (.app f as) b)
    (leads : Leads above (Path above vs) f as g bs) : Path above vs (.app f as) (.app g bs) := by
  obtain ⟨a, b, heads, rel⟩ := leads
  exact .step left right all heads rel

theorem trans (order : above.Orders S) (st : Path above vs s t) (tu : Path above vs t u) : Path above vs s u := by
  generalize bound : s.size + t.size + u.size = n
  induction n using Nat.strong_induction_on generalizing s t u with
  | _ _ ih =>
    have smaller {s' t' u' : Term} (st : Path above vs s' t') (tu : Path above vs t' u')
        lt : Path above vs s' u' := ih _ lt st tu rfl
    have st' := st
    cases st with
    | arg mem => exact .sub mem tu
    | @sub f _ _ _ mem part =>
      have := size_lt_of_mem f mem
      exact .sub mem (smaller part tu (by omega))
    | @step f g _ _ _ _ left _ all heads rel =>
      cases tu with
      | arg mem => exact all _ mem
      | sub mem part =>
        have := size_lt_of_mem g mem
        exact smaller (all _ mem) part (by omega)
      | @step _ h _ _ _ _ _ right all' heads' rel' =>
        refine of_leads left right (fun c mem => smaller st' (all' c mem) ?_)
          (.trans order ⟨_, _, heads, rel⟩ ⟨_, _, heads', rel'⟩ fun ma mb mc ab bc => smaller ab bc ?_)
        · have := size_lt_of_mem h mem
          omega
        have := size_lt_of_mem f ma
        have := size_lt_of_mem g mb
        have := size_lt_of_mem h mc
        omega

theorem wellFounded (order : above.Orders S) : WellFounded (Descent S (Path above vs)) := by
  suffices all : ∀ {t : Term}, t.Over S → Acc (Descent S (Path above vs)) t from ⟨fun t => ⟨_, fun u below => all below.2.1⟩⟩
  intro t fit
  induction fit with
  | app mem arity each ih =>
    refine inductLeads order (fun f as fit acc lower => ⟨_, fun u below => ?_⟩) (.app mem arity each) ih
    obtain ⟨-, fit', path⟩ := below
    obtain ⟨-, -, each⟩ := fit
    -- the arguments of what is below are below too, so they are accessible
    induction fit' with
    | app mem' arity' each' inner =>
      have fit' := Over.app mem' arity' each'
      cases path with
      | arg mem => exact acc _ mem
      | sub mem part => exact (acc _ mem).inv ⟨each _ mem, fit', part⟩
      | step _ _ all heads rel => exact lower _ _ fit' (fun b mem => inner b mem (all b mem)) ⟨_, _, heads, rel⟩

theorem of_mem_subterms (sub : t ∈ s.subterms false) (ne : s ≠ t) (fit : s.Over S) : Path above vs s t := by
  induction fit with
  | @app _ _ _ _ _ ih =>
    obtain ⟨a, mem, sub⟩ := (mem_subterms_app.1 sub).resolve_left ne.symm
    exact of_part ⟨a, mem, (em (a = t)).imp_right (ih a mem sub)⟩

theorem mem_subterms (path : Path above vs s t) (key : t ∈ vs) : t ∈ s.subterms false := by
  induction path with
  | arg mem => exact mem_subterms_arg mem (self_mem_subterms _ _)
  | sub mem _ ih => exact mem_subterms_arg mem (ih key)
  | step _ right => exact absurd key right

theorem not_of_mem (vars : Constants vs) (key : app f as ∈ vs) : ¬ Path above vs (.app f as) t := fun path => by
  cases vars.nil_of_mem key
  cases path with
  | arg mem | sub mem => cases mem
  | step left => exact left key

theorem leads (path : Path above vs (.app f as) (.app g bs)) (part : ¬ ∃ a ∈ as, a = .app g bs ∨ Path above vs a (.app g bs)) :
    (∀ b ∈ bs, Path above vs (.app f as) b) ∧ Leads above (Path above vs) f as g bs := by
  cases path with
  | arg mem => exact absurd ⟨_, mem, .inl rfl⟩ part
  | sub mem path => exact absurd ⟨_, mem, .inr path⟩ part
  | step _ _ all heads rel => exact ⟨all, _, _, heads, rel⟩

theorem context (vars : Constants vs) (path : Path above vs s t) (f : Symbol) (l r : List Term) :
    Path above vs (.app f (l ++ s :: r)) (.app f (l ++ t :: r)) := by
  have mem {a : Term} : a ∈ l ++ a :: r := mem_append_right _ mem_cons_self
  refine of_leads (vars.notMem mem f) (vars.notMem mem f) (forall_mem_append.2 ⟨fun b left => ?_, forall_mem_cons.2
    ⟨.sub mem path, fun b right => ?_⟩⟩) (.of_differ (.append l) path)
  · exact .arg (mem_append_left _ left)
  · exact .arg (mem_append_right _ (mem_cons_of_mem _ right))

theorem replace (vars : Constants vs) (keys : Keys (· ∈ vs) σ) (path : Path above vs s t) :
    Path above vs (s.replaceAll σ) (t.replaceAll σ) := by
  induction path with
  | arg mem => exact keys.replace_app (vars.notMem mem _) ▸ .arg (mem_map_of_mem mem)
  | sub mem _ ih => exact keys.replace_app (vars.notMem mem _) ▸ .sub (mem_map_of_mem mem) ih
  | step left right _ heads _ all rel =>
    rw [keys.replace_app left] at all ⊢
    rw [keys.replace_app right]
    exact .step (vars.notMem_map left _) (vars.notMem_map right _) (by simpa using all)
      ⟨heads.higher, fun eq => (heads.args eq).map _⟩ rel

theorem total (order : above.Orders S) (fit : s.Over S) (fit' : t.Over S) (ground : Ground vs s) (ground' : Ground vs t)
    (ne : s ≠ t) : Path above vs s t ∨ Path above vs t s := by
  induction fit generalizing t with
  | @app f as mem arity each ih =>
    induction fit' with
    | @app g bs mem' arity' each' ih' =>
      by_cases left : ∃ a ∈ as, a = .app g bs ∨ Path above vs a (.app g bs)
      · exact .inl (of_part left)
      by_cases right : ∃ b ∈ bs, b = .app f as ∨ Path above vs b (.app f as)
      · exact .inr (of_part right)
      -- each is above all arguments of the other, so the heads and arguments decide
      have beyond (a : Term) (mem : a ∈ as) : Path above vs (.app g bs) a :=
        (ih a mem (.app mem' arity' each') (ground.arg mem) ground' fun h => left ⟨a, mem, .inl h⟩).resolve_left
          fun h => left ⟨a, mem, .inr h⟩
      have below (b : Term) (mem : b ∈ bs) : Path above vs (.app f as) b :=
        (ih' b mem (ground'.arg mem) fun h => right ⟨b, mem, .inl h.symm⟩).resolve_right fun h => right ⟨b, mem, .inr h⟩
      exact (Leads.total order (.app mem arity each) (.app mem' arity' each') ne fun a ma b mb =>
        ih a ma (each' b mb) (ground.arg ma) (ground'.arg mb)).imp
          (of_leads ground.notMem ground'.notMem below) (of_leads ground'.notMem ground.notMem beyond)

end Path

/-! ## Comparisons -/

open Classical in
/-- What a comparison by the order has to return. -/
noncomputable def verdict (R : Term → Term → Prop) (s t : Term) : Comparison :=
  if s = t then .equal else if R s t then .greater else .notGreaterEqual

theorem verdict_equal : verdict R s t = .equal ↔ s = t := by
  unfold verdict
  split_ifs <;> simp_all

theorem verdict_greater (irrefl : ¬ R s s) : verdict R s t = .greater ↔ R s t := by
  unfold verdict
  split_ifs <;> simp_all

theorem verdict_neither : verdict R s t = .notGreaterEqual ↔ ¬ (s = t ∨ R s t) := by
  unfold verdict
  split_ifs <;> simp_all

theorem compareArgs_differ {compare : Term → Term → Checked Comparison} {args : List Term → List Term → Checked Comparison}
    {r : Comparison}
    (step : ∀ a as b bs, args (a :: as) (b :: bs) = compare a b >>= fun r => if r = .equal then args as bs else pure r)
    (self : ∀ a ∈ as, a ∈ bs → compare a a = .ok .equal) (d : Differ as bs a b) (ok : compare a b = .ok r)
    (ne : r ≠ .equal) : args as bs = .ok r := by
  induction d with
  | here =>
    rw [step, ok]
    exact if_neg ne
  | there _ ih =>
    rw [step, self _ mem_cons_self mem_cons_self]
    exact ih (fun a mem mem' => self a (mem_cons_of_mem _ mem) (mem_cons_of_mem _ mem')) ok

/-- Where only heads and arguments are left to decide, comparing them returns the verdict. -/
theorem compareHeads_eq {args : Checked Comparison} (order : above.Orders S) (wf : WellFounded (Descent S R))
    (fit : (app f as).Over S) (fit' : (app g bs).Over S) (only : R (.app f as) (.app g bs) ↔ Leads above R f as g bs)
    (eq : app f as = app g bs → args = .ok .equal)
    (differ : ∀ {a b}, Differ as bs a b → a ≠ b → args = .ok (verdict R a b)) :
    (if f = g then args else if above f g then .ok .greater else .ok .notGreaterEqual) =
      .ok (verdict R (.app f as) (.app g bs)) := by
  have greater := verdict_greater (t := .app g bs) (Descent.irrefl wf fit)
  obtain ⟨-, arity, each⟩ := fit
  obtain ⟨-, arity', -⟩ := fit'
  by_cases head : f = g
  · subst head
    rw [if_pos rfl]
    by_cases equal : as = bs
    · rw [eq (equal ▸ rfl), verdict_equal.2 (equal ▸ rfl)]
    obtain ⟨a, b, d, other⟩ := Differ.exists_of_ne (arity.trans arity'.symm) equal
    rw [differ d other]
    by_cases rel : R a b
    · rw [(verdict_greater (Descent.irrefl wf (each a d.left_mem))).2 rel, greater.2 (only.2 (.of_differ d rel))]
    rw [verdict_neither.2 (not_or.2 ⟨other, rel⟩), verdict_neither.2 ?_]
    rintro (h | h)
    · exact equal (app.inj h).2
    obtain ⟨x, y, heads, rel'⟩ := only.1 h
    have apart : x ≠ y := by
      rintro rfl
      exact Descent.irrefl wf (each x (heads.args rfl).left_mem) (rel' rfl)
    obtain ⟨rfl, rfl⟩ := d.unique other (heads.args rfl) apart
    exact rel (rel' rfl)
  · rw [if_neg head]
    by_cases higher : above f g
    · rw [if_pos higher, greater.2 (only.2 (.of_higher order higher))]
    rw [if_neg higher, verdict_neither.2 ?_]
    rintro (h | h)
    · exact head (app.inj h).1
    obtain ⟨x, y, heads, -⟩ := only.1 h
    exact higher (heads.higher head)

theorem Term.Over.of_mem_subterms (fit : s.Over S) (sub : t ∈ s.subterms false) : t.Over S := by
  induction fit with
  | app mem arity each ih =>
    rcases mem_subterms_app.1 sub with rfl | ⟨a, mem', sub⟩
    · exact .app mem arity each
    · exact ih a mem' sub

namespace Term

theorem all_eq {l : List Term → Checked Bool} {compare : Term → Checked Comparison} {r : Comparison} {v : Term → Comparison}
    (as : List Term) (nil : l [] = .ok true)
    (cons : ∀ a as, l (a :: as) = compare a >>= fun c => if c = r then l as else pure false)
    (each : ∀ a ∈ as, compare a = .ok (v a)) : l as = .ok (as.all fun a => v a = r) := by
  induction as with
  | nil => exact nil
  | cons a as ih =>
    rw [cons, each a mem_cons_self]
    show (if v a = r then l as else .ok false) = _
    rw [ih fun a mem => each a (mem_cons_of_mem _ mem)]
    by_cases h : v a = r <;> simp [h]

theorem lpoArgs_self (each : ∀ a ∈ as, lpo above vs a a = .ok .equal) : lpoArgs above vs as as = .ok .equal := by
  induction as with
  | nil => rw [lpoArgs]; simp
  | cons a _ ih =>
    rw [lpoArgs, each a mem_cons_self]
    exact ih fun a mem => each a (mem_cons_of_mem _ mem)

/-- The comparison tells which of the two terms is above the other one in the path order. -/
theorem lpo_eq (order : above.Orders S) (vars : Constants vs) (fit : s.Over S) (fit' : t.Over S) :
    lpo above vs s t = .ok (verdict (Path above vs) s t) := by
  generalize bound : s.size + t.size = n
  induction n using Nat.strong_induction_on generalizing s t with
  | _ _ ih =>
    subst bound
    obtain @⟨f, as, -, -, each⟩ := id fit
    obtain @⟨g, bs, -, -, each'⟩ := id fit'
    have plain (y : Term) (sub : y ∈ (app f as).subterms false) : y.isBind = false := by
      cases fit.of_mem_subterms sub
      rfl
    have greater {t : Term} : verdict (Path above vs) (.app f as) t = .greater ↔ Path above vs (.app f as) t :=
      verdict_greater (Descent.irrefl (Path.wellFounded order) fit)
    rw [lpo]
    by_cases key : app g bs ∈ vs
    · rw [if_pos (by simpa using key)]
      by_cases eq : app f as = app g bs
      · rw [if_pos eq, verdict_equal.2 eq]
      rw [if_neg eq, occurs_eq plain]
      show (if decide (app g bs ∈ (app f as).subterms false) = true then Except.ok _ else .ok _) = _
      by_cases sub : app g bs ∈ (app f as).subterms false
      · rw [if_pos (decide_eq_true sub), greater.2 (.of_mem_subterms sub eq fit)]
      · rw [if_neg (by simpa using sub), verdict_neither.2 fun h => sub ((h.resolve_left eq).mem_subterms key)]
    rw [if_neg (by simpa using key)]
    by_cases key' : app f as ∈ vs
    · have ne : app f as ≠ app g bs := fun eq => key (eq ▸ key')
      rw [if_pos (by simpa using key'), verdict_neither.2 (not_or.2 ⟨ne, Path.not_of_mem vars key'⟩)]
    rw [if_neg (by simpa using key')]
    have below : allBelow above vs as (.app g bs) =
        .ok (as.all fun a => verdict (Path above vs) a (.app g bs) = .notGreaterEqual) := by
      refine all_eq (l := (allBelow above vs · _)) as ?_ (fun _ _ => ?_) fun a mem =>
        ih _ (Nat.add_lt_add_right (size_lt_of_mem f mem) _) (each a mem) fit' rfl
      all_goals rw [allBelow]
    have beyond : aboveAll above vs (.app f as) bs = .ok (bs.all fun b => verdict (Path above vs) (.app f as) b = .greater) :=
      all_eq bs (by rw [aboveAll]) (fun _ _ => by rw [aboveAll]) fun b mem =>
        ih _ (Nat.add_lt_add_left (size_lt_of_mem g mem) _) fit (each' b mem) rfl
    have lower : (as.all fun a => verdict (Path above vs) a (.app g bs) = .notGreaterEqual) = true ↔
        ¬ ∃ a ∈ as, a = .app g bs ∨ Path above vs a (.app g bs) := by simp [verdict_neither]
    have upper : (bs.all fun b => verdict (Path above vs) (.app f as) b = .greater) = true ↔
        ∀ b ∈ bs, Path above vs (.app f as) b := by simp [greater]
    rw [below, beyond]
    show (if (!as.all fun a => decide _) = true then Except.ok Comparison.greater else if f = g then
      if (bs.all fun b => decide _) = true then _ else .ok _ else if above f g = true then
      if (bs.all fun b => decide _) = true then .ok _ else .ok _ else .ok _) = _
    by_cases part : ∃ a ∈ as, a = .app g bs ∨ Path above vs a (.app g bs)
    · rw [if_pos (by simpa using mt lower.1 (not_not.2 part)), greater.2 (.of_part part)]
    rw [if_neg (by rw [lower.2 part]; decide)]
    by_cases all : ∀ b ∈ bs, Path above vs (.app f as) b
    · simp only [upper.2 all, if_true]
      have both {a b : Term} (mem : a ∈ as) (mem' : b ∈ bs) : lpo above vs a b = .ok (verdict (Path above vs) a b) :=
        ih _ (Nat.add_lt_add (size_lt_of_mem f mem) (size_lt_of_mem g mem')) (each a mem) (each' b mem') rfl
      have self (a : Term) (mem : a ∈ as) (mem' : a ∈ bs) : lpo above vs a a = .ok .equal := by
        rw [both mem mem', verdict_equal.2 rfl]
      refine compareHeads_eq order (Path.wellFounded order) fit fit' ⟨fun path => (path.leads part).2, .of_leads key' key all⟩
        (fun eq => ?_) fun d other => ?_
      · obtain rfl := (app.inj eq).2
        exact lpoArgs_self fun a mem => self a mem mem
      · refine compareArgs_differ (fun a as b bs => ?_) self d (both d.left_mem d.right_mem) (mt verdict_equal.1 other)
        rw [lpoArgs]
        exact bind_congr fun r => by cases r <;> rfl
    · have ne : app f as ≠ app g bs := fun eq => all fun b mem => .arg ((app.inj eq).2 ▸ mem)
      have none : ¬ Path above vs (.app f as) (.app g bs) := fun path => all (path.leads part).1
      rw [verdict_neither.2 (not_or.2 ⟨ne, none⟩)]
      simp only [mt upper.1 all, Bool.false_eq_true, if_false, ite_self]

end Term

/-! ## The order by weight -/

theorem weights_eq_sum (ts : List Term) : weights ts = (ts.map weight).sum := by
  induction ts with
  | nil => rfl
  | cons _ _ ih => simp [weights, ih]

theorem countVars_eq_sum (v : Term) (ts : List Term) : countVars vs v ts = (ts.map (countVar vs v)).sum := by
  induction ts with
  | nil => rfl
  | cons _ _ ih => simp [countVars, ih]

theorem Term.weight_pos (t : Term) : 0 < t.weight := by cases t <;> simp [weight]

theorem weight_app : weight (.app f as) = 1 + (as.map weight).sum := by rw [weight, weights_eq_sum]

theorem weight_lt_of_mem (f : Symbol) (mem : a ∈ as) : a.weight < (app f as).weight := by
  have : a.weight ≤ (as.map weight).sum := single_le_sum (by simp) _ (mem_map_of_mem mem)
  rw [weight_app]
  omega

theorem countVar_app (v : Term) (other : app f as ∉ vs) : countVar vs v (.app f as) = (as.map (countVar vs v)).sum := by
  rw [countVar, if_neg (by simpa using other), countVars_eq_sum]

theorem countVar_key (v : Term) (key : app f as ∈ vs) : countVar vs v (.app f as) = if v = .app f as then 1 else 0 := by
  rw [countVar, if_pos (by simpa using key)]

theorem countVar_eq_zero {v : Term} (fit : t.Over S) (none : v ∉ t.subterms false) : countVar vs v t = 0 := by
  induction fit with
  | @app f as _ _ _ ih =>
    by_cases key : app f as ∈ vs
    · rw [countVar_key v key, if_neg (by rintro rfl; exact none (self_mem_subterms _ _))]
    · rw [countVar_app v key]
      exact sum_eq_zero (by simpa using fun a mem => ih a mem fun sub => none (mem_subterms_arg mem sub))

/-- Each variable occurs in `s` at least as often as in `t`. -/
def Covers (vs : List Term) (s t : Term) : Prop := ∀ v ∈ vs, countVar vs v t ≤ countVar vs v s

/-- The sum over the variables of a term, each as often as it occurs. -/
def occurrences (vs : List Term) (g : Term → Nat) (t : Term) : Nat := ∑ v ∈ vs.toFinset, countVar vs v t * g v

theorem Covers.occurrences_le (covers : Covers vs s t) (g : Term → Nat) : occurrences vs g t ≤ occurrences vs g s :=
  Finset.sum_le_sum fun v mem => Nat.mul_le_mul_right _ (covers v (by simpa using mem))

theorem occurrences_app (g : Term → Nat) (other : app f as ∉ vs) :
    occurrences vs g (.app f as) = (as.map (occurrences vs g)).sum := by
  simp only [occurrences, countVar_app _ other]
  clear other
  induction as with
  | nil => simp
  | cons _ _ ih => simp [add_mul, Finset.sum_add_distrib, ih, occurrences]

theorem occurrences_key (g : Term → Nat) (key : app f as ∈ vs) : occurrences vs g (.app f as) = g (.app f as) := by
  simp [occurrences, countVar_key _ key, key]

/-- A sum over the nodes of a term, after a replacement of its variables. -/
theorem measure_replace {m g : Term → Nat} {k : Nat} (keys : Keys (· ∈ vs) σ) (fit : t.Over S)
    (node : ∀ f as, app f as ∉ vs → m (.app f (as.map (replaceAll σ))) = k + (as.map fun a => m (a.replaceAll σ)).sum)
    (key : ∀ v ∈ vs, m (v.replaceAll σ) = k + g v) (vars : Constants vs) :
    m (t.replaceAll σ) = k * t.weight + occurrences vs g t := by
  induction fit with
  | @app f as _ _ _ ih =>
    by_cases mem : app f as ∈ vs
    · cases vars.nil_of_mem mem
      rw [key _ mem, occurrences_key _ mem, weight_app]
      simp
    rw [keys.replace_app mem, node _ _ mem, occurrences_app _ mem, weight_app]
    have sums : ∀ ts ⊆ as, (ts.map fun a => m (a.replaceAll σ)).sum =
        k * (ts.map weight).sum + (ts.map (occurrences vs g)).sum := by
      intro ts sub
      induction ts with
      | nil => simp
      | cons a _ rest =>
        simp only [map_cons, sum_cons, ih a (sub mem_cons_self), rest fun x h => sub (mem_cons_of_mem _ h)]
        ring
    rw [sums as (Subset.refl _)]
    ring

/-- No variable is more frequent in `t`, and `s` weighs more, or the same and the heads or arguments decide. -/
inductive Heavier (above : Precedence) (vs : List Term) : Term → Term → Prop
  | heavy {s t : Term} (covers : Covers vs s t) (lt : t.weight < s.weight) : Heavier above vs s t
  | step {f g : Symbol} {as bs : List Term} {a b : Term} (covers : Covers vs (.app f as) (.app g bs))
      (same : weight (.app g bs) = weight (.app f as)) (left : .app f as ∉ vs) (right : .app g bs ∉ vs)
      (heads : Heads above f as g bs a b) (rel : f = g → Heavier above vs a b) : Heavier above vs (.app f as) (.app g bs)

namespace Heavier

theorem covers (h : Heavier above vs s t) : Covers vs s t := by
  cases h with
  | heavy covers | step covers => exact covers

theorem weight_le (h : Heavier above vs s t) : t.weight ≤ s.weight := by
  cases h with
  | heavy _ lt => exact lt.le
  | step _ eq => exact eq.le

theorem of_leads (covers : Covers vs (.app f as) (.app g bs)) (le : weight (.app g bs) ≤ weight (.app f as))
    (left : .app f as ∉ vs) (right : .app g bs ∉ vs) (leads : Leads above (Heavier above vs) f as g bs) :
    Heavier above vs (.app f as) (.app g bs) := by
  obtain ⟨a, b, heads, rel⟩ := leads
  rcases le.lt_or_eq with lt | eq
  · exact .heavy covers lt
  · exact .step covers eq left right heads rel

theorem trans (order : above.Orders S) (st : Heavier above vs s t) (tu : Heavier above vs t u) : Heavier above vs s u := by
  generalize bound : s.size = n
  induction n using Nat.strong_induction_on generalizing s t u with
  | _ _ ih =>
    subst bound
    have covers : Covers vs s u := fun v key => (tu.covers v key).trans (st.covers v key)
    have le := tu.weight_le
    have le' := st.weight_le
    cases st with
    | heavy _ lt => exact .heavy covers (le.trans_lt lt)
    | @step f _ _ _ _ _ _ _ left _ heads rel =>
      cases tu with
      | heavy _ lt => exact .heavy covers (lt.trans_le le')
      | step _ _ _ right heads' rel' =>
        exact of_leads covers (le.trans le') left right (.trans order ⟨_, _, heads, rel⟩ ⟨_, _, heads', rel'⟩
          fun mem _ _ ab bc => ih _ (size_lt_of_mem f mem) ab bc rfl)

theorem wellFounded (order : above.Orders S) : WellFounded (Descent S (Heavier above vs)) := by
  suffices all : ∀ n t, t.Over S → t.weight = n → Acc (Descent S (Heavier above vs)) t from
    ⟨fun t => ⟨_, fun u below => all _ u below.2.1 rfl⟩⟩
  intro n
  induction n using Nat.strong_induction_on with
  | _ n lighter =>
    have inner {f : Symbol} {as : List Term} (fit : (app f as).Over S) (weight : (app f as).weight = n) (a : Term)
        (mem : a ∈ as) : Acc (Descent S (Heavier above vs)) a := by
      obtain ⟨-, -, each⟩ := fit
      exact lighter _ (weight ▸ weight_lt_of_mem f mem) a (each a mem) rfl
    intro t fit weight
    obtain @⟨f, as, -, -, -⟩ := id fit
    refine inductLeads (P := fun t => t.weight = n → Acc _ t) order (fun f as fit acc ih weight => ⟨_, fun u below => ?_⟩) fit
      (inner fit weight) weight
    obtain ⟨-, fit', heavier⟩ := below
    cases heavier with
    | heavy _ lt => exact lighter _ (weight ▸ lt) u fit' rfl
    | step _ eq _ _ heads rel =>
      exact ih _ _ fit' (inner fit' (eq.trans weight)) ⟨_, _, heads, rel⟩ (eq.trans weight)

theorem of_mem_subterms (vars : Constants vs) (sub : t ∈ s.subterms false) (ne : s ≠ t) (fit : s.Over S) :
    Heavier above vs s t := by
  induction fit with
  | @app f as _ _ _ ih =>
    obtain ⟨a, mem, sub⟩ := (mem_subterms_app.1 sub).resolve_left ne.symm
    have covers : Covers vs (.app f as) a := fun v _ => by
      rw [countVar_app v (vars.notMem mem f)]
      exact single_le_sum (by simp) _ (mem_map_of_mem mem)
    by_cases eq : a = t
    · exact .heavy (eq ▸ covers) (eq ▸ weight_lt_of_mem f mem)
    · have rel := ih a mem sub eq
      exact .heavy (fun v key => (rel.covers v key).trans (covers v key)) (rel.weight_le.trans_lt (weight_lt_of_mem f mem))

theorem context (vars : Constants vs) (rel : Heavier above vs s t) (f : Symbol) (l r : List Term) :
    Heavier above vs (.app f (l ++ s :: r)) (.app f (l ++ t :: r)) := by
  have other {a : Term} : app f (l ++ a :: r) ∉ vs := vars.notMem (mem_append_right _ mem_cons_self) f
  refine of_leads (fun v key => ?_) ?_ other other (.of_differ (.append l) rel)
  · rw [countVar_app v other, countVar_app v other]
    simpa using rel.covers v key
  · simpa [weight_app] using rel.weight_le

/-- A replacement adds to the larger term at least what it adds to the smaller one. -/
theorem replace_le (vars : Constants vs) (keys : Keys (· ∈ vs) σ) (fit : s.Over S) (fit' : t.Over S) (covers : Covers vs s t) :
    Covers vs (s.replaceAll σ) (t.replaceAll σ) ∧ (t.replaceAll σ).weight + s.weight ≤ (s.replaceAll σ).weight + t.weight := by
  have weight {t : Term} (fit : t.Over S) :
      (t.replaceAll σ).weight = 1 * t.weight + occurrences vs (fun u => (u.replaceAll σ).weight - 1) t := by
    refine measure_replace keys fit (fun f as _ => by rw [weight_app]; simp [Function.comp_def]) (fun v _ => ?_) vars
    have := (v.replaceAll σ).weight_pos
    omega
  constructor
  · intro v _
    have count {t : Term} (fit : t.Over S) :
        countVar vs v (t.replaceAll σ) = 0 * t.weight + occurrences vs (fun u => countVar vs v (u.replaceAll σ)) t :=
      measure_replace keys fit (fun f as other => by rw [countVar_app v (vars.notMem_map other _)]; simp [Function.comp_def])
        (fun _ _ => (Nat.zero_add _).symm) vars
    rw [count fit, count fit']
    simpa using covers.occurrences_le _
  · have := covers.occurrences_le fun u => (u.replaceAll σ).weight - 1
    rw [weight fit, weight fit']
    omega

theorem replace (vars : Constants vs) (keys : Keys (· ∈ vs) σ) (fit : s.Over S) (fit' : t.Over S) (rel : Heavier above vs s t) :
    Heavier above vs (s.replaceAll σ) (t.replaceAll σ) := by
  obtain ⟨covers, more⟩ := replace_le vars keys fit fit' rel.covers
  induction rel with
  | heavy => exact .heavy covers (by omega)
  | @step _ _ _ _ a b _ eq left right heads rel ih =>
    obtain ⟨-, -, each⟩ := fit
    obtain ⟨-, -, each'⟩ := fit'
    rw [keys.replace_app left, keys.replace_app right] at covers more ⊢
    refine of_leads covers (Nat.le_of_add_le_add_right (eq ▸ more)) (vars.notMem_map left _) (vars.notMem_map right _)
      ⟨_, _, ⟨heads.higher, fun h => (heads.args h).map _⟩, fun h => ?_⟩
    have fits := each a (heads.args h).left_mem
    have fits' := each' b (heads.args h).right_mem
    have inner := replace_le vars keys fits fits' (rel h).covers
    exact ih h fits fits' inner.1 inner.2

theorem total (order : above.Orders S) (fit : s.Over S) (fit' : t.Over S) (ground : Ground vs s) (ground' : Ground vs t)
    (ne : s ≠ t) : Heavier above vs s t ∨ Heavier above vs t s := by
  have covers {s t : Term} (fit : t.Over S) (ground : Ground vs t) : Covers vs s t :=
    fun v key => (countVar_eq_zero fit (ground v key)).le.trans (Nat.zero_le _)
  induction fit generalizing t with
  | @app f as mem arity each ih =>
    have fit : (app f as).Over S := .app mem arity each
    rcases Nat.lt_trichotomy t.weight (app f as).weight with lt | eq | lt
    · exact .inl (.heavy (covers fit' ground') lt)
    case inr.inr => exact .inr (.heavy (covers fit ground) lt)
    obtain @⟨g, bs, -, -, each'⟩ := id fit'
    exact (Leads.total order fit fit' ne fun a ma b mb => ih a ma (each' b mb) (ground.arg ma) (ground'.arg mb)).imp
      (of_leads (covers fit' ground') eq.le ground.notMem ground'.notMem)
      (of_leads (covers fit ground) eq.ge ground'.notMem ground.notMem)

end Heavier

/-- Of the same weight as a variable that it covers is only the variable. -/
theorem Covers.eq_of_weight (vars : Constants vs) (covers : Covers vs (.app f as) (.app g bs)) (key : app g bs ∈ vs)
    (eq : weight (.app g bs) = weight (.app f as)) : app f as = app g bs := by
  by_contra ne
  have once := covers _ key
  rw [countVar_key _ key, if_pos rfl] at once
  cases vars.nil_of_mem key
  cases as with
  | nil =>
    by_cases key' : app f [] ∈ vs
    · rw [countVar_key _ key', if_neg (Ne.symm ne)] at once
      omega
    · rw [countVar_app _ key'] at once
      exact absurd once (by simp)
  | cons a =>
    have := a.weight_pos
    simp [weight_app] at eq
    omega

theorem Term.uncountable_eq_false {overloads : Srt → Bool} (plain : ∀ v ∈ vs, overloads v.sort = false) (t : Term) :
    uncountable overloads vs t = false := by
  cases t with
  | app => simpa [uncountable] using fun _ v mem own => absurd own (by simp [plain v mem])
  | _ => rfl

/-- The comparison by weight says how the terms stand in the order that it decides. -/
theorem Term.kbo_eq {overloads : Srt → Bool} (plain : ∀ v ∈ vs, overloads v.sort = false) (order : above.Orders S)
    (vars : Constants vs) (fit : s.Over S) (fit' : t.Over S) :
    kbo overloads above vs s t = .ok (verdict (Heavier above vs) s t) := by
  induction fit generalizing t with
  | @app f as mem arity each ih =>
    have fit : (Term.app f as).Over S := .app mem arity each
    obtain @⟨g, bs, -, -, each'⟩ := id fit'
    rw [kbo.eq_def]
    by_cases equal : Term.app f as = .app g bs
    · rw [if_pos equal, verdict_equal.2 equal]
    have neither (none : ¬ Heavier above vs (.app f as) (.app g bs)) :
        verdict (Heavier above vs) (.app f as) (.app g bs) = .notGreaterEqual := verdict_neither.2 (not_or.2 ⟨equal, none⟩)
    rw [if_neg equal, uncountable_eq_false plain, uncountable_eq_false plain, if_neg (by decide)]
    by_cases covers : Covers vs (.app f as) (.app g bs)
    case neg => rw [if_pos (by simpa [Covers] using covers), neither fun rel => covers rel.covers]
    rw [if_neg (by simpa [Covers] using covers)]
    rcases Nat.lt_trichotomy (weight (.app g bs)) (weight (.app f as)) with lt | eq | lt
    · rw [if_pos lt, (verdict_greater (Descent.irrefl (Heavier.wellFounded order) fit)).2 (.heavy covers lt)]
    case inr.inr => rw [if_neg lt.not_gt, if_pos lt, neither fun rel => lt.not_ge rel.weight_le]
    have key : Term.app g bs ∉ vs := fun key => equal (covers.eq_of_weight vars key eq)
    rw [if_neg eq.not_lt, if_neg eq.not_gt, if_neg (by simpa using key)]
    by_cases key' : Term.app f as ∈ vs
    · rw [if_pos (by simpa using key'), neither fun rel => ?_]
      cases rel with
      | heavy => omega
      | step _ _ left => exact left key'
    rw [if_neg (by simpa using key')]
    refine compareHeads_eq order (Heavier.wellFounded order) fit fit' ⟨fun rel => ?_, Heavier.of_leads covers eq.le key' key⟩
      (fun h => absurd h equal) fun d other => ?_
    · cases rel with
      | heavy => omega
      | step _ _ _ _ heads rel => exact ⟨_, _, heads, rel⟩
    · refine compareArgs_differ (fun a as b bs => ?_) (fun a _ _ => by rw [kbo.eq_def, if_pos rfl]) d
        (ih _ d.left_mem (each' _ d.right_mem)) (mt verdict_equal.1 other)
      rw [kboArgs]
      exact bind_congr fun r => by cases r <;> rfl

/-! ## Simplification orders -/

/-- A well-founded order of terms over `S` that contains the subterm relation, is closed under contexts and under replacement of
the variables `vs`, and is total on terms without variables. -/
structure SimplificationOrder (S : List Symbol) (vs : List Term) (R : Term → Term → Prop) : Prop where
  irrefl : ∀ {s}, s.Over S → ¬ R s s
  trans : ∀ {s t u}, s.Over S → t.Over S → u.Over S → R s t → R t u → R s u
  replace : ∀ {s t σ}, s.Over S → t.Over S → Keys (· ∈ vs) σ → (∀ e ∈ σ, e.2.Over S) → R s t →
    R (s.replaceAll σ) (t.replaceAll σ)
  context : ∀ {f l s t r}, (app f (l ++ s :: r)).Over S → t.Over S → R s t → R (.app f (l ++ s :: r)) (.app f (l ++ t :: r))
  subterm : ∀ {s t}, s.Over S → t ∈ s.subterms false → s ≠ t → R s t
  total : ∀ {s t}, s.Over S → t.Over S → Ground vs s → Ground vs t → s ≠ t → R s t ∨ R t s
  wellFounded : WellFounded (Descent S R)

theorem Term.Over.replace (fit : s.Over S) (vals : ∀ e ∈ σ, e.2.Over S) : (s.replaceAll σ).Over S := by
  induction fit with
  | @app f as mem arity _ ih =>
    cases hit : lookupLast σ (.app f as) with
    | none =>
      rw [replaceAll_app hit]
      exact .app mem (by simpa using arity) (by simpa using ih)
    | some =>
      rw [replaceAll_key hit]
      exact vals _ (lookupLast_mem hit)

theorem Term.Over.context {l r : List Term} (fit : (Term.app f (l ++ s :: r)).Over S) (fit' : t.Over S) :
    (Term.app f (l ++ t :: r)).Over S := by
  obtain ⟨mem, arity, each⟩ := fit
  rw [forall_mem_append, forall_mem_cons] at each
  exact .app mem (by simpa using arity) (forall_mem_append.2 ⟨each.1, forall_mem_cons.2 ⟨fit', each.2.2⟩⟩)

/-- A function that returns the verdicts of an order compares by it. -/
theorem SimplificationOrder.compare {compare : Term → Term → Checked Comparison}
    (order : SimplificationOrder S vs R) (spec : ∀ s t, s.Over S → t.Over S → compare s t = .ok (verdict R s t)) :
    SimplificationOrder S vs fun s t => compare s t = .ok .greater := by
  have eq {s t : Term} (fit : s.Over S) (fit' : t.Over S) : compare s t = .ok .greater ↔ R s t := by
    rw [spec s t fit fit', Except.ok.injEq, verdict_greater (order.irrefl fit)]
  constructor
  · exact fun fit h => order.irrefl fit ((eq fit fit).1 h)
  · exact fun fs ft fu st tu => (eq fs fu).2 (order.trans fs ft fu ((eq fs ft).1 st) ((eq ft fu).1 tu))
  · exact fun fs ft keys vals st =>
      (eq (fs.replace vals) (ft.replace vals)).2 (order.replace fs ft keys vals ((eq fs ft).1 st))
  · intro f l s t r fs ft st
    obtain ⟨-, -, each⟩ := id fs
    exact (eq fs (fs.context ft)).2 (order.context fs ft ((eq (each s (by simp)) ft).1 st))
  · exact fun fs sub ne => (eq fs (fs.of_mem_subterms sub)).2 (order.subterm fs sub ne)
  · exact fun fs ft gs gt ne => (order.total fs ft gs gt ne).imp (eq fs ft).2 (eq ft fs).2
  · exact order.wellFounded.mono fun t s below => ⟨below.1, below.2.1, (eq below.1 below.2.1).1 below.2.2⟩

/-- The path comparison is a simplification order, and finds exactly the identical terms equal. -/
theorem lpo_simplificationOrder (order : above.Orders S) (vars : Constants vs) :
    SimplificationOrder S vs (fun s t => lpo above vs s t = .ok .greater) ∧
      ∀ s t, s.Over S → t.Over S → (∃ r, lpo above vs s t = .ok r) ∧ (lpo above vs s t = .ok .equal ↔ s = t) := by
  have path : SimplificationOrder S vs (Path above vs) :=
    { irrefl := Descent.irrefl (Path.wellFounded order)
      trans := fun _ _ _ => Path.trans order
      replace := fun _ _ keys _ => Path.replace vars keys
      context := fun _ _ h => h.context vars _ _ _
      subterm := fun fit sub ne => Path.of_mem_subterms sub ne fit
      total := Path.total order
      wellFounded := Path.wellFounded order }
  refine ⟨path.compare fun s t => lpo_eq order vars, fun s t fit fit' => ?_⟩
  rw [lpo_eq order vars fit fit', Except.ok.injEq, verdict_equal]
  exact ⟨⟨_, rfl⟩, Iff.rfl⟩

/-- Different names are enough to order the symbols. -/
theorem Precedence.byName_orders (nodup : ∀ f ∈ S, ∀ g ∈ S, f.name = g.name → f = g) : byName.Orders S := by
  refine ⟨fun f => by simp [byName], fun fg gh => ?_, fun f mem g mem' ne => ?_⟩
  · simp only [byName, decide_eq_true_eq] at fg gh ⊢
    exact gh.trans fg
  · simpa [byName] using (lt_or_gt_of_ne fun eq => ne (nodup f mem g mem' eq)).symm

namespace Sample

def signature : List Symbol := [⟨"f", [.int, .int], .int, .free⟩, ⟨"g", [.int], .int, .free⟩, .const "x" .int]

theorem signature_orders : Precedence.byName.Orders signature := Precedence.byName_orders (by simp [signature, Symbol.const])

theorem constants_x : Constants [const "x" .int] := by simp [Constants, const]

theorem lpo_orders_signature :
    SimplificationOrder signature [const "x" .int] fun s t => lpo .byName [const "x" .int] s t = .ok .greater :=
  (lpo_simplificationOrder signature_orders constants_x).1

end Sample

/-- Over variables whose sorts have no equality of their own, the comparison by weight is a simplification order, and is never
refused. -/
theorem kbo_simplificationOrder {overloads : Srt → Bool} (plain : ∀ v ∈ vs, overloads v.sort = false)
    (order : above.Orders S) (vars : Constants vs) :
    SimplificationOrder S vs (fun s t => kbo overloads above vs s t = .ok .greater) ∧
      ∀ s t, s.Over S → t.Over S → ∃ r, kbo overloads above vs s t = .ok r := by
  have heavier : SimplificationOrder S vs (Heavier above vs) :=
    { irrefl := Descent.irrefl (Heavier.wellFounded order)
      trans := fun _ _ _ => Heavier.trans order
      replace := fun fit fit' keys _ => Heavier.replace vars keys fit fit'
      context := fun _ _ h => h.context vars _ _ _
      subterm := fun fit sub ne => Heavier.of_mem_subterms vars sub ne fit
      total := Heavier.total order
      wellFounded := Heavier.wellFounded order }
  exact ⟨heavier.compare fun s t => kbo_eq plain order vars, fun s t fit fit' => ⟨_, kbo_eq plain order vars fit fit'⟩⟩

/-- Truth values may have an equality of their own, numbers do not. -/
def Sample.isTruth (s : Srt) : Bool := s = .bool

open Sample in
theorem Sample.kbo_orders_signature :
    SimplificationOrder signature [const "x" .int] fun s t => kbo isTruth .byName [const "x" .int] s t = .ok .greater := by
  have plain : ∀ v ∈ [const "x" .int], isTruth v.sort = false := by decide
  exact (kbo_simplificationOrder plain signature_orders constants_x).1

end SortedLogic

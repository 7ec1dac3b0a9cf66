import SortedLogic.Proofs.Interpretation

/-!
# Standard interpretations

Arrays are all functions, and a value carries its sort. Given are a nonempty type for each other sort but truth values, and what
the symbols without fixed meaning do (`Standard.interpretation`).
-/

namespace SortedLogic.Standard

mutual
/-- The elements of a sort over given types of atoms. -/
def Element (B : Srt → Type) : Srt → Type
  | .bool => Bool
  | .array ds r => Elements B ds → Element B r
  | s => B s

def Elements (B : Srt → Type) : List Srt → Type
  | [] => Unit
  | s :: ss => Element B s × Elements B ss
end

variable {B : Srt → Type} {r s : Srt} {e e' : Element B s} {ds : List Srt} {f : Symbol}

structure Universe (B : Srt → Type) where
  sort : Srt
  element : Element B sort

theorem Universe.element_eq (eq : (⟨s, e⟩ : Universe B) = ⟨s, e'⟩) : e = e' := by
  rw [Universe.mk.injEq] at eq
  exact eq_of_heq eq.2

theorem nonempty_element (atoms : ∀ s, Nonempty (B s)) : ∀ s, Nonempty (Element B s)
  | .bool => ⟨(true : Bool)⟩
  | .array _ r => ⟨fun _ => (nonempty_element atoms r).some⟩
  | .int | .real | .string | .char | .roundingMode => by simpa only [Element] using atoms _
  | .bitvec _ | .float _ _ | .seq _ | .regex _ | .datatype _ | .uninterpreted _ => by
    simpa only [Element] using atoms _

namespace Element
variable {ds : List Srt} {r : Srt}

def ofBool (b : Bool) : Element B .bool := b

def toBool (e : Element B .bool) : Bool := e

def ofFun (a : Elements B ds → Element B r) : Element B (.array ds r) := a

def toFun (e : Element B (.array ds r)) : Elements B ds → Element B r := e

end Element

namespace Elements
variable {s : Srt} {ss : List Srt}

def cons (e : Element B s) (es : Elements B ss) : Elements B (s :: ss) := (e, es)

def toList : {ss : List Srt} → Elements B ss → List (Universe B)
  | [], _ => []
  | s :: _, es => ⟨s, es.1⟩ :: toList es.2

theorem exists_toList {us : List (Universe B)} (fits : List.Forall₂ (fun u s => u.sort = s) us ss) :
    ∃ es : Elements B ss, es.toList = us := by
  induction fits with
  | nil => exact ⟨(), rfl⟩
  | @cons u _ _ _ head _ ih =>
    obtain ⟨s', e⟩ := u
    cases head
    obtain ⟨es, rfl⟩ := ih
    exact ⟨cons e es, rfl⟩

theorem toList_fits : ∀ {ss : List Srt} (es : Elements B ss), List.Forall₂ (fun u s => u.sort = s) es.toList ss
  | [], _ => .nil
  | _ :: _, es => .cons rfl (toList_fits es.2)

theorem toList_injective : ∀ {ss : List Srt} {es es' : Elements B ss}, es.toList = es'.toList → es = es'
  | [], _, _, _ => rfl
  | s :: ss, es, es', eq => by
    have head : (⟨s, es.1⟩ : Universe B) = ⟨s, es'.1⟩ := (List.cons.inj eq).1
    have tail : toList es.2 = toList es'.2 := (List.cons.inj eq).2
    exact Prod.ext (Universe.element_eq head) (toList_injective tail)

end Elements

/-! ## What symbols do -/

def yes : Universe B := ⟨.bool, .ofBool true⟩

def no : Universe B := ⟨.bool, .ofBool false⟩

theorem no_ne_yes : (no : Universe B) ≠ yes := fun eq => Bool.false_ne_true (Universe.element_eq eq)

open Classical in
noncomputable def truth (p : Prop) : Universe B := if p then yes else no

theorem truth_eq_yes {p : Prop} : (truth p : Universe B) = yes ↔ p := by by_cases h : p <;> simp [truth, h, no_ne_yes]

theorem sort_truth (p : Prop) : (truth p : Universe B).sort = .bool := by
  unfold truth
  split <;> rfl

open Classical in
/-- Reads the array that comes first at the places that follow. -/
noncomputable def read (ds : List Srt) (r : Srt) (default : Element B r) (us : List (Universe B)) : Universe B :=
  if h : ∃ p : Element B (.array ds r) × Elements B ds, us = ⟨.array ds r, p.1⟩ :: p.2.toList
  then ⟨r, h.choose.1.toFun h.choose.2⟩ else ⟨r, default⟩

theorem read_array (default : Element B r) (a : Element B (.array ds r)) (es : Elements B ds) :
    read ds r default (⟨.array ds r, a⟩ :: es.toList) = ⟨r, a.toFun es⟩ := by
  have shape : ∃ p : Element B (.array ds r) × Elements B ds,
      (⟨.array ds r, a⟩ :: es.toList) = ⟨.array ds r, p.1⟩ :: p.2.toList := ⟨(a, es), rfl⟩
  rw [read, dif_pos shape]
  have eq := shape.choose_spec
  have head : a = shape.choose.1 := Universe.element_eq (List.cons.inj eq).1
  rw [← head, ← Elements.toList_injective (List.cons.inj eq).2]

/-- The operations that mean the same in every interpretation. -/
inductive Fixed where
  | tt | ff | and | or | not | implies
  | eq (s : Srt)
  | distinct (ss : List Srt)
  | ite (s : Srt)
  | select (ds : List Srt) (r : Srt)

namespace Fixed

def symbol : Fixed → Symbol
  | .tt => .tt
  | .ff => .ff
  | .and => .and
  | .or => .or
  | .not => .not
  | .implies => .implies
  | .eq s => .eq s
  | .distinct ss => .distinct ss
  | .ite s => .ite s
  | .select ds r => .select ds r

theorem symbol_injective {x y : Fixed} (eq : x.symbol = y.symbol) : x = y := by
  cases x <;> cases y <;> simp_all [symbol, Symbol.tt, Symbol.ff, Symbol.and, Symbol.or, Symbol.not, Symbol.implies, Symbol.eq,
      Symbol.distinct, Symbol.ite, Symbol.select, Symbol.builtin]

open Classical in
noncomputable def branch (default : Universe B) : List (Universe B) → Universe B
  | [c, u, v] => if c = yes then u else v
  | _ => default

noncomputable def meaning : (x : Fixed) → Element B x.symbol.range → List (Universe B) → Universe B
  | .tt, _, _ => yes
  | .ff, _, _ => no
  | .and, _, us => truth (∀ u ∈ us, u = yes)
  | .or, _, us => truth (∃ u ∈ us, u = yes)
  | .not, _, us => truth (us ≠ [yes])
  | .implies, _, us => truth (us[0]? = some (yes) → us[1]? = some (yes))
  | .eq _, _, us => truth (us[0]? = us[1]?)
  | .distinct _, _, us => truth us.Nodup
  | .ite s, e, us => branch ⟨s, e⟩ us
  | .select ds r, e, us => read ds r e us

theorem range_meaning (x : Fixed) (default : Element B x.symbol.range) (us : List (Universe B))
    (fits : List.Forall₂ (fun u s => u.sort = s) us (Term.placesOf x.symbol us.length)) :
    (x.meaning default us).sort = x.symbol.range := by
  cases x with
  | ite s =>
    show (branch ⟨s, default⟩ us).sort = s
    unfold branch
    split
    · rename_i c u v
      have fits : List.Forall₂ (fun u s => u.sort = s) [c, u, v] [.bool, s, s] := fits
      simp only [List.forall₂_cons, List.Forall₂.nil, and_true] at fits
      split
      · exact fits.2.1
      · exact fits.2.2
    · rfl
  | select ds r =>
    show (read ds r default us).sort = r
    unfold read
    split <;> rfl
  | tt => rfl
  | ff => rfl
  | _ => exact sort_truth _

end Fixed

/-! ## The interpretation -/

section
variable (op : (f : Symbol) → List (Universe B) → Element B f.range)

open Classical in
noncomputable def apply (f : Symbol) (us : List (Universe B)) : Universe B :=
  if h : ∃ x : Fixed, x.symbol = f then h.choose.meaning (op h.choose.symbol us) us else ⟨f.range, op f us⟩

theorem apply_fixed (x : Fixed) (us : List (Universe B)) : apply op x.symbol us = x.meaning (op x.symbol us) us := by
  have hit : ∃ y : Fixed, y.symbol = x.symbol := ⟨x, rfl⟩
  rw [apply, dif_pos hit, Fixed.symbol_injective hit.choose_spec]

theorem apply_free (free : ¬ f.Logical) (us : List (Universe B)) : apply op f us = ⟨f.range, op f us⟩ := by
  refine dif_neg fun fixed => free ?_
  obtain ⟨x, rfl⟩ := fixed
  cases x <;> constructor

noncomputable def frame (atoms : ∀ s, Nonempty (B s)) : Frame (Universe B) where
  carrier s := {u | u.sort = s}
  nonempty s := ⟨⟨s, (nonempty_element atoms s).some⟩, rfl⟩
  yes := yes
  no := no
  no_ne_yes := no_ne_yes
  carrier_bool := by
    ext ⟨s, e⟩
    constructor
    · rintro rfl
      cases h : Element.toBool e with
      | true => exact .inl (congrArg (Universe.mk Srt.bool) h)
      | false => exact .inr (congrArg (Universe.mk Srt.bool) h)
    · rintro (h | h) <;> exact congrArg Universe.sort h
  fn := apply op
  fn_mem f us fits := by
    by_cases fixed : ∃ x : Fixed, x.symbol = f
    · obtain ⟨x, rfl⟩ := fixed
      rw [apply_fixed]
      exact x.range_meaning _ us fits
    · rw [apply, dif_neg fixed]
      rfl
  fn_tt := apply_fixed op .tt []
  fn_ff := apply_fixed op .ff []
  fn_and us := by rw [show Symbol.and = Fixed.and.symbol from rfl, apply_fixed]; exact truth_eq_yes
  fn_or us := by rw [show Symbol.or = Fixed.or.symbol from rfl, apply_fixed]; exact truth_eq_yes
  fn_not u := by
    rw [show Symbol.not = Fixed.not.symbol from rfl, apply_fixed]
    exact truth_eq_yes.trans (by simp)
  fn_implies u v := by
    rw [show Symbol.implies = Fixed.implies.symbol from rfl, apply_fixed]
    exact truth_eq_yes.trans (by simp)
  fn_eq s u v := by
    rw [show Symbol.eq s = (Fixed.eq s).symbol from rfl, apply_fixed]
    exact truth_eq_yes.trans (by simp)
  fn_distinct ss us := by
    rw [show Symbol.distinct ss = (Fixed.distinct ss).symbol from rfl, apply_fixed]
    exact truth_eq_yes
  fn_ite_yes s u v := by
    rw [show Symbol.ite s = (Fixed.ite s).symbol from rfl, apply_fixed]
    exact if_pos rfl
  fn_ite_no s c u v h := by
    rw [show Symbol.ite s = (Fixed.ite s).symbol from rfl, apply_fixed]
    exact if_neg h
  extensional := by
    rintro ds r ⟨_, a⟩ ⟨_, b⟩ rfl rfl same
    refine congrArg (Universe.mk (.array ds r)) (funext fun es => ?_)
    have at' := same es.toList es.toList_fits
    rw [show Symbol.select ds r = (Fixed.select ds r).symbol from rfl, apply_fixed, apply_fixed] at at'
    exact Universe.element_eq ((read_array _ a es).symm.trans (at'.trans (read_array _ b es)))

theorem exists_shows (atoms : ∀ s, Nonempty (B s)) {g : List (Universe B) → Universe B}
    (range : ∀ us, (frame op atoms).Fits us ds → (g us).sort = r) : ∃ a, (frame op atoms).Shows ds r g a := by
  choose e he using fun es : Elements B ds => (⟨range es.toList es.toList_fits ▸ (g es.toList).element, by
    generalize range es.toList es.toList_fits = h
    subst h
    rfl⟩ : ∃ e : Element B r, (⟨r, e⟩) = g es.toList)
  refine ⟨⟨.array ds r, .ofFun e⟩, rfl, fun us fits => ?_⟩
  obtain ⟨es, rfl⟩ := Elements.exists_toList fits
  show apply op (Fixed.select ds r).symbol _ = _
  rw [apply_fixed, ← he es]
  exact read_array _ (.ofFun e) es

/-- The interpretation in which symbols without fixed meaning do what `op` says. -/
noncomputable def interpretation (atoms : ∀ s, Nonempty (B s)) : Interpretation (Universe B) where
  toFrame := frame op atoms
  comprehension := by
    intro Γ ρ vars body sorted fits
    exact exists_shows op atoms fun us fitting => (frame op atoms).eval_mem sorted (fitting.push fits)

end

/-! ## One atom of each sort -/

/-- The element of a sort that is true, or true everywhere, if it speaks of truth values. -/
def top : (s : Srt) → Element (fun _ => Unit) s
  | .bool => .ofBool true
  | .array _ r => .ofFun fun _ => top r
  | .int | .real | .string | .char | .roundingMode => ()
  | .bitvec _ | .float _ _ | .seq _ | .regex _ | .datatype _ | .uninterpreted _ => ()

/-- The interpretation with one atom of each sort, in which every predicate without fixed meaning holds. -/
noncomputable def allTrue : Interpretation (Universe fun _ => Unit) :=
  interpretation (fun f _ => top f.range) fun _ => ⟨()⟩

theorem allTrue_predicate (free : ¬ f.Logical) (range : f.range = .bool) (us : List (Universe fun _ => Unit)) :
    allTrue.fn f us = allTrue.yes := by
  show apply (fun f _ => top f.range) f us = yes
  rw [apply_free _ free, range]
  rfl

/-! ## Numbers for atoms -/

def Universe.number : Universe (fun _ => Nat) → Nat
  | ⟨.datatype _, n⟩ => n
  | _ => 0

/-- A number as an element of any sort; of the truth values it is true unless it is zero. -/
def ofNumber (n : Nat) : (s : Srt) → Element (fun _ => Nat) s
  | .bool => .ofBool (n != 0)
  | .array _ r => .ofFun fun _ => ofNumber n r
  | .int | .real | .string | .char | .roundingMode => n
  | .bitvec _ | .float _ _ | .seq _ | .regex _ | .datatype _ | .uninterpreted _ => n

/-- Zero and successor, with what takes them apart; other symbols give zero. -/
def count (f : Symbol) (us : List (Universe fun _ => Nat)) : Nat :=
  match f.role, us with
  | .constructor, [u] => u.number + 1
  | .accessor _ _, [u] => u.number - 1
  | .recognizer "S", [u] => u.number
  | .recognizer _, [u] => 1 - u.number
  | _, _ => 0

/-- The interpretation in which the elements of datatypes are numbers. -/
noncomputable def numbers : Interpretation (Universe fun _ => Nat) :=
  interpretation (fun f us => ofNumber (count f us) f.range) fun _ => ⟨0⟩

theorem numbers_fn (role : ∀ is, f.role ≠ .builtin is) (us : List (Universe fun _ => Nat)) :
    numbers.fn f us = ⟨f.range, ofNumber (count f us) f.range⟩ := by
  have free : ¬ f.Logical := fun logical => by cases logical <;> exact role [] rfl
  exact apply_free (fun f us => ofNumber (count f us) f.range) free us

end SortedLogic.Standard

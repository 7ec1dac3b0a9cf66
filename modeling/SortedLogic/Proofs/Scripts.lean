import SortedLogic.Proofs.Expressions
import SortedLogic.Proofs.Patterns
import SortedLogic.Print.SmtLib
import Mathlib

/-!
# Scripts that declare what they use

Each name in a script is part of the language, bound around its use, or introduced by one command, at or before its use
(`Script.Closed`). Problems whose sorts and values can be written have such scripts (`Declarable.script_closed`); a constructor
that stands as a value cannot (`constructorValue_undeclared`).
-/

namespace SortedLogic.Print
open SExpr (has_word has_list)
variable {cs cs' xs ys : List (SExpr Piece)} {a t u : Term} {c head x : SExpr Piece} {n s : String}
  {known : List Piece} {args : List Term}
open SortedLogic.Print.SmtLib (word symbol sort declaration datatype)
open List hiding cons

/-! ## Names in expressions -/

namespace SmtLib

def binderWords : List String := ["forall", "exists", "lambda"]

def reserved : List String :=
  predefined ++ binderWords ++ ["Bool", "Array", "ite", "_", "assert", "declare-sort", "declare-fun", "declare-datatypes", ""]

/-- Words of the language, numerals and quoted texts. -/
def isBasic : Piece → Bool
  | .text s => reserved.contains s || (s.toList.headD ' ').isDigit || s.toList.head? == some '"'
  | .symbol .. => false

def firstWord? : SExpr Piece → Option Piece
  | .list (.word p :: _) => some p
  | _ => none

/-- The names that a list binds in its items. -/
def boundBy : List (SExpr Piece) → List Piece
  | [.word (.text k), .list vars, _] => if binderWords.contains k then vars.filterMap firstWord? else []
  | _ => []

mutual
def free (bound : List Piece) : SExpr Piece → List Piece
  | .word p => if bound.contains p then [] else [p]
  | .list xs => freeIn (boundBy xs ++ bound) xs

def freeIn (bound : List Piece) : List (SExpr Piece) → List Piece
  | [] => []
  | x :: xs => free bound x ++ freeIn bound xs
end

/-- The names that a command uses. The name of an assertion is none of them. -/
def used : SExpr Piece → List Piece
  | .list [.word (.text "assert"), .list [.word (.text "!"), x, .word (.text ":named"), _]] => free [] x
  | x => free [] x

def introduced : SExpr Piece → List Piece
  | .list [.word (.text "declare-sort"), .word p, _] => [p]
  | .list [.word (.text "declare-fun"), .word p, _, _] => [p]
  | .list [.word (.text "declare-datatypes"), .list [.list [.word p, _]], .list [.list cons]] =>
    p :: cons.flatMap fun
      | .list (.word c :: fields) => c :: fields.filterMap firstWord?
      | _ => []
  | _ => []

end SmtLib

open SortedLogic.Print.SmtLib

namespace Problem.Script

/-- Every name that is used is known before, or introduced by the command itself or one before it. -/
def Declares : List Piece → List (SExpr Piece) → Prop
  | _, [] => True
  | known, c :: cs => (∀ p ∈ used c, isBasic p = true ∨ p ∈ known ++ introduced c) ∧ Declares (known ++ introduced c) cs

def commands (s : Script) : List (SExpr Piece) := s.sorts ++ s.symbols ++ s.assertions

/-- Every name that is used is introduced by one command, at or before its use. -/
structure Closed (s : Script) : Prop where
  declares : Declares [] s.commands
  once : ∀ c ∈ s.commands, ∀ p ∈ used c, isBasic p = true ∨ (s.commands.flatMap introduced).count p = 1

/-- The same commands, with the declarations of sorts and those of symbols in any order. -/
structure Reorders (s s' : Script) : Prop where
  sorts : s'.sorts.Perm s.sorts
  symbols : s'.symbols.Perm s.symbols
  assertions : s'.assertions = s.assertions

theorem declares_append : Declares known (cs ++ cs') ↔ Declares known cs ∧ Declares (known ++ cs.flatMap introduced) cs' := by
  induction cs generalizing known with
  | nil => simp [Declares]
  | cons _ _ ih => simp [Declares, ih, and_assoc]

theorem declares_of_forall (each : ∀ c ∈ cs, ∀ p ∈ used c, isBasic p = true ∨ p ∈ known ∨ p ∈ introduced c) :
    Declares known cs := by
  induction cs generalizing known with
  | nil => trivial
  | cons c _ ih =>
    refine ⟨fun p mem => (each c mem_cons_self p mem).imp_right mem_append.2, ih fun c' mem p seen => ?_⟩
    refine (each c' (List.mem_cons_of_mem _ mem) p seen).imp_right (Or.imp_left (mem_append_left _))

theorem closed_of {s : Script} (nodup : (s.sorts.flatMap introduced ++ s.symbols.flatMap introduced).Nodup)
    (silent : s.assertions.flatMap introduced = [])
    (sorts : ∀ c ∈ s.sorts, ∀ p ∈ used c, isBasic p = true ∨ p ∈ introduced c)
    (symbols : ∀ c ∈ s.symbols, ∀ p ∈ used c, isBasic p = true ∨ p ∈ s.sorts.flatMap introduced ∨ p ∈ introduced c)
    (assertions : ∀ c ∈ s.assertions, ∀ p ∈ used c,
      isBasic p = true ∨ p ∈ s.sorts.flatMap introduced ++ s.symbols.flatMap introduced) : s.Closed := by
  have all : s.commands.flatMap introduced = s.sorts.flatMap introduced ++ s.symbols.flatMap introduced := by
    simp [commands, silent]
  refine ⟨?_, fun c mem p seen => ?_⟩
  · rw [commands, declares_append, declares_append]
    refine ⟨⟨declares_of_forall fun c mem p seen => ?_, declares_of_forall fun c mem p seen => ?_⟩,
      declares_of_forall fun c mem p seen => ?_⟩
    · exact (sorts c mem p seen).imp_right .inr
    · simpa using symbols c mem p seen
    · refine (assertions c mem p seen).imp_right fun known => .inl ?_
      simpa using known
  · have known : isBasic p = true ∨ p ∈ s.sorts.flatMap introduced ++ s.symbols.flatMap introduced := by
      have mem' : ∀ {cs : List (SExpr Piece)}, c ∈ cs → p ∈ introduced c → p ∈ cs.flatMap introduced := fun mem seen =>
        mem_flatMap.2 ⟨c, mem, seen⟩
      simp only [commands, mem_append] at mem ⊢
      rcases mem with (mem | mem) | mem
      · exact (sorts c mem p seen).imp_right fun here => .inl (mem' mem here)
      · exact (symbols c mem p seen).imp_right (Or.imp_right (mem' mem))
      · simpa using assertions c mem p seen
    rw [all]
    exact known.imp_right (List.count_eq_one_of_mem nodup)

end Problem.Script

/-! ## Words -/

namespace SmtLib
variable {w : World} {bound : List Piece} {p : Piece}

theorem mem_freeIn : p ∈ freeIn bound xs ↔ ∃ x ∈ xs, p ∈ free bound x := by
  induction xs with
  | nil => simp [freeIn]
  | cons _ _ ih => simp [freeIn, ih]

theorem mem_free_word {q : Piece} : p ∈ free bound (.word q) ↔ p = q ∧ q ∉ bound := by
  by_cases mem : q ∈ bound <;> simp [free, mem]

theorem mem_free_list : p ∈ free bound (.list xs) ↔ ∃ x ∈ xs, p ∈ free (boundBy xs ++ bound) x := by rw [free, mem_freeIn]

theorem has_of_mem_free : p ∈ free bound x → x.Has p := by
  induction x generalizing bound with
  | word => exact fun seen => has_word.2 (mem_free_word.1 seen).1
  | list _ ih =>
    intro seen
    obtain ⟨x, mem, seen⟩ := mem_free_list.1 seen
    exact .list mem (ih x mem seen)

theorem has_of_mem_used (seen : p ∈ used x) : x.Has p := by
  unfold used at seen
  split at seen
  next y _ => exact .list (List.mem_cons_of_mem _ mem_cons_self) (.list (by simp) (has_of_mem_free seen))
  · exact has_of_mem_free seen

theorem mem_used_assert (seen : p ∈ used (.list [word "assert", x])) : isBasic p = true ∨ p ∈ free [] x := by
  unfold used at seen
  split at seen
  next y _ eq =>
    cases eq
    exact .inr (mem_free_list.2 ⟨y, by simp, by simpa [boundBy] using seen⟩)
  · have none : boundBy [word "assert", x] = [] := by simp [boundBy]
    obtain ⟨y, mem, mem'⟩ := mem_free_list.1 seen
    rw [none] at mem'
    simp only [mem_cons, not_mem_nil, or_false] at mem
    rcases mem with rfl | rfl
    · rw [(mem_free_word.1 mem').1]
      exact .inl (by decide)
    · exact .inr mem'

@[simp] theorem has_textWord : (word s).Has p ↔ p = .text s := has_word

def piece (f : Symbol) : Piece := .symbol f.name f

theorem piece_injective : Function.Injective piece := fun _ _ eq => (Piece.symbol.inj eq).2

@[simp] theorem has_symbol {f : Symbol} : (symbol f).Has p ↔ p = piece f := has_word

theorem isBasic_of_mem (known : s ∈ reserved) : isBasic (.text s) = true := by simp [isBasic, known]

theorem isBasic_numeral (n : Nat) (rest : String) : isBasic (.text (toString n ++ rest)) = true := by
  have first : ((toString n ++ rest).toList.headD ' ').isDigit = true := by
    cases digits : Nat.toDigits 10 n with
    | nil => exact absurd digits (by simp)
    | cons => simpa [digits] using Text.isDigit_of_mem_digits (k := n) (by simp [digits])
  rw [isBasic, first, Bool.or_true, Bool.true_or]

theorem isBasic_nat (n : Nat) : isBasic (.text (toString n)) = true := by simpa using isBasic_numeral n ""

inductive Literal : Term → Prop
  | int (v : Int) : Literal (.app (.int v) [])
  | rat (q : Rat) : Literal (.app (.rat q) [])
  | text {f : Symbol} {s : String} : f.role = .text s → Literal (.app f [])
  | tt : Literal (.app .tt [])
  | ff : Literal (.app .ff [])

theorem isBasic_intExpr {v : Int} (seen : (Text.intExpr v).Has s) : isBasic (.text s) = true := by
  unfold Text.intExpr at seen
  split at seen
  next negative =>
    obtain ⟨n, rfl⟩ : ∃ n : Nat, v = -n := ⟨v.natAbs, by omega⟩
    rw [neg_neg, SExpr.has_words, List.mem_pair] at seen
    rcases seen with rfl | rfl
    · exact isBasic_of_mem (by decide)
    · exact isBasic_nat n
  next positive =>
    obtain ⟨n, rfl⟩ := Int.eq_ofNat_of_zero_le (not_lt.1 positive)
    rw [has_word.1 seen]
    exact isBasic_nat n

theorem isBasic_ratExpr {q : Rat} (seen : (Text.ratExpr q).Has s) : isBasic (.text s) = true := by
  have size : ∀ {s : String}, (if q.den = 1 then SExpr.word (toString q.num.natAbs ++ ".0")
      else SExpr.words ["/", toString q.num.natAbs ++ ".0", toString q.den ++ ".0"]).Has s → isBasic (.text s) = true := by
    intro s seen
    split at seen
    · rw [has_word.1 seen]
      exact isBasic_numeral _ _
    simp only [SExpr.has_words, mem_cons, not_mem_nil, or_false] at seen
    rcases seen with rfl | rfl | rfl
    · exact isBasic_of_mem (by decide)
    · exact isBasic_numeral _ _
    · exact isBasic_numeral _ _
  unfold Text.ratExpr at seen
  by_cases negative : q.num < 0
  · simp only [negative, if_true, has_list, List.mem_pair] at seen
    obtain ⟨_, rfl | rfl, seen⟩ := seen
    · rw [has_word.1 seen]
      exact isBasic_of_mem (by decide)
    · exact size seen
  · simp only [negative, if_false] at seen
    exact size seen

theorem Literal.isBasic_words (literal : Literal t) (seen : t.expr.Has s) : isBasic (.text s) = true := by
  cases literal <;> rw [Term.expr, Term.exprWith.eq_def] at seen
  · exact isBasic_intExpr seen
  · exact isBasic_ratExpr seen
  next role =>
    simp only [role] at seen
    simp [has_word.1 seen, isBasic]
  all_goals
    rw [has_word.1 seen]
    decide

end SmtLib

/-! ## Declarations -/

/-- Sorts that are written as their names, and arrays with one index. -/
inductive Simple : Srt → Prop
  | named {s : Srt} : s.sexpr = .word s.name → Simple s
  | array {d r : Srt} : Simple d → Simple r → Simple (.array [d] r)

namespace Problem

def parts (p : Problem) : List Term := p.terms.flatMap (Term.subterms true)

def sortNames (w : World) (p : Problem) : List Piece :=
  (collectSorts p.terms).flatMap fun s =>
    if (w.datatype? s).isNone ∧ s.name ∈ knownSorts then [] else [.text s.name]

def made (w : World) (p : Problem) : List Symbol :=
  (collectSorts p.terms).flatMap fun s =>
    (w.datatype? s).toList.flatMap fun d => d.constructors.flatMap fun c => c.symbol :: c.accessors

/-- Constructors do not stand as values, functions have as many arguments as they take, sorts of variables are among those of
terms, and fields are of the datatype itself or of a sort of the language. -/
structure Declarable (w : World) (p : Problem) : Prop where
  values : ∀ t ∈ p.parts, t.isValue = true → Literal t
  applied : ∀ f args, .app f args ∈ p.parts → (f.name ∈ predefined → f.name = "is") → args.map Term.sort = f.domain
  sorts : ∀ t ∈ p.parts, Simple t.sort
  bound : ∀ k vars body, .bind k vars body ∈ p.parts → ∀ v ∈ vars, Simple v.2 ∧
    ∀ s ∈ plainSorts v.2, s.name ∈ knownSorts ∨ s ∈ collectSorts p.terms
  names : ((collectSorts p.terms).map Srt.name).Nodup
  fields : ∀ s ∈ collectSorts p.terms, ∀ d, w.datatype? s = some d → ∀ c ∈ d.constructors,
    c.recognizer.name = "is" ∧ ∀ a ∈ c.accessors, a.range = s ∨ a.range ∈ [.bool, .int, .real]
  made : (p.made w).Nodup

variable {w : World} {p : Problem} {q : Piece} {s : Srt} {f : Symbol} {d : Datatype}

theorem mem_collectSorts : s ∈ collectSorts p.terms ↔ ∃ t ∈ p.parts, s ∈ plainSorts t.sort := by
  simp only [collectSorts, parts, Term.sorts, List.mem_eraseDups, mem_flatMap, mem_map]
  grind

theorem mem_collectSymbols : f ∈ collectSymbols p.terms ↔ ∃ t ∈ p.parts, t.head? = some f := by
  simp only [collectSymbols, parts, Term.symbols, List.mem_eraseDups, mem_flatMap, List.mem_filterMap]
  grind

theorem datatype?_sort (hit : w.datatype? s = some d) : d.sort = s := by simpa using List.find?_some hit

theorem mem_made : f ∈ p.made w ↔ ∃ s ∈ collectSorts p.terms, ∃ d, w.datatype? s = some d ∧
    ∃ c ∈ d.constructors, f = c.symbol ∨ f ∈ c.accessors := by simp [made]

theorem mem_declaredSymbols (ok : p.Declarable w) (own : f.name ∉ predefined) :
    f ∈ p.declaredSymbols w ↔ f ∈ collectSymbols p.terms ∧ f ∉ p.made w := by
  have known : f ∈ ((collectSorts p.terms).filterMap w.datatype?).flatMap datatypeSymbols ↔ f ∈ p.made w := by
    simp only [mem_made, mem_flatMap, List.mem_filterMap, datatypeSymbols, mem_cons]
    constructor
    · rintro ⟨d, ⟨s, collected, hit⟩, c, mem, rfl | rfl | mem'⟩
      · exact ⟨s, collected, d, hit, c, mem, .inl rfl⟩
      · rw [(ok.fields s collected d hit c mem).1] at own
        exact absurd (by decide) own
      · exact ⟨s, collected, d, hit, c, mem, .inr mem'⟩
    · rintro ⟨s, collected, d, hit, c, mem, mem'⟩
      exact ⟨d, ⟨s, collected, hit⟩, c, mem, mem'.imp_right .inr⟩
  simp [declaredSymbols, known, own]

/-- What the declarations of a problem introduce. -/
def declared (w : World) (p : Problem) : List Piece := p.sortNames w ++ (p.made w ++ p.declaredSymbols w).map piece

theorem introduced_datatype (d : Datatype) : introduced (datatype d) =
    .text d.name :: (d.constructors.flatMap fun c => c.symbol :: c.accessors).map piece := by
  simp only [datatype, introduced, word, List.flatMap_cons, List.flatMap_map, List.map_flatMap]
  simp only [symbol, firstWord?, List.filterMap_map, Function.comp_def, List.nil_append, List.filterMap_eq_map']
  rfl

theorem introduced_sorts : ((p.sortDeclarations w).flatMap introduced).Perm (p.sortNames w ++ (p.made w).map piece) := by
  rw [made, List.map_flatMap]
  refine (List.Perm.of_eq ?_).trans (List.flatMap_append_perm _ _ _).symm
  rw [sortDeclarations, List.filterMap_eq_flatMap_toList, List.flatMap_assoc]
  refine List.flatMap_congr fun s _ => ?_
  cases hit : w.datatype? s with
  | some d =>
    have name : s.name = d.name := by rw [← datatype?_sort hit, Datatype.sort, Srt.name]
    simp [introduced_datatype, name]
  | none => by_cases known : s.name ∈ knownSorts <;> simp [known, introduced, word]

theorem introduced_symbols : (p.symbolDeclarations w).flatMap introduced = (p.declaredSymbols w).map piece := by
  rw [symbolDeclarations, List.flatMap_map, List.map_eq_flatMap]
  rfl

theorem nodup_eraseDups {α : Type} [DecidableEq α] (l : List α) : l.eraseDups.Nodup := by
  cases l with
  | nil => simp
  | cons =>
    rw [List.eraseDups_cons, List.nodup_cons]
    exact ⟨by simp, nodup_eraseDups _⟩
termination_by l.length
decreasing_by exact Nat.lt_succ_of_le (List.length_filter_le _ _)

theorem Declarable.nodup (ok : p.Declarable w) : (p.declared w).Nodup := by
  have names : (p.sortNames w).Nodup := by
    refine List.Sublist.nodup ?_ (ok.names.map fun _ _ => Piece.text.inj)
    rw [List.map_map, List.map_eq_flatMap]
    refine List.Sublist.flatMap_right _ fun s => ?_
    split <;> simp
  have symbols : (p.made w ++ p.declaredSymbols w).Nodup := by
    refine List.nodup_append'.2 ⟨ok.made, (nodup_eraseDups _).filter _, fun f here there => ?_⟩
    have own : f.name ∉ predefined := by
      have := (List.mem_filter.1 there).2
      simp at this
      exact this.2
    exact ((mem_declaredSymbols ok own).1 there).2 here
  refine List.nodup_append'.2 ⟨names, symbols.map piece_injective, fun q here there => ?_⟩
  obtain ⟨s, -, here⟩ := mem_flatMap.1 here
  obtain ⟨f, -, rfl⟩ := mem_map.1 there
  split at here <;> simp [piece] at here

/-! ## Uses -/

theorem application_cases (ok : application w f ys = .ok x) : (ys = [] ∧ x = constant f) ∨
      ∃ head, (if f.name ∈ predefined then predefinedHead w f else .ok (symbol f)) = .ok head ∧ x = .list (head :: ys) := by
  cases ys with
  | nil => exact .inl ⟨rfl, by simpa [application, eq_comm] using ok⟩
  | cons =>
    refine .inr ?_
    simp only [application, List.isEmpty_cons, Bool.false_eq_true, if_false, List.contains_iff_mem] at ok
    split at ok <;> rename_i named <;> obtain ⟨head, made, last⟩ := Checked.bind_eq_ok.1 ok
    · exact ⟨head, by rw [if_pos named, made], (Checked.pure_eq_ok.1 last).symm⟩
    · exact ⟨head, by rw [if_neg named, ← Checked.pure_eq_ok.1 made], (Checked.pure_eq_ok.1 last).symm⟩

theorem isBasic_knownSort (known : n ∈ knownSorts) : isBasic (.text n) = true := by
  have all : ∀ n ∈ knownSorts, n ∈ reserved := by decide
  exact isBasic_of_mem (all n known)

theorem sort_words (simple : Simple s) (known : ∀ s' ∈ plainSorts s, s'.name ∈ knownSorts ∨ s' ∈ collectSorts p.terms)
    (seen : (sort s).Has q) : isBasic q = true ∨ q ∈ p.sortNames w := by
  induction simple with
  | @named s text =>
    rw [sort, text] at seen
    rw [has_word.1 seen]
    have self : s ∈ plainSorts s := by cases s <;> simp [plainSorts, Srt.sexpr] at text ⊢
    by_cases old : s.name ∈ knownSorts
    · exact .inl (isBasic_knownSort old)
    · exact .inr (mem_flatMap.2 ⟨s, (known s self).resolve_left old, by simp [old]⟩)
  | @array d r _ _ ihd ihr =>
    have split : q = .text "Array" ∨ (sort d).Has q ∨ (sort r).Has q := by
      simpa [sort, Srt.sexpr, Srt.sexprs, has_list, has_word] using seen
    rcases split with rfl | seen | seen
    · exact .inl (by decide)
    · exact ihd (fun s' mem => known s' (by simp [plainSorts, mem])) seen
    · exact ihr (fun s' mem => known s' (by simp [plainSorts, mem])) seen

theorem mem_parts_of_subterm (mem' : u ∈ t.subterms true) (part : t ∈ p.parts) : u ∈ p.parts := by
  obtain ⟨e, mem, sub⟩ := mem_flatMap.1 part
  exact mem_flatMap.2 ⟨e, mem, Term.subterms_trans mem' sub⟩

theorem mem_parts_arg (mem : a ∈ args) (part : .app f args ∈ p.parts) : a ∈ p.parts :=
  mem_parts_of_subterm (Term.mem_subterms_arg mem (Term.self_mem_subterms true a)) part

theorem Declarable.sort_words (ok : p.Declarable w) (part : t ∈ p.parts) (seen : (sort t.sort).Has q) :
    isBasic q = true ∨ q ∈ p.sortNames w :=
  Problem.sort_words (ok.sorts t part) (fun _ mem => .inr (mem_collectSorts.2 ⟨t, part, mem⟩)) seen

theorem piece_mem_declared (mem : f ∈ p.made w ∨ f ∈ p.declaredSymbols w) : piece f ∈ p.declared w :=
  mem_append_right _ (mem_map_of_mem (mem_append.2 mem))

theorem Declarable.symbol_declared (ok : p.Declarable w) (part : .app f args ∈ p.parts)
    (own : f.name ∉ predefined) : piece f ∈ p.declared w := by
  refine piece_mem_declared (or_iff_not_imp_left.2 fun other => (mem_declaredSymbols ok own).2 ⟨?_, other⟩)
  exact mem_collectSymbols.2 ⟨_, part, rfl⟩

theorem isBasic_predefined (known : n ∈ predefined) : isBasic (.text n) = true := isBasic_of_mem (by simp [reserved, known])

theorem Declarable.constant_words (ok : p.Declarable w) (part : .app f args ∈ p.parts)
    (seen : (constant f).Has q) : isBasic q = true ∨ q ∈ p.declared w := by
  unfold constant at seen
  split at seen
  · exact .inl (has_textWord.1 seen ▸ by decide)
  split at seen
  · exact .inl (has_textWord.1 seen ▸ by decide)
  split at seen
  next known => exact .inl (has_textWord.1 seen ▸ isBasic_predefined (by simpa using known))
  next own => exact .inr (has_symbol.1 seen ▸ ok.symbol_declared part (by simpa using own))

theorem Declarable.head_words (ok : p.Declarable w) (part : .app f args ∈ p.parts)
    (made : (if f.name ∈ predefined then predefinedHead w f else .ok (symbol f)) = .ok head)
    (seen : head.Has q) : isBasic q = true ∨ q ∈ p.declared w := by
  by_cases named : f.name ∈ predefined
  · rw [if_pos named] at made
    unfold predefinedHead at made
    split at made
    · cases made
      exact .inl (has_textWord.1 seen ▸ by decide)
    split at made
    next recognizer =>
      split at made
      · cases made
      next d hit =>
      split at made
      next c of =>
        cases made
        have words : q = .text "_" ∨ q = .text "is" ∨ q = piece c.symbol := by simpa [has_list] using seen
        rcases words with rfl | rfl | rfl
        · exact .inl (by decide)
        · exact .inl (by decide)
        -- the argument is of the datatype, so the datatype is declared
        · obtain ⟨s, first, hit⟩ := Option.bind_eq_some_iff.1 hit
          rw [← ok.applied f args part fun _ => recognizer, List.head?_map] at first
          obtain ⟨a, mem, rfl⟩ := Option.map_eq_some_iff.1 first
          have self : a.sort ∈ plainSorts a.sort := by simp [← datatype?_sort hit, Datatype.sort, plainSorts]
          have collected := mem_collectSorts.2 ⟨a, mem_parts_arg (List.mem_of_mem_head? mem) part, self⟩
          exact .inr (piece_mem_declared (.inl (mem_made.2 ⟨_, collected, d, hit, c, List.mem_of_find?_eq_some of, .inl rfl⟩)))
      next =>
        cases made
        exact .inl (has_textWord.1 seen ▸ isBasic_predefined named)
    next =>
      cases made
      exact .inl (has_textWord.1 seen ▸ isBasic_predefined named)
  · rw [if_neg named] at made
    cases made
    exact .inr (has_symbol.1 seen ▸ ok.symbol_declared part named)

theorem boundBy_binder (k : Binder) (cs : List Symbol) (b : SExpr Piece) :
    boundBy [word (binderWord k), .list ((cs.map fun c => (symbol c, c.range)).map fun v => .list [v.1, sort v.2]), b] =
      cs.map piece := by
  have known : binderWord k ∈ binderWords := by cases k <;> decide
  simp only [boundBy, word, List.contains_iff_mem, known, if_true, List.map_map, List.filterMap_map]
  simp only [Function.comp_def, firstWord?, symbol, List.filterMap_eq_map']
  rfl

theorem Declarable.free_term (ok : p.Declarable w) :
    ∀ {vars : List Symbol} {n m : Nat} {x : SExpr Piece} {bound : List Piece}, Gives (term w vars t) n x m → t ∈ p.parts →
      (∀ v ∈ vars, piece v ∈ bound) → ∀ q ∈ free bound x, isBasic q = true ∨ q ∈ p.declared w := by
  induction t with
  | var i =>
    intro vars n m x bound done _ mem' q seen
    rw [term, Dialect.term] at done
    cases hit : vars[i]? with
    | none => simp [hit] at done
    | some v =>
      rw [hit] at done
      obtain rfl := (Gives.pure_iff.1 done).1
      exact absurd (mem' v (List.mem_of_getElem? hit)) (mem_free_word.1 seen).2
  | app f args ih =>
    intro vars n m x bound done part mem' q seen
    rcases Dialect.term_app_iff.1 done with ⟨atom, -⟩ | ⟨-, ys, written, applied⟩
    · obtain ⟨isValue, rfl⟩ : (Term.app f args).isValue = true ∧ (Term.app f args).expr.map .text = x := by
        simpa [dialect] using atom
      obtain ⟨s, has, rfl⟩ := SExpr.has_map.1 (has_of_mem_free seen)
      exact .inl ((ok.values _ part isValue).isBasic_words has)
    rcases application_cases applied with ⟨rfl, rfl⟩ | ⟨head, made, rfl⟩
    · exact ok.constant_words part (has_of_mem_free seen)
    obtain ⟨y, mem, seen⟩ := mem_free_list.1 seen
    rcases mem_cons.1 mem with rfl | mem
    · exact ok.head_words part made (has_of_mem_free seen)
    · obtain ⟨a, arg, k, m', one⟩ := Gives.exists_of_mem_mapM written mem
      exact ih a arg one (mem_parts_arg arg part) (fun v hv => mem_append_right _ (mem' v hv)) q seen
  | bind k vs body ih =>
    intro vars n m x bound done part mem' q seen
    obtain ⟨cs, r, b, ranges, -, -, -, written, made⟩ := Dialect.term_bind done
    obtain rfl : binder k (cs.map fun c => (symbol c, c.range)) b = x := by simpa [dialect] using made
    have bodyPart : body ∈ p.parts := mem_parts_of_subterm (by simp [Term.subterms, Term.self_mem_subterms]) part
    rw [binder, mem_free_list, boundBy_binder] at seen
    obtain ⟨y, mem, seen⟩ := seen
    simp only [mem_cons, not_mem_nil, or_false] at mem
    rcases mem with rfl | rfl | rfl
    · rw [(mem_free_word.1 seen).1]
      exact .inl (by cases k <;> decide)
    · obtain ⟨e, entry, seen⟩ := mem_free_list.1 seen
      simp only [mem_map] at entry
      obtain ⟨_, ⟨c, mem, rfl⟩, rfl⟩ := entry
      obtain ⟨z, item, seen⟩ := mem_free_list.1 seen
      simp only [mem_cons, not_mem_nil, or_false] at item
      rcases item with rfl | rfl
      · refine absurd ?_ (mem_free_word.1 seen).2
        simp only [mem_append]
        exact .inr (.inr (.inl (mem_map_of_mem mem)))
      · obtain ⟨v, of, eq⟩ := mem_map.1 (ranges ▸ mem_map_of_mem mem)
        obtain ⟨simple, known⟩ := ok.bound k vs body part v of
        exact (Problem.sort_words simple known (eq ▸ has_of_mem_free seen)).imp_right (mem_append_left _)
    · refine ih written bodyPart (fun v hv => ?_) q seen
      rcases mem_append.1 hv with hv | hv
      · exact mem_append_left _ (mem_map_of_mem (List.mem_reverse.1 hv))
      · exact mem_append_right _ (mem' v hv)

/-! ## Closed scripts -/

theorem datatype_words (seen : (datatype d).Has q) :
    q = .text "declare-datatypes" ∨ (q = .text d.name ∨ q = .text "0") ∨ q = .text "" ∨
      ∃ c ∈ d.constructors, q = piece c.symbol ∨ ∃ a ∈ c.accessors, q = piece a ∨ q = .text a.range.render := by
  simpa [datatype, has_list] using seen

theorem Declarable.used_sort (ok : p.Declarable w) (mem : c ∈ p.sortDeclarations w) (seen : q ∈ used c) :
    isBasic q = true ∨ q ∈ introduced c := by
  have has := has_of_mem_used seen
  obtain ⟨s, collected, made⟩ := List.mem_filterMap.1 mem
  split at made
  next d hit =>
    obtain rfl := Option.some.inj made
    have eq := datatype?_sort hit
    rw [introduced_datatype, mem_cons, mem_map]
    simp only [mem_flatMap, mem_cons]
    rcases datatype_words has with rfl | (rfl | rfl) | rfl | ⟨c, mem, rfl | ⟨a, field, rfl | rfl⟩⟩
    · exact .inl (by decide)
    · exact .inr (.inl rfl)
    · exact .inl (by decide)
    · exact .inl (by decide)
    · exact .inr (.inr ⟨_, ⟨c, mem, .inl rfl⟩, rfl⟩)
    · exact .inr (.inr ⟨_, ⟨c, mem, .inr field⟩, rfl⟩)
    rcases (ok.fields s collected d hit c mem).2 a field with own | known
    · rw [own, ← eq, Datatype.sort]
      exact .inr (.inl rfl)
    · have basic : ∀ s ∈ [Srt.bool, .int, .real], isBasic (.text s.render) = true := by decide
      exact .inl (basic _ known)
  next =>
    split at made
    · cases made
    obtain rfl := Option.some.inj made
    have words : q = .text "declare-sort" ∨ q = .text s.name ∨ q = .text "0" := by simpa [has_list] using has
    rcases words with rfl | rfl | rfl
    · exact .inl (by decide)
    · exact .inr mem_cons_self
    · exact .inl (by decide)

theorem Declarable.used_symbol (ok : p.Declarable w) (mem : c ∈ p.symbolDeclarations w) (seen : q ∈ used c) :
    isBasic q = true ∨ q ∈ p.sortNames w ∨ q ∈ introduced c := by
  obtain ⟨f, declared, rfl⟩ := mem_map.1 mem
  obtain ⟨collected, own⟩ := List.mem_filter.1 declared
  obtain ⟨t, part, head⟩ := mem_collectSymbols.1 collected
  obtain ⟨args, rfl⟩ : ∃ args, t = .app f args := by
    cases t <;> simp [Term.head?] at head
    exact ⟨_, by rw [head]⟩
  have words : q = .text "declare-fun" ∨ q = piece f ∨ (∃ s ∈ f.domain, (sort s).Has q) ∨ (sort f.range).Has q := by
    simpa [declaration, has_list] using has_of_mem_used seen
  rcases words with rfl | rfl | ⟨s, place, has⟩ | has
  · exact .inl (by decide)
  · exact .inr (.inr mem_cons_self)
  · have fits := ok.applied f args part fun known => absurd known (by simp at own; exact own.2)
    obtain ⟨a, arg, rfl⟩ := mem_map.1 (fits ▸ place)
    exact (ok.sort_words (mem_parts_arg arg part) has).imp_right .inl
  · exact (ok.sort_words part has).imp_right .inl

/-- The script of a problem is closed, however its declarations are ordered. -/
theorem Declarable.script_closed (ok : p.Declarable w) {n m : Nat} {s s' : Script} (done : Gives (p.script w) n s m)
    (same : s.Reorders s') : s'.Closed := by
  simp only [script, Gives.bind_iff, Gives.pure_iff] at done
  obtain ⟨assumed, r, first, named, r', second, rfl, -⟩ := done
  obtain ⟨sorts, symbols, assertions⟩ := same
  have introduced' : (s'.sorts.flatMap introduced ++ s'.symbols.flatMap introduced).Perm (p.declared w) := by
    rw [declared, List.map_append, ← List.append_assoc, ← introduced_symbols]
    exact ((sorts.flatMap_right _).trans introduced_sorts).append (symbols.flatMap_right _)
  have part : ∀ t ∈ p.terms, t ∈ p.parts := fun t mem => mem_flatMap.2 ⟨t, mem, Term.self_mem_subterms true t⟩
  have written : ∀ c ∈ s'.assertions, introduced c = [] ∧ ∀ q ∈ used c, isBasic q = true ∨ q ∈ p.declared w := by
    intro c mem
    rw [assertions, mem_append] at mem
    rcases mem with mem | mem
    · obtain ⟨t, inside, k, m', one⟩ := Gives.exists_of_mem_mapM first mem
      obtain ⟨x, _, wrote, rfl, rfl⟩ := Gives.bind_iff.1 one
      refine ⟨rfl, fun q seen => (mem_used_assert seen).elim .inl fun seen => ?_⟩
      exact ok.free_term wrote (part t (mem_append_left _ inside)) (by simp) q seen
    · obtain ⟨v, inside, k, m', one⟩ := Gives.exists_of_mem_mapM second mem
      obtain ⟨x, _, wrote, rfl, rfl⟩ := Gives.bind_iff.1 one
      exact ⟨rfl, ok.free_term wrote (part v.1 (mem_append_right _ (mem_map_of_mem inside))) (by simp)⟩
  refine Script.closed_of (introduced'.nodup_iff.2 ok.nodup) ?_ (fun c mem q seen => ?_) (fun c mem q seen => ?_)
    (fun c mem q seen => ?_)
  · exact List.flatMap_eq_nil_iff.2 fun c mem => (written c mem).1
  · exact ok.used_sort (sorts.mem_iff.1 mem) seen
  · refine (ok.used_symbol (symbols.mem_iff.1 mem) seen).imp_right (Or.imp_left fun named => ?_)
    exact (((sorts.flatMap_right _).trans introduced_sorts).mem_iff).2 (mem_append_left _ named)
  · exact ((written c mem).2 q seen).imp_right introduced'.mem_iff.2

/-! ## Numbers -/

def numbers : Datatype := .make "Nat" [("Z", []), ("S", [("pred", .datatype "Nat")])]

def number : Term := .const "x" numbers.sort

def equation (t : Term) : Problem := { assumed := [.app (.eq numbers.sort) [number, t]] }

def successor : Term := .app ⟨"S", [numbers.sort], numbers.sort, .constructor⟩ [number]

theorem successor_parts : (equation successor).parts = [.app (.eq numbers.sort) [number, successor],
    successor, number, number] := rfl

theorem successor_sorts : collectSorts (equation successor).terms = [.bool, numbers.sort] := by decide

theorem successor_declarable : (equation successor).Declarable { datatypes := [numbers] } where
  values := by
    have none : ∀ t ∈ (equation successor).parts, t.isValue = false := by decide
    intro t part isValue
    rw [none t part] at isValue
    cases isValue
  applied := by
    intro f args part
    rw [successor_parts] at part
    simp only [mem_cons, not_mem_nil, or_false, successor, number, Term.const, Term.app.injEq, or_self] at part
    rcases part with ⟨rfl, rfl⟩ | ⟨rfl, rfl⟩ | ⟨rfl, rfl⟩ <;> decide
  sorts := by
    have named : Simple numbers.sort := .named (by simp [numbers, Datatype.make, Datatype.sort, Srt.sexpr, Srt.name, Text.quotedName, Text.isSymbolChar])
    rw [successor_parts]
    simp only [mem_cons, not_mem_nil, or_false, forall_eq_or_imp, forall_eq]
    exact ⟨.named (by simp [Term.sort, Symbol.eq, Symbol.builtin, Srt.sexpr, Srt.name]), named, named, named⟩
  bound := by
    intro k vars body part
    rw [successor_parts] at part
    simp [successor, number, Term.const] at part
  names := by rw [successor_sorts]; decide
  fields := by
    intro s collected d hit
    obtain rfl : numbers = d := List.mem_singleton.1 (List.mem_of_find?_eq_some hit) |>.symm
    obtain rfl := datatype?_sort hit
    decide
  made := by decide

theorem successor_closed : ∃ s, Gives ((equation successor).script { datatypes := [numbers] }) 0 s 0 ∧ s.Closed := by
  have done : Gives ((equation successor).script { datatypes := [numbers] }) 0 _ 0 := rfl
  exact ⟨_, done, Declarable.script_closed successor_declarable done ⟨.refl _, .refl _, rfl⟩⟩

/-- A constructor that is a value is written without its number, and no command introduces it. -/
theorem constructorValue_undeclared :
    ∃ s, Gives ((equation (.app ⟨"Z", [], numbers.sort, .constructor⟩ [])).script { datatypes := [numbers] })
      0 s 0 ∧ ¬ s.Closed := by
  refine ⟨_, rfl, fun closed => ?_⟩
  have undeclared := closed.once _ (mem_append_right _ mem_cons_self) (.text "Z") (by decide)
  revert undeclared
  decide

end Problem
end SortedLogic.Print

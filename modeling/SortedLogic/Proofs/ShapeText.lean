import SortedLogic.Shape
import SortedLogic.Proofs.Supply

/-!
# Reading printed shapes

The scanner passes over a printed shape without cutting it, as its commas stand inside parentheses (`Passes`). So its arguments
come out as they were printed, without the blanks around them.
-/

namespace SortedLogic.Shape
open List Text

/-- The text with blanks before and after it. -/
inductive Padded (cs : List Char) : List Char → Prop
  | mk (before after : List Char) : (∀ c ∈ before ++ after, isBlank c = true) → Padded cs (before ++ cs ++ after)

def call (s : Shape) (inner : List Char) : List Char := s.name.toList ++ '(' :: inner ++ [')']

/-- The ways to print a tree. A number is printed as an argument only. -/
inductive Printed : Shape → List Char → Prop
  | number (n : Nat) : Printed (.number n) (Nat.toDigits 10 n)
  | atomic (b : Bool) {cs} : Padded (if b then "True" else "False").toList cs → Printed (.atomic b) (call (atomic b) cs)
  | not {s cs cs'} : Printed s cs → Padded cs cs' → Printed (.not s) (call (not s) cs')
  | grow (g : Growth) {s cs cs'} : Printed s cs → Padded cs cs' → Printed (.grow g s) (call (grow g s) cs')
  | join (c : Connective) {s t cs cs' ds ds'} : Printed s cs → Padded cs cs' → Printed t ds → Padded ds ds' →
      Printed (.join c s t) (call (join c s t) (cs' ++ ',' :: ds'))

variable {cs cs' ds ds' inner : List Char} {s t : Shape} {k : Int} {fuel : Nat}

/-! ## Pieces of the text -/

/-- At any depth from `k` on, the scanner takes the text into the current piece and comes back to that depth. -/
def Passes (k : Int) (cs : List Char) : Prop :=
  ∀ d, k ≤ d → ∀ piece rest, splitFrom d piece (cs ++ rest) = splitFrom d (cs.reverse ++ piece) rest

/-- The scanner does not cut the text, and it has no blanks to lose at its ends. -/
structure Piece (cs : List Char) : Prop where
  passes : Passes 0 cs
  ne : cs ≠ []
  first : ∀ c ∈ cs.head?, isBlank c = false
  last : ∀ c ∈ cs.reverse.head?, isBlank c = false

abbrev marks : List Char := ['(', ')', ',']

theorem Passes.append (hc : Passes k cs) (hd : Passes k ds) : Passes k (cs ++ ds) := by
  intro d le piece rest
  rw [append_assoc, hc d le, hd d le, reverse_append, append_assoc]

theorem passes_of_not_marks (other : ∀ c ∈ cs, c ∉ marks) : Passes k cs := by
  intro d le piece rest
  induction cs generalizing piece with
  | nil => rfl
  | cons c cs ih =>
    obtain ⟨first, others⟩ := forall_mem_cons.1 other
    simp only [mem_cons, not_or] at first
    simp [splitFrom, first, ih others]

theorem Padded.passes (padded : Padded cs ds) (h : Passes k cs) : Passes k ds := by
  obtain ⟨l, r, blank⟩ := padded
  have other (c : Char) (mem : c ∈ l ++ r) (mark : c ∈ marks) : False := by
    have := blank c mem
    rw [(by simp [isBlank] : ∀ c ∈ marks, isBlank c = false) c mark] at this
    cases this
  rw [forall_mem_append] at other
  exact ((passes_of_not_marks other.1).append h).append (passes_of_not_marks other.2)

theorem Padded.trimmed_eq (padded : Padded cs ds) (piece : Piece cs) : trimmed ds = cs := by
  have keeps {cs : List Char} (first : ∀ c ∈ cs.head?, isBlank c = false) : cs.dropWhile isBlank = cs := by
    cases cs with
    | nil => rfl
    | cons c => simp [first c rfl]
  obtain ⟨l, r, blank⟩ := padded
  rw [forall_mem_append] at blank
  have left : (l ++ cs ++ r).dropWhile isBlank = cs ++ r := by
    rw [append_assoc, dropWhile_append_of_pos blank.1, dropWhile_append, keeps piece.first, if_neg (by simpa using piece.ne)]
  rw [trimmed, trimLeft, left, trimRight, reverse_append, dropWhile_append_of_pos (by simpa using blank.2),
    keeps piece.last, reverse_reverse]

theorem piece_of_letters (ne : cs ≠ []) (letters : ∀ c ∈ cs, c ∉ marks ∧ isBlank c = false) : Piece cs :=
  ⟨passes_of_not_marks fun c mem => (letters c mem).1, ne, fun c mem => (letters c (mem_of_mem_head? mem)).2,
    fun c mem => (letters c (mem_reverse.1 (mem_of_mem_head? mem))).2⟩

theorem piece_call (s : Shape) (inside : Passes 1 inner) : Piece (call s inner) := by
  have letters : ∀ c ∈ s.name.toList, c ∉ marks ∧ isBlank c = false := by
    cases s with
    | join c => cases c <;> simp [name, Connective.name, isBlank]
    | grow g => cases g <;> simp [name, Growth.name, isBlank]
    | _ => simp [name, isBlank]
  refine ⟨fun d le piece rest => ?_, by simp [call], fun c first => ?_, by simp [call]; decide⟩
  · simp [call, passes_of_not_marks (fun c mem => (letters c mem).1) d le piece, splitFrom, inside (d + 1) (by omega)]
  · rw [call] at first
    cases name : s.name.toList <;> rw [name] at first letters <;> cases first
    · rfl
    · exact (letters _ mem_cons_self).2

theorem piece_truth (b : Bool) : Piece (if b then "True" else "False").toList := by
  cases b <;> exact piece_of_letters (by simp) (by simp [isBlank])

theorem Printed.piece (printed : Printed s cs) : Piece cs := by
  have deeper {cs ds : List Char} (padded : Padded cs ds) (piece : Piece cs) : Passes 1 ds :=
    fun d le => padded.passes piece.passes d (by omega)
  -- only the comma between two arguments asks for the depth inside the call
  induction printed with
  | number n =>
    refine piece_of_letters Nat.toDigits_ne_nil fun c mem => ?_
    have : 48 ≤ c.toNat ∧ c.toNat ≤ 57 := Char.isDigit_iff_toNat.1 (isDigit_of_mem_digits mem)
    refine ⟨fun mark => ?_, by simp [isBlank]; omega⟩
    have := (by simp : ∀ c ∈ marks, c.toNat < 48) c mark
    omega
  | atomic b padded => exact piece_call _ (deeper padded (piece_truth b))
  | not _ padded ih => exact piece_call _ (deeper padded ih)
  | grow g _ padded ih => exact piece_call _ (deeper padded ih)
  | join c _ padded _ padded' ih ih' =>
    have comma : Passes 1 [','] := by
      intro d le piece rest
      simp [splitFrom, show d ≠ 0 by omega]
    exact piece_call _ ((deeper padded ih).append (comma.append (deeper padded' ih')))

theorem splitArgs_one (piece : Piece cs) (padded : Padded cs cs') : splitArgs cs' = [cs] := by
  have scanned := padded.passes piece.passes 0 le_rfl [] []
  have ne : cs' ≠ [] := by
    cases padded
    simp [piece.ne]
  rw [append_nil] at scanned
  simp [splitArgs, scanned, splitFrom, ne, padded.trimmed_eq piece]

theorem splitArgs_two (piece : Piece cs) (padded : Padded cs cs') (piece' : Piece ds) (padded' : Padded ds ds') :
    splitArgs (cs' ++ ',' :: ds') = [cs, ds] := by
  have rest := splitArgs_one piece' padded'
  rw [splitArgs] at rest
  simp [splitArgs, padded.passes piece.passes 0 le_rfl, splitFrom, rest, padded.trimmed_eq piece]

/-! ## Reading -/

theorem digitValue?_digit {c : Char} (digit : c.isDigit = true) : digitValue? c = some (c.toNat - '0'.toNat) := by
  have : 48 ≤ c.toNat ∧ c.toNat ≤ 57 := Char.isDigit_iff_toNat.1 digit
  rw [digitValue?, digitZeros, find?_cons_of_pos (by simp; omega)]
  rfl

theorem number?_digits (n : Nat) : number? (Nat.toDigits 10 n) = some n := by
  have value (cs : List Char) (digits : ∀ c ∈ cs, c.isDigit = true) (acc : Nat) :
      cs.foldlM (fun n c => (digitValue? c).map (10 * n + ·)) acc = some (Nat.ofDigitChars 10 cs acc) := by
    induction cs generalizing acc with
    | nil => rfl
    | cons c cs ih =>
      obtain ⟨first, rest⟩ := forall_mem_cons.1 digits
      simp [digitValue?_digit first, Nat.ofDigitChars_cons, ih rest]
  rw [number?, if_neg (by simp [Nat.toDigits_ne_nil]), value _ fun _ => isDigit_of_mem_digits, Nat.ofDigitChars_ten_toDigits]

/-- Reads an argument, which is a numeral or a shape. -/
def readArg (fuel : Nat) (arg : List Char) : Checked Shape :=
  if !arg.isEmpty && arg.all isNumeric then readNumber arg else readFrom fuel arg

theorem readArg_call (s : Shape) (inner : List Char) : readArg fuel (call s inner) = readFrom fuel (call s inner) := by
  have other : isNumeric ')' = false := by decide +kernel
  rw [readArg, if_neg (by simp [call, other])]

theorem find_word {word : Word} {args : List Shape} (known : word.build args = .ok s) (inner : List Char) :
    Word.all.find? (fun e => e.1.isPrefixOf (call s inner)) = some (s.name.toList, word) ∧
      "Atomic".toList.isPrefixOf (call s inner) = false := by
  match word, args, known with
  | .not, [_], rfl => simp [call, name, Word.all, isPrefixOf]
  | .join c, [_, _], rfl => cases c <;> simp [call, name, Word.all, Connective.name, isPrefixOf]
  | .grow g, [_], rfl => cases g <;> simp [call, name, Word.all, Growth.name, isPrefixOf]

theorem Piece.trimmed_eq (piece : Piece cs) : trimmed cs = cs := by
  simpa using (Padded.mk [] [] (by simp)).trimmed_eq piece

theorem Piece.readArg_word (piece : Piece (call s inner)) (word : Word) (args : List Shape) (known : word.build args = .ok s)
    (read : ∀ fuel, inner.length ≤ fuel → (splitArgs inner).mapM (readArg fuel) = .ok args)
    (le : (call s inner).length ≤ fuel) : readArg fuel (call s inner) = .ok s := by
  obtain ⟨found, other⟩ := find_word known inner
  have body : ((call s inner).drop (s.name.toList.length + 1)).dropLast = inner := by simp [call]
  simp only [call, length_append, length_cons] at le
  obtain ⟨fuel, rfl⟩ : ∃ n, fuel = n + 1 := ⟨fuel - 1, by omega⟩
  rw [readArg_call, readFrom.eq_def]
  simp only [piece.trimmed_eq, other, found, body, Bool.false_eq_true, if_false]
  show (splitArgs inner).mapM (readArg fuel) >>= word.build = _
  rw [read fuel (by omega)]
  exact known

theorem Printed.readArg_eq (printed : Printed s cs) : ∀ fuel, cs.length ≤ fuel → readArg fuel cs = .ok s := by
  have length_le {cs ds : List Char} (padded : Padded cs ds) : cs.length ≤ ds.length := by
    cases padded
    simp
    omega
  -- an argument is shorter than the call it stands in, so one step of fuel is left for the call
  induction printed with
  | number n =>
    have numeric : (Nat.toDigits 10 n).all isNumeric = true :=
      all_eq_true.2 fun c mem => by simp [isNumeric, digitValue?_digit (isDigit_of_mem_digits mem)]
    intro fuel _
    rw [readArg, numeric, if_pos (by simp [Nat.toDigits_ne_nil]), readNumber, number?_digits]
  | @atomic b cs padded =>
    have body : (((call (.atomic b) cs).dropWhile (· ≠ '(')).drop 1).dropLast = cs := by simp [call, name]
    intro fuel _
    rw [readArg_call, readFrom.eq_def]
    simp only [(Printed.atomic b padded).piece.trimmed_eq]
    rw [if_pos (by simp [call, name]), readAtomic, if_pos (by simp [call]), body, padded.trimmed_eq (piece_truth b)]
    cases b <;> rfl
  | not printed padded ih =>
    refine fun fuel => (Printed.not printed padded).piece.readArg_word .not [_] rfl fun fuel le => ?_
    rw [splitArgs_one printed.piece padded]
    exact Checked.mapM_eq_ok.2 (.cons (ih fuel ((length_le padded).trans le)) .nil)
  | grow g printed padded ih =>
    refine fun fuel => (Printed.grow g printed padded).piece.readArg_word (.grow g) [_] rfl fun fuel le => ?_
    rw [splitArgs_one printed.piece padded]
    exact Checked.mapM_eq_ok.2 (.cons (ih fuel ((length_le padded).trans le)) .nil)
  | join c printed padded printed' padded' ih ih' =>
    refine fun fuel => (Printed.join c printed padded printed' padded').piece.readArg_word (.join c) [_, _] rfl fun fuel le => ?_
    rw [splitArgs_two printed.piece padded printed'.piece padded']
    have := length_le padded
    have := length_le padded'
    simp only [length_append, length_cons] at le
    exact Checked.mapM_eq_ok.2 (.cons (ih fuel (by omega)) (.cons (ih' fuel (by omega)) .nil))

/-- Reading a printed tree gives back the tree. -/
theorem read_printed (printed : Printed s cs) (shape : ∀ n, s ≠ .number n) : read (String.ofList cs) = .ok s := by
  have whole := printed.readArg_eq (cs.length + 1) (by omega)
  obtain ⟨inner, rfl⟩ : ∃ inner, cs = call s inner := by
    cases printed with
    | number n => exact absurd rfl (shape n)
    | _ => exact ⟨_, rfl⟩
  rw [readArg_call] at whole
  simpa [read] using whole

/-- The comma inside does not split the argument that it stands in. -/
theorem read_printed_blanks : read "And(Or(Atomic(True),Square( 12)), Atomic(False))" =
    .ok (.join .and (.join .or (.atomic true) (.grow .square (.number 12))) (.atomic false)) := by
  have plain (cs : List Char) : Padded cs cs := by
    have none : Padded cs ([] ++ cs ++ []) := .mk [] [] (by simp)
    simpa using none
  have blank (cs : List Char) : Padded cs (' ' :: cs) := by
    have one : Padded cs ([' '] ++ cs ++ []) := .mk [' '] [] (by simp [isBlank])
    simpa using one
  have square : Printed (.grow .square (.number 12)) "Square( 12)".toList := .grow .square (.number 12) (blank _)
  have inner := Printed.join .or (.atomic true (plain _)) (plain _) square (plain _)
  exact read_printed (.join .and inner (plain _) (.atomic false (plain _)) (blank _)) (by simp)

end SortedLogic.Shape

import SortedLogic.Fault

/-!
# Names

Names are written in the first 256 characters. One that the supply made ends in a mark `!` and a number.
-/

namespace SortedLogic.Text
variable (s : String)

def isLatin : Bool := s.toList.all (·.toNat < 256)

def checkName : Checked String :=
  if isLatin s then .ok s else .error .badName

def stem : String := String.ofList (s.toList.takeWhile (· ≠ '!'))

/-- The sharp s has two letters; the capitals of the micro sign and of y with diaeresis lie outside the first 256. -/
def upperChar (c : Char) : List Char :=
  if c = 'ß' then ['S', 'S']
  else if c = 'µ' then ['Μ']
  else if c = 'ÿ' then ['Ÿ']
  else if 'a' ≤ c ∧ c ≤ 'z' then [Char.ofNat (c.toNat - 32)]
  else if 'à' ≤ c ∧ c ≤ 'þ' ∧ c ≠ '÷' then [Char.ofNat (c.toNat - 32)]
  else [c]

def upper : String := String.ofList (s.toList.flatMap upperChar)

def lowerChar (c : Char) : Char :=
  if 'A' ≤ c ∧ c ≤ 'Z' then Char.ofNat (c.toNat + 32)
  else if 'À' ≤ c ∧ c ≤ 'Þ' ∧ c ≠ '×' then Char.ofNat (c.toNat + 32)
  else c

def lower : String := String.ofList (s.toList.map lowerChar)

/-! ## Blanks and lines -/

def isBlank (c : Char) : Bool :=
  let n := c.toNat
  (9 ≤ n && n ≤ 13) || (28 ≤ n && n ≤ 32) || n = 0x85 || n = 0xA0 || n = 0x1680
    || (0x2000 ≤ n && n ≤ 0x200A) || n = 0x2028 || n = 0x2029 || n = 0x202F || n = 0x205F || n = 0x3000

def wordsFrom : List Char → List Char → List String
  | [], [] => []
  | w, [] => [String.ofList w.reverse]
  | w, c :: cs =>
    if isBlank c then
      if w.isEmpty then wordsFrom [] cs else String.ofList w.reverse :: wordsFrom [] cs
    else wordsFrom (c :: w) cs

def words : List String := wordsFrom [] s.toList

def trimLeft (cs : List Char) : List Char := cs.dropWhile isBlank
def trimRight (cs : List Char) : List Char := (cs.reverse.dropWhile isBlank).reverse

def trim : String := String.ofList (trimRight (trimLeft s.toList))

def isLineBreak (c : Char) : Bool :=
  (0xa ≤ c.toNat && c.toNat ≤ 0xd) || (0x1c ≤ c.toNat && c.toNat ≤ 0x1e) || c.toNat = 0x85 || c.toNat = 0x2028
    || c.toNat = 0x2029

def linesFrom : List Char → List Char → List String
  | [], [] => []
  | acc, [] => [String.ofList acc.reverse]
  | acc, '\r' :: '\n' :: cs => String.ofList acc.reverse :: linesFrom [] cs
  | acc, c :: cs => if isLineBreak c then String.ofList acc.reverse :: linesFrom [] cs else linesFrom (c :: acc) cs

def lines : List String := linesFrom [] s.toList

end SortedLogic.Text

/-!
# Numbering fresh names

Each name `x!17` of the supply gets a number by its first appearance in a text.
-/

namespace SortedLogic.Text

def isNameStart (c : Char) : Bool := c.isAlpha || c = '_'
def isNameChar (c : Char) : Bool := c.isAlphanum || c = '_'

def marksFrom : Nat → List Char → List Char × List Char
  | fuel + 1, '!' :: rest =>
    let digits := rest.takeWhile Char.isDigit
    if digits.isEmpty then ([], '!' :: rest)
    else
      let (more, after) := marksFrom fuel (rest.drop digits.length)
      ('!' :: digits ++ more, after)
  | _, cs => ([], cs)

def marks (cs : List Char) : List Char × List Char := marksFrom cs.length cs

/-- Renames from here on, given the names seen so far. Each round consumes at least one character. -/
def renumberFrom : Nat → List Char → List (String × Nat) → List Char → List Char
  | 0, cs, _, out => out.reverse ++ cs
  | _, [], _, out => out.reverse
  | fuel + 1, c :: rest, seen, out =>
    if isNameStart c then
      let word := (c :: rest).takeWhile isNameChar
      let (ms, after) := marks ((c :: rest).drop word.length)
      if ms.isEmpty then renumberFrom fuel after seen (word.reverse ++ out)
      else
        let key := String.ofList (word ++ ms)
        match seen.find? (·.1 = key) with
        | some (_, k) => renumberFrom fuel after seen ((toString k).toList.reverse ++ '!' :: word.reverse ++ out)
        | none =>
          let k := seen.length
          renumberFrom fuel after ((key, k) :: seen) ((toString k).toList.reverse ++ '!' :: word.reverse ++ out)
    else renumberFrom fuel rest seen (c :: out)

def renumber (s : String) : String :=
  String.ofList (renumberFrom s.length s.toList [] [])

end SortedLogic.Text

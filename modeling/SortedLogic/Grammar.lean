/-!
# Trees of parsed text

A tree has tokens at its leaves and nodes named for rules.
-/

namespace SortedLogic.Grammar

inductive Tree where
  | token (kind text : String)
  | node (rule : String) (children : List Tree)

abbrev Read (α : Type) := α × List Char

variable (c : Char)

def isSpace : Bool :=
  c = ' ' || c = '\t' || c = '\n' || c = '\r' || c.toNat = 12

def skipSpace (cs : List Char) : List Char := cs.dropWhile isSpace

def isLower : Bool := 'a' ≤ c && c ≤ 'z'
def isUpper : Bool := 'A' ≤ c && c ≤ 'Z'
def isDigit : Bool := '0' ≤ c && c ≤ '9'

def isNameChar : Bool := isLower c || isUpper c || isDigit c || c = '_'

def dropText : List Char → List Char → Option (List Char)
  | [], cs => some cs
  | _ :: _, [] => none
  | p :: ps, c :: cs => if p = c then dropText ps cs else none

def mark (text : String) (cs : List Char) : Option (List Char) := dropText text.toList (skipSpace cs)

def name (first : Char → Bool) (cs : List Char) : Option (Read String) :=
  match skipSpace cs with
  | c :: rest =>
    if first c then some (String.ofList (c :: rest.takeWhile isNameChar), rest.dropWhile isNameChar) else none
  | [] => none

def many {α : Type} (item : List Char → Option (Read α)) : Nat → List Char → List α × List Char
  | 0, cs => ([], cs)
  | fuel + 1, cs =>
    match item cs with
    | none => ([], cs)
    | some (a, rest) =>
      let (as, rest) := many item fuel rest
      (a :: as, rest)

def commaList {α : Type} (item : List Char → Option (Read α)) : Nat → List Char → Option (Read (List α))
  | 0, _ => none
  | fuel + 1, cs => do
    let (a, rest) ← item cs
    match mark "," rest with
    | some rest => do
      let (as, rest) ← commaList item fuel rest
      some (a :: as, rest)
    | none => some ([a], rest)

def parenList {α : Type} (item : List Char → Option (Read α)) (fuel : Nat) (cs : List Char) : Option (Read (List α)) := do
  let rest ← mark "(" cs
  let (as, rest) ← commaList item fuel rest
  some (as, ← mark ")" rest)

def atEnd (cs : List Char) : Bool := (skipSpace cs).isEmpty

def whole {α : Type} (reader : List Char → Option (Read α)) (s : String) : Option α := do
  let (a, rest) ← reader s.toList
  if atEnd rest then some a else none

namespace FirstOrder

def term : Nat → List Char → Option (Read Tree)
  | 0, _ => none
  | fuel + 1, cs =>
    match name isLower cs with
    | some (f, rest) =>
      match mark "(" rest with
      | some _ => do
        let (args, rest) ← parenList (term fuel) (cs.length + 1) rest
        some (.node "fun_app" (.token "NAME" f :: args), rest)
      | none => some (.node "const" [.token "NAME" f], rest)
    | none =>
      match name isUpper cs with
      | some (x, rest) => some (.node "var" [.token "UPPER_WORD" x], rest)
      | none => some (.node "term" [], cs)

def parse (s : String) : Option Tree := whole (term (s.length + 1)) s

end FirstOrder

/-! ## Rewrite systems -/

namespace RuleSystem

def word (cs : List Char) : Option (Read String) := name isNameChar cs

def term : Nat → List Char → Option (Read Tree)
  | 0, _ => none
  | fuel + 1, cs => do
    let (f, rest) ← word cs
    match mark "(" rest with
    | some _ => do
      let (args, rest) ← parenList (term fuel) (cs.length + 1) rest
      some (.node "term" (.token "NAME" f :: args), rest)
    | none => some (.node "term" [.token "NAME" f], rest)

def pair (fuel : Nat) (rule between : String) (cs : List Char) : Option (Read Tree) := do
  let (l, rest) ← term fuel cs
  let rest ← mark between rest
  let (r, rest) ← term fuel rest
  some (.node rule [l, r], rest)

def block (rule keyword : String) (items : List Char → List Tree × List Char) (cs : List Char) :
    Option (Read Tree) := do
  let rest ← mark "(" cs
  let rest ← mark keyword rest
  let (ts, rest) := items rest
  let rest ← mark ")" rest
  some (.node rule ts, rest)

def system (fuel : Nat) (cs : List Char) : Option (Read Tree) := do
  let names := many (fun cs => (word cs).map fun (x, rest) => (Tree.token "NAME" x, rest)) fuel
  let (vars, rest) ← block "var" "VAR" names cs
  let equations := block "equations" "EQUATIONS" (many (pair fuel "equation" "==") fuel)
  let rest ← mark "(" rest
  let rest ← mark "THEORY" rest
  let (eqs, rest) ← equations rest
  let rest ← mark ")" rest
  let (rules, rest) ← block "rules" "RULES" (many (pair fuel "rule" "->") fuel) rest
  some (.node "start" [vars, .node "theory" [eqs], rules], rest)

def parse (s : String) : Option Tree := whole (system (s.length + 1)) s

end RuleSystem

/-! ## Nested lists -/

namespace Nested

def isWordChar (c : Char) : Bool :=
  isLower c || isUpper c || isDigit c || "+-/*=%?!.$_~&^<>@".toList.contains c

def isHex (c : Char) : Bool := isDigit c || ('a' ≤ c && c ≤ 'f') || ('A' ≤ c && c ≤ 'F')

def afterQuoted : Bool → List Char → Option (List Char)
  | _, [] => none
  | escaped, c :: cs =>
    if c = '\n' then none
    else if c = '"' && !escaped then some cs
    else afterQuoted (c = '\\' && !escaped) cs

def afterDigits (digit : Char → Bool) (cs : List Char) : Option (List Char) :=
  match skipSpace cs with
  | c :: rest => if digit c then some rest else none
  | [] => none

def walk : Nat → Nat → List Char → Bool
  | 0, _, _ => false
  | fuel + 1, depth, cs =>
    match skipSpace cs with
    | [] => depth = 0
    | '(' :: rest => walk fuel (depth + 1) rest
    | ')' :: rest => depth ≠ 0 && walk fuel (depth - 1) rest
    | '"' :: rest =>
      depth ≠ 0 && (match afterQuoted false rest with
        | some rest => walk fuel depth rest
        | none => false)
    | '#' :: 'x' :: rest =>
      depth ≠ 0 && (match afterDigits isHex rest with
        | some rest => walk fuel depth rest
        | none => false)
    | '#' :: 'b' :: rest =>
      depth ≠ 0 && (match afterDigits (fun c => c = '0' || c = '1') rest with
        | some rest => walk fuel depth rest
        | none => false)
    | c :: rest => depth ≠ 0 && isWordChar c && walk fuel depth rest

def accepts (s : String) : Bool := walk (s.length + 1) 0 s.toList

end Nested

/-! ## Programs of Horn clauses -/

namespace HornClause

def term : Nat → List Char → Option (Read Tree)
  | 0, _ => none
  | fuel + 1, cs =>
    match name isLower cs with
    | some (f, rest) =>
      match mark "(" rest with
      | some _ => do
        let (args, rest) ← parenList (term fuel) (cs.length + 1) rest
        some (.node "fun_app" [.token "IDENTIFIER" f, .node "term_list" args], rest)
      | none => some (.node "const" [.token "IDENTIFIER" f], rest)
    | none => do
      let (x, rest) ← name isUpper cs
      some (.node "var" [.token "VARIABLE" x], rest)

def predicate (fuel : Nat) (cs : List Char) : Option (Read Tree) := do
  let (p, rest) ← name isLower cs
  let rest ← mark "(" rest
  match mark ")" rest with
  | some rest => some (.node "predicate" [.token "IDENTIFIER" p], rest)
  | none => do
    let (args, rest) ← commaList (term fuel) fuel rest
    let rest ← mark ")" rest
    some (.node "predicate" [.token "IDENTIFIER" p, .node "term_list" args], rest)

def predicates (fuel : Nat) (cs : List Char) : Option (Read Tree) := do
  let (ps, rest) ← commaList (predicate fuel) fuel cs
  some (.node "predicate_list" ps, rest)

def statement (fuel : Nat) (cs : List Char) : Option (Read Tree) :=
  match mark "?-" cs with
  | some rest => do
    let (goals, rest) ← predicates fuel rest
    some (.node "query" [goals], ← mark "." rest)
  | none => do
    let (head, rest) ← predicate fuel cs
    match mark ":-" rest with
    | some rest => do
      let (body, rest) ← predicates fuel rest
      some (.node "rule" [head, body], ← mark "." rest)
    | none => some (.node "fact" [head], ← mark "." rest)

def program (fuel : Nat) (cs : List Char) : Option (Read Tree) :=
  let (ss, rest) := many (statement fuel) fuel cs
  some (.node "start" ss, rest)

def parse (s : String) : Option Tree := whole (program (s.length + 1)) s

end HornClause
end SortedLogic.Grammar

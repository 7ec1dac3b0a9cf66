import SortedLogic.Value.Cast

/-!
# Tokens of scripts

Words, literals and signs. Inside brackets lines do not end.
-/

namespace SortedLogic.Script

inductive Token where
  | word (s : String)
  | int (n : Nat)
  | float (x : Float)
  | strange
  | text (s : String) (marked : Bool)
  | template
  | sign (s : String)
  | newline | indent | dedent

def isWordStart (c : Char) : Bool := c.isAlpha || c = '_' || 127 < c.toNat
def isWordPart (c : Char) : Bool := c.isAlphanum || c = '_' || 127 < c.toNat

def signs : List String :=
  ["**=", "//=", ">>=", "<<=", "...", "!=", "->", ":=", "+=", "-=", "*=", "/=", "%=", "@=", "&=", "|=", "^=", "==",
   "<=", ">=", "<<", ">>", "**", "//", "+", "-", "*", "/", "%", "@", "&", "|", "^", "~", "<", ">", "(", ")", "[", "]",
   "\x7b", "\x7d", ",", ":", ".", ";", "="]

variable (cs : List Char)

def sign? : Option (String × List Char) :=
  signs.findSome? fun s => if s.toList.isPrefixOf cs then some (s, cs.drop s.length) else none

/-! ## Numbers -/

def digitValue (c : Char) : Nat :=
  if c.isDigit then c.toNat - 48 else if c.isLower then c.toNat - 87 else c.toNat - 55

def isDigitOf (base : Nat) (c : Char) : Bool :=
  (c.isDigit || ('a' ≤ c && c ≤ 'f') || ('A' ≤ c && c ≤ 'F')) && digitValue c < base

def digits (base : Nat) : List Char → List Char × List Char
  | [] => ([], [])
  | c :: cs =>
    if isDigitOf base c then
      let (ds, rest) := digits base cs
      (c :: ds, rest)
    else if c = '_' then
      match cs with
      | d :: _ => if isDigitOf base d then digits base cs else ([], c :: cs)
      | [] => ([], c :: cs)
    else ([], c :: cs)

def valueOf (base : Nat) (ds : List Char) : Nat := ds.foldl (fun n d => base * n + digitValue d) 0

def afterNumber : List String := ["and", "else", "for", "if", "in", "is", "or", "not"]

def checkNumberEnd (rest : List Char) : Checked Unit :=
  match rest with
  | c :: _ =>
    if isWordStart c && !afterNumber.any (fun w => w.toList.isPrefixOf rest) then badSyntax else .ok ()
  | [] => .ok ()

def exponent : Option (List Char × List Char) :=
  match cs with
  | e :: rest =>
    if e = 'e' || e = 'E' then
      let (mark, rest) := match rest with
        | '+' :: r => ([], r)
        | '-' :: r => (['-'], r)
        | r => ([], r)
      match digits 10 rest with
      | ([], _) => none
      | (ds, rest) => some ('e' :: mark ++ ds, rest)
    else none
  | [] => none

def decimal : Checked (Token × List Char) := do
  let (whole, rest) := digits 10 cs
  let (point, rest) := match rest with
    | '.' :: r => let (ds, r) := digits 10 r; (some ds, r)
    | r => (none, r)
  let (exp, rest) := match exponent rest with
    | some (e, r) => (e, r)
    | none => ([], rest)
  match rest with
  | 'j' :: r | 'J' :: r =>
    checkNumberEnd r
    return (.strange, r)
  | _ =>
    checkNumberEnd rest
    match point, exp with
    | none, [] =>
      if 1 < whole.length && whole.head? = some '0' && !whole.all (· = '0') then badSyntax
      return (.int (valueOf 10 whole), rest)
    | _, _ =>
      let text := String.ofList (whole ++ ['.'] ++ point.getD [] ++ exp)
      match (Text.rational? text).bind Binary64.ofRat? with
      | some x => return (.float x, rest)
      | none => return (.float (1.0 / 0.0), rest)

def based (base : Nat) (cs : List Char) : Checked (Token × List Char) := do
  let cs := match cs with
    | '_' :: r => r
    | _ => cs
  match digits base cs with
  | ([], _) => badSyntax
  | (ds, rest) =>
    match rest with
    | c :: _ => if c.isDigit then badSyntax
    | [] => pure ()
    checkNumberEnd rest
    return (.int (valueOf base ds), rest)

def number : Checked (Token × List Char) :=
  match cs with
  | '0' :: 'x' :: r | '0' :: 'X' :: r => based 16 r
  | '0' :: 'o' :: r | '0' :: 'O' :: r => based 8 r
  | '0' :: 'b' :: r | '0' :: 'B' :: r => based 2 r
  | _ => decimal cs

/-! ## Texts -/

def coded (base count : Nat) (cs : List Char) : Checked (Char × List Char) :=
  let ds := cs.take count
  if ds.length = count && ds.all (isDigitOf base) && valueOf base ds < 0x110000 then
    .ok (Char.ofNat (valueOf base ds), cs.drop count)
  else badSyntax

def escape : Checked (List Char × List Char) :=
  match cs with
  | [] => badSyntax
  | c :: rest =>
    match c with
    | '\n' => .ok ([], rest)
    | '\\' => .ok (['\\'], rest)
    | '\'' => .ok (['\''], rest)
    | '"' => .ok (['"'], rest)
    | 'a' => .ok ([Char.ofNat 7], rest)
    | 'b' => .ok ([Char.ofNat 8], rest)
    | 'f' => .ok ([Char.ofNat 12], rest)
    | 'n' => .ok (['\n'], rest)
    | 'r' => .ok (['\r'], rest)
    | 't' => .ok (['\t'], rest)
    | 'v' => .ok ([Char.ofNat 11], rest)
    | 'x' => do let (d, r) ← coded 16 2 rest; return ([d], r)
    | 'u' => do let (d, r) ← coded 16 4 rest; return ([d], r)
    | 'U' => do let (d, r) ← coded 16 8 rest; return ([d], r)
    | 'N' => badSyntax
    | _ =>
      if isDigitOf 8 c then
        let ds := (cs.take 3).takeWhile (isDigitOf 8)
        .ok ([Char.ofNat (valueOf 8 ds)], cs.drop ds.length)
      else .ok (['\\', c], rest)

def textBody (quote : Char) (triple raw : Bool) : Nat → List Char → List Char → Checked (List Char × List Char)
  | 0, _, _ => badSyntax
  | fuel + 1, acc, cs =>
    match cs with
    | [] => badSyntax
    | c :: rest =>
      if c = quote then
        if triple then
          if [quote, quote].isPrefixOf rest then .ok (acc.reverse, rest.drop 2)
          else textBody quote triple raw fuel (c :: acc) rest
        else .ok (acc.reverse, rest)
      else if c = '\n' && !triple then badSyntax
      else if c = '\\' then
        if raw then
          match rest with
          | d :: rest => textBody quote triple raw fuel (d :: c :: acc) rest
          | [] => badSyntax
        else do
          let (ds, rest) ← escape rest
          textBody quote triple raw fuel (ds.reverse ++ acc) rest
      else textBody quote triple raw fuel (c :: acc) rest

def marks : List String := ["", "r", "u", "b", "f", "br", "rb", "fr", "rf"]

def text? : Option (Checked (Token × List Char)) :=
  let mark := (cs.takeWhile Char.isAlpha).map Char.toLower
  match cs.drop mark.length with
  | q :: rest =>
    if (q = '\'' || q = '"') && marks.contains (String.ofList mark) then some do
      let triple := [q, q].isPrefixOf rest
      let body := if triple then rest.drop 2 else rest
      let (s, rest) ← textBody q triple (mark.contains 'r') (body.length + 1) [] body
      if mark.contains 'b' then
        if s.all fun c => c.toNat < 128 || mark.contains 'b' && c.toNat < 256 then return (.strange, rest)
        else badSyntax
      else if mark.contains 'f' then return (.template, rest)
      else return (.text (String.ofList s) (mark.contains 'u'), rest)
    else none
  | [] => none

/-! ## Lines -/

def column : Nat → List Char → Nat × List Char
  | n, ' ' :: cs => column (n + 1) cs
  | n, '\t' :: cs => column ((n / 8 + 1) * 8) cs
  | _, '\x0c' :: cs => column 0 cs
  | n, cs => (n, cs)

def indentation (n : Nat) (open' : List Nat) : Checked (List Token × List Nat) :=
  match open' with
  | [] => .ok (if n = 0 then ([], []) else ([.indent], [n]))
  | m :: rest =>
    if n = m then .ok ([], open')
    else if m < n then .ok ([.indent], n :: open')
    else do
      let (ts, open') ← shrink n rest
      return (.dedent :: ts, open')
where
  shrink (n : Nat) : List Nat → Checked (List Token × List Nat)
    | [] => if n = 0 then .ok ([], []) else .error .badIndentation
    | m :: rest =>
      if n = m then .ok ([], m :: rest)
      else if n < m then do
        let (ts, o) ← shrink n rest
        return (.dedent :: ts, o)
      else .error .badIndentation

def isEmptyLine : List Char → Bool
  | [] => true
  | c :: _ => c = '\n' || c = '\r' || c = '#'

structure Place where
  depth : Nat := 0
  columns : List Nat := []
  started : Bool := false

def scan : Nat → Bool → Place → List Char → Checked (List Token)
  | 0, _, _, _ => badSyntax
  | fuel + 1, fresh, p, cs =>
    if fresh && p.depth = 0 then do
      let (n, rest) := column 0 cs
      if isEmptyLine rest then
        match (rest.dropWhile (· ≠ '\n')) with
        | _ :: rest => scan fuel true p rest
        | [] => return List.replicate p.columns.length .dedent
      else
        let (ts, columns) ← indentation n p.columns
        return ts ++ (← scan fuel false { p with columns, started := false } rest)
    else
      match cs with
      | [] =>
        if p.depth ≠ 0 then badSyntax
        else .ok ((if p.started then [.newline] else []) ++ List.replicate p.columns.length .dedent)
      | '\n' :: rest =>
        if p.depth = 0 then do return .newline :: (← scan fuel true { p with started := false } rest)
        else scan fuel false p rest
      | '\\' :: '\n' :: rest => scan fuel false p rest
      | c :: rest =>
        if c = ' ' || c = '\t' || c = '\r' || c = '\x0c' then scan fuel false p rest
        else if c = '#' then scan fuel false p (rest.dropWhile (· ≠ '\n'))
        else do
          let p' := { p with started := true }
          match text? cs with
          | some r =>
            let (t, rest) ← r
            return t :: (← scan fuel false p' rest)
          | none =>
            if isWordStart c then
              let w := cs.takeWhile isWordPart
              return .word (String.ofList w) :: (← scan fuel false p' (cs.drop w.length))
            else if c.isDigit || (c = '.' && (rest.head?.map Char.isDigit).getD false) then
              let (t, rest) ← number cs
              return t :: (← scan fuel false p' rest)
            else
              match sign? cs with
              | none => badSyntax
              | some (s, rest) =>
                let depth ← if s = "(" || s = "[" || s = "\x7b" then pure (p.depth + 1)
                  else if s = ")" || s = "]" || s = "\x7d" then
                    (if p.depth = 0 then badSyntax else pure (p.depth - 1))
                  else pure p.depth
                return .sign s :: (← scan fuel false { p' with depth } rest)

def tokens (s : String) : Checked (List Token) :=
  let cs := s.toList
  if cs.contains (Char.ofNat 0) then invalid "source code string cannot contain null bytes"
  else scan (2 * cs.length + 2) true {} cs

end SortedLogic.Script

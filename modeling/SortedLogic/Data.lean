import SortedLogic.Number

/-!
# Data

The plain data of requests and answers. `render` gives its canonical text, by which data is sorted.
-/

namespace SortedLogic

inductive Data where
  | null
  | bool (b : Bool)
  | int (n : Int)
  | decimal (mantissa : Int) (scale : Nat)
  | text (s : String)
  | list (items : List Data)
  | record (fields : List (String × Data))
  deriving Inhabited

namespace Data

abbrev Fields := List (String × Data)

/-! ## Canonical text -/

def hexDigit (n : Nat) : Char := "0123456789abcdef".toList.getD n '0'

def unicodeEscape (n : Nat) : List Char :=
  ['\\', 'u', hexDigit (n / 4096 % 16), hexDigit (n / 256 % 16), hexDigit (n / 16 % 16), hexDigit (n % 16)]

def escapes : List (Char × Char) :=
  [('"', '"'), ('\\', '\\'), ('n', '\n'), ('r', '\r'), ('t', '\t'), ('b', Char.ofNat 8), ('f', Char.ofNat 12)]

def escapeChar (c : Char) : List Char :=
  match escapes.find? (·.2 = c) with
  | some (e, _) => ['\\', e]
  | none =>
    if 32 ≤ c.toNat && c.toNat < 127 then [c]
    else if c.toNat < 65536 then unicodeEscape c.toNat
    else
      let n := c.toNat - 65536
      unicodeEscape (55296 + n / 1024) ++ unicodeEscape (56320 + n % 1024)

def quoted (s : String) : String :=
  "\"" ++ String.ofList (s.toList.flatMap escapeChar) ++ "\""

def sortFields {α : Type} (fields : List (String × α)) : List (String × α) :=
  fields.mergeSort fun a b => a.1 ≤ b.1

mutual
def render : Data → String
  | .null => "null"
  | .bool b => if b then "true" else "false"
  | .int n => toString n
  | .decimal m e => toString m ++ "e-" ++ toString e
  | .text s => quoted s
  | .list xs => "[" ++ ", ".intercalate (xs.map render) ++ "]"
  | .record fields =>
    "\x7b" ++ ", ".intercalate ((sortFields (renderFields fields)).map fun (k, v) => quoted k ++ ": " ++ v) ++ "\x7d"

def renderFields : Fields → List (String × String)
  | [] => []
  | (k, d) :: rest => (k, render d) :: renderFields rest
end

def sort (ds : List Data) : List Data :=
  ((ds.map fun d => (d.render, d)).mergeSort fun a b => a.1 ≤ b.1).map (·.2)

/-! ## Reading -/

def items : Data → List Data
  | .list xs => xs
  | _ => []

def fields : Data → Fields
  | .record fs => fs
  | _ => []

def asText : Data → String
  | .text s => s
  | _ => ""

def asInt : Data → Int
  | .int n => n
  | _ => 0

def asBool : Data → Bool
  | .bool b => b
  | _ => false

def isNull : Data → Bool
  | .null => true
  | _ => false

section
variable (d : Data) (k : String)

def item (i : Nat) : Data := d.items.getD i .null

def get : Data := (d.fields.lookup k).getD .null

def has : Bool := d.fields.any (·.1 = k)

def str : String := (d.get k).asText

def num : Int := (d.get k).asInt

def all : List Data := (d.get k).items

end

/-! ## Writing -/

def orNull {α : Type} (f : α → Data) : Option α → Data
  | some a => f a
  | none => .null

def ofTexts (ss : List String) : Data := .list (ss.map .text)

def each {α : Type} (xs : List α) (f : α → Data) : Data := .list (xs.map f)

def sorted {α : Type} (xs : List α) (f : α → Data) : Data := .list (sort (xs.map f))

def pair (a b : Data) : Data := .list [a, b]

/-! ## Reading data from text -/

structure Expected where
  what : String
  left : Nat

abbrev Rest (α : Type) := α × List Char

def expecting {α : Type} (what : String) (cs : List Char) : Except Expected α := .error ⟨"Expecting " ++ what, cs.length⟩

def isJsonBlank (c : Char) : Bool := c = ' ' || c = '\t' || c = '\n' || c = '\r'
variable (cs : List Char)

def skipBlanks : List Char := cs.dropWhile isJsonBlank

def hexValue? (c : Char) : Option Nat :=
  if '0' ≤ c ∧ c ≤ '9' then some (c.toNat - 48)
  else if 'a' ≤ c ∧ c ≤ 'f' then some (c.toNat - 87)
  else if 'A' ≤ c ∧ c ≤ 'F' then some (c.toNat - 55)
  else none

def hex? (cs : List Char) : Option Nat := cs.foldlM (fun n c => (hexValue? c).map (16 * n + ·)) 0

def simpleEscape? (c : Char) : Option Char := (('/', '/') :: escapes).lookup c

def lowHalf? : List Char → Option Nat
  | '\\' :: 'u' :: rest => do
    let n ← hex? (rest.take 4)
    if 0xDC00 ≤ n ∧ n ≤ 0xDFFF ∧ 4 < rest.length then some n else none
  | _ => none

def readText (start : Nat) : Nat → List Char → List Char → Except Expected (Rest String)
  | 0, _, _ | _, _, [] | _, _, ['\\'] => .error ⟨"Unterminated string starting at", start⟩
  | _, acc, '"' :: rest => .ok (String.ofList acc.reverse, rest)
  | fuel + 1, acc, '\\' :: 'u' :: rest =>
    match if rest.length ≤ 4 then none else hex? (rest.take 4) with
    | none => .error ⟨"Invalid \\uXXXX escape", rest.length + 1⟩
    | some n =>
      let rest := rest.drop 4
      if 0xD800 ≤ n ∧ n ≤ 0xDBFF then
        match lowHalf? rest with
        | some m => readText start fuel (Char.ofNat (0x10000 + (n - 0xD800) * 1024 + (m - 0xDC00)) :: acc) (rest.drop 6)
        | none => readText start fuel (Char.ofNat 0xFFFD :: acc) rest
      else readText start fuel (Char.ofNat n :: acc) rest
  | fuel + 1, acc, '\\' :: c :: rest =>
    match simpleEscape? c with
    | some d => readText start fuel (d :: acc) rest
    | none => .error ⟨"Invalid \\escape", rest.length + 2⟩
  | fuel + 1, acc, c :: rest =>
    if c.toNat < 32 then .error ⟨"Invalid control character at", rest.length + 1⟩ else readText start fuel (c :: acc) rest

def digitsValue (ds : List Char) : Nat := ds.foldl (fun n c => 10 * n + (c.toNat - 48)) 0

def isAsciiDigit (c : Char) : Bool := '0' ≤ c && c ≤ '9'

def wholePart : Option (List Char × List Char) :=
  match cs with
  | '0' :: rest => some (['0'], rest)
  | c :: _ => if isAsciiDigit c then some (cs.takeWhile isAsciiDigit, cs.dropWhile isAsciiDigit) else none
  | [] => none

def signed (negative : Bool) (n : Nat) : Int := if negative then -n else n

def exponentPart : Option (Int × List Char) :=
  let digits (negative : Bool) (ds : List Char) : Option (Int × List Char) :=
    let here := ds.takeWhile isAsciiDigit
    if here.isEmpty then none else some (signed negative (digitsValue here), ds.dropWhile isAsciiDigit)
  match cs with
  | 'e' :: '-' :: rest | 'E' :: '-' :: rest => digits true rest
  | 'e' :: '+' :: rest | 'E' :: '+' :: rest | 'e' :: rest | 'E' :: rest => digits false rest
  | _ => none

def floating (text : String) : Data := .record [("f", .text text)]

def floatOf (negative : Bool) (mantissa : Nat) (exponent : Int) : Float :=
  let x := if 0 ≤ exponent then
      (if mantissa = 0 then 0.0 else Float.ofScientific mantissa false (min exponent.toNat 400))
    else Float.ofScientific mantissa true exponent.natAbs
  if negative then -x else x

def readNumber (cs : List Char) : Except Expected (Rest Data) :=
  let (negative, body) := match cs with
    | '-' :: rest => (true, rest)
    | cs => (false, cs)
  match wholePart body with
  | none => expecting "value" cs
  | some (whole, rest) =>
    let (fraction, rest) := match rest with
      | '.' :: after =>
        let ds := after.takeWhile isAsciiDigit
        if ds.isEmpty then ([], rest) else (ds, after.dropWhile isAsciiDigit)
      | _ => ([], rest)
    let scaled (e : Int) : Data :=
      floating (Binary64.text (floatOf negative (digitsValue (whole ++ fraction)) (e - fraction.length)))
    match fraction, exponentPart rest with
    | [], none => .ok (.int (signed negative (digitsValue whole)), rest)
    | _, none => .ok (scaled 0, rest)
    | _, some (e, rest) => .ok (scaled e, rest)

def constants : Fields :=
  [("null", .null), ("true", .bool true), ("false", .bool false), ("NaN", floating "nan"),
   ("Infinity", floating "inf"), ("-Infinity", floating "-inf")]

def readConstant? : Option (Data × List Char) :=
  constants.findSome? fun (name, d) =>
    if name.toList.isPrefixOf cs then some (d, cs.drop name.length) else none

def setField {κ α : Type} [DecidableEq κ] (fields : List (κ × α)) (k : κ) (a : α) : List (κ × α) :=
  if fields.any (·.1 = k) then fields.map fun (n, v) => (n, if n = k then a else v) else fields ++ [(k, a)]

mutual
def readValue : Nat → List Char → Except Expected (Rest Data)
  | 0, cs => expecting "value" cs
  | fuel + 1, cs =>
    match cs with
    | [] => expecting "value" cs
    | '"' :: rest => do
      let (s, rest) ← readText cs.length (rest.length + 1) [] rest
      .ok (.text s, rest)
    | '\x7b' :: rest =>
      match skipBlanks rest with
      | '\x7d' :: rest => .ok (.record [], rest)
      | rest => readFields fuel [] rest
    | '[' :: rest =>
      match skipBlanks rest with
      | ']' :: rest => .ok (.list [], rest)
      | rest => readItems fuel [] rest
    | _ =>
      match readConstant? cs with
      | some r => .ok r
      | none => readNumber cs

def readFields : Nat → Fields → List Char → Except Expected (Rest Data)
  | 0, _, cs => expecting "value" cs
  | fuel + 1, acc, cs =>
    match cs with
    | '"' :: rest => do
      let (k, rest) ← readText cs.length (rest.length + 1) [] rest
      match skipBlanks rest with
      | ':' :: rest => do
        let (d, rest) ← readValue fuel (skipBlanks rest)
        let acc := setField acc k d
        match skipBlanks rest with
        | '\x7d' :: rest => .ok (.record acc, rest)
        | ',' :: rest => readFields fuel acc (skipBlanks rest)
        | rest => expecting "',' delimiter" rest
      | rest => expecting "':' delimiter" rest
    | cs => expecting "property name enclosed in double quotes" cs

def readItems : Nat → List Data → List Char → Except Expected (Rest Data)
  | 0, _, cs => expecting "value" cs
  | fuel + 1, acc, cs => do
    let (d, rest) ← readValue fuel cs
    match skipBlanks rest with
    | ']' :: rest => .ok (.list (acc ++ [d]), rest)
    | ',' :: rest => readItems fuel (acc ++ [d]) (skipBlanks rest)
    | rest => expecting "',' delimiter" rest
end

def Expected.place (e : Expected) (text : List Char) : String :=
  let before := text.take (text.length - e.left)
  let line := (before.filter (· = '\n')).length + 1
  let column := (before.reverse.takeWhile (· ≠ '\n')).length + 1
  s!"{e.what}: line {line} column {column} (char {before.length})"

def parse (s : String) : Except String Data :=
  let cs := s.toList
  match readValue (cs.length + 1) (skipBlanks cs) with
  | .error e => .error (e.place cs)
  | .ok (d, rest) =>
    let rest := skipBlanks rest
    if rest.isEmpty then .ok d else .error (Expected.place ⟨"Extra data", rest.length⟩ cs)

end Data
end SortedLogic

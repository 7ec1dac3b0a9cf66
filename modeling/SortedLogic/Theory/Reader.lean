import SortedLogic.Text.Reading

/-!
# Theory texts

One statement stands on a line, with the indented lines after it.
-/

namespace SortedLogic.Theory
open Reading

inductive Quantifier where
  | plain (b : Binder)
  | every
  deriving DecidableEq

inductive Expr where
  | number (n : Int)
  | decimal (s : String)
  | text (s : String)
  | name (x : String)
  | part (e : Expr) (x : String)
  | call (f : Expr) (args : List Expr)
  | index (e : Expr) (places : List Expr)
  | negate (e : Expr)
  | invert (e : Expr)
  | operator (op : Value.Op) (a b : Expr)
  | relate (r : Relation) (a b : Expr)
  | differ (a b : Expr)
  | conjunction (es : List Expr)
  | disjunction (es : List Expr)
  | negation (e : Expr)
  | implication (a b : Expr)
  | bind (q : Quantifier) (vars : List String) (hyps : List Expr) (body : Expr)
  | list (es : List Expr)

inductive Target where
  | none
  | name (x : String)
  | part (owner x : String)
  deriving DecidableEq

structure Cons where
  name : String
  fields : List (String × Expr)

inductive Statement where
  | alias (x theory : String)
  | constants (xs : List String) (sort : Expr)
  | value (target : Target) (e : Expr)
  | sort (x name : String)
  | symbol (x name : String) (domain : List Expr) (range : Expr)
  | fresh (x hint : String) (sort : Expr)
  | definition (target : Target) (name : String) (args : List String) (body : Expr)
  /-- A definition that also carries out an operation on the sort of its first argument. -/
  | overload (op : String) (target : Target) (args : List String) (body : Expr)
  /-- How an operation is carried out on the sort of its first argument. -/
  | template (op : String) (args : List String) (body : Expr)
  | method (op : String) (sort value : Expr)
  | datatype (x name : String) (inductive' : Bool) (cons : List Cons)
  /-- A datatype with one constructor, whose values are well-formed if a condition on them holds. -/
  | record (x name : String) (fields : List (String × Expr)) (condition : Option (String × Expr))
  /-- A formula that holds, for all values of the variables after its name; it may be one that others follow from. -/
  | fact (basic : Bool) (target : Target) (formula : Expr)
  | functions (xs : List String)
  | operations (xs : List String)
  | object (x kind : String)
  | structureClass (x : String)
  | structureAt (cls : Expr) (key : List Expr) (parts : List (String × Expr))

/-! ## Reading theory texts -/

inductive Token where
  | word (s : String)
  | number (s : String)
  | text (s : String)
  | sign (s : String)
  deriving DecidableEq

abbrev Tokens := List Token

def signs : List String :=
  [":=", "=>", "->", "!=", "<=", ">=", "<<", ">>", "**", "+", "-", "*", "/", "@", "&", "|", "^", "~", "=", "<", ">",
   "(", ")", "[", "]", ",", ":", ".", ";"]

def sign? (cs : List Char) : Option (String × List Char) :=
  signs.findSome? fun s => if s.toList.isPrefixOf cs then some (s, cs.drop s.length) else none

def isWordStart (c : Char) : Bool := c.isAlpha || c = '_'
def isWordPart (c : Char) : Bool := c.isAlphanum || c = '_'

def numeral (cs : List Char) : List Char × List Char :=
  let whole := cs.takeWhile Char.isDigit
  match cs.dropWhile Char.isDigit with
  | '.' :: d :: rest =>
    if d.isDigit then (whole ++ '.' :: (d :: rest).takeWhile Char.isDigit, (d :: rest).dropWhile Char.isDigit)
    else (whole, '.' :: d :: rest)
  | rest => (whole, rest)

def tokensFrom : Nat → List Char → Checked Tokens
  | _, [] => .ok []
  | 0, _ => noParse
  | fuel + 1, c :: cs =>
    if c.isWhitespace then tokensFrom fuel cs
    else if isWordStart c then
      return .word (String.ofList ((c :: cs).takeWhile isWordPart)) :: (← tokensFrom fuel ((c :: cs).dropWhile isWordPart))
    else if c.isDigit then
      let (ds, rest) := numeral (c :: cs)
      return .number (String.ofList ds) :: (← tokensFrom fuel rest)
    else if c = '\x27' then
      return .text (String.ofList (cs.takeWhile (· ≠ '\x27'))) :: (← tokensFrom fuel ((cs.dropWhile (· ≠ '\x27')).drop 1))
    else
      match sign? (c :: cs) with
      | some (s, rest) => return .sign s :: (← tokensFrom fuel rest)
      | none => noParse

def tokens (s : String) : Checked Tokens := tokensFrom (s.length + 1) s.toList

abbrev Reader := Reading Token

instance : Lexeme Token where
  text?
    | .word s | .sign s => some s
    | _ => none

def expect (s : String) : Reader Unit := do
  unless ← pass s do noParse

def word : Reader String := do
  let .word x :: rest := ← get | noParse
  set rest
  return x

def wordsOf : Tokens → List String × Tokens
  | .word x :: rest =>
    if x = "where" then ([], .word x :: rest)
    else let (xs, r) := wordsOf rest; (x :: xs, r)
  | ts => ([], ts)

def words : Reader (List String) := modifyGet wordsOf

def relations : List (String × Relation) := [("=", .eq), ("<", .lt), ("<=", .le), (">", .gt), (">=", .ge)]

def quantifiers : List (String × Quantifier) :=
  [("forall", .plain .forall), ("exists", .plain .exists), ("fun", .plain .lambda), ("every", .every)]

def next? {α : Type} (table : List (String × α)) : Reader (Option α) :=
  return (← get).head?.bind Lexeme.text? >>= fun s => table.lookup s

mutual
def readExpr : Nat → Reader Expr
  | 0 => noParse
  | fuel + 1 => do
    match ← next? quantifiers with
    | some q =>
      modify List.tail
      let vars ← words
      let hyps ← if ← pass "where" then separated ";" (readExpr fuel) fuel else pure []
      expect ":"
      .bind q vars hyps <$> readExpr fuel
    | none =>
      let a ← readJunction fuel true
      if ← pass "=>" then return .implication a (← readExpr fuel)
      return a

def readJunction : Nat → Bool → Reader Expr
  | 0, _ => noParse
  | fuel + 1, outer => do
    let es ← if outer then separated "or" (readJunction fuel false) fuel
      else separated "and" (readNegation fuel) fuel
    match es with
    | [e] => return e
    | _ => return if outer then .disjunction es else .conjunction es

def readNegation : Nat → Reader Expr
  | 0 => noParse
  | fuel + 1 => do
    if ← pass "not" then return .negation (← readNegation fuel)
    if (← next? quantifiers).isSome then readExpr fuel
    else
      let a ← readChain fuel 0
      match ← next? relations with
      | some r =>
        modify List.tail
        .relate r a <$> readChain fuel 0
      | none =>
        if ← pass "!=" then return .differ a (← readChain fuel 0)
        return a

def readChain : Nat → Nat → Reader Expr
  | 0, _ => noParse
  | fuel + 1, rank => do
    if 5 < rank then readUnary fuel
    else
      let a ← readChain fuel (rank + 1)
      let more ← many (rankOp? rank) (readChain fuel (rank + 1)) fuel
      return more.foldl (fun a (op, b) => .operator op a b) a

def readUnary : Nat → Reader Expr
  | 0 => noParse
  | fuel + 1 => do
    if ← pass "-" then return .negate (← readUnary fuel)
    if ← pass "~" then return .invert (← readUnary fuel)
    let base ← readParts fuel (← readAtom fuel)
    if ← pass "**" then return .operator .pow base (← readUnary fuel)
    return base

def readParts : Nat → Expr → Reader Expr
  | 0, _ => noParse
  | fuel + 1, e => do
    if ← pass "(" then readParts fuel (.call e (← readArgs fuel ")"))
    else if ← pass "[" then readParts fuel (.index e (← readArgs fuel "]"))
    else if ← pass "." then readParts fuel (.part e (← word))
    else return e

def readArgs : Nat → String → Reader (List Expr)
  | 0, _ => noParse
  | fuel + 1, close => do
    if ← pass close then return []
    let es ← separated "," (readExpr fuel) fuel
    expect close
    return es

def readAtom : Nat → Reader Expr
  | 0 => noParse
  | fuel + 1 => do
    let ts ← get
    set ts.tail
    match ts with
    | .number s :: _ => return (s.toNat?.map fun (n : Nat) => .number n).getD (.decimal s)
    | .text s :: _ => return .text s
    | .word x :: _ => return .name x
    | .sign "[" :: _ => .list <$> readArgs fuel "]"
    | .sign "(" :: _ =>
      let e ← readExpr fuel
      expect ")"
      return e
    | _ => noParse
end

/-- An expression. Each token opens at most a dozen levels. -/
def expr : Reader Expr := do readExpr (16 * (← get).length + 16)

def toEnd {α : Type} (x : Reader α) (ts : Tokens) : Checked α := do
  let (a, rest) ← x.run ts
  if rest.isEmpty then return a else noParse

def target : Reader Target := do
  match ← get with
  | .word x :: .sign "." :: .word y :: rest =>
    set rest
    return .part x y
  | .word x :: rest =>
    set rest
    return .name x
  | _ => return .none

def Target.last : Target → String
  | .none => ""
  | .name x | .part _ x => x

def quoted (otherwise : String) : Reader String := do
  match ← get with
  | .text s :: rest =>
    set rest
    return s
  | _ => return otherwise

def parameters : Reader (List String) := do
  expect "("
  if ← pass ")" then return []
  let xs ← separated "," word (← get).length
  expect ")"
  return xs

def entry (mark : String) : Reader (String × Expr) := do
  let x ← word
  expect mark
  return (x, ← expr)

def fields : Reader (List (String × Expr)) := do
  let fs ← separated "," (entry ":") (← get).length
  expect ")"
  return fs

def constructors : Reader (List Cons) := do
  separated "|" (do return ⟨← word, ← if ← pass "(" then fields else pure []⟩) (← get).length

def marked (mark : String) : Reader Expr := do
  expect mark
  expr

def named : Reader (String × String) := do
  let x ← word
  return (x, ← quoted x)

def statement : Reader Statement := do
  let ts ← get
  let n := ts.length
  match ← word <|> pure "" with
  | "uses" =>
    let x ← word
    expect "="
    return .alias x (".".intercalate (← separated "." word n))
  | "sort" =>
    let (x, name) ← named
    return .sort x name
  | "let" => return .constants (← words) (← marked ":")
  | "symbol" =>
    let (x, name) ← named
    expect ":"
    return .symbol x name (← separated "," expr n) (← marked "->")
  | "fresh" =>
    let (x, hint) ← named
    .fresh x hint <$> marked ":"
  | "define" =>
    let t ← target
    return .definition t (← quoted t.last) (← parameters) (← marked ":=")
  | "overload" => return .overload (← word) (← target) (← parameters) (← marked ":=")
  | "method" =>
    let op ← word
    if ← pass "on" then return .method op (← expr) (← marked ":=")
    return .template op (← parameters) (← marked ":=")
  | "datatype" => datatype true
  | "union" => datatype false
  | "record" =>
    let (x, name) ← named
    expect "("
    let fs ← fields
    return .record x name fs (← if ← pass "where" then some <$> entry ":" else pure none)
  | "law" => fact true
  | "fact" => fact false
  | "function" => .functions <$> words
  | "operation" => .operations <$> words
  | "object" =>
    let (x, name) ← named
    return .object x name
  | "kind" => .structureClass <$> word
  | "member" => do
    let .call cls key := ← expr | noParse
    return .structureAt cls key (← if ← pass ":" then separated ";" (entry ":=") n else pure [])
  | _ =>
    set ts
    return .value (← target) (← marked ":=")
where
  fact (basic : Bool) : Reader Statement := do
    let t ← target
    let vars ← words
    let e ← marked ":"
    return .fact basic t (if vars.isEmpty then e else .bind (.plain .forall) vars [] e)
  datatype (inductive' : Bool) : Reader Statement := do
    let (x, name) ← named
    expect ":="
    .datatype x name inductive' <$> constructors

/-- An indented line continues the statement before it. Empty lines and those that start with two dashes are skipped. -/
def logicalLines (text : String) : List String :=
  let lines := (text.splitOn "\n").filter fun l => !(l.toList.all Char.isWhitespace) && !l.startsWith "--"
  (lines.foldl (fun (acc : List String) l =>
    match acc with
    | last :: rest => if l.startsWith " " then (last ++ l) :: rest else l :: acc
    | [] => [l]) []).reverse

def statements (text : String) : List (String × Checked Statement) :=
  (logicalLines text).map fun l => (l, do toEnd statement (← tokens l))

end SortedLogic.Theory

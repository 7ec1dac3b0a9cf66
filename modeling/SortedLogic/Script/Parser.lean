import SortedLogic.Script.Syntax
import SortedLogic.Script.Token
import SortedLogic.Text.Reading

/-!
# Reading scripts

Recursive descent over tokens, one level for each rank of operators, with fuel that the number of tokens bounds.
-/

namespace SortedLogic.Script
open Reading

def keywords : List String :=
  ["False", "None", "True", "and", "as", "assert", "async", "await", "break", "class", "continue", "def", "del",
   "elif", "else", "except", "finally", "for", "from", "global", "if", "import", "in", "is", "lambda", "nonlocal",
   "not", "or", "pass", "raise", "return", "try", "while", "with", "yield"]

abbrev Tokens := List Token

abbrev Reader := Reading Token

instance : Lexeme Token where
  text?
    | .word s | .sign s => some s
    | _ => none

def isGenerator (ts : Tokens) : Bool := isAt "for" ts || isAt "async" ts

def expect (s : String) : Reader Unit := do
  unless ← pass s do badSyntax

def checkFree (x : String) : Reader Unit := do if keywords.contains x then badSyntax

def name : Reader String := do
  let .word x :: rest := ← get | badSyntax
  checkFree x
  set rest
  return x

def comparison? : Tokens → Option (Comparison × Tokens)
  | .sign "!=" :: r => some (.ne, r)
  | .sign s :: r =>
    ([("==", Relation.eq), ("<", .lt), ("<=", .le), (">", .gt), (">=", .ge)].lookup s).map fun rel => (.rel rel, r)
  | .word "in" :: r | .word "not" :: .word "in" :: r | .word "is" :: .word "not" :: r | .word "is" :: r => some (.other, r)
  | _ => none

def texts : Tokens → Tokens × Tokens
  | t@(.text ..) :: r | t@.template :: r => let (ts, r) := texts r; (t :: ts, r)
  | r => ([], r)

def joinTexts (ts : List Token) : Expr :=
  if ts.any fun | .template => true | _ => false then .other
  else
    let s := String.join (ts.map fun | .text s _ => s | _ => "")
    match ts.head? with
    | some (.text _ true) => .other
    | _ => .literal (.text s)

def skipHead (depth : Nat) : Tokens → Checked Tokens
  | .sign ":" :: r => if depth = 0 then .ok r else skipHead depth r
  | .sign "(" :: r | .sign "[" :: r | .sign "\x7b" :: r => skipHead (depth + 1) r
  | .sign ")" :: r | .sign "]" :: r | .sign "\x7d" :: r =>
    if depth = 0 then badSyntax else skipHead (depth - 1) r
  | .newline :: _ | [] => badSyntax
  | _ :: r => skipHead depth r

def passHead : Reader Unit := do set (← skipHead 0 (← get))

def afterItem (close : String) (generator more : Reader Unit) : Reader Unit := do
  if isGenerator (← get) then
    generator
    expect close
  else if ← pass "," then more
  else expect close

def joined (parts : Tokens × Tokens) : Reader Expr := do
  if let .strange :: _ := parts.2 then badSyntax
  set parts.2
  return joinTexts parts.1

mutual
def expression : Nat → Reader Expr
  | 0 => tooDeep
  | n + 1 => do
    if ← pass "lambda" then
      passHead
      discard (expression n)
      return .other
    let a ← disjunction n
    if ← pass "if" then
      let c ← disjunction n
      expect "else"
      return .choice c a (← expression n)
    return a

def disjunction : Nat → Reader Expr
  | 0 => tooDeep
  | n + 1 => do
    match ← separated "or" (conjunction n) n with
    | [e] => return e
    | es => return .any es

def conjunction : Nat → Reader Expr
  | 0 => tooDeep
  | n + 1 => do
    match ← separated "and" (inversion n) n with
    | [e] => return e
    | es => return .all es

def inversion : Nat → Reader Expr
  | 0 => tooDeep
  | n + 1 => do
    if ← pass "not" then return .unary .not (← inversion n)
    let e ← ranked n 0
    let es ← many comparison? (ranked n 0) n
    return if es.isEmpty then e else .compare e (es.map (·.1)) (es.map (·.2))

def ranked : Nat → Nat → Reader Expr
  | 0, _ => tooDeep
  | n + 1, rank => do
    if 5 < rank then factor n
    else
      let e ← ranked n (rank + 1)
      let es ← many (rankOp? rank) (ranked n (rank + 1)) n
      return es.foldl (fun a (op, b) => .binary op a b) e

def factor : Nat → Reader Expr
  | 0 => tooDeep
  | n + 1 => do
    if ← pass "+" then return .unary .plus (← factor n)
    if ← pass "-" then return .unary .minus (← factor n)
    if ← pass "~" then return .unary .complement (← factor n)
    let waits ← pass "await"
    let e ← primary n
    let e := if waits then .other else e
    if ← pass "**" then return .binary .pow e (← factor n)
    return e

def primary : Nat → Reader Expr
  | 0 => tooDeep
  | n + 1 => do trailers n (← atom n)

def trailers : Nat → Expr → Reader Expr
  | 0, _ => tooDeep
  | n + 1, e => do
    if ← pass "." then trailers n (.field e (← name))
    else if ← pass "(" then
      let (args, named) ← arguments n false
      trailers n (.call e args named)
    else if ← pass "[" then
      slices n
      trailers n .other
    else return e

def arguments : Nat → Bool → Reader (List Expr × Bool)
  | 0, _ => tooDeep
  | n + 1, named => do
    if ← pass ")" then return ([], named)
    let (e, isNamed) ← argument n named
    let named := named || isNamed
    if ← pass "," then
      let (es, named) ← arguments n named
      return (e.toList ++ es, named)
    expect ")"
    return (e.toList, named)

def argument : Nat → Bool → Reader (Option Expr × Bool)
  | 0, _ => tooDeep
  | n + 1, named => do
    if ← pass "*" then
      discard (expression n)
      return (some .other, false)
    if ← pass "**" then
      discard (expression n)
      return (none, true)
    match ← get with
    | .word x :: .sign "=" :: ts =>
      checkFree x
      set ts
      discard (expression n)
      return (none, true)
    | _ =>
      if named then badSyntax
      let e ← element n
      if isGenerator (← get) then
        generator n
        return (some .other, false)
      return (some e, false)

def element : Nat → Reader Expr
  | 0 => tooDeep
  | n + 1 => do
    match ← get with
    | .word x :: .sign ":=" :: ts =>
      checkFree x
      set ts
      discard (expression n)
      return .other
    | _ => expression n

def starred : Nat → Reader Expr
  | 0 => tooDeep
  | n + 1 => do
    if ← pass "*" then
      discard (ranked n 0)
      return .other
    element n

def generator : Nat → Reader Unit
  | 0 => tooDeep
  | n + 1 => do
    discard (pass "async")
    expect "for"
    targets n
    expect "in"
    discard (separated "if" (disjunction n) n)
    if isGenerator (← get) then generator n

def targets : Nat → Reader Unit
  | 0 => tooDeep
  | n + 1 => do
    discard (pass "*")
    discard (ranked n 0)
    if ← pass "," then
      unless isAt "in" (← get) do targets n

def slices : Nat → Reader Unit
  | 0 => tooDeep
  | n + 1 => do
    slice n
    if ← pass "," then
      unless ← pass "]" do slices n
    else expect "]"

def slice : Nat → Reader Unit
  | 0 => tooDeep
  | n + 1 => do
    let isEnd (ts : Tokens) : Bool := isAt "," ts || isAt "]" ts
    unless isAt ":" (← get) do discard (starred n)
    if ← pass ":" then
      unless isAt ":" (← get) || isEnd (← get) do discard (expression n)
      if ← pass ":" then
        unless isEnd (← get) do discard (expression n)

def atom : Nat → Reader Expr
  | 0 => tooDeep
  | n + 1 => do
    let ts ← get
    match ts with
    | .strange :: .strange :: r => set r
    | _ => set ts.tail
    match ts with
    | .word "True" :: _ => return .literal (.bool true)
    | .word "False" :: _ => return .literal (.bool false)
    | .word "None" :: _ | .strange :: _ | .sign "..." :: _ => return .literal .strange
    | .word x :: _ =>
      checkFree x
      return .name x
    | .int v :: _ => return .literal (.int v)
    | .float x :: _ => return .literal (.float x)
    | .text .. :: _ | .template :: _ => joined (texts ts)
    | .sign "(" :: _ => group n
    | .sign "[" :: _ =>
      display n "]"
      return .other
    | .sign "\x7b" :: _ =>
      braces n
      return .other
    | _ => badSyntax

def group : Nat → Reader Expr
  | 0 => tooDeep
  | n + 1 => do
    if ← pass ")" then return .other
    if ← pass "yield" then
      discard (pass "from")
      display n ")"
      return .other
    let spread := isAt "*" (← get)
    let e ← starred n
    if ← pass ")" then
      if spread then badSyntax
      return e
    afterItem ")" (generator n) (display n ")")
    return .other

def display : Nat → String → Reader Unit
  | 0, _ => tooDeep
  | n + 1, close => do
    unless ← pass close do
      discard (starred n)
      afterItem close (generator n) (display n close)

def braces : Nat → Reader Unit
  | 0 => tooDeep
  | n + 1 => do
    unless ← pass "\x7d" do
      if ← pass "**" then discard (ranked n 0)
      else
        discard (starred n)
        if ← pass ":" then discard (expression n)
      afterItem "\x7d" (generator n) (braces n)
end

def fuelFor (ts : Tokens) : Nat := 24 * (ts.length + 2)

def expressions : Reader Expr := do
  let ts ← get
  let e ← starred (fuelFor ts)
  if isAt "," (← get) then rest (fuelFor ts) (ts.length + 1) else return e
where
  rest (fuel : Nat) : Nat → Reader Expr
    | 0 => tooDeep
    | n + 1 => do
      if ← pass "," then
        match ← get with
        | [] | .newline :: _ | .sign "=" :: _ => return .other
        | _ =>
          discard (starred fuel)
          rest fuel n
      else return .other

def readExpr (s : String) : Checked Expr := do
  match ← tokens s with
  | .indent :: _ => throw .badIndentation
  | ts =>
    let (e, r) ← expressions.run ts
    if r.all fun | .newline => true | _ => false then return e else badSyntax

/-! ## Statements -/

def skipLine : Tokens → Tokens
  | [] => []
  | .newline :: r => r
  | _ :: r => skipLine r

def isTarget : Expr → Bool
  | .name _ | .field .. | .other => true
  | _ => false

def augmented : List String :=
  ["+=", "-=", "*=", "/=", "//=", "%=", "@=", "&=", "|=", "^=", "<<=", ">>=", "**="]

def isAugmented : Tokens → Bool
  | .sign s :: _ => augmented.contains s
  | _ => false

def isEnd : Tokens → Bool
  | [] | .newline :: _ | .sign ";" :: _ => true
  | _ => false

def simple : Reader Statement := do
  match ← get with
  | .word "return" :: r =>
    set r
    if isEnd r then return .result none
    return .result (some (← expressions))
  | .word "pass" :: r | .word "break" :: r | .word "continue" :: r =>
    set r
    return .other
  | .word "global" :: r | .word "nonlocal" :: r | .word "import" :: r | .word "from" :: r | .word "del" :: r
  | .word "assert" :: r | .word "raise" :: r | .word "yield" :: r =>
    set (r.dropWhile fun | .newline => false | .sign ";" => false | _ => true)
    return .other
  | ts =>
    let e ← expressions
    if ← pass "=" then
      let es := e :: (← separated "=" expressions (ts.length + 1))
      if !es.dropLast.all isTarget then badSyntax
      match es with
      | [.name x, v] => return .assign x v
      | _ => return .other
    if ← pass ":" then
      if !isTarget e then badSyntax
      discard expressions
      if ← pass "=" then discard expressions
    else if ← passes isAugmented then
      if !isTarget e then badSyntax
      discard expressions
    return .other

def isCompound (w : String) : Bool :=
  ["while", "for", "try", "with", "def", "class", "async"].contains w

mutual
def statement : Nat → Reader (List Statement)
  | 0 => tooDeep
  | n + 1 => do
    match ← get with
    | .word "if" :: r =>
      set r
      return [← choice n]
    | .sign "@" :: r =>
      set (skipLine r)
      statement n
    | .word w :: r =>
      if isCompound w then
        set r
        passHead
        discard (block n)
        continuation n
        return [.other]
      else line n
    | _ => line n

def continuation : Nat → Reader Unit
  | 0 => tooDeep
  | n + 1 => do
    if ← passes fun ts => isAt "else" ts || isAt "except" ts || isAt "finally" ts then
      passHead
      discard (block n)
      continuation n

def line : Nat → Reader (List Statement)
  | 0 => tooDeep
  | n + 1 => do
    if let .indent :: _ ← get then throw .badIndentation
    let s ← simple
    match ← get with
    | .sign ";" :: .newline :: r | .newline :: r =>
      set r
      return [s]
    | .sign ";" :: r =>
      set r
      return s :: (← line n)
    | [] => return [s]
    | _ => badSyntax

def choice : Nat → Reader Statement
  | 0 => tooDeep
  | n + 1 => do
    let c ← element (fuelFor (← get))
    expect ":"
    let yes ← block n
    if ← pass "elif" then return .choice c yes [← choice n]
    if ← pass "else" then
      expect ":"
      return .choice c yes (← block n)
    return .choice c yes []

def block : Nat → Reader (List Statement)
  | 0 => tooDeep
  | n + 1 => do
    match ← get with
    | .newline :: .indent :: r =>
      set r
      statements n
    | .newline :: _ => throw .badIndentation
    | _ => line n

def statements : Nat → Reader (List Statement)
  | 0 => tooDeep
  | n + 1 => do
    match ← get with
    | .dedent :: r =>
      set r
      return []
    | [] => return []
    | .indent :: _ => throw .badIndentation
    | _ => return (← statement n) ++ (← statements n)
end

/-! ## Functions -/

def note (mark : String) : Reader (Option Expr) := do
  if ← pass mark then return some (← expression (fuelFor (← get))) else return none

def parameter : Reader (String × Option Expr) := do
  let x ← name
  let e ← note ":"
  discard (note "=")
  return (x, e)

def parameters : Nat → Bool → Reader (List (String × Option Expr) × Bool)
  | 0, _ => tooDeep
  | n + 1, starSeen => do
    if ← pass ")" then return ([], false)
    let next (starSeen : Bool) : Reader (List (String × Option Expr) × Bool) := do
      if ← pass "," then parameters n starSeen
      else
        expect ")"
        return ([], false)
    match ← get with
    | .sign "*" :: .sign "," :: r =>
      if isAt ")" r then badSyntax
      set r
      parameters n true
    | .sign "*" :: r =>
      set r
      discard parameter
      next true
    | .sign "**" :: r =>
      set r
      discard parameter
      next starSeen
    | .sign "/" :: r =>
      set r
      return ((← next starSeen).1, true)
    | _ =>
      let p ← parameter
      let (ps, m) ← next starSeen
      return if starSeen then (ps, true) else (p :: ps, m)

def function : Reader Function := do
  let ts ← get
  let f ← name
  expect "("
  let (args, restricted) ← parameters (ts.length + 1) false
  let result ← note "->"
  expect ":"
  return ⟨f, args, restricted, result, ← block (fuelFor ts)⟩

def items : Nat → Reader (List Item)
  | 0 => tooDeep
  | n + 1 => do
    match ← get with
    | [] => return []
    | .newline :: r =>
      set r
      items n
    | .indent :: _ => throw .badIndentation
    | .word "def" :: r =>
      set r
      return .function (← function) :: (← items n)
    | ts =>
      let ss ← statement (fuelFor ts)
      let here := ss.map fun
        | .assign x _ => Item.assign x
        | _ => .other
      return here ++ (← items n)

def readItems (s : String) : Checked (List Item) := do
  let ts ← tokens s
  (items (ts.length + 1)).run' ts

end SortedLogic.Script

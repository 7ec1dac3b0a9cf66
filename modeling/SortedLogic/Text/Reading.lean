import SortedLogic.Value.Operator

/-!
# Reading tokens

Computations that read a list of tokens from the left.
-/

namespace SortedLogic

/-- Tokens with words and signs among them, which are known by their text. -/
class Lexeme (τ : Type) where
  text? : τ → Option String

abbrev Reading (τ : Type) := StateT (List τ) Checked

namespace Reading
variable {τ α β : Type} [Lexeme τ]

def isAt (s : String) (ts : List τ) : Bool := ts.head?.bind Lexeme.text? == some s

def passes (asked : List τ → Bool) : Reading τ Bool := do
  let yes := asked (← get)
  if yes then modify List.tail
  return yes

def pass (s : String) : Reading τ Bool := passes (isAt s)

def many (op? : List τ → Option (α × List τ)) (item : Reading τ β) : Nat → Reading τ (List (α × β))
  | 0 => tooDeep
  | n + 1 => do
    match op? (← get) with
    | some (op, rest) =>
      set rest
      let b ← item
      return (op, b) :: (← many op? item n)
    | none => return []

def separated (sep : String) (item : Reading τ β) : Nat → Reading τ (List β)
  | 0 => tooDeep
  | n + 1 => do
    let b ← item
    if ← pass sep then return b :: (← separated sep item n) else return [b]

def rankOps : Nat → List (String × Value.Op)
  | 0 => [("|", .bitOr)]
  | 1 => [("^", .bitXor)]
  | 2 => [("&", .bitAnd)]
  | 3 => [("<<", .shiftLeft), (">>", .shiftRight)]
  | 4 => [("+", .add), ("-", .sub)]
  | _ => [("*", .mul), ("/", .div), ("//", .floorDiv), ("%", .mod), ("@", .matMul)]

def rankOp? (rank : Nat) (ts : List τ) : Option (Value.Op × List τ) := do
  return (← (rankOps rank).lookup (← Lexeme.text? (← ts.head?)), ts.tail)

end Reading
end SortedLogic

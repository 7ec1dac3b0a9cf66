import SortedLogic.Number
import SortedLogic.Text.Numeral

/-!
# Shapes

A tree of truth values, connectives and growth operators. Only shapes have a density, so a connective of numbers cannot be
evaluated.
-/

namespace SortedLogic

inductive Connective where
  | and | or | imp | xor | equiv | nand | nor
  deriving DecidableEq

inductive Growth where
  | triangle | square | circle | pentagon | hexagon | aether
  deriving DecidableEq

inductive Shape where
  | number (n : Nat)
  | atomic (value : Bool)
  | not (arg : Shape)
  | join (connective : Connective) (left right : Shape)
  | grow (growth : Growth) (arg : Shape)
  deriving DecidableEq

namespace Connective

def name : Connective → String
  | .and => "And"
  | .or => "Or"
  | .imp => "Imp"
  | .xor => "Xor"
  | .equiv => "Equiv"
  | .nand => "Nand"
  | .nor => "Nor"

def fields : Connective → String × String
  | .imp => ("premise", "conclusion")
  | _ => ("left", "right")

end Connective

namespace Growth

def name : Growth → String
  | .triangle => "Triangle"
  | .square => "Square"
  | .circle => "Circle"
  | .pentagon => "Pentagon"
  | .hexagon => "Hexagon"
  | .aether => "Aether"

end Growth

namespace Shape

def name : Shape → String
  | .number _ => ""
  | .atomic _ => "Atomic"
  | .not _ => "Not"
  | .join c _ _ => c.name
  | .grow g _ => g.name

def kind (s : Shape) : String := s.name ++ "Shape"

/-! ## Sequences of shapes -/

inductive Member where
  | truth (b : Bool)
  | number (n : Nat)
  | word (s : String)
  deriving DecidableEq

def firstMembers (f : Nat → Member) (n : Int) : List Member := (List.range n.toNat).map f

def sumTo (n : Nat) (f : Nat → Nat) : Nat := ((List.range n).map fun j => f (j + 1)).foldl (· + ·) 0

def sequence? (name : String) : Option (Nat → Member) :=
  match name with
  | "truth_static" => some fun _ => .truth true
  | "truth_alternating" => some fun i => .truth (i % 2 = 0)
  | "truth_inverted" => some fun i => .truth (i % 2 ≠ 0)
  | "implication_chain" => some fun i => .word (if i % 2 = 0 then "p → q" else "q → p")
  | "xor_balance" => some fun i => .truth (i % 3 = 1)
  | "nand_or_gate" => some fun i => .word (if i % 2 = 0 then "NAND" else "NOR")
  | "exponential_growth" => some fun i => .number (Nat.pow 2 i)
  | "triangular_growth" => some fun i => .number (i * (i + 1) / 2)
  | "square_compound" => some fun i => .number (sumTo i fun j => j * j)
  | "circle_nested" => some fun i => .number (sumTo i fun j => Nat.pow 2 (j * j))
  | "pentagon_structured" => some fun i => .word (if i % 2 = 0 then "META" else "SELF")
  | "hexagon_fusion" => some fun i => .word (if i % 3 = 0 then "CONVERGE" else "DIVERGE")
  | "aether_field" => some fun _ => .word "∞"
  | _ => none

def sequenceName? (shape : String) : Option String :=
  [("Atomic", "truth_static"), ("And", "truth_static"), ("Or", "truth_alternating"),
   ("Not", "truth_inverted"), ("Imp", "implication_chain"), ("Xor", "xor_balance"),
   ("Equiv", "truth_static"), ("Nand", "nand_or_gate"), ("Nor", "nand_or_gate"),
   ("Triangle", "exponential_growth"), ("Square", "square_compound"), ("Circle", "circle_nested"),
   ("Pentagon", "pentagon_structured"), ("Hexagon", "hexagon_fusion"), ("Aether", "aether_field")].lookup shape

/-! ## Reading shapes -/

/-- Cuts at the commas outside parentheses. The current piece is kept last first; an empty piece at the end does not count. -/
def splitFrom : Int → List Char → List Char → List (List Char)
  | _, piece, [] => if piece.isEmpty then [] else [piece.reverse]
  | depth, piece, c :: cs =>
    let depth := if c = '(' then depth + 1 else if c = ')' then depth - 1 else depth
    if c = ',' ∧ depth = 0 then piece.reverse :: splitFrom depth [] cs
    else splitFrom depth (c :: piece) cs

variable (cs : List Char)

def trimmed : List Char := Text.trimRight (Text.trimLeft cs)

def splitArgs : List (List Char) := (splitFrom 0 [] cs).map trimmed

inductive Word where
  | not
  | join (c : Connective)
  | grow (g : Growth)

def Word.all : List (List Char × Word) :=
  [("And".toList, .join .and), ("Or".toList, .join .or), ("Not".toList, .not), ("Imp".toList, .join .imp),
   ("Xor".toList, .join .xor), ("Equiv".toList, .join .equiv), ("Nand".toList, .join .nand),
   ("Nor".toList, .join .nor), ("Triangle".toList, .grow .triangle), ("Square".toList, .grow .square),
   ("Circle".toList, .grow .circle), ("Pentagon".toList, .grow .pentagon),
   ("Hexagon".toList, .grow .hexagon), ("Aether".toList, .grow .aether)]

def Word.build : Word → List Shape → Checked Shape
  | .not, [a] => .ok (.not a)
  | .join c, [a, b] => .ok (.join c a b)
  | .grow g, [a] => .ok (.grow g a)
  | _, _ => wrongKind

def readAtomic : Shape :=
  let inside := if cs.contains '(' then (cs.dropWhile (· ≠ '(')).drop 1 else cs
  .atomic (trimmed inside.dropLast = "True".toList)

def readNumber : Checked Shape :=
  match Text.number? cs with
  | some n => .ok (.number n)
  | none => invalid "invalid literal"

/-- Each argument is shorter than the text it stands in, so its length is enough fuel. -/
def readFrom : Nat → List Char → Checked Shape
  | fuel, cs =>
    let cs := trimmed cs
    if "Atomic".toList.isPrefixOf cs then .ok (readAtomic cs)
    else match Word.all.find? fun (w, _) => w.isPrefixOf cs, fuel with
      | some (w, word), fuel + 1 => do
        let args ← (splitArgs (cs.drop (w.length + 1)).dropLast).mapM fun arg =>
          if !arg.isEmpty && arg.all Text.isNumeric then readNumber arg else readFrom fuel arg
        word.build args
      | _, _ => invalid ("Unrecognized expression: " ++ String.ofList cs)

def read (s : String) : Checked Shape := readFrom (s.length + 1) s.toList

/-! ## Densities of shapes -/

inductive Base where
  | exact (n : Nat)
  | rounded (x : Float)

namespace Base

def exponentLimit : Nat := 1100

def selfPower : Base → Checked Base
  | .exact n =>
    if 2 ≤ n && exponentLimit < n then .error .overflow else .ok (.exact (Nat.pow n n))
  | .rounded x =>
    let y := x.pow x
    if y.isInf && !x.isInf then .error .overflow else .ok (.rounded y)

def toFloat : Base → Checked Float
  | .exact n => do
    let some x := Binary64.ofNat? n | throw .overflow
    .ok x
  | .rounded x => .ok x

def rounds (depth : Int) : Base → Checked Nat
  | .exact n => .ok (if (n : Int) < depth then n else depth.toNat)
  | .rounded x =>
    match Binary64.ofInt? depth with
    | some d => if x < d then wrongKind else .ok depth.toNat
    | none => .error .overflow

end Base

def iterate (step : Base → Checked Base) : Nat → Base → Checked Base
  | 0, b => .ok b
  | n + 1, b => do iterate step n (← step b)

def depthLimit : Int := 980

variable (b : Base)
variable (depth : Int)

def triangle : Checked Float :=
  if depth < 1 || depthLimit < depth then tooDeep else do (← b.selfPower).toFloat

def square : Checked Float := do
  (← iterate Base.selfPower (← b.rounds depth) b).toFloat

def circle : Checked Float := do
  (← iterate (fun v => do return .rounded (← square v 1)) (← b.rounds depth) b).toFloat

variable (n : Int)

def depths : List Int := (List.range n.toNat).map fun (i : Nat) => (i : Int) + 1

def total (value : Int → Checked Float) (n : Int) : Checked Float :=
  (depths n).foldlM (fun acc d => return acc + (← value d)) 0.0

def ofInt (n : Int) : Checked Float :=
  match Binary64.ofInt? n with
  | some x => .ok x
  | none => .error .overflow

def meanOf (value : Int → Checked Float) (n : Int) : Checked Float := do
  let sum ← total value n
  if n = 0 then throw .divisionByZero
  return sum / (← ofInt n)

def stretched (density : Float) : Checked Nat := do
  let some n := Binary64.trunc? ((← ofInt depth) * density) | throw .overflow
  return n.toNat

def pentagon : Checked Float := do
  let n ← stretched depth (← meanOf (circle b) 3)
  (← iterate (fun v => do return .rounded (← circle v 1)) n b).toFloat

def hexagon : Checked Float := do
  let n ← stretched depth (← meanOf (pentagon b) 4)
  (← iterate (fun v => do return .rounded (← pentagon v 1)) n b).toFloat

def aether : Checked Float := do
  (← iterate (fun v => do return .rounded (← triangle v 1)) depth.toNat b).toFloat

def growthValue : Growth → Base → Int → Checked Float
  | .triangle => triangle
  | .square => square
  | .circle => circle
  | .pentagon => pentagon
  | .hexagon => hexagon
  | .aether => aether

def least (a b : Float) : Float := if b < a then b else a
def greatest (a b : Float) : Float := if a < b then b else a
def indicator (b : Bool) : Float := if b then 1.0 else 0.0

def connectiveValue (c : Connective) (a b : Float) : Float :=
  match c with
  | .and => least a b
  | .or => greatest a b
  | .imp => indicator (a ≤ b)
  | .xor => (a - b).abs
  | .equiv => indicator ((a - b).abs < 1e-6)
  | .nand => 1.0 - least a b
  | .nor => 1.0 - greatest a b

def value (depth : Int) : Shape → Checked Float
  | .number _ => noField
  | .atomic b => .ok (indicator b)
  | .not s => return 1.0 - (← value depth s)
  | .join c l r => return connectiveValue c (← value depth l) (← value depth r)
  | .grow g (.number n) => growthValue g (.exact n) depth
  | .grow .triangle _ => if depth < 1 || depthLimit < depth then tooDeep else wrongKind
  | .grow _ _ => wrongKind

/-! ## Densities -/

variable (s : Shape)

def density : Checked Float := meanOf (fun d => s.value d) n

def densities : Checked (List Float) := (depths n).mapM fun d => s.value d

def weightedDensity : Checked Float := do
  let (sum, weights) ← (depths n).foldlM (fun (acc : Float × Float) d => do
    let w := 1.0 / (← ofInt d)
    return (acc.1 + (← s.value d) * w, acc.2 + w)) (0.0, 0.0)
  if weights == 0.0 then throw .divisionByZero
  return sum / weights

def differences : List Float → List Float
  | a :: b :: rest => (b - a) :: differences (b :: rest)
  | _ => []

def lastThree {α : Type} (xs : List α) : List α := xs.drop (xs.length - 3)

def isSteady (values : List Float) (epsilon : Float) : Bool :=
  (lastThree ((differences values).map Float.abs)).all (· < epsilon)

def isConverging (epsilon : Float) : Checked Bool :=
  return isSteady (← s.densities n) epsilon

def isCritical (threshold : Float) : Checked Bool :=
  return ((← s.density n) - 0.5).abs < threshold

def implies (s t : Shape) (n : Int) : Checked Bool :=
  go (depths n)
where
  go : List Int → Checked Bool
    | [] => .ok true
    | d :: ds => do if (← s.value d) ≤ (← t.value d) then go ds else return false

def turns : List Float → List Bool
  | a :: b :: rest => decide (a * b < 0.0) :: turns (b :: rest)
  | _ => []

def isStable (epsilon : Float) : Checked Bool := do
  let values ← s.densities n
  if (lastThree (turns (differences values))).any id then return false
  s.isConverging n epsilon

end Shape
end SortedLogic

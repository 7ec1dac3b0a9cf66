import SortedLogic.Data
import SortedLogic.Shape

/-!
# Commands on shapes

Reading and showing shapes, their values and densities, their sequences, and goals that ask for a density.
-/

namespace SortedLogic.Command.Shapes

def float (x : Float) : Data := .record [("f", .text (Binary64.text x))]

variable (naming : Fault → String) (d : Data)

def readFloat (k : String) (default : Float) : Float :=
  match d.get k with
  | .int n => (Binary64.ofInt? n).getD default
  | .decimal m e =>
    let x := Float.ofScientific m.natAbs true e
    if m < 0 then -x else x
  | _ => default

def readInt (k : String) (default : Int) : Int :=
  match d.get k with
  | .int n => n
  | _ => default

def shown : Shape → Data
  | .number n => .int n
  | .atomic b => .record [("shape", .text "AtomicShape"), ("value", .bool b)]
  | .not s => .record [("shape", shown s)]
  | .join c l r =>
    .record [("shape", .text (c.name ++ "Shape")), (c.fields.1, shown l), (c.fields.2, shown r)]
  | .grow g s => .record [("shape", .text (g.name ++ "Shape")), ("n", shown s)]

def braced (kind : String) (fields : List (String × String)) : String :=
  kind ++ "Shape\x7b'metadata': \x7b\x7d" ++
    String.join (fields.map fun (k, v) => ", '" ++ k ++ "': " ++ v) ++ "\x7d"

def text : Shape → String
  | .number n => toString n
  | .atomic b => braced "Atomic" [("value", if b then "True" else "False")]
  | .not s => braced "Not" [("shape", text s)]
  | .join c l r => braced c.name [(c.fields.1, text l), (c.fields.2, text r)]
  | .grow g s => braced g.name [("n", text s)]

def read (k : String) : Checked Shape := Shape.read (d.str k)

def ask (question : Shape → Checked Data) : Checked Data := do question (← read d "expr")

def depth (k : String := "max_depth") (default : Int := 10) : Int := readInt d k default

def parse : Checked Data := ask d fun s => .ok (.record [("shape", shown s), ("repr", .text (text s))])

def split : Checked Data := .ok (.ofTexts ((Shape.splitArgs (d.str "s").toList).map String.ofList))

def evaluate : Checked Data := ask d fun s => float <$> s.value (d.num "depth")
def density : Checked Data := ask d fun s => float <$> s.density (depth d)
def densities : Checked Data := ask d fun s => return .each (← s.densities (depth d)) float
def weightedDensity : Checked Data := ask d fun s => float <$> s.weightedDensity (depth d)

def isConverging : Checked Data := ask d fun s => .bool <$> s.isConverging (depth d) (readFloat d "epsilon" 0.01)
def isCritical : Checked Data := ask d fun s => .bool <$> s.isCritical (depth d "depth") (readFloat d "threshold" 0.01)
def isStable : Checked Data := ask d fun s => .bool <$> s.isStable (depth d "max_depth" 20) (readFloat d "epsilon" 0.01)

def implies : Checked Data := do
  let p ← read d "premise"
  return .bool (← p.implies (← read d "conclusion") (depth d "depth"))

def member : Shape.Member → Data
  | .truth b => .bool b
  | .number n => .int n
  | .word s => .text s

def sequenceOf (name : String) (otherwise : Fault) (n : Int) : Checked (List Shape.Member) := do
  let some f := Shape.sequence? name | throw otherwise
  return Shape.firstMembers f n

def rule (n : Int) : Checked (List Shape.Member) := do
  let some name := Shape.sequenceName? (d.str "name") | noKey
  sequenceOf name .noKey n

def shapeSequence : Checked Data := return .each (← rule d (d.num "n")) member

def namedSequence : Checked Data := return .each (← sequenceOf (d.str "name") .noField (d.num "n")) member

def floats (xs : List Float) : String := "[" ++ ", ".intercalate (xs.map Binary64.text) ++ "]"

def describe : Checked Data := ask d fun s =>
  match d.get "depth" with
  | .int n => return .text ("Trace[" ++ s.kind ++ " @ depth " ++ toString n ++ "]: " ++ floats (← s.densities n))
  | _ => return .text ("RSFSchema[" ++ s.kind ++ " → " ++ floats (← s.densities 4) ++ "]")

def equals (x : Data) (m : Shape.Member) : Bool :=
  let number : Option Nat := match m with
    | .truth b => some (if b then 1 else 0)
    | .number n => some n
    | .word _ => none
  match x, m, number with
  | .text s, .word t, _ => s = t
  | .bool b, _, some n => n = if b then 1 else 0
  | .int k, _, some n => k = n
  | .decimal p e, _, some n => p = (n : Int) * Int.pow 10 e
  | _, _, _ => false

def contains : Checked Data := return .bool ((← rule d (depth d "depth")).any (equals (d.get "x")))

def threshold : Float := readFloat d "threshold" 0.95

def thresholdText : String :=
  match d.get "threshold" with
  | .int n => toString n
  | .null => "0.95"
  | _ => Binary64.text (threshold d)

def proofSteps : Checked Data := ask d fun first =>
  let refused (f : Fault) : Data := .record [("error", .text (naming f))]
  let state (s : Shape) (n : Nat) : Data :=
    let proven : Data := match s.density (depth d) with
      | .ok x => .bool (threshold d ≤ x)
      | .error f => refused f
    .record [("proven", proven), ("history", .int n),
      ("repr", .text ("ProofState(goal=Goal(shape=" ++ text s ++ ", threshold=" ++ thresholdText d ++ "), steps=" ++
        toString n ++ ")"))]
  let rec go (n : Nat) : List Data → List Data
    | [] => []
    | e :: rest =>
      match Shape.read e.asText with
      | .ok s => state s (n + 1) :: go (n + 1) rest
      | .error f => refused f :: go n rest
  return .list (state first 1 :: go 1 (d.all "steps"))

def summary : Checked Data := ask d fun s => do
  let n := depth d
  return .record [("expr", d.get "expr"), ("density", float (← s.density n)),
    ("is_critical", .bool (← s.isCritical n 0.01)), ("is_converging", .bool (← s.isConverging n 0.01))]

end SortedLogic.Command.Shapes

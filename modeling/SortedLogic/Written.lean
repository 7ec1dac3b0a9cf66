import SortedLogic.Builtin
import SortedLogic.Data
import SortedLogic.World

/-!
# Written terms

Reading terms and sorts with respect to the names in scope, and writing them back.
-/

namespace SortedLogic

inductive Entry where
  | term (t : Term)
  | symbol (f : Symbol)

/-- The names in scope. The first entry of a name holds, among the terms and among the functions. -/
structure Scope where
  names : List (String × Entry) := []
  sorts : Vars := []
  results : List (String × List Term) := []
  external : Vars → Data → Session Srt := fun _ _ => wrongKind

namespace Scope
variable (σ : Scope)
variable (x : String)

def term? : Option Term :=
  σ.names.findSome? fun (y, e) =>
    match e with
    | .term t => if x = y then some t else none
    | .symbol _ => none

def function? : Option Symbol :=
  σ.names.findSome? fun (y, e) =>
    match e with
    | .symbol f => if x = y then some f else none
    | .term _ => none

def addTerm (t : Term) : Scope := { σ with names := (x, .term t) :: σ.names }

def addSymbol (f : Symbol) : Scope :=
  { σ with names := (x, if f.domain.isEmpty then .term (.app f []) else .symbol f) :: σ.names }

def addSort (s : Srt) : Scope := { σ with sorts := (x, s) :: σ.sorts }

def addDatatype (name : String) (d : Datatype) : Scope :=
  d.constructors.foldl
    (fun σ c => c.accessors.foldl (fun σ a => σ.addSymbol a.name a) (σ.addSymbol c.symbol.name c.symbol))
    (σ.addSort name d.sort)

def symbol? : Option Symbol :=
  match σ.function? x, σ.term? x with
  | some f, _ => some f
  | none, some (.app f _) => some f
  | none, _ => none

end Scope

def Rat.ofText? (s : String) : Option Rat :=
  let (negative, body) := match s.toList with
    | '-' :: cs => (true, cs)
    | cs => (false, cs)
  let digits? (cs : List Char) : Option Nat :=
    if cs.isEmpty || !cs.all Char.isDigit then none
    else some (cs.foldl (fun n c => 10 * n + (c.toNat - 48)) 0)
  let value? : Option Rat :=
    if body.contains '/' then do
      let n ← digits? (body.takeWhile (· ≠ '/'))
      let d ← digits? ((body.dropWhile (· ≠ '/')).drop 1)
      some (mkRat n d)
    else if body.contains '.' then do
      let whole := body.takeWhile (· ≠ '.')
      let frac := (body.dropWhile (· ≠ '.')).drop 1
      let n ← digits? (whole ++ frac)
      some (mkRat n (Nat.pow 10 frac.length))
    else (digits? body).map fun (n : Nat) => (n : Rat)
  value?.map fun q => if negative then -q else q

namespace Data

def readSort (σ : Scope) : Data → Session Srt
  | .text "Int" => return .int
  | .text "Bool" => return .bool
  | .text "Real" => return .real
  | .text "String" => return .string
  | .text x =>
    match σ.sorts.find? (·.1 = x) with
    | some (_, s) => return s
    | none => .uninterpreted <$> Text.checkName x
  | .list [.text "BV", .int w] => return .bitvec w.toNat
  | .list [.text "Seq", s] => .seq <$> readSort σ s
  | .list (.text "Array" :: ss) => do
    let ss ← ss.mapM (readSort σ)
    return .array ss.dropLast (ss.getLastD .int)
  | t => σ.external σ.sorts t

def isPlace : Data → Bool
  | .list (.text "thy" :: .text place :: _) | .list (.text "app" :: .text place :: _) => place.contains ':'
  | _ => false

mutual
def places : Data → List Data
  | .list xs => (if isPlace (.list xs) then [.list xs] else []) ++ xs.flatMap places
  | .record fields => placesOfFields fields
  | _ => []

def placesOfFields : Data.Fields → List Data
  | [] => []
  | (_, d) :: rest => places d ++ placesOfFields rest
end

def learn (σ : Scope) (d : Data) : Session Scope :=
  d.places.foldlM (fun σ p => do
    let s ← tryCatch (some <$> p.readSort σ) fun _ => return none
    match s.bind (← theWorld).datatype? with
    | some d => return σ.addDatatype d.name d
    | none => return σ) σ

def readVars (σ : Scope) : List Data → Session Vars
  | .list [.text x, s] :: rest => return (← Text.checkName x, ← readSort σ s) :: (← readVars σ rest)
  | _ => return []

def applyName (σ : Scope) (f : String) (args : List Term) : Checked Term :=
  match σ.function? f with
  | some g => g.apply args
  | none => Builtin.apply f args

def recognizer (w : World) (c : String) (t : Term) : Checked Term :=
  match w.datatype? t.sort >>= (·.constructor? c) with
  | some k => k.recognizer.apply [t]
  | none => illFormed

mutual
def readTerm (σ : Scope) : Data → Session Term
  | .int n => return .int n
  | .bool b => return .bool b
  | .text x => do
    let some t := σ.term? x | noKey
    return t
  | .record [("q", .text s)] => do
    let some q := Rat.ofText? s | illFormed
    return .rat q
  | .record [("bv", .list [.int v, .int w])] => return .bits v w.toNat
  | .record [("str", .text s)] => return .text s
  | .record [("b", .list [.int i, s])] => .var i.toNat <$> readSort σ s
  | .record [("ref", .list [.text step, .int k])] => do
    let some t := (σ.results.find? (·.1 = step)).bind (·.2[k.toNat]?) | noKey
    return t
  | .list [.text "is", .text c, t] => do
    let t ← readTerm σ t
    let w ← theWorld
    recognizer w c t
  | .list [.text "K", s, v] => do
    return Builtin.constArray (← readSort σ s) (← readTerm σ v)
  | .list [.text "extract", .int high, .int low, t] => do
    Builtin.extract high.toNat low.toNat (← readTerm σ t)
  | .list (.text "forall" :: .list vars :: rest) => readBinder σ .forall vars rest
  | .list (.text "exists" :: .list vars :: rest) => readBinder σ .exists vars rest
  | .list (.text "lambda" :: .list vars :: rest) => readBinder σ .lambda vars rest
  | .list (.text f :: args) => do applyName σ f (← args.mapM (readTerm σ))
  | _ => wrongKind

def readBinder (σ : Scope) (k : Binder) (vars : List Data) : List Data → Session Term
  | [body] => do
    let known ← learn σ (.list vars)
    let vars ← readVars σ vars
    let vs := vars.map fun (x, s) => Term.const x s
    let inner := vars.foldl (fun τ (x, s) => τ.addTerm x (.const x s)) known
    let body ← readTerm inner body
    Term.bindConsts k vs body
  | _ => wrongKind
end

def ofSort : Srt → Data
  | .bool => .text "Bool"
  | .int => .text "Int"
  | .real => .text "Real"
  | .string => .text "String"
  | .char => .text "Char"
  | .roundingMode => .text "RoundingMode"
  | .bitvec w => .list [.text "BV", .int w]
  | .float e s => .list [.text "FP", .int e, .int s]
  | .array ds r => .list (.text "Array" :: ds.map ofSort ++ [ofSort r])
  | .seq s => .list [.text "Seq", ofSort s]
  | .regex s => .list [.text "Re", ofSort s]
  | .datatype n | .uninterpreted n => .text n

def ratText (q : Rat) : String :=
  if q.den = 1 then toString q.num else toString q.num ++ "/" ++ toString q.den

def ofSymbol (f : Symbol) : Data :=
  .list (.text f.name :: f.domain.map ofSort ++ [ofSort f.range])

def ofVars (vars : Vars) : Data :=
  .list (vars.map fun (x, s) => .list [.text x, ofSort s])

def ofBinder : Binder → String
  | .forall => "forall"
  | .exists => "exists"
  | .lambda => "lambda"

def ofTerm : Term → Data
  | .var i _ => .record [("b", .int i)]
  | .bind k vars body => .list [.text (ofBinder k), ofVars vars, ofTerm body]
  | .app f args =>
    match f.role with
    | .int v => .int v
    | .rat q => .record [("q", .text (ratText q))]
    | .bits v =>
      match f.range with
      | .bitvec w => .record [("bv", .list [.int v, .int w])]
      | _ => .int v
    | .text s => .record [("str", .text s)]
    | .recognizer c => .list (.text "is" :: .text c :: args.map ofTerm)
    | .builtin indices =>
      if f = .tt then .bool true
      else if f = .ff then .bool false
      else if f.name = "seq.empty" then .record [("empty", ofSort f.range)]
      else if f.name = "const" then
        match f.range with
        | .array (s :: _) _ => .list (.text "K" :: ofSort s :: args.map ofTerm)
        | _ => .list (.text "K" :: args.map ofTerm)
      else if args.isEmpty && !(f.name = "and" || f.name = "or" || f.name = "distinct") then .text f.name
      else .list (.text (Builtin.writtenName f) :: indices.map (fun i => .int (Int.ofNat i)) ++ args.map ofTerm)
    | _ => if args.isEmpty then .text f.name else .list (.text f.name :: args.map ofTerm)

end Data
end SortedLogic

import SortedLogic.Print.SmtLib

/-!
# Terms and problems in the TPTP languages

First-order logic without sorts, with sorts, and higher-order logic.
-/

namespace SortedLogic.Print

namespace Tptp

def sort : Srt → String
  | .int => "$int"
  | .bool => "$o"
  | .real => "$real"
  | .array (d :: _) r => "(" ++ sort d ++ " > " ++ sort r ++ ")"
  | s => Text.lower s.name

def spelled (s : String) : String :=
  String.ofList (s.toList.flatMap fun c => if c = '!' then "bang".toList else [c])

def labelled (f : Symbol) : Labelled := [.symbol (spelled f.name) f]

def two (start middle finish : String) : List Labelled → Checked Labelled
  | a :: b :: _ => .ok (.ofString start ++ a ++ .ofString middle ++ b ++ .ofString finish)
  | _ => outOfRange

def call2 (name : String) : List Labelled → Checked Labelled := two (name ++ "(") "," ")"

def arithmetic? (f : Symbol) (args : List Labelled) : Option (Checked Labelled) :=
  match f.name with
  | "<" => some (call2 "$less" args)
  | "<=" => some (call2 "$lesseq" args)
  | ">" => some (call2 "$greater" args)
  | ">=" => some (call2 "$greatereq" args)
  | "+" => some (call2 "$sum" args)
  | "*" => some (call2 "$product" args)
  | "/" => some (call2 "$quotient" args)
  | "-" =>
    match args with
    | [a] => some (.ok (.ofString "$difference(0," ++ a ++ .ofString ")"))
    | _ => some (call2 "$difference" args)
  | _ => none

variable (format : String)

def logical? (f : Symbol) (args : List Labelled) : Option (Checked Labelled) :=
  match f.name with
  | "true" => some (.ok (.ofString "$true"))
  | "false" => some (.ok (.ofString "$false"))
  | "and" => some (.ok (.ofString "(" ++ .joined " & " args ++ .ofString ")"))
  | "or" => some (.ok (.ofString "(" ++ .joined " | " args ++ .ofString ")"))
  | "=" => some (two "(" " = " ")" args)
  | "=>" => some (two "(" " => " ")" args)
  | "not" =>
    match args with
    | a :: _ => some (.ok (.ofString "~(" ++ a ++ .ofString ")"))
    | [] => some outOfRange
  | "if" =>
    match args with
    | a :: b :: c :: _ =>
      some (.ok (.ofString "$ite(" ++ .joined ", " [a, b, c] ++ .ofString ")"))
    | _ => some outOfRange
  | "select" => some (if format = "thf" then two "(" " @ " ")" args else violated)
  | "distinct" =>
    match args with
    | [_, _] => some (two "(" " != " ")" args)
    | _ => some (.ok (.ofString "$distinct(" ++ .joined ", " args ++ .ofString ")"))
  | _ => none

def application (f : Symbol) (args : List Labelled) : Labelled :=
  if args.isEmpty then labelled f
  else if format = "thf" then
    .ofString "(" ++ labelled f ++ .ofString " @ " ++ .joined " @ " args ++ .ofString ")"
  else labelled f ++ .ofString "(" ++ .joined ", " args ++ .ofString ")"

def app (theories : Bool) (f : Symbol) (args : List Labelled) : Checked Labelled :=
  match logical? format f args with
  | some r => r
  | none =>
    match if theories then arithmetic? f args else none with
    | some r => r
    | none => .ok (application format f args)

def binderSign : Binder → String
  | .forall => "!"
  | .exists => "?"
  | .lambda => "^"

def binder (k : Binder) (vars : List (Labelled × Srt)) (body : Labelled) : Checked Labelled :=
  if k = .lambda && format ≠ "thf" then
    failed "Lambda not supported in tff tptp format. Try a thf solver"
  else
    let declared := vars.map fun (x, s) => if format = "fof" then x else x ++ Labelled.ofString (":" ++ sort s)
    .ok (.ofString ("(" ++ binderSign k ++ "[") ++ .joined ", " declared ++ .ofString "] : " ++ body ++ .ofString ")")

def dialect (theories : Bool) : Dialect Labelled where
  symbol := labelled
  atom? t := t.int?.map fun v => .ofString (toString v)
  app := app format theories
  bind := binder format

def term (format : String) (theories : Bool) : List Symbol → Term → Fresh Labelled := (dialect format theories).term

def declaration (f : Symbol) : Labelled :=
  if f.domain.isEmpty then
    .ofString (format ++ "(" ++ f.name ++ "_type, type, ") ++ labelled f
      ++ .ofString (" : " ++ sort f.range ++ " ).")
  else
    let joiner := if format = "thf" then " > " else " * "
    .ofString (format ++ "(" ++ f.name ++ "_decl, type, ") ++ labelled f
      ++ .ofString (" : " ++ joiner.intercalate (f.domain.map sort) ++ " > " ++ sort f.range ++ ").")

def unspelled : List Char → List Char
  | [] => []
  | c :: cs =>
    let rest := (c :: cs).drop 4
    let digits := rest.takeWhile Char.isDigit
    if (c :: cs).take 4 = "bang".toList && !digits.isEmpty && (rest.drop digits.length).head? = some '_' then
      '!' :: unspelled cs.tail.tail.tail
    else c :: unspelled cs
  termination_by cs => cs.length
  decreasing_by all_goals simp; try omega

end Tptp

namespace Problem

def tptp (w : World) (format : String) (p : Problem) : Fresh (List Line) := do
  if ["thf", "tff", "fof"].all (· ≠ format) then violated
  let declarations : List Line :=
    if format = "fof" then []
    else
      let sorts := (collectSorts p.terms).filter fun s => !knownSorts.contains s.name
      let sortLines := sorts.map fun s =>
        (⟨true, .ofString (format ++ "(" ++ Text.lower s.name ++ "_type, type, " ++ Tptp.sort s
          ++ " : $tType ).")⟩ : Line)
      sortLines ++ .plain "% Declarations"
        :: (p.declaredSymbols w).map fun f => ⟨true, Tptp.declaration format f⟩
  let statement (name : String) (t : Term) : Fresh Line := do
    return ⟨false, .ofString (format ++ "(" ++ name ++ ", axiom, ") ++ (← Tptp.term format true [] t)
      ++ .ofString ")."⟩
  let assumed ← p.assumed.zipIdx.mapM fun (t, i) => statement ("ax_" ++ toString i) t
  let named ← p.named.mapM fun (t, name) => statement name t
  return .plain "% TPTP file generated by Knuckledragger" :: declarations
    ++ .plain "% Axioms and assertions" :: assumed ++ named

end Problem
end SortedLogic.Print

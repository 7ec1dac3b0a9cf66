import SortedLogic.Fault

/-!
# Layout of texts

Texts with places where a line may break. A group stays on one line if what comes before the next certain break fits.
-/

namespace SortedLogic.Print

inductive Doc where
  | text (s : String)
  | break (flat : String)
  | concat (ds : List Doc)
  | indent (n : Nat) (d : Doc)
  | group (d : Doc)

namespace Doc

mutual
def flat : Doc → String
  | .text s => s
  | .break s => s
  | .concat ds => flats ds
  | .indent _ d => flat d
  | .group d => flat d

def flats : List Doc → String
  | [] => ""
  | d :: ds => flat d ++ flats ds
end

/-- The width of a line, and the most that a line is indented. -/
def width : Nat := 80
def maxIndent : Nat := 40

mutual
def write (broken : Bool) (indent column : Nat) : Doc → String × Nat
  | .text s => (s, column + s.length)
  | .break s =>
    if broken then ("\n" ++ String.ofList (List.replicate indent ' '), indent) else (s, column + s.length)
  | .concat ds => writes broken indent column ds
  | .indent n d => write broken (min (indent + n) maxIndent) column d
  | .group d =>
    let line := flat d
    if broken && (width ≤ column || width - column < line.length) then write true indent column d
    else (line, column + line.length)

def writes (broken : Bool) (indent column : Nat) : List Doc → String × Nat
  | [] => ("", column)
  | d :: ds =>
    let (s, column) := write broken indent column d
    let (r, column) := writes broken indent column ds
    (s ++ r, column)
end

def render (d : Doc) : String := (write true 0 0 d).1

def separated (sep flat : String) : List Doc → Doc
  | [] => .text ""
  | d :: ds => .concat (d :: ds.flatMap fun e => [.text sep, .break flat, e])

def applied (head : String) (args : List Doc) : Doc :=
  .group (.concat [.text (head ++ "("), .indent (head.length + 1) (separated "," " " args), .text ")"])

def bracketed (ds : List Doc) : Doc :=
  .group (.indent 1 (.concat [.text "[", separated "," " " ds, .text "]"]))

end Doc

/-! ## Identifiers of C -/

def isLetter (c : Char) : Bool := ('a' ≤ c && c ≤ 'z') || ('A' ≤ c && c ≤ 'Z') || c = '_'

def isIdentifierChar (c : Char) : Bool := isLetter c || ('0' ≤ c && c ≤ '9')

def isIdentifier (s : String) : Bool :=
  match s.toList with
  | [] => false
  | c :: cs => isLetter c && (match cs.dropWhile isIdentifierChar with
    | [] | ['\n'] => true
    | _ => false)

def keywords : List String :=
  ["auto", "break", "case", "char", "const", "continue", "default", "do", "double", "else", "enum", "extern",
   "float", "for", "goto", "if", "inline", "int", "long", "register", "restrict", "return", "short", "signed",
   "sizeof", "static", "struct", "switch", "typedef", "union", "unsigned", "void", "volatile", "while",
   "_Alignas", "_Alignof", "_Atomic", "_Bool", "_Complex", "_Generic", "_Imaginary", "_Noreturn",
   "_Static_assert", "_Thread_local"]

def isName (s : String) : Bool := isIdentifier s && !keywords.contains s

/-! ## Modules with one function -/

def crateSource (moduleName function code : String) : String :=
  "use pyo3::prelude::*;\nuse pyo3::wrap_pyfunction;\n\n#[pyfunction]\n" ++ code ++ "\n\n#[pymodule]\nfn "
    ++ moduleName ++ "(m: &Bound<'_, PyModule>) -> PyResult<()> \x7b\n    m.add_function(wrap_pyfunction!("
    ++ function ++ ", m)?)?;\n    Ok(())\n\x7d\n"

structure BuildStep where
  commands : List (List String)
  result : Checked Unit
  codes : List Int

def crateManifest (project : String) : String := project ++ "/Cargo.toml"

def runCommands : List (List String × String) → List Int → BuildStep
  | [], codes => ⟨[], .ok (), codes⟩
  | (command, failure) :: rest, codes =>
    match codes.headD 0 with
    | 0 =>
      let later := runCommands rest codes.tail
      { later with commands := command :: later.commands }
    | _ => ⟨[command], .error (.buildFailed failure), codes.tail⟩

def crateInit (project : String) (codes : List Int) : BuildStep :=
  runCommands [
    (["cargo", "init", "--lib", project], "Failed to initialize cargo project"),
    (["cargo", "add", "pyo3", "--features", "extension-module", "--manifest-path", crateManifest project],
      "Failed to add pyo3 dependency")] codes

def crateBuild (project : String) (codes : List Int) : BuildStep :=
  let step := runCommands [(["maturin", "develop", "-m", crateManifest project], "Failed to compile Rust code")] codes
  match step.result with
  | .ok _ => { step with result := .error .noModule }
  | .error _ => step

end SortedLogic.Print

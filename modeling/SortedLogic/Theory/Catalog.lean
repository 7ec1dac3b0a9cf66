import SortedLogic.Theory.Collections
import SortedLogic.Theory.Signals
import SortedLogic.Theory.Structures
import SortedLogic.Theory.Symbols
import SortedLogic.Theory.Text.Analysis
import SortedLogic.Theory.Vectors

/-!
# The theories

All theories in the order in which they are read, and the world after reading them. There the prover accepts every formula.
-/

namespace SortedLogic.Theory

def natives : Natives :=
  Vocabulary.natives ++ Numbers.natives ++ Collections.natives ++ Words.natives ++ Bounds.natives ++ Vectors.natives ++
  Signals.natives ++ Structures.natives ++ Symbols.natives

def call : Call := callWith natives

def constructions : List String :=
  ["option.Option", "fixed.FixedSort", "set.Set", "bitvec.BitVecSort", "bitvec.select64", "real.vec.FinSort",
   "real.vec.Vec0", "real.vec.Vec", "regex.ReSort", "logic.intuitionistic.Sort", "logic.temporal.TSort", "list.List"]

def texts : List (String × String) := [
  ("int", Text.integers), ("nat", Text.naturals), ("bool", Text.truthValues), ("list", Collections.lists),
  ("option", Collections.options), ("seq", Collections.sequences), ("set", Collections.sets),
  ("bitvec", Text.bitPatterns), ("fixed", Text.fixedPoint), ("regex", Collections.patterns), ("float", Text.floats),
  ("real", Text.reals), ("algebra.vector", Text.vectors), ("real.vec", Text.realVectors),
  ("real.interval", Text.intervals), ("real.complex", Text.complexNumbers), ("real.extended", Text.extendedReals),
  ("real.geometry", Text.planeGeometry), ("real.ndarray", Text.shapedArrays), ("real.symbolic", Symbols.symbolicAlgebra),
  ("algebra.category", Text.categories),
  ("algebra.group", Text.groups), ("algebra.lattice", Text.lattices), ("algebra.ordering", Text.orderings),
  ("algebra.sqmatrix", Text.squareMatrices), ("algebra.topology", Text.topologies),
  ("logic.computable", Text.computableSets), ("logic.intuitionistic", Text.intuitionistic),
  ("logic.peano", Text.peano), ("logic.robinson", Text.robinson), ("logic.temporal", Text.temporal),
  ("logic.zf", Text.zermelo), ("basics", Text.enumerations), ("tactics", Text.equations),
  ("zfc_in_hol", Text.setUniverse)]

/-- A statement that is refused is passed over, and its line is reported. -/
def performEach (cx : Context) : List (String × Checked Statement) → Session (List String)
  | [] => return []
  | (line, s) :: rest => do
    let next ← tryCatch (do return some (← perform cx (← s))) fun _ => return none
    match next with
    | some cx => performEach cx rest
    | none => return line :: (← performEach cx rest)

def readAll : Session (List String) := do
  let refused ← texts.mapM fun (name, text) =>
    performEach { call, theory := name } (statements text)
  return refused.flatten

def sumOf (s : Srt) : Method := .symbol (.builtin "+" [s, s] s)

def blank (next : Nat) : World :=
  { next
    methods := [("add", .int, sumOf .int), ("add", .real, sumOf .real), ("induct", .int, .integerInduction)]
    entails := fun _ _ _ => return true }

def loaded (next : Nat) : List String × World :=
  match readAll.run (blank next) with
  | (.ok refused, w) => (refused, w)
  | (.error _, w) => ([], w)

end SortedLogic.Theory

import SortedLogic.Print.Infix
import SortedLogic.Theory.Bounds

/-!
# Theories of collections

Lists, optional values, sequences, sets and patterns over a sort with their facts.
-/

namespace SortedLogic.Theory.Collections
open Vocabulary

/-! ## Lists and optional values -/

def listSort (s : Srt) : Session Value := do
  let d ← newDatatype ("List_" ++ s.name) fun self => [("Nil", []), ("Cons", [("head", s), ("tail", self)])]
  return .sort d.sort

variable (call : Call)

def listOver (s : Srt) : Session Srt := do
  aSort (← call (.native "list.List" []) [.sort s] [])

def listNil (s : Srt) : Session Term := do
  let l ← listOver call s
  return .app (← constructorOf l "Nil") []

def listCons (s : Srt) (x xs : Value) : Session Value := do
  let l ← listOver call s
  return .term (← Value.applySymbol (← constructorOf l "Cons") [x, xs])

def listOf (args : List Value) : Session Value := do
  match args with
  | [] => invalid "list() requires at least one argument"
  | x :: _ =>
    let s := (← x.toTerm).sort
    args.reverse.foldlM (fun acc a => listCons call s a acc) (.term (← listNil call s))

def optionSort (s : Srt) : Session Value := do
  let d ← newDatatype ("Option_" ++ s.name) fun _ => [("None_", []), ("Some", [("val", s)])]
  return .sort d.sort

def optionOver (s : Srt) : Session Srt := do
  aSort (← call (.native "option.Option" []) [.sort s] [])

def isOption (v : Value) : Checked Bool := do return (← v.toTerm).sort.name.startsWith "Option_"

def optionGet (x default : Value) : Session Value := do
  let d ← default.toTerm
  if !(← isOption x) then
    match x with
    | .term t =>
      invalid (Print.Infix.text t ++ " is not an Option datatype. " ++ t.sort.render)
    | _ => noField
  let v ← (← part x "val").toTerm
  if v.sort ≠ d.sort then invalid "default sort"
  return .term (← Value.choice (← part x "is_Some") (.term v) (.term d))

/-! ## Sequences -/

def sequenceFacts : String := "
let x y z: S
empty_ := empty(S)
S.empty := empty_
fact S.concat_empty: every x: empty_ + x = x
fact S.empty_concat: every x: x + empty_ = x
fact S.concat_assoc: every x y z: (x + y) + z = x + (y + z)
fact S.length_empty: every x: length(empty_) = 0
fact S.length_unit: every x: length(unit(x)) = 1
fact S.concat_length: every x y: length(x + y) = length(x) + length(y)
fact S.length_zero_unique: every x: (length(x) = 0) = (x = empty_)
fact S.concat_head: every x where length(x) > 0: unit(x[0]) + slice(x, 1, length(x) - 1) = x
let n m: Int
fact S.subseq_zero: every x n: slice(x, n, 0) = empty_
fact S.subseq_length: every x n m where m >= 0; n >= 0; n + m <= length(x): length(slice(x, n, m)) = m
fact S.subseq_all: every x: slice(x, 0, length(x)) = x
fact S.subseq_concat: every x n where n >= 0; n <= length(x): slice(x, 0, n) + slice(x, n, length(x) - n) = x
fact S.contains_empty x: contains(x, empty_)
fact S.contains_self x: contains(x, x)
fact S.contains_concat_left: every x y z where contains(x, z): contains(x + y, z)
fact S.contains_concat_right: every x y z where contains(y, z): contains(x + y, z)
fact S.contains_subseq x: contains(x, slice(x, n, m))
fact S.empty_contains: every x where contains(empty_, x): x = empty_
"

def sequenceSort (s : Srt) : Session Value := do
  let S : Srt := .seq s
  let _ ← runLocal call "seq" [("S", .sort S)] sequenceFacts
  return .sort S

def sequenceOf (args : List Value) : Checked Value := do
  match args with
  | [] => invalid "seq() requires at least one argument. use smt.Empty(sort) instead."
  | _ => return .term (← Term.joinSeqs (← args.mapM fun v => do return Term.unitSeq (← v.toTerm)))

/-! ## Sets -/

def setFacts : String := "
S.empty := K(T, false)
S.full := K(T, true)
method and_ on S := setInter
method or_ on S := setUnion
method sub on S := setMinus
method invert on S := setComplement
method le on S := subset
method lt on S := properSubset
method ge on S := superset
let A B C: S
fact S.union_comm A B: A | B = B | A
fact S.union_assoc A B C: (A | B) | C = A | (B | C)
fact S.union_empty A: A | S.empty = A
fact S.union_full A: A | S.full = S.full
fact S.union_self A: A | A = A
fact S.inter_comm A B: A & B = B & A
fact S.inter_assoc A B C: (A & B) & C = A & (B & C)
fact S.inter_empty A: A & S.empty = S.empty
fact S.inter_full A: A & S.full = A
fact S.inter_self A: A & A = A
fact S.diff_empty A: A - S.empty = A
fact S.diff_full A: A - S.full = S.empty
fact S.diff_self A: A - A = S.empty
define S.finite (A) := Finite(A)
"

def setSort (s : Srt) : Session Value := do
  let S : Srt := .array [s] .bool
  let _ ← runLocal call "set" [("S", .sort S), ("T", .sort s)] setFacts
  return .sort S

def isSet (v : Value) : Checked Bool := do
  match (← aTerm v).sort with
  | .array _ .bool => return true
  | _ => return false

def range (f : Symbol) : Session Term := do
  let xs := f.domain.zipIdx.map fun (s, i) => Term.const ("x" ++ toString i) s
  let y := Term.const "y" f.range
  let body ← equate (← f.apply xs) y
  (← existsWhere xs [body]).lambda [y]

def bigUnion (v : Value) : Session Value := do
  let A ← aTerm v
  let .array (D :: _) .bool := A.sort | violated
  let .array (d :: _) .bool := D | violated
  let B := Term.const "B" D
  let x := Term.const "x" d
  return .term (← (← existsWhere [B] [← B.select [x], ← A.select [B]]).lambda [x])

def surjective (f : Symbol) : Session Term := do
  let y ← freshConst "y" f.range
  forallWhere [y] [← (← range f).select [y]]

def injective (f : Symbol) : Session Term := do
  let xs ← f.domain.mapM fun s => (liftM (freshConst "x" s) : Session Term)
  let ys ← f.domain.mapM fun s => (liftM (freshConst "y" s) : Session Term)
  let same ← (xs.zip ys).mapM fun (x, y) => equate x y
  let conc ← match same with
    | [c] => pure c
    | _ => (liftM (Term.and same) : Session Term)
  forallWhere (xs ++ ys) [← (← equate (← f.apply xs) (← f.apply ys)).implies conc]

def finite (v : Value) : Session Value := do
  let A ← aTerm v
  match A.sort with
  | .array (d :: _) _ =>
    let x ← freshConst "x" d
    let witness ← freshConst "finwit" (.seq d)
    let inside ← equate (← A.select [x]) (← witness.containsSeq (Term.unitSeq x))
    return .term (← existsWhere [witness] [← forallWhere [x] [inside]])
  | _ => noField

def ofSymbol (f : Symbol → Session Term) : Native := fun _ args _ =>
  match args with
  | [.symbol g] => .term <$> f g
  | [_] => noField
  | _ => wrongKind

def patternFacts : String := "
zero := empty(T)
one := literal(empty(S))
T.empty := zero
T.full := full(T)
method mul on T := joinPatterns
method or_ on T := eitherPattern
method and_ on T := bothPatterns
method invert on T := otherPattern
method getitem on T := accepts
method sub on T := exceptPattern
let x y z: T
fact T.add_comm x y: x + y = y + x
fact T.add_assoc x y z: (x + y) + z = x + (y + z)
fact T.add_zero x: x + zero = x
fact T.add_zero_left x: zero + x = x
fact T.add_idem x: x + x = x
fact T.mul_zero x: x * zero = zero
fact T.concat_one x: x * one = x
fact T.zero_star: star(zero) = one
fact T.one_star: star(one) = one
fact T.star_concat x: star(x) * star(x) = star(x)
fact T.star_star x: star(star(x)) = star(x)
fact T.star_unfold x: one + x * star(x) = star(x)
fact T.star_unfold2 x: one + star(x) * x = star(x)
fact T.option_defn x: optional(x) = one + x
overload le T.le (x, y) := y + x = y
fact T.le_refl x: x <= x
let a: S
define T.to_set (x) := fun a: x[a]
"

def patternSort (s : Srt) : Session Value := do
  if !s.isSeq then illFormed
  let T : Srt := .regex s
  let _ ← runLocal call "regex" [("T", .sort T), ("S", .sort s)] patternFacts
  return .sort T

/-! ## The theories -/

def lists : String := "
function List list Cons Nil Unit
"

def options : String := "
function Option is_option get Some None_
"

def sequences : String := "
function induct_list induct seq Seq Unit
"

def sets : String := "
function Set is_set union inter diff subset complement member Range BigUnion Surjective Injective Finite
"

def patterns : String := "
function ReSort
"

def natives : Natives := [
  ("list.List", onceForSort "list.List" fun _ s => listSort s),
  ("list.list", fun call args _ => listOf call args),
  ("list.Cons", call2 fun call x xs => do listCons call (← x.toTerm).sort x xs),
  ("list.Nil", call1 fun call s => do return .term (← listNil call (← aSort s))),
  ("list.Unit", call1 fun call x => do
    let s := (← x.toTerm).sort
    listCons call s x (.term (← listNil call s))),
  ("option.Option", onceForSort "option.Option" fun _ s => optionSort s),
  ("option.is_option", pure1 fun v => do return .bool (← isOption v)),
  ("option.get", call2 fun _ x d => optionGet x d),
  ("option.Some", call1 fun call x => do
    let t ← x.toTerm
    let s ← optionOver call t.sort
    return .term (← Value.applySymbol (← constructorOf s "Some") [.term t])),
  ("option.None_", call1 fun call s => do
    let s ← optionOver call (← aSort s)
    return .term (.app (← constructorOf s "None_") [])),
  ("seq.seq", pureAll sequenceOf),
  ("seq.Seq", fun call args _ => do
    match args with
    | [.sort s] => sequenceSort call s
    | [_] => noField
    | _ => wrongKind),
  ("seq.Unit", onTerm fun t => .ok (Term.unitSeq t)),
  ("seq.induct_list", call2 fun _ x P => do
    let w ← theWorld
    match x with
    | .term t =>
      if !t.sort.isSeq then violated
      return .proof (.byAxiom (← Induction.fromBack t (predicate w P)))
    | _ => violated),
  ("seq.induct", call2 fun _ s P => do
    let w ← theWorld
    return .proof (.byAxiom (← Induction.byJoining (← aSort s) (predicate w P)))),
  ("set.Set", onceForSort "set.Set" setSort),
  ("set.is_set", pure1 fun v => do return .bool (← isSet v)),
  ("set.union", onTerms Term.setUnion),
  ("set.inter", onTerms Term.setInter),
  ("set.diff", onTerms Term.setMinus),
  ("set.subset", onTerms Term.setSubset),
  ("set.complement", onTerm Term.setComplement),
  ("set.member", pure2 fun x A => do
    let A ← aTerm A
    let x ← x.toTerm
    match A.sort with
    | .array [d] _ => if d = x.sort then return .term (← A.select [x]) else illFormed
    | _ => illFormed),
  ("set.Range", ofSymbol range),
  ("set.BigUnion", call1 fun _ A => bigUnion A),
  ("set.Surjective", ofSymbol surjective),
  ("set.Injective", ofSymbol injective),
  ("set.Finite", call1 fun _ A => finite A),
  ("regex.ReSort", onceForSort "regex.ReSort" patternSort)]

end SortedLogic.Theory.Collections

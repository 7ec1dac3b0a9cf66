import SortedLogic.Kernel

/-!
# Laws of operations

The usual laws of operations and relations, and tables of proofs of them.
-/

namespace SortedLogic.Property

inductive Law where
  | assoc | comm | idem | rightUnit | inverse | symmetric | transitive
  deriving DecidableEq

inductive Argument where
  | symbol (f : Symbol)
  | term (t : Term)
  deriving DecidableEq

def firstSort (f : Symbol) : Checked Srt :=
  match f.domain with
  | s :: _ => .ok s
  | [] => illFormed

namespace Law

def formula (l : Law) (args : List Argument) : Session Term := do
  let w ← theWorld
  let var (x : String) (f : Symbol) : Checked Term := .const x <$> firstSort f
  match l, args with
  | .assoc, [.symbol f] =>
    let (x, y, z) := (← var "x" f, ← var "y" f, ← var "z" f)
    let l ← f.apply [← f.apply [x, y], z]
    let r ← f.apply [x, ← f.apply [y, z]]
    forallWhere [x, y, z] [← w.equate l r]
  | .comm, [.symbol f] | .symmetric, [.symbol f] =>
    let (x, y) := (← var "x" f, ← var "y" f)
    forallWhere [x, y] [← w.equate (← f.apply [x, y]) (← f.apply [y, x])]
  | .idem, [.symbol f] =>
    let x ← var "x" f
    forallWhere [x] [← w.equate (← f.apply [x, x]) x]
  | .rightUnit, [.symbol f, .term e] =>
    let x ← var "x" f
    forallWhere [x] [← w.equate (← f.apply [x, e]) x]
  | .inverse, [.symbol f, .symbol i, .term e] =>
    let x ← var "x" f
    forallWhere [x] [← w.equate (← f.apply [x, ← i.apply [x]]) e]
  | .transitive, [.symbol f] =>
    let (x, y, z) := (← var "x" f, ← var "y" f, ← var "z" f)
    forallWhere [x, y, z] [← f.apply [x, y], ← f.apply [y, z], ← f.apply [x, z]]
  | _, _ => wrongKind

end Law

/-- Accepts a proof of a formula, up to the names of bound variables. -/
def accept (formula : Term) (pf : Proof) : Checked Proof := do
  if ← formula.alphaEq pf.thm then return pf else invalid "Proof does not match"

abbrev Laws := List (Law × Symbol × Proof)

namespace Laws

def find? (ls : Laws) (l : Law) (f : Symbol) : Option Proof :=
  (List.find? (fun (m, g, _) => m = l ∧ g = f) ls).map (·.2.2)

def add (ls : Laws) (l : Law) (f : Symbol) (p : Proof) : Laws := (l, f, p) :: ls

def intOp (name : String) : Symbol := .builtin name [.int, .int] .int

def closed (vs : List String) (s : Srt) (l r : Term) : Proof :=
  let vars := vs.map fun x => (x, s)
  let e : Term := .app (.eq s) [l, r]
  .byProofs (.bind .forall vars (e.abstract (Term.namedVars vars))) []

def standard : Laws :=
  let x := Term.const "x" .int
  let y := Term.const "y" .int
  let z := Term.const "z" .int
  let a := Term.const "a" .bool
  let op (f : Symbol) (s t : Term) : Term := .app f [s, t]
  let assoc (f : Symbol) := closed ["x", "y", "z"] .int (op f (op f x y) z) (op f x (op f y z))
  let comm (f : Symbol) := closed ["x", "y"] .int (op f x y) (op f y x)
  [(.assoc, intOp "+", assoc (intOp "+")), (.assoc, intOp "*", assoc (intOp "*")),
   (.comm, intOp "+", comm (intOp "+")), (.idem, .and, closed ["a"] .bool (op .and a a) a)]

end Laws

/-! ## Normal forms under laws -/

def two (args : List Term) : Checked (Term × Term) :=
  match args with
  | [a, b] => .ok (a, b)
  | _ :: _ :: _ :: _ => invalid "too many values to unpack (expected 2)"
  | as =>
    invalid ("not enough values to unpack (expected 2, got " ++ toString as.length ++ ")")

def graft (f : Symbol) (law : Proof) (traced : Bool) : Term → Term → Traced Term
  | .app g [a, b], c => do
    if g = f then
      if traced then Traced.note [← Kernel.call law [.term a, .term b, .term c]]
      let c ← graft f law traced b c
      graft f law traced a c
    else f.apply [.app g [a, b], c]
  | .app g args, c => do
    if g = f then
      let _ ← two args
      return c
    else f.apply [.app g args, c]
  | t, c => f.apply [t, c]

def assocNorm (law? : Symbol → Option Proof) (traced : Bool) : Term → Traced Term
  | .app f args =>
    match law? f with
    | some law => do
      let a :: b :: _ := args | illFormed
      let c ← assocNorm law? traced b
      graft f law traced a c
    | none => do f.apply (← args.mapM (assocNorm law? false))
  | t => return t

def headName (t : Term) : Checked String := do
  let .app f _ := t | illFormed
  .ok f.name

/-- Puts the argument with the smaller head name first. -/
def commNorm (law? : Symbol → Option Proof) (traced : Bool) : Term → Traced Term
  | .app f args => do
    let args ← args.mapM (commNorm law? false)
    match law? f with
    | some law =>
      let (x, y) ← two args
      if (← headName y) < (← headName x) then
        if traced then Traced.note [← Kernel.call law [.term x, .term y]]
        f.apply [y, x]
      else f.apply [x, y]
    | none => f.apply args
  | t => return t

def idemNorm (law? : Symbol → Option Proof) : Term → Traced Term
  | .app f args => do
    let args ← args.mapM (idemNorm law?)
    if f.arity = 2 then
      match args with
      | a :: b :: _ =>
        match law? f with
        | some law =>
          if a = b then
            Traced.note [law]
            return a
          f.apply args
        | none => f.apply args
      | _ => outOfRange
    else f.apply args
  | t => return t

/-! ## Registries

A class keeps its entries in a registry. The first call on a class gives it one of its own, unless a class that it is derived
from has one already, which it then shares. Entries are stored before they are checked. -/

abbrev Parts (α : Type) := List (String × α)

abbrev Registry (κ α : Type) := List (κ × Parts α)

def Registry.find? {κ α : Type} [DecidableEq κ] (r : Registry κ α) (k : κ) : Option (Parts α) :=
  (List.find? (·.1 = k) r).map (·.2)

/-- The registries that classes have of their own. -/
abbrev Registries (C κ α : Type) := List (C × Registry κ α)

structure Classes (C κ α : Type) where
  /-- The class and those it is derived from, the nearest first. -/
  line : C → List C
  /-- What a class asks of an entry at a key. The check may look at all registries and ask for instances of other classes, which
  it names; the instance gets the parts that it leaves. -/
  check : C → κ → Parts α → Registries C κ α → List C × Checked (Parts α)

namespace Classes
variable {C κ α : Type} [DecidableEq C] [DecidableEq κ] (K : Classes C κ α) (s : Registries C κ α) (c : C) (k : κ)

/-- The class whose registry a class uses. -/
def home : C := ((K.line c).find? fun d => s.any (·.1 = d)).getD c

def entries : Registry κ α := ((s.find? (·.1 = K.home s c)).map (·.2)).getD []

/-- Gives the class a registry of its own if it has none to use. -/
def touch : Registries C κ α := if s.any (·.1 = K.home s c) then s else s ++ [(K.home s c, [])]

def lookup : Registries C κ α × Checked (Parts α) :=
  (K.touch s c, match Registry.find? (K.entries s c) k with
    | some ps => .ok ps
    | none => noKey)

/-- The instance of a class at a key. -/
def get : Registries C κ α × Checked (Parts α) :=
  let s := K.touch s c
  match Registry.find? (K.entries s c) k with
  | none => (s, invalid "Not registered in typeclass")
  | some ps =>
    let (asked, instance') := K.check c k ps s
    (asked.foldl K.touch s, instance')

def store (ps : Parts α) : Registries C κ α :=
  s.map fun e => if e.1 = K.home s c then (e.1, e.2 ++ [(k, ps)]) else e

def register (ps : Parts α) : Registries C κ α × Checked Unit :=
  let s := K.touch s c
  match Registry.find? (K.entries s c) k with
  | some _ => (s, invalid "Already registered key")
  | none =>
    let (s, instance') := K.get (K.store s c k ps) c k
    (s, instance'.map fun _ => ())

end Classes
end SortedLogic.Property

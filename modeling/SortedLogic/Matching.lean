import SortedLogic.Subterm

/-!
# Pattern matching

A work list of pairs, last argument first. A pattern variable takes the term it meets, or compares it with the one it has. A
variable applied to terms, `F[a, b]`, takes the function of them that the other side shows. Below a binder both sides go on with
the same new constants, which no variable may take along. A variable is looked up by comparing it with the ones that have a
term; at a sort with an equality of its own that comparison is refused once it meets the variable itself.
-/

namespace SortedLogic

abbrev Substitution := List (Term × Term)

namespace Substitution

def get? (σ : Substitution) (x : Term) : Option Term := (σ.find? (·.1 = x)).map (·.2)

def set (σ : Substitution) (x t : Term) : Substitution :=
  if (σ.get? x).isSome then σ.map fun (y, u) => if y = x then (y, t) else (y, u)
  else σ ++ [(x, t)]

end Substitution

namespace Matching

structure Problem where
  todo : List (Term × Term)
  found : Substitution
  opened : List Term

mutual
def avoids (vs : List Term) : Term → Bool
  | .var i s => !vs.contains (.var i s)
  | .app f args => !vs.contains (.app f args) && avoidsAll vs args
  | .bind k vars body => !vs.contains (.bind k vars body) && avoids vs body

def avoidsAll (vs : List Term) : List Term → Bool
  | [] => true
  | t :: ts => avoids vs t && avoidsAll vs ts
end

def pairArgs (ps ts : List Term) : Checked (List (Term × Term)) :=
  if ps.length ≤ ts.length then .ok (ps.zip ts).reverse else .error .illFormed

def assign (overloads : Srt → Bool) (x t : Term) (p : Problem) : Checked (Option Problem) :=
  match p.found.get? x with
  | some u => do
    if overloads x.sort then throw .illFormed
    if ← u.alphaEq t then .ok (some p) else .ok none
  | none =>
    if avoids p.opened t then .ok (some { p with found := p.found ++ [(x, t)] }) else .ok none

def step (overloads : Srt → Bool) (vs : List Term) (pattern t : Term) (p : Problem) : Fresh (Option Problem) :=
  if vs.contains pattern then assign overloads pattern t p
  else match pattern with
    | .app f (F :: is) =>
      if f.isOp "select" ∧ vs.contains F then do
        let g ← t.lambda is
        return some { p with todo := (F, g) :: p.todo }
      else decompose f (F :: is)
    | .app f [] => decompose f []
    | .bind k vars body =>
      match t with
      | .bind l wars tbody =>
        if k = l ∧ vars.map (·.2) = wars.map (·.2) then do
          let (ws, body) ← (Term.bind k vars body).openFresh
          return some { p with
            todo := (body, Term.openWith ws tbody) :: p.todo, opened := p.opened ++ ws }
        else return none
      | _ => return none
    | .var .. => throw (.failed (some "Unexpected pattern"))
where
  decompose (f : Symbol) (args : List Term) : Fresh (Option Problem) :=
    match t with
    | .app g targs =>
      if f = g then do return some { p with todo := (← pairArgs args targs) ++ p.todo }
      else return none
    | _ => return none

def solve (overloads : Srt → Bool) (vs : List Term) : Nat → Problem → Fresh (Option Substitution)
  | _, { todo := [], found, .. } => return some found
  | 0, _ => return none
  | fuel + 1, { todo := (pattern, t) :: rest, found, opened } => do
    match ← step overloads vs pattern t ⟨rest, found, opened⟩ with
    | some p => solve overloads vs fuel p
    | none => return none

end Matching

namespace Term

def pmatch (vs : List Term) (pattern t : Term) (overloads : Srt → Bool := fun _ => false) : Fresh (Option Substitution) :=
  if pattern.sort = t.sort then Matching.solve overloads vs pattern.size ⟨[(pattern, t)], [], []⟩
  else return none

def pmatchFirstOrderFrom (overloads : Srt → Bool) (vs : List Term) : Nat → List (Term × Term) → Substitution → Checked (Option Substitution)
  | _, [], σ => .ok (some σ)
  | 0, _, _ => .ok none
  | fuel + 1, (pattern, t) :: rest, σ => do
    if vs.contains pattern then
      match σ.get? pattern with
      | some u =>
        if overloads pattern.sort then throw .illFormed
        if ← u.alphaEq t then pmatchFirstOrderFrom overloads vs fuel rest σ else return none
      | none => pmatchFirstOrderFrom overloads vs fuel rest (σ ++ [(pattern, t)])
    else match pattern, t with
      | .app f ps, .app g ts =>
        if f = g then pmatchFirstOrderFrom overloads vs fuel ((← Matching.pairArgs ps ts) ++ rest) σ
        else return none
      | .app .., _ => return none
      | _, _ => throw (.failed (some "Unexpected pattern"))

def pmatchFirstOrder (vs : List Term) (pattern t : Term) (overloads : Srt → Bool := fun _ => false) :
    Checked (Option Substitution) :=
  if pattern.sort = t.sort then pmatchFirstOrderFrom overloads vs pattern.size [(pattern, t)] []
  else .ok none

def pmatchAmong (overloads : Srt → Bool) (vs : List Term) (pattern : Term) (inside : Bool) : Nat → List Term → Fresh (Option (Term × Substitution))
  | _, [] => return none
  | 0, _ => return none
  | fuel + 1, t :: rest => do
    match ← pmatch vs pattern t overloads with
    | some σ => return some (t, σ)
    | none =>
      match t with
      | .app _ args => pmatchAmong overloads vs pattern inside fuel (args.reverse ++ rest)
      | .bind _ _ body => pmatchAmong overloads vs pattern inside fuel (if inside then body :: rest else rest)
      | .var .. => pmatchAmong overloads vs pattern inside fuel rest

def pmatchAnywhere (vs : List Term) (pattern t : Term) (inside : Bool) (overloads : Srt → Bool := fun _ => false) :
    Fresh (Option (Term × Substitution)) :=
  pmatchAmong overloads vs pattern inside t.size [t]

end Term
end SortedLogic

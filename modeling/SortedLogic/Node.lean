import SortedLogic.Fault

/-!
# Nodes with identity

A language in which every object that is made is a new one, whatever it is named.
-/

namespace SortedLogic

inductive Node where
  | sort (serial : Nat) (name kind : String)
  | function (serial : Nat) (name : String) (domain : List Node) (range : Node)
  | application (serial : Nat) (function : Node) (args : List Node)

namespace Node

def serial : Node → Nat
  | sort n _ _ | function n _ _ _ | application n _ _ => n

def same (a b : Node) : Bool := a.serial = b.serial

def name : Node → String
  | sort _ x _ | function _ x _ _ => x
  | application _ f _ => f.name

def range : Node → Node
  | sort n x k => sort n x k
  | function _ _ _ r => r
  | application _ f _ => f.range

def domain : Node → List Node
  | function _ _ d _ => d
  | _ => []

def args : Node → List Node
  | application _ _ as => as
  | _ => []

mutual
def alike : Node → Node → Bool
  | sort _ x k, sort _ y l => x = y && k = l
  | function _ x d r, function _ y e s => x = y && allAlike d e && alike r s
  | _, _ => false

def allAlike : List Node → List Node → Bool
  | [], [] => true
  | a :: as, b :: bs => alike a b && allAlike as bs
  | _, _ => false
end

def equal (a b : Node) : Checked Bool :=
  match a, b with
  | application .., _ | _, application .. => .error (.unsupported none)
  | a, b => .ok (alike a b)

def makeFunction (serial : Nat) (name : String) (signature : List Node) : Checked Node :=
  match signature.getLast? with
  | none => violated
  | some r => .ok (.function serial name signature.dropLast r)

def apply (serial : Nat) (f : Node) (args : List Node) : Checked Node :=
  if args.length = f.domain.length then .ok (.application serial f args) else violated

def const (serial : Nat) (name : String) (s : Node) : Node :=
  .application (serial + 1) (.function serial name [] s) []

def pick {α : Type} (xs : List α) (i : Int) : Checked α :=
  let j := if i < 0 then i + xs.length else i
  match (if j < 0 then none else xs[j.toNat]?) with
  | some x => .ok x
  | none => outOfRange

end Node
end SortedLogic

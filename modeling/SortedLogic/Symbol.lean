import SortedLogic.Sort

/-!
# Symbols

A name with argument sorts, a result sort and a role. A name that a reader wrote is never the same symbol as one of the name
supply or a constructor.
-/

namespace SortedLogic

inductive Role where
  /-- Named by the user, without meaning of its own. -/
  | free
  /-- Made by the name supply. -/
  | fresh
  /-- An operation with a fixed meaning; the numbers are its indices, such as the bounds of an extraction. -/
  | builtin (indices : List Nat)
  | int (value : Int)
  | rat (value : Rat)
  | bits (value : Nat)
  | text (value : String)
  | constructor
  /-- Asks whether a value was built by the constructor of that name. -/
  | recognizer (constructor : String)
  /-- Reads the argument at a position of the constructor of that name. -/
  | accessor (constructor : String) (position : Nat)
  deriving DecidableEq, Inhabited

structure Symbol where
  name : String
  domain : List Srt
  range : Srt
  role : Role := .free
  deriving DecidableEq, Inhabited

namespace Symbol
variable (f : Symbol)

def arity : Nat := f.domain.length

def const (name : String) (s : Srt) : Symbol := ⟨name, [], s, .free⟩

def builtin (name : String) (domain : List Srt) (range : Srt) (indices : List Nat := []) : Symbol :=
  ⟨name, domain, range, .builtin indices⟩

def isOp (name : String) : Bool :=
  match f.role with
  | .builtin _ => f.name == name
  | _ => false

def isConstructor : Bool := f.role == .constructor

/-- Symbols without a fixed meaning, whoever named them. -/
def isFree : Bool :=
  match f.role with
  | .free | .fresh => true
  | _ => false

def isLiteral : Bool :=
  match f.role with
  | .int _ | .rat _ | .bits _ | .text _ => true
  | _ => false

def int (v : Int) : Symbol := ⟨"Int", [], .int, .int v⟩
def rat (v : Rat) : Symbol := ⟨"Real", [], .real, .rat v⟩
/-- The pattern of `v` modulo `2 ^ width`. -/
def bits (v : Int) (width : Nat) : Symbol :=
  ⟨"bv", [], .bitvec width, .bits (v.emod (Int.pow 2 width)).toNat⟩
def text (s : String) : Symbol := ⟨"String", [], .string, .text s⟩

def tt : Symbol := builtin "true" [] .bool
def ff : Symbol := builtin "false" [] .bool
def and : Symbol := builtin "and" [.bool, .bool] .bool
def or : Symbol := builtin "or" [.bool, .bool] .bool
def not : Symbol := builtin "not" [.bool] .bool
def implies : Symbol := builtin "=>" [.bool, .bool] .bool
def eq (s : Srt) : Symbol := builtin "=" [s, s] .bool
def distinct (ss : List Srt) : Symbol := builtin "distinct" ss .bool
def ite (s : Srt) : Symbol := builtin "if" [.bool, s, s] s
def toReal : Symbol := builtin "to_real" [.int] .real

end Symbol
end SortedLogic

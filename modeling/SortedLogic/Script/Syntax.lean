import SortedLogic.Value.Operator

/-!
# Scripts

Expressions, and functions whose bodies are assignments that end in a result or a choice.
-/

namespace SortedLogic.Script

inductive Unary where
  | not | minus | plus | complement
  deriving DecidableEq

inductive Comparison where
  | rel (r : Relation)
  | ne
  | other
  deriving DecidableEq

inductive Literal where
  | int (n : Nat)
  | float (x : Float)
  | text (s : String)
  | bool (b : Bool)
  | strange

inductive Expr where
  | literal (v : Literal)
  | name (x : String)
  | unary (op : Unary) (e : Expr)
  | binary (op : Value.Op) (a b : Expr)
  | all (es : List Expr)
  | any (es : List Expr)
  | compare (first : Expr) (ops : List Comparison) (rest : List Expr)
  | call (f : Expr) (args : List Expr) (named : Bool)
  | choice (test yes no : Expr)
  | field (e : Expr) (name : String)
  | other

inductive Statement where
  | assign (x : String) (e : Expr)
  | result (e : Option Expr)
  | choice (test : Expr) (yes no : List Statement)
  | other

structure Function where
  name : String
  args : List (String × Option Expr)
  restricted : Bool
  result : Option Expr
  body : List Statement

inductive Item where
  | function (f : Function)
  | assign (x : String)
  | other

end SortedLogic.Script

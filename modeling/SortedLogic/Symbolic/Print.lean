import SortedLogic.Symbolic.Key

/-!
# The text of symbolic expressions

Quotients, square roots, and brackets where an operand binds no tighter than its operator.
-/

namespace SortedLogic.Symbolic

def tightness : Symbolic → Nat
  | .number q => if q < 0 then 40 else if q.den = 1 then 1000 else 50
  | .negativeInfinity => 40
  | .sum _ => 40
  | .product fs => if (Symbolic.product fs).isNegative then 40 else 50
  | .power .. => 60
  | .equation .. | .comparison .. => 35
  | _ => 1000

def half : Rat := mkRat 1 2

def quotient (c : Rat) (fs : List Symbolic) : List Symbolic × List Symbolic :=
  let below := fs.filterMap fun f =>
    match f with
    | .power b e => if e.isNegative then some (powerOf b (neg e)) else none
    | _ => none
  let above := fs.filter fun f =>
    match f with
    | .power _ e => !e.isNegative
    | _ => true
  ((if c.num = 1 then [] else [integer c.num]) ++ above, (if c.den = 1 then [] else [integer (c.den : Int)]) ++ below)

def textAt : Nat → Symbolic → String
  | 0, _ => ""
  | n + 1, e =>
    let bracketed (level : Nat) (x : Symbolic) : String :=
      if x.tightness ≤ level then "(" ++ textAt n x ++ ")" else textAt n x
    match e with
    | .sum ts =>
      let parts := (termsAt (Symbolic.sum ts).depth ts).map fun t =>
        let s := textAt n t
        if s.startsWith "-" then ("-", (s.drop 1).toString) else ("+", s)
      match parts with
      | [] => "0"
      | (sign, s) :: rest =>
        (if sign = "-" then "-" else "") ++ s ++ String.join (rest.map fun (sign, s) => " " ++ sign ++ " " ++ s)
    | .product fs =>
      let (c, _) := (Symbolic.product fs).factors
      let (above, below) := quotient (if c < 0 then -c else c) (Symbolic.product fs).orderedFactors
      let sign := if c < 0 then "-" else ""
      let above := if above.isEmpty then [one] else above
      let top := "*".intercalate (above.map (bracketed 50))
      match below with
      | [] => sign ++ top
      | [b] => sign ++ top ++ "/" ++ bracketed 50 b
      | bs => sign ++ top ++ "/(" ++ "*".intercalate (bs.map (bracketed 50)) ++ ")"
    | .power b (.number q) =>
      if q = half then "sqrt(" ++ textAt n b ++ ")"
      else if q = -half then "1/sqrt(" ++ textAt n b ++ ")"
      else if q = -1 then "1/" ++ bracketed 60 b
      else bracketed 60 b ++ "**" ++ bracketed 60 (.number q)
    | .power b e => bracketed 60 b ++ "**" ++ bracketed 60 e
    | .apply f xs => f ++ "(" ++ ", ".intercalate (xs.map (textAt n)) ++ ")"
    | .lambda [x] b =>
      if b == .symbol x then "Lambda(_x, _x)" else "Lambda(" ++ x ++ ", " ++ textAt n b ++ ")"
    | .lambda vs b => "Lambda((" ++ ", ".intercalate vs ++ "), " ++ textAt n b ++ ")"
    | .equation a b => "Eq(" ++ textAt n a ++ ", " ++ textAt n b ++ ")"
    | .comparison s a b => textAt n a ++ " " ++ s ++ " " ++ textAt n b
    | e => e.atomText

def text (e : Symbolic) : String := textAt e.depth e

end SortedLogic.Symbolic

import SortedLogic.Bag
import SortedLogic.Data
import SortedLogic.Word

/-!
# Commands on words and bags

A word is a list of integers or a text; a bag is a list of names with counts.
-/

namespace SortedLogic.Command.Words

def limit : Nat := 100000

variable (d : Data) (k : String)

/-! ## Words -/

mutual
def hasText : Data → Bool
  | .text _ => true
  | .list ds => anyText ds
  | _ => false

def anyText : List Data → Bool
  | [] => false
  | d :: ds => hasText d || anyText ds
end

def readWord : Data → Word
  | .text s => s.toList.map fun c => (c.toNat : Int)
  | d => d.items.map Data.asInt

def wordAt : Word := readWord (d.get k)

def rulesAt : List Word.Rule := (d.all k).map fun p => (readWord (p.item 0), readWord (p.item 1))

def word (w : Word) : Data :=
  if hasText (d.get k) then .text (String.ofList (w.map fun n => Char.ofNat n.toNat)) else .each w .int

def rules (rs : List Word.Rule) : Data := .each rs fun (l, r) => .pair (word d k l) (word d k r)

def reached {α : Type} : Option α → Checked α
  | some a => .ok a
  | none => tooDeep

def indexOf : Checked Data := .ok (.orNull (fun (i : Nat) => .int i) (Word.indexOf? (wordAt d "s") (wordAt d "t")))

def replaceFirst : Checked Data :=
  .ok (word d "s" (Word.replaceFirst (wordAt d "s") (wordAt d "lhs", wordAt d "rhs")))

def rewrite : Checked Data :=
  let rules := rulesAt d "R"
  let rules := match d.get "exclude" with
    | .int i => if i < 0 then rules else rules.eraseIdx i.toNat
    | _ => rules
  word d "s" <$> reached (Word.rewrite limit rules (wordAt d "s"))

def orient : Checked Data := do
  let some (s, t) := Word.orient? (wordAt d "s") (wordAt d "t") | violated
  .ok (.pair (word d "s" s) (word d "s" t))

def overlaps : Checked Data := .ok (.each (Word.overlaps (wordAt d "s") (wordAt d "t")) (word d "s"))
def deduce : Checked Data := rules d "R" <$> reached (Word.deduce limit (rulesAt d "R"))
def complete : Checked Data := rules d "E" <$> reached (Word.complete limit (rulesAt d "E"))

def simplify : Checked Data := do
  let (es, rs) ← reached (Word.simplify limit (rulesAt d "R"))
  return .record [("E", rules d "R" es), ("R", rules d "R" rs)]

/-! ## Bags -/

def readBag (d : Data) : Bag := d.items.map fun p => ((p.item 0).asText, (p.item 1).asInt)
def bagAt : Bag := readBag (d.get k)
def bagRulesAt : List Bag.Rule := (d.all k).map fun p => (readBag (p.item 0), readBag (p.item 1))
def bag (xs : Bag) : Data := .each xs fun (x, n) => .pair (.text x) (.int n)
def bagRules (rs : List Bag.Rule) : Data := .each rs fun (l, r) => .pair (bag l) (bag r)

def bagOverlap : Checked Data := .ok (.orNull bag (Bag.overlap? (bagAt d "xs") (bagAt d "ys")))
def bagAdd : Checked Data := .ok (bag (Bag.add (bagAt d "xs") (bagAt d "ys")))
def bagSub : Checked Data := .ok (.orNull bag (Bag.sub? (bagAt d "xs") (bagAt d "ys")))

def ordered (order : Bag → Bag → Option (Bag × Bag)) : Checked Data :=
  match order (bagAt d "xs") (bagAt d "ys") with
  | some (xs, ys) => .ok (.pair (bag xs) (bag ys))
  | none => violated

def bagOrder : Checked Data := ordered d Bag.order?
def bagShortlex : Checked Data := ordered d Bag.shortlex?
def bagReplace : Checked Data := .ok (.orNull bag (Bag.replace? (bagAt d "xs") (bagAt d "lhs", bagAt d "rhs")))
def bagRewrite : Checked Data := bag <$> Bag.rewrite limit (bagRulesAt d "R") (bagAt d "s")
def bagCount : Checked Data := .ok (.int (Bag.count (bagAt d "xs")))
def bagDeduce : Checked Data := bagRules <$> Bag.deduce (bagRulesAt d "R")
def bagComplete : Checked Data := bagRules <$> Bag.complete limit (bagRulesAt d "E")

end SortedLogic.Command.Words

import SortedLogic.Term.Bits

/-!
# S-expressions

The lexical level of SMT-LIB: words, quoted words, texts and nested lists.
-/

namespace SortedLogic.SmtLib

inductive Sexp where
  | word (s : String)
  | text (s : String)
  | list (items : List Sexp)

namespace Sexp

inductive Token where
  | opening | closing
  | word (s : String)
  | text (s : String)

def isBlank (c : Char) : Bool := c = ' ' || c = '\t' || c = '\n' || c = '\r'

def isWordChar (c : Char) : Bool := !isBlank c && c ≠ '(' && c ≠ ')' && c ≠ '|' && c ≠ '"' && c ≠ ';'

def textBody : List Char → List Char → Option (List Char × List Char)
  | acc, '"' :: '"' :: cs => textBody ('"' :: acc) cs
  | acc, '"' :: cs => some (acc.reverse, cs)
  | acc, c :: cs => textBody (c :: acc) cs
  | _, [] => none

def token : List Char → Option (Option Token × List Char)
  | [] => none
  | '(' :: cs => some (some .opening, cs)
  | ')' :: cs => some (some .closing, cs)
  | ';' :: cs => some (none, cs.dropWhile (· ≠ '\n'))
  | '"' :: cs => (textBody [] cs).map fun (s, rest) => (some (.text (String.ofList s)), rest)
  | '|' :: cs =>
    match cs.dropWhile (· ≠ '|') with
    | _ :: rest => some (some (.word (String.ofList (cs.takeWhile (· ≠ '|')))), rest)
    | [] => none
  | c :: cs =>
    if isBlank c then some (none, cs)
    else some (some (.word (String.ofList (c :: cs.takeWhile isWordChar))), cs.dropWhile isWordChar)

def tokensFrom : Nat → List Char → Checked (List Token)
  | _, [] => .ok []
  | 0, _ => illFormed
  | fuel + 1, cs =>
    match token cs with
    | some (some t, rest) => do return t :: (← tokensFrom fuel rest)
    | some (none, rest) => tokensFrom fuel rest
    | none => illFormed

def assemble : List (List Sexp) → List Token → Checked (List Sexp)
  | [done], [] => .ok done.reverse
  | _, [] => illFormed
  | stack, .opening :: ts => assemble ([] :: stack) ts
  | inner :: outer :: stack, .closing :: ts => assemble ((.list inner.reverse :: outer) :: stack) ts
  | _, .closing :: _ => illFormed
  | inner :: stack, .word s :: ts => assemble ((.word s :: inner) :: stack) ts
  | inner :: stack, .text s :: ts => assemble ((.text s :: inner) :: stack) ts
  | [], .word _ :: _ | [], .text _ :: _ => illFormed

def read (s : String) : Checked (List Sexp) := do
  assemble [[]] (← tokensFrom (s.length + 1) s.toList)

def name? : Sexp → Option String
  | .word s => some s
  | _ => none

def items : Sexp → List Sexp
  | .list xs => xs
  | _ => []

mutual
def size : Sexp → Nat
  | .list xs => 1 + sizes xs
  | _ => 1

def sizes : List Sexp → Nat
  | [] => 0
  | x :: xs => x.size + sizes xs
end
end Sexp

/-! ## Scripts of SMT-LIB -/

structure Scheme where
  name : String
  parameters : List String
  constructors : List (String × List (String × Sexp))

structure Abbreviation where
  name : String
  parameters : List Term
  body : Term

structure Script where
  sorts : List String := []
  schemes : List Scheme := []
  datatypes : List Datatype := []
  symbols : List Symbol := []
  abbreviations : List Abbreviation := []
  assertions : List Term := []

/-! ## Sorts -/

def natural? (s : String) : Option Nat := if s.toList.all Char.isDigit then s.toNat? else none

mutual
def readSort (c : Script) (env : Vars) : Sexp → Checked Srt
  | .word "Bool" => .ok .bool
  | .word "Int" => .ok .int
  | .word "Real" => .ok .real
  | .word "String" => .ok .string
  | .word x =>
    match env.find? (·.1 = x) with
    | some (_, s) => .ok s
    | none =>
      if c.schemes.any (·.name = x) then .ok (.datatype x)
      else if c.sorts.contains x then .ok (.uninterpreted x)
      else illFormed
  | .list [.word "_", .word "BitVec", .word n] => do
    let some w := natural? n | illFormed
    if w = 0 then illFormed else .ok (.bitvec w)
  | .list (.word "Array" :: rest) => do
    let ss ← readSorts c env rest
    let r :: ds@(_ :: _) := ss.reverse | illFormed
    .ok (.array ds.reverse r)
  | .list [.word "Seq", s] => .seq <$> readSort c env s
  | .list [.word "Set", s] => do return .array [← readSort c env s] .bool
  | .list (.word x :: _) => if c.schemes.any (·.name = x) then .ok (.datatype x) else illFormed
  | _ => illFormed

def readSorts (c : Script) (env : Vars) : List Sexp → Checked (List Srt)
  | [] => .ok []
  | s :: ss => do return (← readSort c env s) :: (← readSorts c env ss)
end

def instantiate (c : Script) (scheme : Scheme) (args : List Srt) : Checked Datatype := do
  let env := scheme.parameters.zip args
  let cons ← scheme.constructors.mapM fun (n, fs) => do
    let fs ← fs.mapM fun (f, s) => do return (f, ← readSort c env s)
    return (n, fs)
  return Datatype.make scheme.name cons

def Script.useSort (c : Script) (s : Sexp) : Checked Script :=
  match s with
  | .list (.word x :: args) =>
    match c.schemes.find? (·.name = x) with
    | some scheme => do
      if c.datatypes.any (·.name = x) then return c
      let d ← instantiate c scheme (← readSorts c [] args)
      return { c with datatypes := c.datatypes ++ [d] }
    | none => .ok c
  | _ => .ok c

/-! ## Terms -/

def chain (f : Term → Term → Checked Term) : List Term → Checked (List Term)
  | a :: b :: rest => do return (← f a b) :: (← chain f (b :: rest))
  | _ => .ok []

def chained (f : Term → Term → Checked Term) (ts : List Term) : Checked Term := do
  match ← chain f ts with
  | [t] => return t
  | [] => illFormed
  | ps => Term.and ps

def numbers (ts : List Term) : Checked (List Term) :=
  if ts.any (·.sort = .real) then ts.mapM (Term.castTo .real) else .ok ts

def arithmetic (name : String) (ts : List Term) : Checked Term := do
  let ts ← numbers ts
  match ts with
  | [] => illFormed
  | t :: _ =>
    if !t.sort.isArith || !ts.all (·.sort = t.sort) then illFormed
    return .app (.builtin name [t.sort, t.sort] t.sort) ts

def comparison (name : String) (a b : Term) : Checked Term := do
  match ← numbers [a, b] with
  | [a, b] =>
    if !a.sort.isArith || a.sort ≠ b.sort then illFormed
    return .app (.builtin name [a.sort, a.sort] .bool) [a, b]
  | _ => illFormed

def implications : List Term → Checked Term
  | [a] => .ok a
  | a :: rest => do a.implies (← implications rest)
  | [] => illFormed

def fromLeft (f : Term → Term → Checked Term) : List Term → Checked Term
  | t :: ts => ts.foldlM f t
  | [] => illFormed

def builtin? (name : String) (ts : List Term) : Option (Checked Term) :=
  match name, ts with
  | "and", _ => some (Term.and ts)
  | "or", _ => some (Term.or ts)
  | "not", [t] => some t.not
  | "=>", _ => some (implications ts)
  | "xor", _ => some (fromLeft (fun a b => Builtin.apply "xor" [a, b]) ts)
  | "=", _ => some (chained Term.eq ts)
  | "distinct", _ => some (Builtin.apply "distinct" ts)
  | "ite", [c, a, b] => some (Term.ite c a b)
  | "-", [t] => some (if t.sort.isArith then .ok (.app (.builtin "-" [t.sort] t.sort) [t]) else illFormed)
  | "+", _ | "*", _ => some (arithmetic name ts)
  | "-", _ => some (fromLeft (fun a b => arithmetic "-" [a, b]) ts)
  | "/", _ => some (do fromLeft (fun a b => Builtin.apply "/" [a, b]) (← ts.mapM (Term.castTo .real)))
  | "div", _ | "mod", _ => some (fromLeft (fun a b => Builtin.apply name [a, b]) ts)
  | "<", _ | "<=", _ | ">", _ | ">=", _ => some (chained (comparison name) ts)
  | "to_real", [t] => some (Builtin.apply name [t])
  | "to_int", [t] => some (Builtin.apply name [t])
  | "select", a :: is => some (a.select is)
  | "store", _ => some (Builtin.apply name ts)
  | "concat", _ => some (Builtin.concatAll ts)
  | "bvnot", [t] | "bvneg", [t] => some (Bits.unary name t)
  | _, [a, b] =>
    if Builtin.bitOps.contains name then some (Bits.binary name a b)
    else if Builtin.bitComparisons.contains name then some (Bits.compare name a b) else none
  | _, _ =>
    if name = "bvadd" || name = "bvmul" || name = "bvand" || name = "bvor" || name = "bvxor" then
      some (fromLeft (Bits.binary name) ts) else none

def literal? (s : String) : Option Term :=
  match s.toList with
  | '#' :: 'x' :: ds =>
    let digit (c : Char) : Option Nat :=
      if c.isDigit then some (c.toNat - 48)
      else if 'a' ≤ c && c ≤ 'f' then some (c.toNat - 87)
      else if 'A' ≤ c && c ≤ 'F' then some (c.toNat - 55) else none
    if ds.isEmpty then none
    else (ds.mapM digit).map fun vs => .bits (vs.foldl (fun (n : Nat) d => 16 * n + d) 0 : Nat) (4 * ds.length)
  | '#' :: 'b' :: ds =>
    if ds.isEmpty || !ds.all (fun c => c = '0' || c = '1') then none
    else some (.bits (ds.foldl (fun (n : Nat) c => 2 * n + (c.toNat - 48)) 0 : Nat) ds.length)
  | cs =>
    if cs.isEmpty || !cs.all (fun c => c.isDigit || c = '.') then none
    else match s.splitOn "." with
      | [n] => n.toNat?.map fun (n : Nat) => .int n
      | [n, d] => ((n ++ d).toNat?).map fun (k : Nat) => .rat (mkRat k (Nat.pow 10 d.length))
      | _ => none

def applySymbol (f : Symbol) (ts : List Term) : Checked Term :=
  if ts.length ≠ f.arity then illFormed
  else do
    let ts ← (f.domain.zip ts).mapM fun (s, t) =>
      if t.sort = .int && s = .real then Term.castTo .real t else .ok t
    if ts.map Term.sort = f.domain then return .app f ts else illFormed

namespace Script
variable (c : Script)

def datatypeSymbols : List Symbol :=
  c.datatypes.flatMap fun d => d.constructors.flatMap fun k => k.symbol :: k.accessors

variable (name : String)

def recognizer? (t : Term) : Option Term := do
  let d ← c.datatypes.find? (·.sort = t.sort)
  return .app (← d.constructor? name).recognizer [t]

def apply (ts : List Term) : Checked Term :=
  match c.abbreviations.find? fun a => a.name = name && a.parameters.map Term.sort = ts.map Term.sort with
  | some a => .ok (a.body.replaceAll (a.parameters.zip ts))
  | none =>
    let known := (c.symbols ++ c.datatypeSymbols).filter (·.name = name)
    match known.find? fun f => f.domain = ts.map Term.sort with
    | some f => .ok (.app f ts)
    | none =>
      match known with
      | f :: _ => applySymbol f ts
      | [] =>
        match builtin? name ts with
        | some r => r
        | none =>
          match name.toList, ts with
          | 'i' :: 's' :: '-' :: cs, [t] =>
            match c.recognizer? (String.ofList cs) t with
            | some p => .ok p
            | none => illFormed
          | _, _ => illFormed

def constant : Checked Term :=
  match name with
  | "true" => .ok .tt
  | "false" => .ok .ff
  | _ =>
    match literal? name with
    | some t => .ok t
    | none => c.apply name []

def indexed (head : List Sexp) (ts : List Term) : Checked Term :=
  match head, ts with
  | [.word "_", .word "extract", .word i, .word j], [t] =>
    match natural? i, natural? j with
    | some i, some j => Builtin.extract i j t
    | _, _ => illFormed
  | [.word "_", .word "zero_extend", .word n], [t] => do
    let some n := natural? n | illFormed
    Bits.zeroExtend n t
  | [.word "_", .word "sign_extend", .word n], [t] => do
    let some n := natural? n | illFormed
    Bits.signExtend n t
  | [.word "_", .word "is", .word k], [t] => do
    let some p := c.recognizer? k t | illFormed
    .ok p
  | [.word "as", .word "const", s], [t] => do
    let .array [d] r := ← readSort c [] s | illFormed
    if t.sort = r then return Builtin.constArray d t else illFormed
  | [.word "as", .word f, _], ts => c.apply f ts
  | _, _ => illFormed

def indexedLiteral? (name width : String) : Option Term :=
  match name.toList with
  | 'b' :: 'v' :: ds => do
    let v ← natural? (String.ofList ds)
    let w ← natural? width
    if w = 0 then none else some (.bits v w)
  | _ => none

def localName (depth : Nat) (x : String) (s : Srt) : Term := .app ⟨x ++ " " ++ toString depth, [], s, .fresh⟩ []

def readVariables (vs : List Sexp) : Checked Vars :=
  vs.mapM fun
    | .list [.word x, s] => do return (x, ← readSort c [] s)
    | _ => illFormed

def readTerm (c : Script) : Nat → List (String × Term) → Sexp → Checked Term
  | 0, _, _ => tooDeep
  | fuel + 1, env, e =>
    let binder (k : Binder) (vs : List Sexp) (body : Sexp) : Checked Term := do
      let vars ← c.readVariables vs
      let ts := vars.map fun (x, s) => localName fuel x s
      let inner := ((vars.map (·.1)).zip ts).reverse ++ env
      let t ← readTerm c fuel inner body
      if k ≠ .lambda && t.sort ≠ .bool then illFormed
      if vars.isEmpty then illFormed
      return .bind k vars (Term.abstract ts t)
    match e with
    | .text s => .ok (.text s)
    | .word x =>
      match env.find? (·.1 = x) with
      | some (_, t) => .ok t
      | none => c.constant x
    | .list [.word "forall", .list vs, body] => binder .forall vs body
    | .list [.word "exists", .list vs, body] => binder .exists vs body
    | .list [.word "lambda", .list vs, body] => binder .lambda vs body
    | .list [.word "let", .list bs, body] => do
      let new ← bs.mapM fun
        | .list [.word x, t] => do return (x, ← readTerm c fuel env t)
        | _ => illFormed
      readTerm c fuel (new.reverse ++ env) body
    | .list (.word "!" :: t :: _) => readTerm c fuel env t
    | .list [.word "_", .word x, .word w] => do
      let some t := indexedLiteral? x w | illFormed
      .ok t
    | .list [.word "as", .word x, _] => c.constant x
    | .list (.word f :: args) => do
      let ts ← args.mapM (readTerm c fuel env)
      if args.isEmpty || env.any (·.1 = f) then illFormed
      c.apply f ts
    | .list (.list head :: args) => do c.indexed head (← args.mapM (readTerm c fuel env))
    | .list _ => illFormed

def term (env : List (String × Term)) (e : Sexp) : Checked Term := c.readTerm (e.size + 1) env e

/-! ## Commands -/

def declareFunction (domain : List Srt) (range : Srt) : Script :=
  { c with symbols := c.symbols ++ [⟨name, domain, range, .free⟩] }

def readConstructors (cs : List Sexp) : Checked (List (String × List (String × Sexp))) :=
  cs.mapM fun
    | .word k => .ok (k, [])
    | .list (.word k :: fs) => do
      let fs ← fs.mapM fun
        | .list [.word f, s] => Except.ok (f, s)
        | _ => Except.error Fault.illFormed
      return (k, fs)
    | _ => illFormed

def readScheme : Sexp → Checked Scheme
  | .list [.word "par", .list ps, .list cs] => do return ⟨name, ps.filterMap Sexp.name?, ← readConstructors cs⟩
  | .list cs => do return ⟨name, [], ← readConstructors cs⟩
  | _ => illFormed

/-- Declares datatypes that may mention one another. Those without parameters exist at once. -/
def declareDatatypes (schemes : List Scheme) : Checked Script := do
  let c := { c with schemes := c.schemes ++ schemes }
  let ds ← (schemes.filter (·.parameters.isEmpty)).mapM fun s => instantiate c s []
  return { c with datatypes := c.datatypes ++ ds }

def define (vs : List Sexp) (range body : Sexp) : Checked Script := do
  let c ← vs.foldlM (fun c v => match v with
    | .list [_, s] => Script.useSort c s
    | _ => .ok c) c
  let c ← c.useSort range
  let vars ← c.readVariables vs
  let ts := vars.map fun (x, s) => localName 0 x s
  let r ← readSort c [] range
  let t ← c.term ((vars.map (·.1)).zip ts).reverse body
  let t ← if t.sort = .int && r = .real then t.castTo .real else pure t
  if t.sort ≠ r then illFormed
  return { c with abbreviations := c.abbreviations ++ [⟨name, ts, t⟩] }

def binderSorts : Sexp → List Sexp
  | .list [.word _, .list vs, _] => vs.filterMap fun
    | .list [_, s] => some s
    | _ => none
  | _ => []

def allBinderSorts : Nat → Sexp → List Sexp
  | 0, _ => []
  | fuel + 1, e => binderSorts e ++ e.items.flatMap (allBinderSorts fuel)

def command : Sexp → Checked Script
  | .list (.word "declare-sort" :: .word x :: _) => .ok { c with sorts := c.sorts ++ [x] }
  | .list [.word "declare-fun", .word f, .list ds, r] => do
    let c ← (ds ++ [r]).foldlM Script.useSort c
    return c.declareFunction f (← readSorts c [] ds) (← readSort c [] r)
  | .list [.word "declare-const", .word f, r] => do
    let c ← c.useSort r
    c.declareFunction f [] <$> readSort c [] r
  | .list [.word "define-fun", .word f, .list vs, r, body] => c.define f vs r body
  | .list [.word "define-const", .word f, r, body] => c.define f [] r body
  | .list [.word "declare-datatype", .word x, d] => do c.declareDatatypes [← readScheme x d]
  | .list [.word "declare-datatypes", .list names, .list ds] => do
    let named ← (names.zip ds).mapM fun
      | (.list (.word x :: _), d) => readScheme x d
      | _ => illFormed
    c.declareDatatypes named
  | .list [.word "assert", t] => do
    let c ← (allBinderSorts (t.size + 1) t).foldlM Script.useSort c
    let p ← c.term [] t
    if p.sort ≠ .bool then illFormed
    return { c with assertions := c.assertions ++ [p] }
  | .list (.word _ :: _) => .ok c
  | _ => illFormed

def read (text : String) (known : List Symbol := []) : Checked Script := do
  (← Sexp.read text).foldlM command { symbols := known }

end Script

def assertions (text : String) (known : List Symbol := []) : Session (List Term) := do
  let c ← Script.read text known
  changeWorld fun w => { w with datatypes := w.datatypes ++ c.datatypes }
  return c.assertions

end SortedLogic.SmtLib

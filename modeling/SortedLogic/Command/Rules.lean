import SortedLogic.Command.Basic
import SortedLogic.Tactic.Goal

/-!
# Commands of the kernel

The rules of the kernel, step by step. Proofs and the constants that a step returns are kept by name.
-/

namespace SortedLogic.Command.Rules

def reason : Reason → Data
  | .proof p => .record [("proof", term p.thm)]
  | .term t => .record [("term", term t)]
  | .symbol f => .record [("decl", .text f.name)]
  | .text s => .text s
  | .number n => .int n
  | .list rs => .list (reasons rs)
where
  reasons : List Reason → List Data
    | [] => []
    | r :: rs => reason r :: reasons rs

def proofFields (p : Proof) : Data.Fields :=
  [("thm", term p.thm), ("reason", reason p.reason), ("admit", .bool p.admitted)]

def noteOf : Data → Reason
  | .text s => .text s
  | .list ds => .list (ds.map fun d => .text d.asText)
  | _ => .list [.text "axiom"]

def proofStep (s : Derivation) (d : Data) : Session Proof := do
  let r := s.request d
  let pf (k : String) : Session Proof := s.proof (d.get k)
  match d.str "do" with
  | "axiom" => return .mk (← r.term "thm") (noteOf (d.get "by")) false
  | "prove" =>
    let thm ← r.term "thm"
    let by' ← s.proofsAt d "by"
    Kernel.prove thm by' { admitted := r.flag "admit" }
  | "kd_prove" =>
    let thm ← r.term "thm"
    let by' ← s.proofsAt d "by"
    let at' ← s.proofsAt d "instan"
    let here (vs : List Term) : Session (List Proof) :=
      at'.mapM fun p => (liftM (Kernel.call p (vs.map .term)) : Session Proof)
    Tactic.prove thm by' { admitted := r.flag "admit", unfold := some (d.num "unfold").toNat,
                           instances := if d.has "instan" then some here else none }
  | "prove_raw_by" =>
    let thm ← r.term "thm"
    if (← r.terms "by").isEmpty then Kernel.prove thm [] else throw .unprovable
  | "instan" => Kernel.instan (← r.terms "ts") (← pf "pf")
  | "instan2" => Kernel.instan2 (← r.terms "ts") (← r.term "thm")
  | "forget" => Kernel.forget (← r.terms "ts") (← pf "pf")
  | "forget2" => Kernel.forget2 (← r.terms "ts") (← r.term "thm")
  | "modus" => Kernel.modus (← pf "ab") (← pf "a")
  | "proj" => Kernel.proj (← pf "pf") (d.num "n")
  | "andI" => Kernel.andI (← pf "a") (← pf "b")
  | "eqrefl" => Kernel.eqrefl (← r.term "t")
  | "eqsym" => Kernel.eqsym (← pf "pf")
  | "eqtrans" => Kernel.eqtrans (← pf "a") (← pf "b")
  | "cong" => Kernel.cong (← r.symbol "f") (← s.proofsAt d "pfs")
  | "subst" => Kernel.subst (← pf "pf") (← r.term "t")
  | "beta_conv" => Kernel.betaConv (← r.term "lam") (← r.terms "args")
  | "consider" => Kernel.consider (← r.term "t")
  | "call" =>
    let p ← pf "pf"
    Kernel.call p (← (d.all "args").mapM fun a => do
      if a.has "pf" then Kernel.Argument.proof <$> s.proof (a.get "pf") else Kernel.Argument.term <$> r.readTerm a)
  | "defn" => do
    let .app f _ := ← r.term "t" | illFormed
    let some e := (← theWorld).definition? f | noKey
    return e.law
  | "induct_inductive" => Kernel.inductDatatype (← r.term "x") (← r.term "P")
  | "induct" => Kernel.induct (← r.term "x") (← r.term "P")
  | "simp_tac" => Tactic.simplified (← r.term "t")
  | "rw_simp" => Tactic.rewritten (← r.term "t") (← s.proofsAt d "by")
  | "tsubst" => Tactic.substituted (← pf "pf") (← r.terms "vs") (← r.terms "ts")
  | "forallI" => Tactic.forallIntro (← r.term "thm") fun goal _ => Kernel.assume goal []
  | _ => noKey

def step (s : Derivation) (d : Data) : Session (Derivation × Data) := do
  let r := s.request d
  let opening (x : Session (List Term × Proof)) : Session (Derivation × Data) := do
    let (vs, p) ← x
    return (s.keep d p vs, .record (proofFields p ++ [("vs", terms vs)]))
  match d.str "do" with
  | "define" | "define_fix" =>
    let (scope, e) ← defineSymbol s.scope d
    return ({ s with scope }.keep d e.law [], .record (proofFields e.law ++ [("decl", symbol e.symbol)]))
  | "is_defined" =>
    match ← r.term "t" with
    | .app f _ => return (s, .bool ((← theWorld).isDefined f))
    | _ => return (s, .bool false)
  | "admit_enabled" =>
    let b := r.flag "value"
    changeWorld fun w => { w with admitting := b }
    return (s, .bool b)
  | "einstan" => opening (do Kernel.einstan (← r.term "thm"))
  | "herb" => opening (do Kernel.herb (← r.term "thm"))
  | "skolem" => opening (do Kernel.skolem (← s.proof (d.get "pf")))
  | _ =>
    let p ← proofStep s d
    return (s.keep d p [], .record (proofFields p))

def run (naming : Naming) : Handler := fun r =>
  answers (plain step) (fun _ done => .record (outcome naming done)) { scope := r.scope } (r.all "steps")

end SortedLogic.Command.Rules

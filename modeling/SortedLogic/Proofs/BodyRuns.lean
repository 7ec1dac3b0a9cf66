import SortedLogic.Proofs.StandardModel
import SortedLogic.Proofs.Formulas
import SortedLogic.Script.Meaning

/-!
# Running the body of a script

In a store a name holds a content. An expression is evaluated by its parts: a name gives what the store holds, and an operator
what it makes of the contents of its operands (`Evaluates`). An assignment changes what a name holds, and of a choice only the
selected branch is run (`Runs`). The meaning of a body has no store, it reads both branches in environments of terms. The two
agree (`bodyMeaning_value`).
-/

namespace SortedLogic.Script
open Checked (bind_eq_ok)
universe u

/-- What a name holds: an element of a sort, or something that is no term. -/
inductive Content (U : Type u) where
  | element (s : Srt) (u : U)
  | other (v : Value)

abbrev Store (U : Type u) := String → Option (Content U)

variable {U : Type u} (w : World) (F : Frame U)

noncomputable def content : Value → Content U
  | .term t => .element t.sort (F.eval [] t)
  | v => .other v

/-- A local name hides a global one. -/
noncomputable def Names.store (ns : Names) : Store U := fun x =>
  ((ns.locals.lookup x).or (ns.globals.lookup x)).map (content F)

/-! ## Expressions -/

/-- The expressions whose values an expression needs. A chain of comparisons ends with its last operator. -/
def Expr.operands : Expr → List Expr
  | .unary _ e | .field e _ => [e]
  | .binary _ a b => [a, b]
  | .all es | .any es => es
  | .compare e ops es => e :: es.take ops.length
  | .call f args _ => f :: args
  | .choice c a b => [c, a, b]
  | .literal _ | .name _ | .other => []

/-- What the operator of an expression makes of the values of the operands. -/
def Expr.operate : Expr → List Value → Checked Value
  | .literal l, _ => .term <$> l.value.toTerm
  | .unary .minus _, [v] => Value.negate w v
  | .unary _ _, [v] => Value.invert w v
  | .binary op _ _, [a, b] => Value.operator w op a b
  | .all _, vs => .term <$> Value.conjunction vs
  | .any _, vs => .term <$> Value.disjunction vs
  | .compare _ ops _, v :: vs => do
    match ← links w v ops (vs.map .ok) with
    | [v] => return v
    | vs => .term <$> Value.conjunction vs
  | .call .., g :: vs => Value.callPlain w g vs
  | .choice .., [c, a, b] => .term <$> Value.choice c a b
  | .field _ x, [v] => Value.property w v x
  | _, _ => .error uninterpretable

/-- Of values with these contents the operator makes a value with that content, whichever the values are. -/
structure Operates (e : Expr) (cs : List (Content U)) (c : Content U) : Prop where
  works : ∃ vs v, vs.map (content F) = cs ∧ e.operate w vs = .ok v
  value : ∀ vs v, vs.map (content F) = cs → e.operate w vs = .ok v → content F v = c

inductive Evaluates (σ : Store U) : Expr → Content U → Prop
  | name {x c} : σ x = some c → Evaluates σ (.name x) c
  | operation {e cs c} : e.operands.length = cs.length → (∀ p ∈ e.operands.zip cs, Evaluates σ p.1 p.2) →
      Operates w F e cs c → Evaluates σ e c

inductive Runs : Store U → List Statement → Content U → Prop
  | result {σ e c} : Evaluates w F σ e c → Runs σ [.result (some e)] c
  | assign {σ x e rest c d} : Evaluates w F σ e c → Runs (Function.update σ x (some c)) rest d → Runs σ (.assign x e :: rest) d
  | yes {σ test yes no c} : Evaluates w F σ test (.element .bool F.yes) → Runs σ yes c → Runs σ [.choice test yes no] c
  | no {σ test yes no c} : Evaluates w F σ test (.element .bool F.no) → Runs σ no c → Runs σ [.choice test yes no] c

/-- All that a body may return are terms of one sort. -/
inductive Returns (s : Srt) : Names → List Statement → Prop
  | result {ns e} : (∀ v, meaning w ns e = .ok v → ∃ t, v = .term t ∧ t.sort = s) → Returns s ns [.result (some e)]
  | assign {ns x e rest} : (∀ v, meaning w ns e = .ok v → Returns s (ns.bind x v) rest) → Returns s ns (.assign x e :: rest)
  | choice {ns test yes no} : Returns s ns yes → Returns s ns no → Returns s ns [.choice test yes no]

variable {w} {F} {ns : Names} {x : String} {e test : Expr} {rest yes no body : List Statement}
  {v c : Value} {a b t : Term} {s : Srt}
  {σ : Store U} {d : Content U} {es : List Expr} {vs ls : List Value} {ops : List Comparison}

theorem Names.store_bind : (ns.bind x v).store F = Function.update (ns.store F) x (some (content F v)) := by
  funext y
  by_cases eq : y = x
  · subst eq
    simp [store, bind]
  · rw [Function.update_of_ne eq]
    simp [store, bind, List.lookup_cons, beq_eq_false_iff_ne.2 eq]

theorem Names.find?_eq_lookup (ns : Names) (x : String) : ns.find? x = (ns.locals.lookup x).or (ns.globals.lookup x) := by
  have first (ps : List (String × Value)) : (ps.find? (·.1 = x)).map (·.2) = ps.lookup x := by
    induction ps with
    | nil => rfl
    | cons p ps ih =>
      obtain ⟨y, v⟩ := p
      by_cases eq : y = x
      · simp [eq]
      · simp [List.lookup_cons, eq, beq_eq_false_iff_ne.2 (Ne.symm eq), ih]
  rw [find?, ← first, ← first]
  cases ns.locals.find? (·.1 = x) <;> rfl

theorem meanings_eq_mapM (es : List Expr) : meanings w ns es = es.mapM (meaning w ns) := by
  induction es with
  | nil => rw [meanings]; rfl
  | cons _ _ ih => rw [meanings, List.mapM_cons, ih]

theorem links_mapM (ok : links w v ops (es.map (meaning w ns)) = .ok ls) :
    ∃ vs, (es.take ops.length).mapM (meaning w ns) = .ok vs ∧ links w v ops (vs.map .ok) = .ok ls := by
  induction ops generalizing v es ls with
  | nil => exact ⟨[], rfl, by simpa [links] using ok⟩
  | cons op ops ih =>
    cases es with
    | nil => exact ⟨[], rfl, by simpa [links] using ok⟩
    | cons e es =>
      obtain ⟨b, here, ok⟩ := bind_eq_ok.1 ok
      obtain ⟨l, compared, ok⟩ := bind_eq_ok.1 ok
      obtain ⟨rest, below, ok⟩ := bind_eq_ok.1 ok
      obtain ⟨vs, found, same⟩ := ih below
      refine ⟨b :: vs, ?_, ?_⟩
      · rw [List.length_cons, List.take_succ_cons, List.mapM_cons, here, found]
        rfl
      · exact bind_eq_ok.2 ⟨b, rfl, bind_eq_ok.2 ⟨l, compared, bind_eq_ok.2 ⟨rest, same, ok⟩⟩⟩

/-- The meaning of an expression comes from the meanings of its operands. -/
theorem meaning_operate (other : ∀ x, e ≠ .name x) (ok : meaning w ns e = .ok v) :
    ∃ vs, e.operands.mapM (meaning w ns) = .ok vs ∧ e.operate w vs = .ok v := by
  have one {e : Expr} {a : Value} (h : meaning w ns e = .ok a) : [e].mapM (meaning w ns) = .ok [a] := by
    rw [List.mapM_cons, h]
    rfl
  have more {e : Expr} {es : List Expr} {a : Value} {vs : List Value} (h : meaning w ns e = .ok a)
      (h' : es.mapM (meaning w ns) = .ok vs) : (e :: es).mapM (meaning w ns) = .ok (a :: vs) := by
    rw [List.mapM_cons, h, h']
    rfl
  cases e with
  | name x => exact absurd rfl (other x)
  | other =>
    rw [meaning] at ok
    cases ok
  | literal =>
    rw [meaning] at ok
    exact ⟨[], rfl, ok⟩
  | unary op =>
    cases op with
    | plus =>
      rw [meaning] at ok
      cases ok
    | _ =>
      rw [meaning] at ok
      obtain ⟨a, inner, ok⟩ := bind_eq_ok.1 ok
      exact ⟨[a], one inner, ok⟩
  | binary =>
    rw [meaning] at ok
    split at ok
    · cases ok
    obtain ⟨a, first, ok⟩ := bind_eq_ok.1 ok
    obtain ⟨b, second, ok⟩ := bind_eq_ok.1 ok
    exact ⟨[a, b], more first (one second), ok⟩
  | all | any =>
    rw [meaning, meanings_eq_mapM] at ok
    obtain ⟨vs, found, ok⟩ := bind_eq_ok.1 ok
    exact ⟨vs, found, ok⟩
  | compare =>
    rw [meaning] at ok
    obtain ⟨a, first, ok⟩ := bind_eq_ok.1 ok
    obtain ⟨ls, linked, ok⟩ := bind_eq_ok.1 ok
    obtain ⟨vs, found, same⟩ := links_mapM linked
    exact ⟨a :: vs, more first found, bind_eq_ok.2 ⟨ls, same, ok⟩⟩
  | call f =>
    cases f with
    | name x =>
      rw [meaning] at ok
      split at ok
      · cases ok
      obtain ⟨g, called, ok⟩ := bind_eq_ok.1 ok
      obtain ⟨vs, found, ok⟩ := bind_eq_ok.1 ok
      rw [meanings_eq_mapM] at found
      exact ⟨g :: vs, more (by rw [meaning, called]) found, ok⟩
    | _ =>
      rw [meaning] at ok
      · cases ok
      · intro x eq
        cases eq
  | choice =>
    rw [meaning] at ok
    obtain ⟨c, tested, ok⟩ := bind_eq_ok.1 ok
    obtain ⟨a, first, ok⟩ := bind_eq_ok.1 ok
    obtain ⟨b, second, ok⟩ := bind_eq_ok.1 ok
    exact ⟨[c, a, b], more tested (more first (one second)), ok⟩
  | field =>
    rw [meaning] at ok
    obtain ⟨a, inner, ok⟩ := bind_eq_ok.1 ok
    exact ⟨[a], one inner, ok⟩

theorem contents_eq {cs : List (Content U)} (given : List.Forall₂ (fun e v => meaning w ns e = .ok v) es vs)
    (lengths : es.length = cs.length)
    (each : ∀ p ∈ es.zip cs, ∀ v, meaning w ns p.1 = .ok v → content F v = p.2) : vs.map (content F) = cs := by
  induction given generalizing cs with
  | nil => exact (List.length_eq_zero_iff.1 lengths.symm).symm
  | cons here _ ih =>
    obtain ⟨c, cs, rfl⟩ := List.exists_cons_of_length_eq_add_one lengths.symm
    refine List.cons_eq_cons.2 ⟨each (_, c) (by simp) _ here, ?_⟩
    exact ih (by simpa using lengths) fun p mem => each p (List.mem_cons_of_mem _ mem)

/-- An expression is evaluated to the value of its meaning in the environment that the store comes from. -/
theorem Evaluates.content_eq (evaluates : Evaluates w F (ns.store F) e d) (ok : meaning w ns e = .ok v) : content F v = d := by
  induction evaluates generalizing v with
  | name held =>
    rw [meaning, Names.find, Names.find?_eq_lookup] at ok
    split at ok
    · rename_i found
      cases ok
      rw [Names.store, found] at held
      exact Option.some.inj held
    · cases ok
  | @operation e cs c lengths _ operates ih =>
    obtain ⟨vs₀, v₀, -, worked⟩ := operates.works
    obtain ⟨vs, found, made⟩ := meaning_operate (fun x eq => by subst eq; cases worked) ok
    refine operates.value vs v ?_ made
    have given := Checked.mapM_eq_ok.1 found
    exact contents_eq given lengths fun p mem v => ih p mem

/-! ## The parts of a meaning -/

theorem bodyMeaning_assign (ok : bodyMeaning w ns (.assign x e :: rest) = .ok v) :
    ∃ v', meaning w ns e = .ok v' ∧ bodyMeaning w (ns.bind x v') rest = .ok v := by
  cases rest with
  | nil => cases ok
  | cons => exact bind_eq_ok.1 ok

theorem bodyMeaning_choice (ok : bodyMeaning w ns [.choice test yes no] = .ok v) : ∃ c a b t, meaning w ns test = .ok c ∧
    bodyMeaning w ns yes = .ok a ∧ bodyMeaning w ns no = .ok b ∧ Value.choice c a b = .ok t ∧ v = .term t := by
  obtain ⟨c, tested, ok⟩ := bind_eq_ok.1 ok
  obtain ⟨a, first, ok⟩ := bind_eq_ok.1 ok
  obtain ⟨b, second, ok⟩ := bind_eq_ok.1 ok
  obtain ⟨t, chosen, ok⟩ := bind_eq_ok.1 ok
  cases ok
  exact ⟨c, a, b, t, tested, first, second, chosen, rfl⟩

theorem choice_of_sort (eq : a.sort = b.sort) (ok : Value.choice c (.term a) (.term b) = .ok t) :
    ∃ c', Value.toSort .bool c = .ok c' ∧ t = .app (.ite a.sort) [c', a, b] := by
  obtain ⟨c', cast, ok⟩ := bind_eq_ok.1 ok
  rw [Value.coerce, Term.coerce_of_sort eq] at ok
  exact ⟨c', cast, ((Term.ite_of_sort eq).1 ok).2⟩

theorem Returns.sort (returns : Returns w s ns body) (ok : bodyMeaning w ns body = .ok v) : ∃ t, v = .term t ∧ t.sort = s := by
  induction returns generalizing v with
  | result each => exact each v ok
  | assign _ ih =>
    obtain ⟨v', assigned, ok⟩ := bodyMeaning_assign ok
    exact ih v' assigned ok
  | choice _ _ ihy ihn =>
    obtain ⟨c, a, b, t, -, first, second, chosen, rfl⟩ := bodyMeaning_choice ok
    obtain ⟨a, rfl, sort⟩ := ihy first
    obtain ⟨b, rfl, sort'⟩ := ihn second
    obtain ⟨c', -, rfl⟩ := choice_of_sort (sort.trans sort'.symm) chosen
    exact ⟨_, rfl, sort⟩

/-! ## Runs -/

theorem content_choice {u : U} (eq : a.sort = b.sort) (value : content F c = .element .bool u)
    (ok : Value.choice c (.term a) (.term b) = .ok t) :
    (u = F.yes → content F (.term t) = content F (.term a)) ∧ (u ≠ F.yes → content F (.term t) = content F (.term b)) := by
  obtain ⟨c', cast, rfl⟩ := choice_of_sort eq ok
  cases c with
  | term =>
    obtain ⟨sort, rfl⟩ := Content.element.inj value
    rw [Value.toSort, Term.castTo_of_sort sort] at cast
    cases cast
    simp only [content, Frame.eval_ite, ← eq]
    exact ⟨fun h => by rw [if_pos h]; rfl, fun h => by rw [if_neg h]; rfl⟩
  | _ => cases value

theorem Runs.content_eq (runs : Runs w F σ body d) (returns : Returns w s ns body) (store : ns.store F = σ)
    (ok : bodyMeaning w ns body = .ok v) : content F v = d := by
  induction runs generalizing ns v with
  | result evaluates =>
    subst store
    exact evaluates.content_eq ok
  | assign evaluates _ ih =>
    obtain ⟨v', assigned, ok⟩ := bodyMeaning_assign ok
    cases returns with
    | assign each =>
      subst store
      exact ih (each v' assigned) (by rw [Names.store_bind, evaluates.content_eq assigned]) ok
  | yes evaluates _ ih | no evaluates _ ih =>
    obtain ⟨c, a, b, t, tested, first, second, chosen, rfl⟩ := bodyMeaning_choice ok
    cases returns with
    | choice left right =>
      obtain ⟨a, rfl, sort⟩ := left.sort first
      obtain ⟨b, rfl, sort'⟩ := right.sort second
      subst store
      have selected := content_choice (sort.trans sort'.symm) (evaluates.content_eq tested) chosen
      first
      | exact (selected.1 rfl).trans (ih left rfl first)
      | exact (selected.2 F.no_ne_yes).trans (ih right rfl second)

/-- What a run of a body returns is the value of the term that the body means. -/
theorem bodyMeaning_value {u : U} (returns : Returns w s ns body) (done : bodyMeaning w ns body = .ok (.term t))
    (runs : Runs w F (ns.store F) body (.element s u)) : t.sort = s ∧ F.eval [] t = u :=
  Content.element.inj (runs.content_eq returns rfl done)

/-! ## A body with a branch that is not taken -/

namespace Sample
open Standard (allTrue)

theorem invert_truth (sort : a.sort = .bool) : Value.invert w (.term a) = .ok (.term (.app .not [a])) := by
  have truth : a.family = .truth := by simp [Term.family, sort]
  have built : Term.op .not [a] = .ok (.app .not [a]) := Term.op_eq_ok.2 ⟨congrArg ([·]) sort, rfl⟩
  rw [Value.invert, truth, Term.not, Term.castTo_of_sort sort]
  exact congrArg (Value.term <$> ·) built

theorem evaluates_not (sort : a.sort = .bool) (value : Evaluates w F σ e (content F (.term a))) :
    Evaluates w F σ (.unary .not e) (content F (.term (.app .not [a]))) := by
  have lengths : (Expr.unary .not e).operands.length = [content F (.term a)].length := rfl
  refine .operation lengths (by simpa [Expr.operands] using value) ⟨?_, fun vs v held made => ?_⟩
  · exact ⟨[.term a], _, rfl, invert_truth sort⟩
  obtain ⟨c, rfl, same⟩ := List.map_eq_singleton_iff.1 held
  cases c with
  | term b =>
    obtain ⟨sort', eq⟩ := Content.element.inj same
    cases (invert_truth (sort'.trans sort)).symm.trans made
    simp only [content, Frame.eval_app, List.map_cons, List.map_nil, eq]
    rfl
  | _ => cases same

/-- The local name `x` hides a global one. -/
def environment : Names := { locals := [("p", .term .ff), ("x", .term .ff)], globals := [("x", .term .tt)] }

/-- The first branch assigns to a name that the second one reads. -/
def swapped : List Statement :=
  [.assign "z" (.unary .not (.name "x")),
    .choice (.name "p") [.assign "z" (.name "x"), .result (some (.name "z"))] [.result (some (.name "z"))]]

theorem swapped_value : ∃ t, bodyMeaning default environment swapped = .ok (.term t) ∧ allTrue.eval [] t = allTrue.yes := by
  have name ns x : meaning default ns (.name x) = ns.find x := by rw [meaning]
  have negated : meaning default environment (.unary .not (.name "x")) = .ok (.term (.app .not [.ff])) := by
    rw [meaning, name]
    rfl
  have returns : Returns default .bool environment swapped := by
    refine .assign fun _ h => ?_
    cases negated.symm.trans h
    refine .choice (.assign fun _ h => .result fun _ h' => ?_) (.result fun _ h => ?_)
    · rw [name] at h h'
      cases h
      cases h'
      exact ⟨_, rfl, rfl⟩
    · rw [name] at h
      cases h
      exact ⟨_, rfl, rfl⟩
  have done : bodyMeaning default environment swapped = .ok (.term (.app (.ite .bool) [.ff, .ff, .app .not [.ff]])) := by
    simp only [swapped, bodyMeaning, Statement.meaning, negated, name]
    rfl
  have no : content allTrue.toFrame (.term .ff) = .element .bool allTrue.no := congrArg (Content.element .bool) allTrue.fn_ff
  have runs : Runs default allTrue.toFrame (environment.store allTrue.toFrame) swapped (.element .bool _) :=
    .assign (evaluates_not rfl (.name rfl)) (.no (.name (congrArg some no)) (.result (.name rfl)))
  refine ⟨_, done, (bodyMeaning_value returns done runs).2.trans ((allTrue.fn_not _).2 fun h => ?_)⟩
  exact allTrue.no_ne_yes (allTrue.fn_ff.symm.trans h)

end Sample
end SortedLogic.Script

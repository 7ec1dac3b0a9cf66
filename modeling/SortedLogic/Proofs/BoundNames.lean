import SortedLogic.Proofs.Unfolding

/-!
# Names of bound variables

`alphaNorm` gives the names `x0`, `x1`, ... to all bound variables and changes nothing else (`alphaNorm_eq`), so its results are
the same exactly for terms that differ in names only (`alphaNorm_names`).
-/

namespace SortedLogic.Term
open Checked (bind_eq_ok mapM_eq_ok)
open List (find?_eq_none getElem?_append_left getElem?_append_right getElem?_map map_congr_left map_cons map_id'
  map_map mem_zipIdx_iff_getElem?)
variable {strict : Bool} {Γ : List (Binder × Srt)} {k : Binder} {vars : Vars} {t u e : Term}

def renamed (names : Vars → Vars) : Term → Term
  | .var i s => .var i s
  | .app f args => .app f (args.map (renamed names))
  | .bind k vars body => .bind k (names vars) (renamed names body)

def canonicalNames (vars : Vars) : Vars := vars.zipIdx.map fun v => ("x" ++ toString v.2, v.1.2)

def withoutNames (vars : Vars) : Vars := vars.map fun v => ("", v.2)

/-- The terms are equal up to the names of bound variables. -/
def SameButNames (t u : Term) : Prop := t.renamed withoutNames = u.renamed withoutNames

theorem renamed_renamed (g h : Vars → Vars) (t : Term) : (t.renamed h).renamed g = t.renamed (g ∘ h) := by
  induction t with
  | var => simp [renamed]
  | app f _ ih =>
    simp only [renamed, map_map]
    exact congrArg (app f) (map_congr_left ih)
  | bind _ _ _ ih => simp [renamed, ih]

theorem sorts_canonicalNames (vars : Vars) : (canonicalNames vars).map (·.2) = vars.map (·.2) := by
  rw [canonicalNames, map_map]
  exact (map_map (f := Prod.fst) (g := Prod.snd)).symm.trans (congrArg _ (List.zipIdx_map_fst 0 vars))

theorem nodup_canonicalNames (vars : Vars) : (named (canonicalNames vars)).Nodup := by
  have names : (named (canonicalNames vars)).map Symbol.name = (vars.zipIdx.map Prod.snd).map ("x" ++ toString ·) := by
    simp only [named, canonicalNames, map_map]
    rfl
  refine .of_map Symbol.name ?_
  rw [names, List.zipIdx_map_snd]
  exact (List.nodup_range' ..).map fun n m eq => by simpa using eq

theorem abstractAt_instantiateAt {ts : List Term} {B : List (Binder × Srt)} (consts : ∀ v ∈ ts, ∃ c, v = app c [])
    (nodup : ts.Nodup) (sorts : ts.map sort = B.map (·.2)) : ∀ {Δ : List (Binder × Srt)},
    t.Sorted strict (Δ ++ (B ++ Γ)) → t.abstractAt ts.zipIdx Δ.length = t →
    (t.instantiateAt ts Δ.length).abstractAt ts.zipIdx Δ.length = t := by
  have absent {x : Term} (other : ∀ c, x ≠ app c []) : ts.zipIdx.find? (·.1 = x) = none := by
    refine find?_eq_none.2 fun p mem => ?_
    obtain ⟨c, eq⟩ := consts _ (List.fst_mem_of_mem_zipIdx mem)
    simpa [eq] using (other c).symm
  induction t with
  | var i s =>
    intro Δ sorted fixed
    rw [traverses_instantiateAt ts]
    cases hit : placed ts Δ.length (.var i s) with
    | none => exact fixed
    | some =>
      obtain ⟨_, _, v, eq, le, at', rfl⟩ := placed_eq_some hit
      cases eq
      obtain ⟨c, rfl⟩ := consts v (List.mem_of_getElem? at')
      have range : (B.map (·.2))[i - Δ.length]? = some c.range := by rw [← sorts, getElem?_map, at']; rfl
      rw [getElem?_map] at range
      obtain ⟨⟨b, r⟩, here, rfl⟩ := Option.map_eq_some_iff.1 range
      obtain ⟨l, there⟩ := sorted
      rw [getElem?_append_right le, getElem?_append_left (getElem?_eq_some_iff.1 here).1, here] at there
      cases there
      cases key : ts.zipIdx.find? (·.1 = app c []) with
      | none =>
        have := find?_eq_none.1 key (app c [], i - Δ.length) (mem_zipIdx_iff_getElem?.2 at')
        simp at this
      | some q =>
        have here := mem_zipIdx_iff_getElem?.1 (List.mem_of_find?_eq_some key)
        have index : q.2 = i - Δ.length := by
          refine (List.getElem?_inj (getElem?_eq_some_iff.1 here).1 nodup).1 ?_
          rw [here, at', show q.1 = app c [] by simpa using List.find?_some key]
        simp [lift, lifts, abstractAt, key, index, le]
  | app f args ih =>
    intro Δ sorted fixed
    cases args with
    | nil => exact fixed
    | cons a as =>
      have other (b : Term) (bs : List Term) := absent (x := app f (b :: bs)) (by simp)
      simp only [abstractAt, other, abstractsAt_eq_map] at fixed
      have each := List.map_inj_left.1 ((app.inj fixed).2.trans (map_id' _).symm)
      rw [instantiateAt, instantiatesAt_eq_map, map_cons, abstractAt, other, abstractsAt_eq_map]
      refine congrArg (app f) ((map_map.trans (map_congr_left fun b mem => ?_)).trans (map_id' (a :: as)))
      exact ih b mem ((sorted_app.1 sorted).2.2 b mem) (each b mem)
  | bind l wars _ ih =>
    intro Δ sorted fixed
    have other (b : Term) := absent (x := bind l wars b) (by simp)
    have len : (binding l wars ++ Δ).length = Δ.length + wars.length := by simp [binding, add_comm]
    simp only [abstractAt, other] at fixed
    rw [instantiateAt, abstractAt, other, ← len]
    refine congrArg (bind l wars) (ih (by simpa using sorted.1) ?_)
    rw [len]
    exact (bind.inj fixed).2.2

theorem abstract_openWith {cs : List Symbol} (nodup : cs.Nodup) (sorts : cs.map Symbol.range = vars.map (·.2))
    (sorted : t.Sorted strict (binding k vars ++ Γ)) (apart : abstract (cs.map (app · [])) t = t) :
    abstract (cs.map (app · [])) (openWith (cs.map (app · [])) t) = t := by
  refine abstractAt_instantiateAt (Δ := []) (by simp) ?_ (sorts_consts k sorts) sorted apart
  rw [List.nodup_reverse]
  exact nodup.map fun c d eq => (app.inj eq).1

theorem canonicalVars_eq (vars : Vars) : canonicalVars vars = (named (canonicalNames vars)).map (app · []) := by
  simp only [canonicalVars, named, canonicalNames, map_map]
  rfl

theorem binding_canonicalNames (k : Binder) (vars : Vars) : binding k (canonicalNames vars) = binding k vars := by
  have := congrArg (List.map (k, ·)) (sorts_canonicalNames vars)
  rw [map_map, map_map] at this
  exact congrArg List.reverse this

theorem freeIn_eq_ok {vs : List Term} (ok : t.freeIn vs = .ok true) : abstract vs t = t := by
  obtain ⟨g, made, eq⟩ := bind_eq_ok.1 ok
  obtain ⟨-, rfl⟩ := lambda_eq_ok.1 made
  simpa using eq

theorem alphaNorms_eq_mapM (ts : List Term) : alphaNorms ts = ts.mapM alphaNorm := by
  induction ts with
  | nil => rfl
  | cons _ _ ih => simp [alphaNorms, ih]

theorem alphaNorm_eq : ∀ {Γ : List (Binder × Srt)} {u : Term}, t.Sorted strict Γ → t.alphaNorm = .ok u →
    u = t.renamed canonicalNames ∧ u.Sorted strict Γ ∧ u.sort = t.sort := by
  induction t with
  | var =>
    intro Γ u sorted ok
    cases ok
    exact ⟨by rw [renamed], sorted, rfl⟩
  | app f args ih =>
    intro Γ u sorted ok
    obtain ⟨proper, places, below⟩ := sorted_app.1 sorted
    rw [alphaNorm, alphaNorms_eq_mapM, bind_eq_ok] at ok
    obtain ⟨us, each, applied⟩ := ok
    have each := mapM_eq_ok.1 each
    have norm {a : Term} (mem : a ∈ args) {b : Term} (ok : a.alphaNorm = .ok b) := ih a mem (below a mem) ok
    have sorts : args.map sort = us.map sort := Forall₂.map_eq each fun a mem b ok => (norm mem ok).2.2.symm
    have eq : args.map (renamed canonicalNames) = us.map id := Forall₂.map_eq each fun a mem b ok => (norm mem ok).1.symm
    have places : us.map sort = placesOf f us.length := by rw [← sorts, places, each.length_eq]
    obtain ⟨-, rfl⟩ := Kernel.apply_of_places places applied
    refine ⟨by rw [renamed, eq, List.map_id], sorted_app.2 ⟨proper, places, fun b mem => ?_⟩, rfl⟩
    obtain ⟨a, mem', ok⟩ := Forall₂.exists_of_mem_right each mem
    exact (norm mem' ok).2.1
  | bind k vars _ ih =>
    intro Γ u sorted ok
    rw [alphaNorm, bind_eq_ok] at ok
    obtain ⟨b, inner, ok⟩ := ok
    obtain ⟨rfl, sorted', sort⟩ := ih sorted.1 inner
    rw [canonicalVars_eq] at ok
    obtain ⟨free, apart, ok⟩ := bind_eq_ok.1 ok
    cases free with
    | false => cases ok
    | true =>
      obtain ⟨form, rfl⟩ := Rewrite.bindConsts_eq_ok ok
      have back := abstract_openWith (nodup_canonicalNames vars) ((range_named _).trans (sorts_canonicalNames vars))
        sorted' (freeIn_eq_ok apart)
      have sort' := (sort_abstractAt _ _ _).symm.trans (congrArg Term.sort back)
      rw [names_named, back]
      rw [sort'] at form
      refine ⟨by rw [renamed], ⟨by rwa [binding_canonicalNames], form.imp_right .inl⟩, ?_⟩
      cases k <;> simp [Term.sort, sorts_canonicalNames, sort]

/-- A result differs from the term in names only, and terms have one result just if they differ in names only. -/
theorem alphaNorm_names (sorted : e.Sorted strict []) (done : e.alphaNorm = .ok u) : SameButNames u e ∧
    ∀ {e' u' : Term}, e'.Sorted strict [] → e'.alphaNorm = .ok u' → (u = u' ↔ SameButNames e e') := by
  have dropped : withoutNames ∘ canonicalNames = withoutNames := funext fun vars => by
    have := congrArg (List.map (("", ·) : Srt → String × Srt)) (sorts_canonicalNames vars)
    rwa [map_map, map_map] at this
  have chosen : canonicalNames ∘ withoutNames = canonicalNames := funext fun vars => by
    simp [canonicalNames, withoutNames, List.zipIdx_map]
  have same {t : Term} : SameButNames (t.renamed canonicalNames) t := by rw [SameButNames, renamed_renamed, dropped]
  obtain ⟨rfl, -⟩ := alphaNorm_eq sorted done
  refine ⟨same, fun {e' u'} sorted' done' => ?_⟩
  obtain ⟨rfl, -⟩ := alphaNorm_eq sorted' done'
  refine ⟨fun equal => same.symm.trans ((congrArg _ equal).trans same), fun equal => ?_⟩
  rw [← chosen, ← renamed_renamed, equal, renamed_renamed]

def Sample.all (name : String) (body : Term) : Term := .bind .forall [(name, .bool)] body

/-- Each binder binds the variable next to it. -/
def Sample.nested (outer inner : String) : Term := all outer (.app .implies [.var 0 .bool, all inner (.var 0 .bool)])

open Sample in
/-- Both binders get one name. -/
theorem nested_normalized : (nested "y" "z").alphaNorm = .ok (nested "x0" "x0") ∧
    SameButNames (nested "x0" "x0") (nested "y" "z") ∧ SameButNames (nested "y" "z") (nested "z" "z") := by
  have inner (name : String) (Γ : List (Binder × Srt)) : (all name (.var 0 .bool)).Sorted true Γ :=
    ⟨⟨.forall, rfl⟩, .inr (.inl rfl)⟩
  have sorted (a b : String) : (nested a b).Sorted true [] := by
    refine ⟨sorted_app.2 ⟨Symbol.Logical.implies.proper, rfl, ?_⟩, .inr (.inl rfl)⟩
    exact List.forall_mem_cons.2 ⟨⟨.forall, rfl⟩, List.forall_mem_singleton.2 (inner b _)⟩
  have done : (nested "y" "z").alphaNorm = .ok (nested "x0" "x0") := by cbv
  obtain ⟨same, others⟩ := alphaNorm_names (sorted "y" "z") done
  exact ⟨done, same, (others (sorted "z" "z") (by cbv)).1 rfl⟩

/-! ## Free constants -/

/-- The constant occurs outside values and below no constructor. -/
inductive Exposed (c : Symbol) : Term → Prop
  | here : Exposed c (.app c [])
  | arg {f : Symbol} {args : List Term} {a : Term} (mem : a ∈ args) (inside : Exposed c a)
      (plain : (isValue (.app f args) || f.isConstructor) = false) : Exposed c (.app f args)
  | body {k : Binder} {vars : Vars} {body : Term} (inside : Exposed c body) : Exposed c (.bind k vars body)

/-- Is the constant a value, a constructor or defined? -/
def isKnown (isDefined : Symbol → Bool) (c : Symbol) : Bool := isValue (.app c []) || c.isConstructor || isDefined c

section
open List
variable {isDefined : Symbol → Bool} {overloads : Srt → Bool} {c : Symbol}

theorem mem_freeVarsList : t ∈ freeVarsList isDefined u ↔ ∃ c, t = .app c [] ∧ Exposed c u ∧ isKnown isDefined c = false := by
  unfold isKnown
  induction u with
  | var i s =>
    rw [freeVarsList]
    refine ⟨fun mem => absurd mem not_mem_nil, fun h => ?_⟩
    obtain ⟨c, -, exposed, -⟩ := h
    cases exposed
  | app f args ih =>
    rw [freeVarsList]
    constructor
    · intro mem
      split_ifs at mem with hidden empty defined
      · cases mem
      · cases mem
      · obtain rfl := isEmpty_iff.1 empty
        exact ⟨f, mem_singleton.1 mem, .here, by simp_all⟩
      · obtain ⟨a, inside, mem⟩ := mem_flatMap.1 mem
        rw [mem_reverse] at inside
        obtain ⟨c, same, exposed, other⟩ := (ih a inside).1 mem
        exact ⟨c, same, .arg inside exposed (by simpa using hidden), other⟩
    · rintro ⟨c, rfl, exposed, other⟩
      cases exposed with
      | here => simp_all
      | arg inside exposed plain =>
        rw [if_neg (by simp [plain]), if_neg (by simpa using ne_nil_of_mem inside)]
        exact mem_flatMap.2 ⟨_, mem_reverse.2 inside, (ih _ inside).2 ⟨c, rfl, exposed, other⟩⟩
  | bind k vars body ih =>
    rw [freeVarsList, ih]
    refine exists_congr fun c => and_congr_right fun _ => and_congr_left fun _ => ⟨.body, fun h => ?_⟩
    cases h
    assumption

theorem count_pos (other : isKnown isDefined c = false) : 0 < (freeVarsList isDefined u).count (.app c []) ↔ Exposed c u := by
  rw [count_pos_iff, mem_freeVarsList]
  refine ⟨fun h => ?_, fun exposed => ⟨c, rfl, exposed, other⟩⟩
  obtain ⟨d, same, exposed, -⟩ := h
  exact (Term.app.inj same).1 ▸ exposed

end

end SortedLogic.Term

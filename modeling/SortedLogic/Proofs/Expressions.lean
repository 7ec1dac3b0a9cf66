import SortedLogic.Proofs.Supply
import SortedLogic.Print.Labelled

/-!
# Expressions and the terms they are written from

The words of an expression, and what the steps of writing a term give.
-/

namespace SortedLogic

namespace SExpr
variable {α β γ : Type}

/-- Induction on expressions, with the hypothesis for all items of a list. -/
@[elab_as_elim, induction_eliminator]
theorem inductItems {P : SExpr α → Prop} (word : ∀ a, P (.word a))
    (list : ∀ items, (∀ x ∈ items, P x) → P (.list items)) (x : SExpr α) : P x :=
  @SExpr.rec α P (fun xs => ∀ x ∈ xs, P x) word list (fun _ h => absurd h List.not_mem_nil) (fun _ _ head tail x h => by
      rcases List.mem_cons.1 h with rfl | h
      · exact head
      · exact tail x h) x

inductive Has (a : α) : SExpr α → Prop
  | word : Has a (.word a)
  | list {x : SExpr α} {xs : List (SExpr α)} : x ∈ xs → Has a x → Has a (.list xs)

theorem has_word {a b : α} : Has a (.word b) ↔ a = b := ⟨fun | .word => rfl, fun same => same ▸ .word⟩

theorem has_list {a : α} {xs : List (SExpr α)} : Has a (.list xs) ↔ ∃ x ∈ xs, x.Has a :=
  ⟨fun | .list mem has => ⟨_, mem, has⟩, fun ⟨_, mem, has⟩ => .list mem has⟩

theorem has_words {s : String} {ss : List String} : (words ss).Has s ↔ s ∈ ss := by simp [words, has_list, has_word]

@[simp] theorem map_word (f : α → β) (a : α) : map f (.word a) = .word (f a) := by rw [map]

@[simp] theorem map_list (f : α → β) (xs : List (SExpr α)) : map f (.list xs) = .list (xs.map (map f)) := by
  have all : mapAll f xs = xs.map (map f) := by
    induction xs with
    | nil => rfl
    | cons _ _ ih => rw [mapAll, ih, List.map_cons]
  rw [map, all]

theorem has_map {f : α → β} {b : β} {x : SExpr α} : (x.map f).Has b ↔ ∃ a, x.Has a ∧ f a = b := by
  induction x with
  | word => simp [has_word, eq_comm]
  | list =>
    simp only [map_list, has_list, List.mem_map]
    grind

end SExpr

/-! ## Writing terms -/

namespace Dialect
variable {α : Type} {d : Dialect α} {vars : List Symbol} {n m : Nat} {x : α} {xs : List α}

theorem terms_eq_mapM (ts : List Term) : d.terms vars ts = ts.mapM (d.term vars) := by
  induction ts with
  | nil => rw [terms, List.mapM_nil]
  | cons _ _ ih => rw [terms, ih, List.mapM_cons]

theorem term_app_iff {f : Symbol} {args : List Term} : Gives (d.term vars (.app f args)) n x m ↔
      (d.atom? (.app f args) = some x ∧ n = m) ∨
      d.atom? (.app f args) = none ∧ ∃ xs, Gives (args.mapM (d.term vars)) n xs m ∧ d.app f xs = .ok x := by
  rw [term, terms_eq_mapM]
  cases d.atom? (.app f args) with
  | some => simp [eq_comm]
  | none =>
    simp only [Gives.bind_iff, Gives.ofChecked_fresh]
    grind

theorem term_bind {k : Binder} {bound : Vars} {body : Term} (ok : Gives (d.term vars (.bind k bound body)) n x m) :
    ∃ (cs : List Symbol) (r : Nat) (b : α), cs.map Symbol.range = bound.map (·.2) ∧ cs.Nodup ∧ (∀ c ∈ cs, c.Drawn n r) ∧ n ≤ r ∧
      Gives (d.term (cs.reverse ++ vars) body) r b m ∧ d.bind k (cs.map fun c => (d.symbol c, c.range)) b = .ok x := by
  simp only [term, Gives.bind_iff, Gives.ofChecked_fresh] at ok
  obtain ⟨vs, r, drew, b, _, ok, made, rfl⟩ := ok
  obtain ⟨cs, rfl, ranges, new, drawn, le⟩ := freshConsts_gives (fun v : String × Srt => Text.stem (Text.upper v.1)) (·.2) drew
  have heads : (cs.map (.app · [])).filterMap Term.head? = cs := by simp [List.filterMap_map, Function.comp_def, Term.head?]
  rw [heads] at ok made
  exact ⟨cs, r, b, ranges, new, drawn, le, ok, made⟩

end Dialect
end SortedLogic

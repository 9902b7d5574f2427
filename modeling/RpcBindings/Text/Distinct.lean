/-!
# Lists without repetition

`distinct` keeps the first of equal items and so keeps the order in which items are first
met.
-/
namespace RpcBindings.Text

/-- The items of a list, each where it occurs first. -/
def distinct {α : Type} [DecidableEq α] : List α → List α
  | [] => []
  | x :: xs => x :: (distinct xs).filter (· ≠ x)

@[simp]
theorem mem_distinct {α : Type} [DecidableEq α] {x : α} {xs : List α} :
    x ∈ distinct xs ↔ x ∈ xs := by
  induction xs with
  | nil => simp [distinct]
  | cons y ys ih =>
    by_cases h : x = y
    · simp [distinct, h]
    · simp [distinct, ih, h]

theorem nodup_distinct {α : Type} [DecidableEq α] (xs : List α) : (distinct xs).Nodup := by
  induction xs with
  | nil => simp [distinct]
  | cons x xs ih =>
    simp only [distinct, List.nodup_cons]
    exact ⟨by simp, ih.filter _⟩

/-- An item is added at the end of the distinct ones when it is new. -/
theorem distinct_concat {α : Type} [DecidableEq α] (xs : List α) (x : α) :
    distinct (xs ++ [x]) = if x ∈ xs then distinct xs else distinct xs ++ [x] := by
  induction xs with
  | nil => rfl
  | cons y ys ih =>
    rw [List.cons_append, distinct, ih, distinct]
    by_cases hxy : x = y
    · subst hxy
      by_cases hx : x ∈ ys <;> simp [hx]
    · by_cases hx : x ∈ ys <;> simp [hx, hxy]

end RpcBindings.Text

/-!
# Splitting at a separator

`splitOn` keeps every piece, the empty ones included, so joining the pieces with the
separator gives the text back. `cutLast` looks for the last separator only.
-/
namespace RpcBindings.Text

/-- The pieces between the separators. There is always at least one. -/
def splitOn (sep : Char) : List Char → List (List Char)
  | [] => [[]]
  | c :: cs =>
    if c = sep then [] :: splitOn sep cs
    else match splitOn sep cs with
      | [] => [[c]]
      | first :: rest => (c :: first) :: rest

/-- The two sides of the last separator, if there is one. -/
def cutLast (sep : Char) : List Char → Option (List Char × List Char)
  | [] => none
  | c :: cs =>
    match cutLast sep cs with
    | some (before, after) => some (c :: before, after)
    | none => if c = sep then some ([], cs) else none

/-- The pieces of a text as texts. -/
def pieces (sep : Char) (text : String) : List String :=
  (splitOn sep text.toList).map String.ofList

theorem splitOn_ne_nil (sep : Char) (cs : List Char) : splitOn sep cs ≠ [] := by
  cases cs with
  | nil => simp [splitOn]
  | cons c cs =>
    unfold splitOn
    split
    · simp
    · split <;> simp

/-- A cut loses the separator and nothing else. -/
theorem eq_of_cutLast {sep : Char} {cs before after : List Char}
    (h : cutLast sep cs = some (before, after)) : cs = before ++ sep :: after := by
  induction cs generalizing before after with
  | nil => simp [cutLast] at h
  | cons c cs ih =>
    unfold cutLast at h
    split at h
    · rename_i b a hba
      simp only [Option.some.injEq, Prod.mk.injEq] at h
      obtain ⟨rfl, rfl⟩ := h
      simp [ih hba]
    · split at h
      · rename_i hc
        simp only [Option.some.injEq, Prod.mk.injEq] at h
        obtain ⟨rfl, rfl⟩ := h
        simp [hc]
      · simp at h

end RpcBindings.Text

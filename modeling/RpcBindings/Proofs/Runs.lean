/-! # Runs that can fail

The lexer, the reader of declarations and the loader all go through a list step by step and
stop at the first step that fails.  What every step preserves, and what every failing step
leaves behind, is therefore known of the end of the run.
-/
namespace RpcBindings

section Ends
variable {α β ε : Type} {P : α → Prop} {Q : ε → Prop}

/-- The result has `P` if there is one, and the failure has `Q` otherwise. -/
inductive Ends (P : α → Prop) (Q : ε → Prop) : Except ε α → Prop
  | ok {a : α} : P a → Ends P Q (.ok a)
  | error {e : ε} : Q e → Ends P Q (.error e)

theorem Ends.of_ok {a : α} (h : Ends P Q (.ok a)) : P a := by
  cases h
  assumption

theorem Ends.of_error {e : ε} (h : Ends P Q (.error e)) : Q e := by
  cases h
  assumption

theorem Ends.and {P' : α → Prop} {Q' : ε → Prop} {x : Except ε α} (h : Ends P Q x)
    (h' : Ends P' Q' x) : Ends (fun a => P a ∧ P' a) (fun e => Q e ∧ Q' e) x := by
  cases h with
  | ok ha => exact .ok ⟨ha, h'.of_ok⟩
  | error he => exact .error ⟨he, h'.of_error⟩

theorem Ends.imp {P' : α → Prop} {Q' : ε → Prop} {x : Except ε α} (h : Ends P Q x)
    (hP : ∀ a, P a → P' a) (hQ : ∀ e, Q e → Q' e) : Ends P' Q' x := by
  cases h with
  | ok ha => exact .ok (hP _ ha)
  | error he => exact .error (hQ _ he)

/-- **What every step of a run preserves holds at its end.** -/
theorem ends_foldlM {f : α → β → Except ε α} {xs : List β}
    (hstep : ∀ a, P a → ∀ x ∈ xs, Ends P Q (f a x)) {a : α} (ha : P a) :
    Ends P Q (xs.foldlM f a) := by
  induction xs generalizing a with
  | nil => exact .ok ha
  | cons x xs ih =>
    have hx := hstep a ha x (List.mem_cons_self ..)
    rw [List.foldlM_cons]
    cases hfx : f a x with
    | error e =>
      rw [hfx] at hx
      exact .error hx.of_error
    | ok b =>
      rw [hfx] at hx
      exact ih (fun a ha y hy => hstep a ha y (List.mem_cons_of_mem _ hy)) hx.of_ok

/-- Runs of two steps that agree as long as something is preserved agree. -/
theorem foldlM_congr {f g : α → β → Except ε α} {xs : List β}
    (hstep : ∀ a, P a → ∀ x ∈ xs, Ends P (fun _ => True) (f a x) ∧ f a x = g a x) {a : α}
    (ha : P a) : xs.foldlM f a = xs.foldlM g a := by
  induction xs generalizing a with
  | nil => rfl
  | cons x xs ih =>
    obtain ⟨hends, heq⟩ := hstep a ha x (List.mem_cons_self ..)
    rw [List.foldlM_cons, List.foldlM_cons, ← heq]
    cases hfx : f a x with
    | error e => rfl
    | ok b =>
      rw [hfx] at hends
      exact ih (fun a ha y hy => hstep a ha y (List.mem_cons_of_mem _ hy)) hends.of_ok

end Ends

section Steps
variable {α β ε : Type}

theorem not_exists_error_eq_ok {e : ε} : ¬ ∃ a : α, Except.error e = .ok a := by
  rintro ⟨_, h⟩
  cases h

/-- A computation in two steps has a result when both steps have one. -/
theorem bind_eq_ok {x : Except ε α} {f : α → Except ε β} {b : β} :
    x >>= f = .ok b ↔ ∃ a, x = .ok a ∧ f a = .ok b := by
  constructor
  · intro h
    cases x with
    | error e => cases h
    | ok a => exact ⟨a, rfl, h⟩
  · rintro ⟨a, rfl, h⟩
    exact h

theorem foldlM_cons_eq_ok {f : α → β → Except ε α} {x : β} {xs : List β} {a a' : α} :
    (x :: xs).foldlM f a = .ok a' ↔ ∃ b, f a x = .ok b ∧ xs.foldlM f b = .ok a' := by
  rw [List.foldlM_cons, bind_eq_ok]

theorem exists_ok_map {f : α → β} {x : Except ε α} :
    (∃ b, f <$> x = .ok b) ↔ ∃ a, x = .ok a := by
  cases x with
  | error e => exact iff_of_false not_exists_error_eq_ok not_exists_error_eq_ok
  | ok a => exact iff_of_true ⟨f a, rfl⟩ ⟨a, rfl⟩

end Steps

theorem toOption_eq_some {ε α : Type} {x : Except ε α} {a : α} :
    x.toOption = some a ↔ x = .ok a := by
  cases x <;> simp [Except.toOption]

/-- A run whose result passes a check has a result. -/
theorem exists_ok_of_any {ε α : Type} {x : Except ε α} {check : α → Bool}
    (h : x.toOption.any check = true) : ∃ a, x = .ok a ∧ check a = true := by
  cases x with
  | error e => cases h
  | ok a => exact ⟨a, rfl, h⟩

end RpcBindings

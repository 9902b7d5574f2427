import Mathlib.Data.List.Basic

/-! # Lines of a text, and lines that are comments

Where a text has lines depends on what ends a line: the newline alone, or all characters that end
a comment in TypeScript.  What is said here holds for every such notion (`LineEnds`).  A text that
is put behind the start of a comment is safe when nothing of it stands behind a line end in it
(`LineEnds.Confined`); otherwise it goes on in lines of its own, and it depends on these whether
they are comments again.

A text that is another one with some lines put in is described by `Interleaved`.  Which lines are
new cannot be seen from the two texts, but all ways to tell give the same lines
(`Interleaved.forall_added`).
-/
namespace RpcBindings.Text

/-- Tabs and printable ASCII characters. -/
def isPlain (c : Char) : Bool := c == '\t' || decide (' ' ≤ c) && decide (c ≤ '~')

/-- A notion of line ends, under which a newline is one and plain characters are none. -/
structure LineEnds where
  /-- Whether a character ends a line. -/
  ends : Char → Bool
  newline : ends '\n' = true
  plain : ∀ c, isPlain c = true → ends c = false

namespace LineEnds

/-- Lines end at newlines. -/
def newlines : LineEnds where
  ends c := c == '\n'
  newline := rfl
  plain c hc := by
    rw [beq_eq_false_iff_ne]
    rintro rfl
    exact absurd hc (by decide)

/-- Lines end where a TypeScript comment does. -/
def terminators : LineEnds where
  ends c := c == '\n' || c == '\r' || c == '\u2028' || c == '\u2029'
  newline := rfl
  plain c hc := by
    simp only [Bool.or_eq_false_iff, beq_eq_false_iff_ne]
    refine ⟨⟨⟨?_, ?_⟩, ?_⟩, ?_⟩ <;> rintro rfl <;> exact absurd hc (by decide)

variable (e : LineEnds)

/-- The lines of a text. -/
def lines (cs : List Char) : List (List Char) :=
  cs.splitOnP e.ends

/-- The text holds no line end. -/
def Free (cs : List Char) : Prop := ∀ c ∈ cs, e.ends c = false

/-- Nothing of the text stands behind a line end in it. -/
def Confined (cs : List Char) : Prop := e.Free cs.dropLast

variable {e}

theorem lines_append_newline (xs ys : List Char) :
    e.lines (xs ++ '\n' :: ys) = e.lines xs ++ e.lines ys :=
  List.splitOnP_append_cons xs ys e.newline

theorem lines_of_free {cs : List Char} (h : e.Free cs) : e.lines cs = [cs] :=
  List.splitOnP_eq_singleton h

/-- What holds no line end goes on with the first line that follows. -/
theorem exists_lines_append {xs : List Char} (h : e.Free xs) (ys : List Char) :
    ∃ first rest, e.lines ys = first :: rest ∧ e.lines (xs ++ ys) = (xs ++ first) :: rest := by
  induction xs with
  | nil =>
    obtain ⟨first, rest, hlines⟩ := List.exists_cons_of_ne_nil (List.splitOnP_ne_nil e.ends ys)
    exact ⟨first, rest, hlines, hlines⟩
  | cons x xs ih =>
    have hx : e.ends x = false := h x (List.mem_cons_self ..)
    obtain ⟨first, rest, hys, hlines⟩ := ih fun c hc => h c (List.mem_cons_of_mem _ hc)
    refine ⟨first, rest, hys, ?_⟩
    rw [List.cons_append, lines, List.splitOnP_cons_eq_if_modifyHead, hx, ← lines, hlines]
    rfl

theorem free_nil : e.Free [] := fun _ hc => nomatch hc

theorem Free.append {xs ys : List Char} (hx : e.Free xs) (hy : e.Free ys) : e.Free (xs ++ ys) :=
  fun c hc => (List.mem_append.mp hc).elim (hx c) (hy c)

theorem Free.confined {cs : List Char} (h : e.Free cs) : e.Confined cs :=
  fun c hc => h c (List.dropLast_subset cs hc)

/-- A text is free of line ends up to its last character when both parts are, and the first part
is free of them altogether. -/
theorem Free.confined_append {xs ys : List Char} (hx : e.Free xs) (hy : e.Confined ys) :
    e.Confined (xs ++ ys) := by
  by_cases hnil : ys = []
  · rw [hnil, List.append_nil]
    exact hx.confined
  · rw [Confined, List.dropLast_append_of_ne_nil hnil]
    exact hx.append hy

theorem Confined.of_append {xs ys : List Char} (h : e.Confined (xs ++ ys)) :
    e.Confined xs ∧ e.Confined ys := by
  by_cases hnil : ys = []
  · rw [hnil, List.append_nil] at h
    rw [hnil]
    exact ⟨h, free_nil⟩
  · rw [Confined, List.dropLast_append_of_ne_nil hnil] at h
    have hx : e.Free xs := fun c hc => h c (List.mem_append_left _ hc)
    exact ⟨hx.confined, fun c hc => h c (List.mem_append_right _ hc)⟩

end LineEnds

/-! ## Lines that are comments -/

/-- The characters of indentation. -/
def isMargin (c : Char) : Bool := c == ' ' || c == '\t'

/-- The line is empty, or a comment behind its indentation. -/
def Remark (line : List Char) : Prop :=
  line = [] ∨ ['/', '/'] <+: line.dropWhile isMargin

/-- A line that starts with something else is code. -/
theorem not_remark {c : Char} (hmargin : isMargin c = false) (hslash : c ≠ '/')
    (line : List Char) : ¬ Remark (c :: line) := by
  rintro (h | h)
  · cases h
  · rw [List.dropWhile_cons_of_neg (by simp [hmargin]), List.cons_prefix_cons] at h
    exact hslash h.1.symm

theorem remark_of_margin {margin : List Char} (h : ∀ c ∈ margin, isMargin c = true)
    (rest : List Char) : Remark (margin ++ ('/' :: '/' :: rest)) := by
  refine Or.inr ?_
  rw [List.dropWhile_append_of_pos h, List.dropWhile_cons_of_neg (by decide)]
  exact ⟨rest, rfl⟩

/-! ## Texts that go on with remarks -/

namespace LineEnds
variable (e : LineEnds)

/-- All lines of the text behind its first one are remarks. -/
def GoesOnInRemarks (cs : List Char) : Prop :=
  ∀ line ∈ (e.lines cs).tail, Remark line

variable {e}

theorem goesOnInRemarks_append {xs : List Char} (h : e.Free xs) (ys : List Char) :
    e.GoesOnInRemarks (xs ++ ys) ↔ e.GoesOnInRemarks ys := by
  obtain ⟨first, rest, hys, hlines⟩ := exists_lines_append h ys
  rw [GoesOnInRemarks, GoesOnInRemarks, hys, hlines]
  rfl

/-- A line end at the end adds an empty line. -/
theorem Confined.goesOnInRemarks {cs : List Char} (h : e.Confined cs) : e.GoesOnInRemarks cs := by
  rcases List.eq_nil_or_concat cs with rfl | ⟨xs, c, rfl⟩
  · intro line hline
    rw [lines_of_free free_nil] at hline
    cases hline
  · rw [List.concat_eq_append] at h ⊢
    rw [Confined, List.dropLast_concat] at h
    rw [goesOnInRemarks_append h]
    intro line hline
    by_cases hc : e.ends c = true
    · have hlines : e.lines [c] = [[], []] := by
        rw [lines, List.splitOnP_cons_eq_if_modifyHead, if_pos hc]
        rfl
      rw [hlines] at hline
      exact Or.inl (List.mem_singleton.mp hline)
    · rw [lines_of_free (by simpa [Free] using hc)] at hline
      cases hline

/-- A text before something that is neither blank nor a comment holds no line end, when nothing of
it stands behind one. -/
theorem free_of_goesOnInRemarks {xs ys : List Char} {c : Char} (hplain : e.ends c = false)
    (hmargin : isMargin c = false) (hslash : c ≠ '/') (h : e.GoesOnInRemarks (xs ++ c :: ys))
    (hconfined : e.Confined xs) : e.Free xs := by
  rcases List.eq_nil_or_concat xs with rfl | ⟨zs, d, rfl⟩
  · exact free_nil
  · rw [List.concat_eq_append] at h hconfined ⊢
    rw [Confined, List.dropLast_concat] at hconfined
    by_cases hd : e.ends d = true
    · -- the line behind `d` starts with `c`
      exfalso
      have hsingle : e.Free [c] := by simpa [Free] using hplain
      obtain ⟨first, rest, _, hlines⟩ := exists_lines_append hsingle ys
      rw [List.append_assoc, goesOnInRemarks_append hconfined] at h
      refine not_remark hmargin hslash first (h _ ?_)
      have hbehind : e.lines ([d] ++ c :: ys) = [] :: e.lines ([c] ++ ys) := by
        rw [List.singleton_append, lines, List.splitOnP_cons_eq_if_modifyHead, if_pos hd]
        rfl
      rw [hbehind, hlines]
      exact List.mem_cons_self ..
    · exact hconfined.append (by simpa [Free] using hd)

end LineEnds

/-! ## Lines put in between -/

/-- The list `new` is `old` with the elements of `added` put in, both in their order. -/
inductive Interleaved {α : Type} : List α → List α → List α → Prop
  | nil : Interleaved [] [] []
  | keep {x : α} {old added new : List α} : Interleaved old added new →
      Interleaved (x :: old) added (x :: new)
  | add {x : α} {old added new : List α} : Interleaved old added new →
      Interleaved old (x :: added) (x :: new)

section Interleaved
variable {α β : Type} {old added new old' added' new' : List α}

theorem Interleaved.append (h : Interleaved old added new) (h' : Interleaved old' added' new') :
    Interleaved (old ++ old') (added ++ added') (new ++ new') := by
  induction h with
  | nil => exact h'
  | keep _ ih => exact .keep ih
  | add _ ih => exact .add ih

theorem Interleaved.refl (xs : List α) : Interleaved xs [] xs := by
  induction xs with
  | nil => exact .nil
  | cons x xs ih => exact .keep ih

theorem Interleaved.addAll (xs : List α) : Interleaved [] xs xs := by
  induction xs with
  | nil => exact .nil
  | cons x xs ih => exact .add ih

theorem Interleaved.flatMap {f g k : β → List α} {xs : List β}
    (h : ∀ x ∈ xs, Interleaved (f x) (g x) (k x)) :
    Interleaved (xs.flatMap f) (xs.flatMap g) (xs.flatMap k) := by
  induction xs with
  | nil => exact .nil
  | cons x xs ih =>
    rw [List.flatMap_cons, List.flatMap_cons, List.flatMap_cons]
    exact (h x (List.mem_cons_self ..)).append (ih fun y hy => h y (List.mem_cons_of_mem _ hy))

theorem Interleaved.perm (h : Interleaved old added new) : new.Perm (old ++ added) := by
  induction h with
  | nil => exact .nil
  | keep _ ih => exact ih.cons _
  | add _ ih => exact (ih.cons _).trans List.perm_middle.symm

/-- Whatever is taken for the added elements, they are the same ones. -/
theorem Interleaved.forall_added {P : α → Prop} (h : Interleaved old added new) :
    (∃ others, Interleaved old others new ∧ ∀ x ∈ others, P x) ↔ ∀ x ∈ added, P x := by
  constructor
  · rintro ⟨others, hothers, hP⟩ x hx
    have hperm := (List.perm_append_left_iff old).mp (h.perm.symm.trans hothers.perm)
    exact hP x (hperm.mem_iff.mp hx)
  · exact fun hP => ⟨added, h, hP⟩

end Interleaved

end RpcBindings.Text

import RpcBindings.Proofs.Indentation

/-! # Brackets

A text is well nested when it can be read with a stack of the closing brackets that are awaited:
an opening bracket puts its partner on the stack, and a closing bracket has to be the one on top.

Only the brackets of a text count (`wellNested_iff`), and those of rendered code are the brackets
of its fragments in order, under every indentation and at every depth (`wellNested_render_iff`).
A balanced part can be put anywhere into a balanced text (`Balanced.between`).  So a line with
holes for names is as balanced as the line without the names, and a block is as balanced as its
header with its closing line.
-/
namespace RpcBindings.Text

/-! ## Well nested texts -/

/-- The bracket that closes an opening bracket. -/
def closer? : Char → Option Char
  | '(' => some ')'
  | '\x7b' => some '\x7d'
  | '[' => some ']'
  | _ => none

/-- Whether a character is a closing bracket. -/
def isCloser (c : Char) : Bool := c == ')' || c == '\x7d' || c == ']'

/-- Whether a character is a bracket. -/
def isBracket (c : Char) : Bool := (closer? c).isSome || isCloser c

/-- What is awaited behind a character, the innermost bracket first.  A closing bracket must be
the first that is awaited. -/
def nestStep (awaited : List Char) (c : Char) : Option (List Char) :=
  match closer? c with
  | some closer => some (closer :: awaited)
  | none =>
    if isCloser c then
      match awaited with
      | [] => none
      | first :: outer => if c = first then some outer else none
    else some awaited

/-- What is awaited behind a text, unless it closes what is not awaited. -/
def awaited? (awaited cs : List Char) : Option (List Char) := cs.foldlM nestStep awaited

/-- The brackets of a text match each other. -/
structure WellNested (text : String) : Prop where
  /-- Every start of the text closes only what it has opened, and each bracket by its partner. -/
  starts : ∀ start, start <+: text.toList → (awaited? [] start).isSome = true
  /-- Nothing stays open at the end. -/
  closed : awaited? [] text.toList = some []

/-! ## Balanced brackets -/

/-- The brackets of a text. -/
def brackets (s : String) : List Char := s.toList.filter isBracket

/-- What is opened is closed, and nothing else is. -/
def Balanced (cs : List Char) : Prop := awaited? [] cs = some []

instance (cs : List Char) : Decidable (Balanced cs) := inferInstanceAs (Decidable (_ = _))

section Awaited
variable {awaited awaited' outer cs ds : List Char} {c : Char}

theorem awaited?_append :
    awaited? awaited (cs ++ ds) = (awaited? awaited cs).bind fun inner => awaited? inner ds :=
  List.foldlM_append ..

theorem nestStep_of_not_isBracket (h : isBracket c = false) :
    nestStep awaited c = some awaited := by
  obtain ⟨hopen, hclose⟩ := Bool.or_eq_false_iff.mp h
  have hnone : closer? c = none := by simpa using hopen
  simp [nestStep, hnone, hclose]

/-- What is no bracket changes nothing. -/
theorem awaited?_filter : awaited? awaited (cs.filter isBracket) = awaited? awaited cs := by
  induction cs generalizing awaited with
  | nil => rfl
  | cons c cs ih =>
    by_cases hc : isBracket c = true
    · rw [List.filter_cons_of_pos hc, awaited?, awaited?, List.foldlM_cons, List.foldlM_cons]
      exact bind_congr fun inner => ih
    · have hstep := @nestStep_of_not_isBracket awaited c (Bool.not_eq_true _ ▸ hc)
      rw [List.filter_cons_of_neg hc, ih, awaited?, awaited?, List.foldlM_cons, hstep]
      rfl

/-- What is awaited further out stays awaited. -/
theorem nestStep_append (h : nestStep awaited c = some awaited') :
    nestStep (awaited ++ outer) c = some (awaited' ++ outer) := by
  unfold nestStep at h ⊢
  split at h
  · cases h
    rfl
  · split at h
    · split at h
      · cases h
      · rw [List.cons_append]
        split at h
        · cases h
          simp_all
        · cases h
    · cases h
      simp_all

theorem awaited?_frame (h : awaited? awaited cs = some awaited') :
    awaited? (awaited ++ outer) cs = some (awaited' ++ outer) := by
  induction cs generalizing awaited with
  | nil =>
    cases h
    rfl
  | cons c cs ih =>
    rw [awaited?, List.foldlM_cons] at h ⊢
    obtain ⟨inner, hinner, hrest⟩ := Option.bind_eq_some_iff.mp h
    rw [nestStep_append hinner]
    exact ih hrest

end Awaited

section Balanced
variable {cs ds body : List Char}

theorem Balanced.nil : Balanced [] := rfl

theorem Balanced.awaited?_eq (h : Balanced cs) (awaited : List Char) :
    awaited? awaited cs = some awaited :=
  awaited?_frame h

/-- **A balanced part can be put anywhere.** -/
theorem Balanced.between (h : Balanced (cs ++ ds)) (hbody : Balanced body) :
    Balanced (cs ++ body ++ ds) := by
  rw [Balanced, awaited?_append] at h
  obtain ⟨inner, hcs, hds⟩ := Option.bind_eq_some_iff.mp h
  rw [Balanced, awaited?_append, awaited?_append, hcs, Option.bind_some, hbody.awaited?_eq,
    Option.bind_some, hds]

theorem Balanced.append (h : Balanced cs) (h' : Balanced ds) : Balanced (cs ++ ds) := by
  rw [Balanced, awaited?_append, h, Option.bind_some]
  exact h'

theorem Balanced.flatMap {α : Type} {f : α → List Char} {xs : List α}
    (h : ∀ x ∈ xs, Balanced (f x)) : Balanced (xs.flatMap f) := by
  induction xs with
  | nil => exact .nil
  | cons x xs ih =>
    obtain ⟨hx, hxs⟩ := List.forall_mem_cons.mp h
    rw [List.flatMap_cons]
    exact hx.append (ih hxs)

end Balanced

/-- **A text is well nested when its brackets are balanced.** -/
theorem wellNested_iff {text : String} : WellNested text ↔ Balanced (brackets text) := by
  rw [Balanced, brackets, awaited?_filter]
  refine ⟨WellNested.closed, fun h => ⟨fun start hstart => ?_, h⟩⟩
  obtain ⟨rest, hrest⟩ := hstart
  rw [← hrest, awaited?_append] at h
  obtain ⟨inner, hinner, _⟩ := Option.bind_eq_some_iff.mp h
  rw [hinner]
  rfl

example : ¬ WellNested "([)]" := by
  rw [wellNested_iff]
  decide

/-! ## The brackets of a text -/

section Brackets
variable {s t : String}

theorem brackets_append (s t : String) : brackets (s ++ t) = brackets s ++ brackets t := by
  rw [brackets, String.toList_append, List.filter_append, brackets, brackets]

/-- The brackets of a literal are found without its bytes. -/
theorem brackets_ofList (cs : List Char) : brackets (String.ofList cs) = cs.filter isBracket := by
  rw [brackets, String.toList_ofList]

theorem brackets_eq_nil : brackets s = [] ↔ ∀ c ∈ s.toList, isBracket c = false := by
  simp [brackets, List.filter_eq_nil_iff]

theorem mem_of_isBracket {c : Char} (h : isBracket c = true) :
    c ∈ ['(', ')', '\x7b', '\x7d', '[', ']'] := by
  unfold isBracket closer? isCloser at h
  split at h
  · decide
  · decide
  · decide
  · simp only [Option.isSome_none, Bool.false_or, Bool.or_eq_true, beq_iff_eq] at h
    rcases h with (rfl | rfl) | rfl
    · decide
    · decide
    · decide

/-- A text has no bracket when its characters are of a class that has none. -/
theorem brackets_eq_nil_of_class {p : Char → Bool}
    (hp : ['(', ')', '\x7b', '\x7d', '[', ']'].any p = false)
    (h : ∀ c ∈ s.toList, p c = true) : brackets s = [] := by
  refine brackets_eq_nil.mpr fun c hc => Bool.eq_false_iff.mpr fun hbracket => ?_
  exact List.any_eq_false.mp hp c (mem_of_isBracket hbracket) (h c hc)

theorem balanced_of_eq_nil (h : brackets s = []) : Balanced (brackets s) := by
  rw [h]
  exact .nil

/-- Commas between texts add no bracket. -/
theorem brackets_joined (texts : List String) :
    brackets (", ".intercalate texts) = texts.flatMap brackets := by
  induction texts with
  | nil => rfl
  | cons text rest ih =>
    cases rest with
    | nil => simp
    | cons next rest =>
      have hcomma : brackets ", " = [] := (brackets_ofList _).trans (by decide)
      rw [String.intercalate_cons_cons, brackets_append, brackets_append, ih, hcomma,
        List.append_nil]
      rfl

theorem filter_dropLast {cs : List Char} {c : Char} (h : cs.getLast? = some c)
    (hc : isBracket c = false) : cs.dropLast.filter isBracket = cs.filter isBracket := by
  obtain ⟨before, rfl⟩ := List.getLast?_eq_some_iff.mp h
  rw [List.dropLast_concat, List.filter_append, List.filter_cons_of_neg (by simp [hc]),
    List.filter_nil, List.append_nil]

theorem filter_dropLineEnd (row : List Char) :
    (dropLineEnd row).filter isBracket = row.filter isBracket := by
  unfold dropLineEnd
  split
  · next hnewline =>
    have hbody := filter_dropLast hnewline (by decide)
    dsimp only
    split
    · next hreturn => rw [filter_dropLast hreturn (by decide), hbody]
    · exact hbody
  · rfl

/-- The lines of a text have its brackets. -/
theorem brackets_lines (text : String) : (lines text).flatMap brackets = brackets text := by
  have hrow (row : List Char) :
      brackets (String.ofList (dropLineEnd row)) = row.filter isBracket := by
    rw [brackets_ofList, filter_dropLineEnd]
  simp only [lines, List.flatMap_map, hrow]
  rw [brackets, ← congrArg (List.filter isBracket) (rows_flatten text.toList), List.filter_flatten,
    List.flatMap_def]

end Brackets

end RpcBindings.Text

namespace RpcBindings.Layout

open RpcBindings.Text (Balanced WellNested brackets isBracket isMargin)

/-! ## The brackets of code -/

mutual

/-- The brackets of a fragment. -/
def Fragment.brackets : Fragment → List Char
  | .line s => Text.brackets s
  | .blank => []
  | .raw s => Text.brackets s
  | .comment s => Text.brackets s
  | .block header body close =>
    Text.brackets header ++ bracketsAll body ++ close.toList.flatMap Text.brackets
  | .indent body => bracketsAll body
  | .sequence body => bracketsAll body

/-- The brackets of fragments. -/
def bracketsAll : List Fragment → List Char
  | [] => []
  | f :: fs => f.brackets ++ bracketsAll fs

end

theorem bracketsAll_eq_flatMap (fs : List Fragment) :
    bracketsAll fs = fs.flatMap Fragment.brackets := by
  induction fs with
  | nil => rfl
  | cons f fs ih => rw [bracketsAll, ih, List.flatMap_cons]

theorem bracketsAll_append (xs ys : List Fragment) :
    bracketsAll (xs ++ ys) = bracketsAll xs ++ bracketsAll ys := by
  rw [bracketsAll_eq_flatMap, List.flatMap_append, bracketsAll_eq_flatMap, bracketsAll_eq_flatMap]

theorem not_isBracket_of_isMargin {c : Char} (h : isMargin c = true) : isBracket c = false := by
  simp only [isMargin, Bool.or_eq_true, beq_iff_eq] at h
  rcases h with rfl | rfl
  · decide
  · decide

theorem filter_lineAt (indent : Indent) (depth : Nat) (s : String) :
    (lineAt indent depth s).filter isBracket = brackets s := by
  have hmargin : (String.join (List.replicate depth indent.unit)).toList.filter isBracket = [] := by
    refine List.filter_eq_nil_iff.mpr fun c hc => ?_
    rw [not_isBracket_of_isMargin (isMargin_margin indent depth c hc)]
    exact Bool.false_ne_true
  rw [lineAt, List.filter_append, List.filter_append, hmargin, List.nil_append]
  exact List.append_nil _

mutual

/-- What is written for a fragment has its brackets. -/
theorem filter_writtenAt (indent : Indent) (depth : Nat) :
    (f : Fragment) → (writtenAt indent depth f).filter isBracket = f.brackets
  | .line s => filter_lineAt indent depth s
  | .blank => rfl
  | .raw s => rfl
  | .comment s => by
    have hslashes : brackets "// " = [] := (Text.brackets_ofList _).trans (by decide)
    rw [writtenAt, filter_lineAt, Text.brackets_append, hslashes, List.nil_append,
      Fragment.brackets]
  | .block header body close => by
    have hclose : (close.toList.flatMap (lineAt indent depth)).filter isBracket =
        close.toList.flatMap brackets := by
      cases close with
      | none => rfl
      | some s => simp [filter_lineAt]
    rw [writtenAt, List.filter_append, List.filter_append, filter_lineAt,
      filter_writtenAllAt indent (depth + 1) body, hclose, Fragment.brackets]
  | .indent body => filter_writtenAllAt indent (depth + 1) body
  | .sequence body => filter_writtenAllAt indent depth body

/-- What is written for fragments has their brackets. -/
theorem filter_writtenAllAt (indent : Indent) (depth : Nat) :
    (fs : List Fragment) → (writtenAllAt indent depth fs).filter isBracket = bracketsAll fs
  | [] => rfl
  | f :: fs => by
    rw [writtenAllAt, List.filter_append, filter_writtenAt indent depth f,
      filter_writtenAllAt indent depth fs, bracketsAll]

end

/-- **Code is well nested, under whatever indentation, exactly when the brackets of its fragments
are balanced.** -/
theorem wellNested_render_iff (indent : Indent) (fs : List Fragment) :
    WellNested (render indent fs) ↔ Balanced (bracketsAll fs) := by
  rw [Text.wellNested_iff, brackets, toList_render, filter_writtenAllAt]

/-- The brackets of the fragment are balanced. -/
def Fragment.Balanced (f : Fragment) : Prop := Text.Balanced f.brackets

section Balanced
variable {fs : List Fragment}

theorem balanced_bracketsAll (h : ∀ f ∈ fs, f.Balanced) : Balanced (bracketsAll fs) := by
  rw [bracketsAll_eq_flatMap]
  exact .flatMap h

theorem brackets_enclosed (header close : String) (body : List Fragment) :
    (Fragment.enclosed header body close).brackets =
      brackets header ++ bracketsAll body ++ brackets close := by
  simp [Fragment.enclosed, Fragment.brackets]

/-- A block is balanced when its header with its closing line is, and everything in it. -/
theorem balanced_enclosed {header close : String}
    (h : Balanced (brackets header ++ brackets close)) (hbody : ∀ f ∈ fs, f.Balanced) :
    (Fragment.enclosed header fs close).Balanced := by
  rw [Fragment.Balanced, brackets_enclosed]
  exact h.between (balanced_bracketsAll hbody)

end Balanced

end RpcBindings.Layout

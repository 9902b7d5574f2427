import Mathlib.Data.List.DropRight
import RpcBindings.Proofs.PathBound

/-! # Lines, columns and byte offsets

A reader of documents says where it stopped by a line and a column, and an error is shown at a
byte.  Both count from one, and the column counts bytes, so a position may lie inside a character.

The rows of a text are cut behind its newlines.  In UTF-8 no other character has the byte of a
newline in it (`newline_notMem_utf8EncodeChar`), so the newlines in front of a byte say how many
rows have ended there (`rowStart_add_lastRow`).  That holds for every byte of the text and for its
end, also behind a last newline, where a row starts that the text does not have.
-/
namespace RpcBindings.Text

/-- The byte of a newline. -/
def newlineByte : UInt8 := 10

/-- The line on which a text goes on behind the bytes `before`, counted from one. -/
def lineBehind (before : List UInt8) : Nat :=
  1 + before.count newlineByte

/-- What stands behind the last newline. -/
def lastRow (before : List UInt8) : List UInt8 :=
  before.rtakeWhile (· ≠ newlineByte)

/-- The column at which a text goes on behind the bytes `before`, counted from one. -/
def columnBehind (before : List UInt8) : Nat :=
  1 + (lastRow before).length

/-! ## Newlines in bytes -/

theorem utf8EncodeChar_newline : String.utf8EncodeChar '\n' = [newlineByte] := by
  decide

/-- The byte of a newline is part of no other character. -/
theorem newline_notMem_utf8EncodeChar {c : Char} (h : c ≠ '\n') :
    newlineByte ∉ String.utf8EncodeChar c := by
  have hval : c.val.toNat ≠ 10 := fun hval => h (Char.ext (UInt32.toNat_inj.mp hval))
  -- of the bytes of a character only a single one is below 128
  have hbyte : ∀ n < 256, n ≠ 10 → newlineByte ≠ UInt8.ofNat n := by
    intro n hn hne heq
    have hnat := congrArg UInt8.toNat heq
    rw [UInt8.toNat_ofNat_of_lt' hn] at hnat
    exact hne hnat.symm
  unfold String.utf8EncodeChar
  dsimp only
  split
  · simp only [List.mem_singleton]
    exact hbyte _ (by omega) hval
  · split
    · simp only [List.mem_cons, List.not_mem_nil, or_false, not_or]
      exact ⟨hbyte _ (by omega) (by omega), hbyte _ (by omega) (by omega)⟩
    · split
      · simp only [List.mem_cons, List.not_mem_nil, or_false, not_or]
        exact ⟨hbyte _ (by omega) (by omega), hbyte _ (by omega) (by omega),
          hbyte _ (by omega) (by omega)⟩
      · simp only [List.mem_cons, List.not_mem_nil, or_false, not_or]
        exact ⟨hbyte _ (by omega) (by omega), hbyte _ (by omega) (by omega),
          hbyte _ (by omega) (by omega), hbyte _ (by omega) (by omega)⟩

section LastRow
variable {xs ys : List UInt8}

/-- What holds no newline goes on with the row in front of it. -/
theorem lastRow_append_of_notMem (h : newlineByte ∉ ys) :
    lastRow (xs ++ ys) = lastRow xs ++ ys := by
  have hall : ∀ b ∈ ys.reverse, decide (b ≠ newlineByte) = true := by
    intro b hb
    refine decide_eq_true ?_
    rintro rfl
    exact h (List.mem_reverse.mp hb)
  rw [lastRow, lastRow, List.rtakeWhile, List.rtakeWhile, List.reverse_append,
    List.takeWhile_append_of_pos hall, List.reverse_append, List.reverse_reverse]

/-- What holds a newline ends the row in front of it. -/
theorem lastRow_append_of_mem (h : newlineByte ∈ ys) : lastRow (xs ++ ys) = lastRow ys := by
  have hstops : (ys.reverse.takeWhile (· ≠ newlineByte)).length ≠ ys.reverse.length := by
    intro hlength
    have hwhole := (List.takeWhile_prefix (· ≠ newlineByte)).eq_of_length hlength
    have hkept := List.takeWhile_eq_self_iff.mp hwhole newlineByte (List.mem_reverse.mpr h)
    simp at hkept
  rw [lastRow, lastRow, List.rtakeWhile, List.rtakeWhile, List.reverse_append,
    List.takeWhile_append, if_neg hstops]

theorem lastRow_of_notMem (h : newlineByte ∉ xs) : lastRow xs = xs := by
  have happend := @lastRow_append_of_notMem [] xs h
  simpa [lastRow] using happend

theorem lastRow_newline_cons : lastRow (newlineByte :: ys) = lastRow ys := by
  by_cases h : newlineByte ∈ ys
  · exact @lastRow_append_of_mem [newlineByte] ys h
  · rw [lastRow_of_notMem h]
    exact @lastRow_append_of_notMem [newlineByte] ys h

end LastRow

/-! ## Rows that have ended -/

/-- Where the row starts on which a text goes on behind the bytes `before`. -/
def rowStart (cs : List Char) (before : List UInt8) : Nat :=
  byteLength ((rows cs).take (before.count newlineByte)).flatten

section RowStart
variable {c : Char} {cs : List Char} {before : List UInt8}

theorem rowStart_of_notMem (h : newlineByte ∉ before) : rowStart cs before = 0 := by
  rw [rowStart, List.count_eq_zero_of_not_mem h]
  rfl

theorem rowStart_newline :
    rowStart ('\n' :: cs) (newlineByte :: before) = 1 + rowStart cs before := by
  have hsize : byteLength ['\n'] = 1 := by decide
  rw [rowStart, List.count_cons_self, rows, if_pos rfl, List.take_succ_cons, List.flatten_cons,
    byteLength_append, hsize, rowStart]

/-- A character that is no newline belongs to the first row, which has ended. -/
theorem rowStart_character (hc : c ≠ '\n') (h : newlineByte ∈ before) :
    rowStart (c :: cs) (String.utf8EncodeChar c ++ before) = c.utf8Size + rowStart cs before := by
  obtain ⟨n, hn⟩ := Nat.exists_eq_add_of_lt (List.count_pos_iff.mpr h)
  rw [rowStart, rowStart, List.count_append,
    List.count_eq_zero_of_not_mem (newline_notMem_utf8EncodeChar hc), hn, Nat.zero_add,
    Nat.zero_add, rows, if_neg hc]
  split
  · next hnil => simp [hnil]
  · next row rest hcons => simp [hcons]

end RowStart

/-- **The rows that have ended in front of a byte reach up to the row that it stands on.** -/
theorem rowStart_add_lastRow {cs : List Char} {k : Nat}
    (hk : k ≤ (cs.flatMap String.utf8EncodeChar).length) :
    rowStart cs ((cs.flatMap String.utf8EncodeChar).take k) +
      (lastRow ((cs.flatMap String.utf8EncodeChar).take k)).length = k := by
  induction cs generalizing k with
  | nil =>
    have hzero : k = 0 := Nat.le_zero.mp hk
    subst hzero
    rfl
  | cons c cs ih =>
    rw [List.flatMap_cons, List.length_append] at hk
    rw [List.flatMap_cons]
    by_cases hc : c = '\n'
    · subst hc
      rw [utf8EncodeChar_newline, List.length_singleton] at hk
      rw [utf8EncodeChar_newline, List.singleton_append]
      cases k with
      | zero => rfl
      | succ k =>
        have hrest := @ih k (by omega)
        rw [List.take_succ_cons, rowStart_newline, lastRow_newline_cons]
        omega
    · have hnone := newline_notMem_utf8EncodeChar hc
      have hsize := String.length_utf8EncodeChar c
      by_cases hinside : k ≤ (String.utf8EncodeChar c).length
      · -- the byte lies in the first character, on the first row
        have hfree : newlineByte ∉ (String.utf8EncodeChar c).take k :=
          fun hmem => hnone (List.mem_of_mem_take hmem)
        rw [List.take_append_of_le_length hinside, rowStart_of_notMem hfree,
          lastRow_of_notMem hfree, List.length_take]
        omega
      · obtain ⟨j, rfl⟩ := Nat.exists_eq_add_of_le (Nat.le_of_not_le hinside)
        have hrest := @ih j (by omega)
        rw [List.take_length_add_append]
        by_cases hnext : newlineByte ∈ (cs.flatMap String.utf8EncodeChar).take j
        · rw [rowStart_character hc hnext, lastRow_append_of_mem hnext]
          omega
        · -- still on the first row
          have hboth : newlineByte ∉
              String.utf8EncodeChar c ++ (cs.flatMap String.utf8EncodeChar).take j := by
            rw [List.mem_append, not_or]
            exact ⟨hnone, hnext⟩
          rw [rowStart_of_notMem hnext, lastRow_of_notMem hnext] at hrest
          rw [rowStart_of_notMem hboth, lastRow_of_notMem hboth, List.length_append]
          omega

/-! ## Positions -/

/-- **A line and a column lead back to the byte that they were counted at**, for every byte of a
text and for its end.  Whatever line from the first on and whatever column is given, the answer is
a byte of the text or its end, and there is no answer for line zero. -/
theorem offsetOf?_behind (text : String) :
    (∀ k ≤ (utf8 text).length, offsetOf? text (lineBehind ((utf8 text).take k))
      (columnBehind ((utf8 text).take k)) = some k) ∧
    (∀ line column, 1 ≤ line →
      ∃ offset ≤ (utf8 text).length, offsetOf? text line column = some offset) ∧
    ∀ column, offsetOf? text 0 column = none := by
  rw [length_utf8]
  refine ⟨?_, ?_, ?_⟩
  · intro k hk
    have hrow : rowStart text.toList ((utf8 text).take k) +
        (lastRow ((utf8 text).take k)).length = k :=
      rowStart_add_lastRow (length_utf8 text ▸ hk)
    have hline : lineBehind ((utf8 text).take k) ≠ 0 := by
      unfold lineBehind
      omega
    rw [offsetOf?, if_neg hline]
    dsimp only
    rw [lineBehind, columnBehind, Nat.add_sub_cancel_left, Nat.add_sub_cancel_left, ← rowStart,
      hrow, Nat.min_eq_left hk]
  · intro line column hline
    have hne : line ≠ 0 := by omega
    rw [offsetOf?, if_neg hne]
    exact ⟨_, Nat.min_le_right _ _, rfl⟩
  · intro column
    rfl

/-- Between the two bytes of the letter, and behind the newline at the end. -/
theorem offsetOf?_behind_insideLetter :
    (utf8 "é\n").length = 3 ∧ offsetOf? "é\n" 1 2 = some 1 ∧ offsetOf? "é\n" 2 1 = some 3 ∧
      ∃ offset ≤ 3, offsetOf? "é\n" 7 9 = some offset := by
  have hlength : (utf8 "é\n").length = 3 := by decide
  have hinside := (offsetOf?_behind "é\n").1 1 (by rw [hlength]; decide)
  have hend := (offsetOf?_behind "é\n").1 3 (by rw [hlength])
  have hbeyond := (offsetOf?_behind "é\n").2.1 7 9 (by decide)
  rw [hlength] at hbeyond
  exact ⟨hlength, hinside, hend, hbeyond⟩

end RpcBindings.Text

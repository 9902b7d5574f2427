import Mathlib.Data.List.Infix
import RpcBindings.Proofs.DottedNames
import RpcBindings.Proofs.Runs
import RpcBindings.Proto.Lexer
import RpcBindings.Text.Lines

/-! # Texts and their tokens

A text is laid out as a list of tokens when it consists of their spellings, in order, with
white space and comments between them (`Laid`).  A gap may be empty: what a token needs is only
that the next character does not go on with it (`Stops`).  The lexer gives exactly these tokens,
each at the bytes it is spelled with (`lex_of_laid`).

Not every text is laid out.  The last line may end in a comment, which adds nothing, and a string
literal or a block comment may be left open, which the lexer refuses.  `Tiled` allows for these
endings too, and the lexer gives what the ending calls for (`lex_of_tiled`).

The lexer finishes a word, a number or a slash only when it reads what follows.  Until then it
stands behind the token and has not written it down; `Behind` says that this makes no difference
to what it gives for the rest.
-/
namespace RpcBindings.Proto

open RpcBindings.Text (byteLength)

/-! ## Spellings -/

/-- A word as the lexer reads it. -/
def IsIdentifier (w : String) : Prop :=
  ∃ c cs, w.toList = c :: cs ∧ isWordStart c = true ∧ ∀ d ∈ cs, isWordPart d = true

theorem isWordPart_of_isWordStart {c : Char} (h : isWordStart c = true) :
    isWordPart c = true := by
  unfold isWordStart at h
  unfold isWordPart Char.isAlphanum
  rcases Bool.or_eq_true_iff.mp h with h | h
  · rw [h]
    rfl
  · rw [h, Bool.or_true]

namespace IsIdentifier

theorem isWordPart {w : String} (h : IsIdentifier w) :
    ∀ c ∈ w.toList, isWordPart c = true := by
  obtain ⟨first, rest, hw, hfirst, hrest⟩ := h
  intro c hc
  rw [hw] at hc
  rcases List.mem_cons.mp hc with rfl | hc
  · exact isWordPart_of_isWordStart hfirst
  · exact hrest c hc

theorem dotFree {w : String} (h : IsIdentifier w) : Name.DotFree w := by
  intro hdot
  have hpart := h.isWordPart '.' hdot
  revert hpart
  decide

end IsIdentifier

/-- Characters between two quotes, and the value that they write.  A character may stand for
itself or behind a backslash. -/
inductive Quoted (quote : Char) : List Char → List Char → Prop
  | nil : Quoted quote [] []
  | plain {c : Char} {written value : List Char} : c ≠ quote → c ≠ '\\' → c ≠ '\n' →
      Quoted quote written value → Quoted quote (c :: written) (c :: value)
  | escaped {c : Char} {written value : List Char} :
      Quoted quote written value → Quoted quote ('\\' :: c :: written) (c :: value)

/-- The characters that are tokens of their own. -/
structure IsSymbol (c : Char) : Prop where
  not_space : isSpace c = false
  not_word : isWordStart c = false
  not_digit : c.isDigit = false
  not_quote : (c == '"' || c == '\'') = false

/-- The texts that spell a lexeme. -/
inductive Spells : List Char → Lexeme → Prop
  | word {w : String} : IsIdentifier w → Spells w.toList (.word w)
  | number {d : Char} {ds : List Char} : d.isDigit = true → (∀ c ∈ ds, isNumberPart c = true) →
      Spells (d :: ds) .number
  | literal {quote : Char} {written value : List Char} : quote = '"' ∨ quote = '\'' →
      Quoted quote written value →
      Spells (quote :: (written ++ [quote])) (.literal (String.ofList value))
  | symbol {c : Char} : IsSymbol c → Spells [c] (.symbol c)

/-- What stands between tokens: white space and comments. -/
inductive Gap : List Char → Prop
  | nil : Gap []
  | space {c : Char} {cs : List Char} : isSpace c = true → Gap cs → Gap (c :: cs)
  | lineComment {text cs : List Char} : '\n' ∉ text → Gap cs →
      Gap ('/' :: '/' :: (text ++ '\n' :: cs))
  | blockComment {text cs : List Char} : ¬ ['*', '/'] <:+: text → Gap cs →
      Gap ('/' :: '*' :: (text ++ '*' :: '/' :: cs))

/-- The character does not go on with the lexeme before it. -/
def Lexeme.EndsBefore (c : Char) : Lexeme → Prop
  | .word _ => isWordPart c = false
  | .number => isNumberPart c = false
  | .symbol '/' => c ≠ '/' ∧ c ≠ '*'
  | _ => True

/-- What follows a lexeme does not go on with it. -/
def Stops (lexeme : Lexeme) (rest : List Char) : Prop :=
  ∀ c ∈ rest.head?, lexeme.EndsBefore c

/-- The text from the byte `offset` on is laid out as the tokens. -/
inductive Laid : Nat → List Char → List (Token Span) → Prop
  | done {offset : Nat} {gap : List Char} : Gap gap → Laid offset gap []
  | token {offset : Nat} {gap written rest : List Char} {lexeme : Lexeme}
      {tokens : List (Token Span)} : Gap gap → Spells written lexeme → Stops lexeme rest →
      Laid (offset + byteLength gap + byteLength written) rest tokens →
      Laid offset (gap ++ (written ++ rest))
        (⟨lexeme, ⟨offset + byteLength gap, byteLength written⟩⟩ :: tokens)

/-- How the text from the byte `offset` on ends without another token, and the refusal that this
calls for. -/
inductive Ending : Option SyntaxError → Nat → List Char → Prop
  | nothing {offset : Nat} : Ending none offset []
  | lineComment {offset : Nat} {text : List Char} : '\n' ∉ text →
      Ending none offset ('/' :: '/' :: text)
  | openComment {offset : Nat} {text : List Char} : ¬ ['*', '/'] <:+: text →
      Ending (some ⟨.unterminatedComment, ⟨offset, byteLength ['/', '*']⟩⟩) offset
        ('/' :: '*' :: text)
  | openString {offset : Nat} {quote : Char} {written value : List Char} :
      quote = '"' ∨ quote = '\'' → Quoted quote written value →
      Ending (some ⟨.unterminatedString, ⟨offset, byteLength (quote :: written)⟩⟩) offset
        (quote :: written)
  | openEscape {offset : Nat} {quote : Char} {written value : List Char} :
      quote = '"' ∨ quote = '\'' → Quoted quote written value →
      Ending (some ⟨.unterminatedString, ⟨offset, byteLength (quote :: (written ++ ['\\']))⟩⟩) offset
        (quote :: (written ++ ['\\']))
  | brokenString {offset : Nat} {quote : Char} {written value rest : List Char} :
      quote = '"' ∨ quote = '\'' → Quoted quote written value →
      Ending (some ⟨.unterminatedString, ⟨offset, byteLength (quote :: written)⟩⟩) offset
        (quote :: (written ++ '\n' :: rest))

/-- The text from the byte `offset` on consists of the tokens with gaps between them, a last gap,
and an ending. -/
inductive Tiled (refusal : Option SyntaxError) : Nat → List Char → List (Token Span) → Prop
  | ending {offset : Nat} {gap rest : List Char} : Gap gap →
      Ending refusal (offset + byteLength gap) rest → Tiled refusal offset (gap ++ rest) []
  | token {offset : Nat} {gap written rest : List Char} {lexeme : Lexeme}
      {tokens : List (Token Span)} : Gap gap → Spells written lexeme → Stops lexeme rest →
      Tiled refusal (offset + byteLength gap + byteLength written) rest tokens →
      Tiled refusal offset (gap ++ (written ++ rest))
        (⟨lexeme, ⟨offset + byteLength gap, byteLength written⟩⟩ :: tokens)

theorem Laid.tiled {offset : Nat} {cs : List Char} {tokens : List (Token Span)}
    (h : Laid offset cs tokens) : Tiled none offset cs tokens := by
  induction h with
  | @done offset gap hgap =>
    rw [← List.append_nil gap]
    exact .ending hgap .nothing
  | token hgap hspells hstops _ ih => exact .token hgap hspells hstops ih

/-- What an ending makes of the tokens before it. -/
def outcome (refusal : Option SyntaxError) (tokens : List (Token Span)) :
    Except SyntaxError (List (Token Span)) :=
  match refusal with
  | none => .ok tokens
  | some e => .error e

namespace Lexer

/-- What the lexer gives for the rest of a text. -/
def State.run (s : State) (cs : List Char) : Except SyntaxError (List (Token Span)) := do
  (← cs.foldlM State.step s).close

/-- The lexer between two tokens. -/
abbrev between (offset : Nat) (finished : List (Token Span)) : State := ⟨offset, .gap, finished⟩

section Run
variable {s s' : State} {cs rest : List Char}

theorem run_append (h : cs.foldlM State.step s = .ok s') : s.run (cs ++ rest) = s'.run rest := by
  rw [State.run, List.foldlM_append, h]
  rfl

theorem foldlM_cons_ok {c : Char} (h : s.step c = .ok s') :
    (c :: cs).foldlM State.step s = cs.foldlM State.step s' := by
  rw [List.foldlM_cons, h]
  rfl

theorem foldlM_append_ok (h : cs.foldlM State.step s = .ok s') :
    (cs ++ rest).foldlM State.step s = rest.foldlM State.step s' := by
  rw [List.foldlM_append, h]
  rfl

end Run

/-! ## Gaps -/

variable {offset : Nat} {finished : List (Token Span)}

theorem foldlM_lineComment {text : List Char} (h : '\n' ∉ text) :
    text.foldlM State.step ⟨offset, .lineComment, finished⟩ =
      .ok ⟨offset + byteLength text, .lineComment, finished⟩ := by
  induction text generalizing offset with
  | nil => rfl
  | cons c text ih =>
    obtain ⟨hc, htext⟩ := not_or.mp (mt List.mem_cons.mpr h)
    have hstep : State.step ⟨offset, .lineComment, finished⟩ c =
        .ok ⟨offset + c.utf8Size, .lineComment, finished⟩ := by
      simp [State.step, State.pass, Ne.symm hc]
    rw [foldlM_cons_ok hstep, ih htext, Text.byteLength_cons, Nat.add_assoc]

/-- A block comment goes on until a star and a slash stand side by side.  When its last
character was a star, the text must not start with a slash. -/
theorem foldlM_blockComment {text : List Char} {start : Nat} {star : Bool}
    (h : ¬ ['*', '/'] <:+: text) (hstar : star = true → text.head? ≠ some '/') :
    ∃ star', text.foldlM State.step ⟨offset, .blockComment start star, finished⟩ =
      .ok ⟨offset + byteLength text, .blockComment start star', finished⟩ := by
  induction text generalizing offset star with
  | nil => exact ⟨star, rfl⟩
  | cons c text ih =>
    have hopen : (star && c == '/') = false := by
      cases star with
      | false => rfl
      | true => simpa using hstar rfl
    have hstep : State.step ⟨offset, .blockComment start star, finished⟩ c =
        .ok ⟨offset + c.utf8Size, .blockComment start (c == '*'), finished⟩ := by
      simp [State.step, State.pass, hopen]
    have htext : ¬ ['*', '/'] <:+: text := fun hinside =>
      h (hinside.trans (List.suffix_cons c text).isInfix)
    have hnext : (c == '*') = true → text.head? ≠ some '/' := by
      intro hc hhead
      rw [eq_of_beq hc] at h
      obtain ⟨text', rfl⟩ := List.head?_eq_some_iff.mp hhead
      exact h ⟨[], text', rfl⟩
    rw [foldlM_cons_ok hstep, Text.byteLength_cons, ← Nat.add_assoc]
    exact ih htext hnext

theorem foldlM_closeComment {start : Nat} {star : Bool} :
    ['*', '/'].foldlM State.step ⟨offset, .blockComment start star, finished⟩ =
      .ok (between (offset + byteLength ['*', '/']) finished) := by
  cases star <;> rfl

/-- **A gap adds no token.** -/
theorem foldlM_gap {gap : List Char} (h : Gap gap) :
    gap.foldlM State.step (between offset finished) =
      .ok (between (offset + byteLength gap) finished) := by
  induction h generalizing offset with
  | nil => rfl
  | @space c cs hc _ ih =>
    have hstep : State.step (between offset finished) c =
        .ok (between (offset + c.utf8Size) finished) := by
      simp [State.step, State.begin, State.pass, hc]
    rw [foldlM_cons_ok hstep, ih, Text.byteLength_cons, Nat.add_assoc]
  | @lineComment text cs htext _ ih =>
    have hopen : ('/' :: '/' :: (text ++ '\n' :: cs)).foldlM State.step (between offset finished) =
        (text ++ '\n' :: cs).foldlM State.step
          ⟨offset + byteLength ['/', '/'], .lineComment, finished⟩ := rfl
    have hclose : State.step ⟨offset + byteLength ['/', '/'] + byteLength text, .lineComment,
        finished⟩ '\n' =
        .ok (between (offset + byteLength ['/', '/'] + byteLength text + '\n'.utf8Size) finished) :=
      rfl
    rw [hopen, foldlM_append_ok (foldlM_lineComment htext), foldlM_cons_ok hclose, ih]
    simp only [Text.byteLength_cons, Text.byteLength_append, Text.byteLength_nil, Nat.add_assoc,
      Nat.add_zero]
  | @blockComment text cs htext _ ih =>
    have hopen : ('/' :: '*' :: (text ++ '*' :: '/' :: cs)).foldlM State.step
          (between offset finished) =
        (text ++ (['*', '/'] ++ cs)).foldlM State.step
          ⟨offset + byteLength ['/', '*'], .blockComment offset false, finished⟩ := rfl
    obtain ⟨star, hbody⟩ := @foldlM_blockComment (offset + byteLength ['/', '*']) finished text
      offset false htext fun hfalse => nomatch hfalse
    rw [hopen, foldlM_append_ok hbody, foldlM_append_ok foldlM_closeComment, ih]
    simp only [Text.byteLength_cons, Text.byteLength_append, Text.byteLength_nil, Nat.add_assoc,
      Nat.add_zero]

/-! ## Tokens -/

theorem push_append (text : String) (c : Char) (cs : List Char) :
    text.push c ++ String.ofList cs = text ++ String.ofList (c :: cs) := by
  apply String.toList_inj.mp
  simp

theorem foldlM_word {text : String} {cs : List Char} {start : Nat}
    (h : ∀ c ∈ cs, isWordPart c = true) :
    cs.foldlM State.step ⟨offset, .word start text, finished⟩ =
      .ok ⟨offset + byteLength cs, .word start (text ++ String.ofList cs), finished⟩ := by
  induction cs generalizing offset text with
  | nil =>
    rw [String.ofList_nil, String.append_empty]
    rfl
  | cons c cs ih =>
    have hstep : State.step ⟨offset, .word start text, finished⟩ c =
        .ok ⟨offset + c.utf8Size, .word start (text.push c), finished⟩ := by
      simp [State.step, State.pass, h c (List.mem_cons_self ..)]
    rw [foldlM_cons_ok hstep, ih fun d hd => h d (List.mem_cons_of_mem _ hd), push_append,
      Text.byteLength_cons, Nat.add_assoc]

theorem foldlM_number {cs : List Char} {start : Nat} (h : ∀ c ∈ cs, isNumberPart c = true) :
    cs.foldlM State.step ⟨offset, .number start, finished⟩ =
      .ok ⟨offset + byteLength cs, .number start, finished⟩ := by
  induction cs generalizing offset with
  | nil => rfl
  | cons c cs ih =>
    have hstep : State.step ⟨offset, .number start, finished⟩ c =
        .ok ⟨offset + c.utf8Size, .number start, finished⟩ := by
      simp [State.step, State.pass, h c (List.mem_cons_self ..)]
    rw [foldlM_cons_ok hstep, ih fun d hd => h d (List.mem_cons_of_mem _ hd),
      Text.byteLength_cons, Nat.add_assoc]

theorem foldlM_quoted {quote : Char} {text : String} {written value : List Char} {start : Nat}
    (hquote : quote ≠ '\\') (h : Quoted quote written value) :
    written.foldlM State.step ⟨offset, .literal start quote text false, finished⟩ =
      .ok ⟨offset + byteLength written, .literal start quote (text ++ String.ofList value) false,
        finished⟩ := by
  induction h generalizing offset text with
  | nil =>
    rw [String.ofList_nil, String.append_empty]
    rfl
  | @plain c written value hclose hescape hline _ ih =>
    have hstep : State.step ⟨offset, .literal start quote text false, finished⟩ c =
        .ok ⟨offset + c.utf8Size, .literal start quote (text.push c) false, finished⟩ := by
      simp [State.step, State.pass, hclose, hescape, hline]
    rw [foldlM_cons_ok hstep, ih, push_append, Text.byteLength_cons, Nat.add_assoc]
  | @escaped c written value _ ih =>
    have hstep : State.step ⟨offset, .literal start quote text false, finished⟩ '\\' =
        .ok ⟨offset + '\\'.utf8Size, .literal start quote text true, finished⟩ := by
      simp [State.step, State.pass, Ne.symm hquote]
    have hnext : State.step ⟨offset + '\\'.utf8Size, .literal start quote text true, finished⟩ c =
        .ok ⟨offset + '\\'.utf8Size + c.utf8Size, .literal start quote (text.push c) false,
          finished⟩ := by
      simp [State.step, State.pass]
    rw [foldlM_cons_ok hstep, foldlM_cons_ok hnext, ih, push_append]
    simp only [Text.byteLength_cons, Nat.add_assoc]

theorem foldlM_openString {quote : Char} {written value : List Char}
    (hquote : quote = '"' ∨ quote = '\'') (h : Quoted quote written value) :
    (quote :: written).foldlM State.step (between offset finished) =
      .ok ⟨offset + byteLength (quote :: written),
        .literal offset quote (String.ofList value) false, finished⟩ := by
  have hstep : State.step (between offset finished) quote =
      .ok ⟨offset + quote.utf8Size, .literal offset quote "" false, finished⟩ := by
    rcases hquote with rfl | rfl <;> rfl
  have hescape : quote ≠ '\\' := by
    rcases hquote with rfl | rfl <;> decide
  rw [foldlM_cons_ok hstep, foldlM_quoted hescape h, String.empty_append, Text.byteLength_cons,
    Nat.add_assoc]

/-- The lexer stands behind a token of `length` bytes: it has written it down, or will do so
whatever it reads next, as long as that does not go on with the token. -/
structure Behind (lexeme : Lexeme) (start length : Nat) (finished : List (Token Span))
    (s : State) : Prop where
  settle : s.settle = between (start + length) (⟨lexeme, ⟨start, length⟩⟩ :: finished)
  step : ∀ c, lexeme.EndsBefore c → s.step c = s.settle.step c
  close : s.close = s.settle.close

theorem Behind.run {lexeme : Lexeme} {start length : Nat} {s : State} {rest : List Char}
    (h : Behind lexeme start length finished s) (hrest : Stops lexeme rest) :
    s.run rest = (between (start + length) (⟨lexeme, ⟨start, length⟩⟩ :: finished)).run rest := by
  rw [← h.settle]
  cases rest with
  | nil => exact h.close
  | cons c rest =>
    have hc : lexeme.EndsBefore c := hrest c rfl
    rw [State.run, State.run, List.foldlM_cons, List.foldlM_cons, h.step c hc]

/-- A token that its own last character ends. -/
theorem behind_finished {lexeme : Lexeme} {start length : Nat} :
    Behind lexeme start length finished
      (between (start + length) (⟨lexeme, ⟨start, length⟩⟩ :: finished)) :=
  ⟨rfl, fun _ _ => rfl, rfl⟩

/-! What starts a token decides what it is.  No two of these classes share a character. -/

theorem not_gap_of_class {c : Char} {p : Char → Bool} (hc : p c = true)
    (h : [' ', '\t', '\n', '\r', '\x0c', '/'].any p = false) :
    isSpace c = false ∧ (c == '/') = false := by
  have hne : ∀ d ∈ [' ', '\t', '\n', '\r', '\x0c', '/'], (c == d) = false := by
    intro d hd
    rw [beq_eq_false_iff_ne]
    rintro rfl
    exact List.any_eq_false.mp h c hd hc
  refine ⟨?_, hne '/' (by decide)⟩
  rw [isSpace, hne ' ' (by decide), hne '\t' (by decide), hne '\n' (by decide),
    hne '\r' (by decide), hne '\x0c' (by decide)]
  rfl

theorem not_wordStart_of_isDigit {c : Char} (hc : c.isDigit = true) : isWordStart c = false := by
  have hdigit : c.toNat ≤ 57 := by
    unfold Char.isDigit at hc
    simp only [Bool.and_eq_true, decide_eq_true_eq, UInt32.le_iff_toNat_le] at hc
    exact hc.2
  have hupper : c.isUpper = false := by
    refine decide_eq_false fun hbounds => ?_
    have hlow : 65 ≤ c.toNat := UInt32.le_iff_toNat_le.mp hbounds.1
    omega
  have hlower : c.isLower = false := by
    refine Bool.and_eq_false_imp.mpr fun hbound => ?_
    have hlow : 97 ≤ c.toNat := UInt32.le_iff_toNat_le.mp (of_decide_eq_true hbound)
    omega
  have hbar : (c == '_') = false := by
    rw [beq_eq_false_iff_ne]
    rintro rfl
    revert hc
    decide
  have halpha : c.isAlpha = (c.isUpper || c.isLower) := rfl
  rw [isWordStart, halpha, hupper, hlower, hbar]
  rfl

theorem behind_word {w : String} (h : IsIdentifier w) :
    ∃ s, w.toList.foldlM State.step (between offset finished) = .ok s ∧
      Behind (.word w) offset (byteLength w.toList) finished s := by
  obtain ⟨c, cs, hw, hc, hcs⟩ := h
  have hstep : State.step (between offset finished) c =
      .ok ⟨offset + c.utf8Size, .word offset (String.singleton c), finished⟩ := by
    obtain ⟨hspace, hslash⟩ := not_gap_of_class hc (by decide)
    simp [State.step, State.begin, State.pass, hspace, hslash, hc]
  have hword : String.singleton c ++ String.ofList cs = w := by
    apply String.toList_inj.mp
    simp [hw]
  refine ⟨⟨offset + byteLength w.toList, .word offset w, finished⟩, ?_, ?_, ?_, rfl⟩
  · rw [hw, foldlM_cons_ok hstep, foldlM_word hcs, hword, Text.byteLength_cons, Nat.add_assoc]
  · simp only [State.settle, State.finish, Nat.add_sub_cancel_left]
  · intro d hd
    have hd : isWordPart d = false := hd
    simp [State.step, State.settle, State.finish, hd]

theorem behind_number {d : Char} {ds : List Char} (hd : d.isDigit = true)
    (hds : ∀ c ∈ ds, isNumberPart c = true) :
    ∃ s, (d :: ds).foldlM State.step (between offset finished) = .ok s ∧
      Behind .number offset (byteLength (d :: ds)) finished s := by
  have hstep : State.step (between offset finished) d =
      .ok ⟨offset + d.utf8Size, .number offset, finished⟩ := by
    obtain ⟨hspace, hslash⟩ := not_gap_of_class hd (by decide)
    simp [State.step, State.begin, State.pass, hspace, hslash, hd, not_wordStart_of_isDigit hd]
  refine ⟨⟨offset + byteLength (d :: ds), .number offset, finished⟩, ?_, ?_, ?_, rfl⟩
  · rw [foldlM_cons_ok hstep, foldlM_number hds, Text.byteLength_cons, Nat.add_assoc]
  · simp only [State.settle, State.finish, Nat.add_sub_cancel_left]
  · intro c hc
    have hc : isNumberPart c = false := hc
    simp [State.step, State.settle, State.finish, hc]

theorem behind_literal {quote : Char} {written value : List Char}
    (hquote : quote = '"' ∨ quote = '\'') (h : Quoted quote written value) :
    ∃ s, (quote :: (written ++ [quote])).foldlM State.step (between offset finished) = .ok s ∧
      Behind (.literal (String.ofList value)) offset
        (byteLength (quote :: (written ++ [quote]))) finished s := by
  have hline : quote ≠ '\n' := by
    rcases hquote with rfl | rfl <;> decide
  refine ⟨_, ?_, behind_finished⟩
  rw [← List.cons_append, foldlM_append_ok (foldlM_openString hquote h), List.foldlM_cons]
  simp [State.step, State.pass, State.finish, hline, Nat.add_assoc]

theorem behind_symbol {c : Char} (h : IsSymbol c) :
    ∃ s, [c].foldlM State.step (between offset finished) = .ok s ∧
      Behind (.symbol c) offset (byteLength [c]) finished s := by
  have hquote := h.not_quote
  by_cases hslash : c = '/'
  · -- a slash may start a comment, so it is finished only by what follows
    subst hslash
    refine ⟨⟨offset + byteLength ['/'], .slash offset, finished⟩, rfl, ?_, ?_, rfl⟩
    · simp only [State.settle, State.finish, Nat.add_sub_cancel_left]
    · rintro d ⟨hslash, hstar⟩
      simp [State.step, State.settle, State.finish, hslash, hstar]
  · have hstep : State.step (between offset finished) c =
        .ok (between (offset + byteLength [c])
          (⟨.symbol c, ⟨offset, byteLength [c]⟩⟩ :: finished)) := by
      simp [State.step, State.begin, State.pass, State.finish, h.not_space, h.not_word,
        h.not_digit, hquote, hslash]
    exact ⟨_, (foldlM_cons_ok hstep).trans rfl, behind_finished⟩

theorem behind_of_spells {written : List Char} {lexeme : Lexeme} (h : Spells written lexeme) :
    ∃ s, written.foldlM State.step (between offset finished) = .ok s ∧
      Behind lexeme offset (byteLength written) finished s := by
  cases h with
  | word hw => exact behind_word hw
  | number hd hds => exact behind_number hd hds
  | literal hquote hbody => exact behind_literal hquote hbody
  | symbol hc => exact behind_symbol hc

/-! ## Whole texts -/

theorem close_literal {quote : Char} {text : String} {escaped : Bool} {start length : Nat} :
    State.close ⟨start + length, .literal start quote text escaped, finished⟩ =
      .error ⟨.unterminatedString, ⟨start, length⟩⟩ := by
  simp only [State.close, Nat.add_sub_cancel_left]

/-- The lexer gives what the ending calls for. -/
theorem run_of_ending {refusal : Option SyntaxError} {rest : List Char}
    (h : Ending refusal offset rest) :
    (between offset finished).run rest = outcome refusal finished.reverse := by
  cases h with
  | nothing => rfl
  | @lineComment _ text htext =>
    have hopen : (between offset finished).run ('/' :: '/' :: text) =
        State.run ⟨offset + byteLength ['/', '/'], .lineComment, finished⟩ text := rfl
    rw [hopen, State.run, foldlM_lineComment htext]
    rfl
  | @openComment _ text htext =>
    have hopen : (between offset finished).run ('/' :: '*' :: text) =
        State.run ⟨offset + byteLength ['/', '*'], .blockComment offset false, finished⟩ text :=
      rfl
    obtain ⟨star, hbody⟩ := @foldlM_blockComment (offset + byteLength ['/', '*']) finished text
      offset false htext fun hfalse => nomatch hfalse
    rw [hopen, State.run, hbody]
    rfl
  | openString hquote hwritten =>
    rw [State.run, foldlM_openString hquote hwritten]
    exact close_literal
  | @openEscape _ quote written value hquote hwritten =>
    have hescape : quote ≠ '\\' := by
      rcases hquote with rfl | rfl <;> decide
    have hstep : ∀ n, State.step ⟨offset + n, .literal offset quote (String.ofList value) false,
        finished⟩ '\\' =
        .ok ⟨offset + (n + byteLength ['\\']), .literal offset quote (String.ofList value) true,
          finished⟩ := by
      intro n
      simp [State.step, State.pass, Ne.symm hescape, Nat.add_assoc]
    rw [← List.cons_append, run_append (foldlM_openString hquote hwritten), State.run,
      foldlM_cons_ok (hstep _), Text.byteLength_append]
    exact close_literal
  | brokenString hquote hwritten =>
    rw [← List.cons_append, run_append (foldlM_openString hquote hwritten), State.run,
      List.foldlM_cons]
    simp only [State.step, Nat.add_sub_cancel_left]
    rfl

/-- **The lexer gives the tokens of a text, behind those it has finished, or the refusal that the
end of the text calls for.** -/
theorem run_of_tiled {refusal : Option SyntaxError} {cs : List Char}
    {tokens : List (Token Span)} (h : Tiled refusal offset cs tokens)
    (finished : List (Token Span)) :
    (between offset finished).run cs = outcome refusal (finished.reverse ++ tokens) := by
  induction h generalizing finished with
  | ending hgap hending =>
    rw [run_append (foldlM_gap hgap), run_of_ending hending, List.append_nil]
  | @token offset gap written rest lexeme tokens hgap hspells hstops _ ih =>
    obtain ⟨s, hs, hbehind⟩ := @behind_of_spells (offset + byteLength gap) finished _ _ hspells
    rw [run_append (foldlM_gap hgap), run_append hs, hbehind.run hstops, ih, List.reverse_cons,
      List.append_assoc]
    rfl

end Lexer

theorem lex_of_tiled {refusal : Option SyntaxError} {cs : List Char} {tokens : List (Token Span)}
    (h : Tiled refusal 0 cs tokens) : lex cs = outcome refusal tokens :=
  Lexer.run_of_tiled h []

theorem lex_of_laid {cs : List Char} {tokens : List (Token Span)} (h : Laid 0 cs tokens) :
    lex cs = .ok tokens :=
  lex_of_tiled h.tiled

end RpcBindings.Proto

import RpcBindings.Proofs.Lexing

/-! # Tokens printed and read again

Tokens can be written one after the other with any separators between them, as long as every
separator starts with white space: then no token goes on into what follows it.  A string literal
of any value is written with a backslash before each of its characters, which is always right.
The lexer gives the tokens back, each at the bytes that it was written to (`lex_printTokens`).
-/
namespace RpcBindings.Proto

open RpcBindings.Text (byteLength)

/-- A token as it is written. -/
inductive Piece where
  /-- An identifier. -/
  | word (text : String) (isIdentifier : IsIdentifier text)
  /-- A string literal of any value, between quotes of either kind. -/
  | literal (quote : Char) (value : String) (isQuote : quote = '"' ∨ quote = '\'')
  /-- A number. -/
  | number (first : Char) (rest : List Char) (isDigit : first.isDigit = true)
    (isPart : ∀ c ∈ rest, isNumberPart c = true)
  /-- A character of its own. -/
  | symbol (c : Char) (isSymbol : IsSymbol c)

namespace Piece

/-- What the piece says. -/
def lexeme : Piece → Lexeme
  | .word text _ => .word text
  | .literal _ value _ => .literal value
  | .number .. => .number
  | .symbol c _ => .symbol c

/-- The text of the piece.  In a string literal each character stands behind a backslash. -/
def text : Piece → List Char
  | .word text _ => text.toList
  | .literal quote value _ => quote :: (value.toList.flatMap (fun c => ['\\', c]) ++ [quote])
  | .number first rest _ _ => first :: rest
  | .symbol c _ => [c]

theorem quoted_escaped (quote : Char) (value : List Char) :
    Quoted quote (value.flatMap fun c => ['\\', c]) value := by
  induction value with
  | nil => exact .nil
  | cons c value ih => exact .escaped ih

theorem spells (p : Piece) : Spells p.text p.lexeme := by
  cases p with
  | word text htext => exact .word htext
  | literal quote value hquote =>
    have hspells := Spells.literal hquote (quoted_escaped quote value.toList)
    rwa [String.ofList_toList] at hspells
  | number first rest hfirst hrest => exact .number hfirst hrest
  | symbol c hc => exact .symbol hc

/-- The piece as a token at the byte `offset`. -/
def token (p : Piece) (offset : Nat) : Token Span := ⟨p.lexeme, ⟨offset, byteLength p.text⟩⟩

end Piece

/-- A separator: white space, and then any white space and comments. -/
structure Separator where
  space : Char
  gap : List Char
  isSpace_space : isSpace space = true
  isGap : Gap gap

/-- The text of the separator. -/
def Separator.text (separator : Separator) : List Char := separator.space :: separator.gap

/-- The pieces as text; the separators are taken in turn. -/
def printTokens (separators : Nat → Separator) : List Piece → List Char
  | [] => []
  | [p] => p.text
  | p :: q :: rest =>
    p.text ++ ((separators 0).text ++ printTokens (fun n => separators (n + 1)) (q :: rest))

/-- The pieces as tokens from the byte `offset` on, with the same separators between them. -/
def printedTokens (separators : Nat → Separator) (offset : Nat) : List Piece → List (Token Span)
  | [] => []
  | p :: rest => p.token offset :: printedTokens (fun n => separators (n + 1))
      (offset + byteLength p.text + byteLength (separators 0).text) rest

/-- White space goes on with no lexeme. -/
theorem Lexeme.endsBefore_of_isSpace {c : Char} (hc : isSpace c = true) (lexeme : Lexeme) :
    lexeme.EndsBefore c := by
  have hmem : c ∈ [' ', '\t', '\n', '\r', '\x0c'] := by
    simpa [isSpace, or_assoc] using hc
  have hall : ([' ', '\t', '\n', '\r', '\x0c'].all fun d =>
      !isWordPart d && !isNumberPart d && d != '/' && d != '*') = true := rfl
  have hc := List.all_eq_true.mp hall c hmem
  simp only [Bool.and_eq_true, Bool.not_eq_true', bne_iff_ne, and_assoc] at hc
  obtain ⟨hword, hnumber, hsymbol⟩ := hc
  unfold EndsBefore
  split
  · exact hword
  · exact hnumber
  · exact hsymbol
  · trivial

theorem Separator.stops (separator : Separator) (lexeme : Lexeme) (rest : List Char) :
    Stops lexeme (separator.text ++ rest) := by
  rintro c ⟨⟩
  exact lexeme.endsBefore_of_isSpace separator.isSpace_space

theorem Separator.gap_text (separator : Separator) : Gap separator.text :=
  .space separator.isSpace_space separator.isGap

/-- **Printed tokens are laid out as they were printed**, behind any gap. -/
theorem laid_printTokens (separators : Nat → Separator) (pieces : List Piece) {gap : List Char}
    (hgap : Gap gap) (offset : Nat) :
    Laid offset (gap ++ printTokens separators pieces)
      (printedTokens separators (offset + byteLength gap) pieces) := by
  induction pieces generalizing separators gap offset with
  | nil =>
    rw [printTokens, List.append_nil]
    exact .done hgap
  | cons p rest ih =>
    cases rest with
    | nil =>
      rw [printTokens, ← List.append_nil p.text]
      exact .token hgap p.spells (fun _ hc => nomatch hc) (.done .nil)
    | cons q rest =>
      -- the separator is the gap before the next piece
      have hrest := ih (fun n => separators (n + 1)) (separators 0).gap_text
        (offset + byteLength gap + byteLength p.text)
      exact .token hgap p.spells ((separators 0).stops p.lexeme _) hrest

/-- **Lexing undoes printing.** -/
theorem lex_printTokens (separators : Nat → Separator) (pieces : List Piece) :
    lex (printTokens separators pieces) = .ok (printedTokens separators 0 pieces) :=
  lex_of_laid (laid_printTokens separators pieces .nil 0)

/-- A line comment that looks like the end of a block comment, then a block comment that looks
like the start of a line comment, then tabs. -/
def mixedSeparators : Nat → Separator
  | 0 => ⟨'\n', "//*/\n".toList, rfl, @Gap.lineComment ['*', '/'] _ (by decide) .nil⟩
  | 1 => ⟨' ', "/*//*/".toList, rfl, @Gap.blockComment ['/', '/'] _ (by decide) .nil⟩
  | _ => ⟨'\t', [], rfl, .nil⟩

example : lex (printTokens mixedSeparators
      [.symbol '/' (by constructor <;> rfl), .literal '\'' "'\n\\é" (.inr rfl),
        .number '1' ".5e_".toList rfl (List.all_eq_true.mp rfl), .symbol 'é' (by constructor <;> rfl)]) =
    .ok [⟨.symbol '/', ⟨0, 1⟩⟩, ⟨.literal "'\n\\é", ⟨7, 11⟩⟩, ⟨.number, ⟨25, 5⟩⟩,
      ⟨.symbol 'é', ⟨31, 2⟩⟩] := by
  decide

end RpcBindings.Proto

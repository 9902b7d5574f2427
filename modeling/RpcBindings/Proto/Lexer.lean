import RpcBindings.Proto.Token

/-!
# From characters to tokens

The lexer eats one character at a time. Between two characters it knows the byte offset it
has reached, the tokens it has finished and what it is in the middle of. A character that
ends a word or a number is read again as the start of what follows.

Whitespace is the ASCII kind, and letters and digits are the ASCII ones; every other
character is a symbol of its own.
-/
namespace RpcBindings.Proto

/-- The characters between tokens. -/
def isSpace (c : Char) : Bool :=
  c == ' ' || c == '\t' || c == '\n' || c == '\r' || c == '\x0c'

/-- The characters that start an identifier. -/
def isWordStart (c : Char) : Bool :=
  c.isAlpha || c == '_'

/-- The characters inside an identifier. -/
def isWordPart (c : Char) : Bool :=
  c.isAlphanum || c == '_'

/-- The characters inside a number. -/
def isNumberPart (c : Char) : Bool :=
  c.isAlphanum || c == '.' || c == '_'

namespace Lexer

/-- What the lexer is in the middle of. -/
inductive Mode where
  /-- Between tokens. -/
  | gap
  /-- Behind a slash that may start a comment. -/
  | slash (start : Nat)
  /-- In a comment that the line ends. -/
  | lineComment
  /-- In a block comment, `star` telling that the last character could start its end. -/
  | blockComment (start : Nat) (star : Bool)
  /-- In an identifier. -/
  | word (start : Nat) (text : String)
  /-- In a number. -/
  | number (start : Nat)
  /-- In a string literal; `escaped` tells that the last character was a backslash. -/
  | literal (start : Nat) (quote : Char) (value : String) (escaped : Bool)
deriving DecidableEq

/-- Where the lexer has got to. -/
structure State where
  /-- The byte offset of the next character. -/
  offset : Nat := 0
  /-- What the lexer is in the middle of. -/
  mode : Mode := .gap
  /-- The finished tokens, newest first. -/
  finished : List (Token Span) := []

namespace State

/-- Finishes a token that started at `start` and ends at the offset. -/
def finish (s : State) (lexeme : Lexeme) (start : Nat) : State :=
  { s with mode := .gap, finished := ⟨lexeme, ⟨start, s.offset - start⟩⟩ :: s.finished }

/-- Passes a character and goes on in a mode. -/
def pass (s : State) (c : Char) (mode : Mode) : State :=
  { s with offset := s.offset + c.utf8Size, mode := mode }

/-- Ends a word, a number or a lone slash, if the lexer is in one: nothing else can be ended
by what follows it. -/
def settle (s : State) : State :=
  match s.mode with
  | .word start text => s.finish (.word text) start
  | .number start => s.finish .number start
  | .slash start => s.finish (.symbol '/') start
  | _ => s

/-- Reads a character that starts something new. -/
def begin (s : State) (c : Char) : State :=
  if isSpace c then s.pass c .gap
  else if c == '/' then s.pass c (.slash s.offset)
  else if isWordStart c then s.pass c (.word s.offset (String.singleton c))
  else if c.isDigit then s.pass c (.number s.offset)
  else if c == '"' || c == '\'' then s.pass c (.literal s.offset c "" false)
  else (s.pass c .gap).finish (.symbol c) s.offset

/-- Reads one character. Only a newline in a string literal is refused. -/
def step (s : State) (c : Char) : Except SyntaxError State :=
  match s.mode with
  | .gap => .ok (s.begin c)
  | .slash start =>
    if c == '/' then .ok (s.pass c .lineComment)
    else if c == '*' then .ok (s.pass c (.blockComment start false))
    else .ok (s.settle.begin c)
  | .lineComment => .ok (s.pass c (if c == '\n' then .gap else .lineComment))
  | .blockComment start star =>
    .ok (s.pass c (if star && c == '/' then .gap else .blockComment start (c == '*')))
  | .word start text =>
    if isWordPart c then .ok (s.pass c (.word start (text.push c))) else .ok (s.settle.begin c)
  | .number start =>
    if isNumberPart c then .ok (s.pass c (.number start)) else .ok (s.settle.begin c)
  | .literal start quote value escaped =>
    if escaped then .ok (s.pass c (.literal start quote (value.push c) false))
    else if c == '\n' then .error ⟨.unterminatedString, ⟨start, s.offset - start⟩⟩
    else if c == quote then .ok ((s.pass c .gap).finish (.literal value) start)
    else if c == '\\' then .ok (s.pass c (.literal start quote value true))
    else .ok (s.pass c (.literal start quote (value.push c) false))

/-- The tokens in order, once all characters are read. -/
def close (s : State) : Except SyntaxError (List (Token Span)) :=
  match s.mode with
  | .blockComment start _ => .error ⟨.unterminatedComment, ⟨start, 2⟩⟩
  | .literal start _ _ _ => .error ⟨.unterminatedString, ⟨start, s.offset - start⟩⟩
  | _ => .ok s.settle.finished.reverse

end State

end Lexer

/-- The tokens of a source. -/
def lex (cs : List Char) : Except SyntaxError (List (Token Span)) := do
  (← cs.foldlM Lexer.State.step {}).close

end RpcBindings.Proto

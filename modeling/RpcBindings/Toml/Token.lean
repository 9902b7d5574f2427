import RpcBindings.Text.Hex

/-!
# Tokens of a settings file

The lexer eats one character at a time. A text stands between single or double quotes, on
one line, or between three of them, over many. Escapes are read between double quotes
only; a backslash at the end of a line swallows the white space up to the next character.
In a text of many lines a run of quotes that is long enough ends it, and up to two quotes
before the closing three belong to it; line ends are kept as they are written.

What is no quote, mark, white space or comment is taken together as one bare token, whatever
it holds. White space is a token, too, since it parts values; comments are none.
-/
namespace RpcBindings.Toml

/-- A token of a settings file. -/
inductive Token where
  /-- Characters without quotes. -/
  | bare (s : String)
  /-- A quoted text; `long` tells that it may go over many lines. -/
  | text (s : String) (long : Bool)
  /-- A dot, an equals sign, a comma, a bracket or a brace. -/
  | mark (c : Char)
  /-- White space within a line; `single` tells that it is one space. -/
  | blank (single : Bool)
  /-- The end of a line. -/
  | newline
deriving DecidableEq

/-- The characters that are tokens by themselves. -/
def isMark (c : Char) : Bool :=
  ".=,[]\x7b\x7d".toList.contains c

/-- The white space within a line. -/
def isBlank (c : Char) : Bool :=
  c == ' ' || c == '\t'

/-- The characters of a bare token, behind its first one. -/
def isBarePart (c : Char) : Bool :=
  !(isMark c || isBlank c || c == '#' || c == '\r' || c == '\n')

/-- The characters that texts and comments may hold within a line. -/
def isPrintable (c : Char) : Bool :=
  c == '\t' || (0x20 ≤ c.toNat && c.toNat != 0x7F)

/-- The character of a one-letter escape. -/
def escape? : Char → Option Char
  | 'b' => some '\x08'
  | 't' => some '\t'
  | 'n' => some '\n'
  | 'f' => some '\x0c'
  | 'r' => some '\r'
  | 'e' => some '\x1b'
  | '"' => some '"'
  | '\\' => some '\\'
  | _ => none

/-- The number of digits of an escape by code point. -/
def codeDigits? : Char → Option Nat
  | 'x' => some 2
  | 'u' => some 4
  | 'U' => some 8
  | _ => none

/-- The character of a code point, which has to be a Unicode scalar. -/
def scalarOf? (n : Nat) : Option Char :=
  if n < 0xD800 ∨ (0xDFFF < n ∧ n < 0x110000) then some (Char.ofNat n) else none

namespace Lexer

/-- What the lexer is in the middle of. -/
inductive Mode where
  /-- Between tokens. -/
  | gap
  /-- In white space; `single` tells that it is one space so far. -/
  | blank (single : Bool)
  /-- Behind a carriage return that a newline has to follow. -/
  | gapReturn
  /-- In a comment. -/
  | comment
  /-- In a bare token. -/
  | bare (s : String)
  /-- Behind the first quote of a text. -/
  | oneQuote (quote : Char)
  /-- Behind two quotes: an empty text, or the start of a long one. -/
  | twoQuotes (quote : Char)
  /-- In a text on one line. -/
  | short (quote : Char) (value : String)
  /-- Right behind three quotes, where a newline does not count. -/
  | longStart (quote : Char)
  /-- In a long text, behind `quotes` quotes that may end it. -/
  | long (quote : Char) (value : String) (quotes : Nat)
  /-- Behind a carriage return in a long text; `counts` tells whether the line end that has
  to be complete is part of the text. -/
  | longReturn (quote : Char) (value : String) (counts : Bool)
  /-- Behind a backslash. -/
  | escape (isLong : Bool) (value : String)
  /-- In an escape by code point that still needs `missing` digits. -/
  | code (isLong : Bool) (value : String) (missing code : Nat)
  /-- In the white space behind a backslash at the end of a line. -/
  | fold (value : String) (seenNewline : Bool)
  /-- Behind a carriage return there. -/
  | foldReturn (value : String)

/-- Where the lexer has got to. -/
structure State where
  /-- What the lexer is in the middle of. -/
  mode : Mode := .gap
  /-- The finished tokens, newest first. -/
  finished : List Token := []

namespace State

/-- Goes on in a mode. -/
def go (s : State) (mode : Mode) : Option State :=
  some { s with mode := mode }

/-- Adds a finished token. -/
def emit (s : State) (t : Token) : State :=
  { mode := .gap, finished := t :: s.finished }

/-- Reads a character that starts something new. -/
def begin (s : State) (c : Char) : Option State :=
  if isBlank c then s.go (.blank (c == ' '))
  else if c == '\n' then some (s.emit .newline)
  else if c == '\r' then s.go .gapReturn
  else if c == '#' then s.go .comment
  else if c == '"' || c == '\'' then s.go (.oneQuote c)
  else if isMark c then some (s.emit (.mark c))
  else s.go (.bare (String.singleton c))

/-- Reads a character of a text on one line. -/
def readShort (s : State) (quote : Char) (value : String) (c : Char) : Option State :=
  if c == quote then some (s.emit (.text value false))
  else if c == '\\' && quote == '"' then s.go (.escape false value)
  else if isPrintable c then s.go (.short quote (value.push c))
  else none

/-- Reads a character of a long text that does not belong to a run of quotes. -/
def readLong (s : State) (quote : Char) (value : String) (c : Char) : Option State :=
  if c == quote then s.go (.long quote value 1)
  else if c == '\\' && quote == '"' then s.go (.escape true value)
  else if c == '\n' || isPrintable c then s.go (.long quote (value.push c) 0)
  else if c == '\r' then s.go (.longReturn quote value true)
  else none

/-- A text with a run of quotes behind it. -/
def withQuotes (value : String) (count : Nat) (quote : Char) : String :=
  value ++ String.ofList (List.replicate count quote)

/-- Ends a long text whose last quotes are a run of `quotes`, at least three. -/
def endLong (s : State) (quote : Char) (value : String) (quotes : Nat) : State :=
  s.emit (.text (withQuotes value (quotes - 3) quote) true)

/-- Goes on in a text between double quotes. -/
def resume (s : State) (isLong : Bool) (value : String) : Option State :=
  s.go (if isLong then .long '"' value 0 else .short '"' value)

/-- Reads the character behind a backslash. -/
def readEscape (s : State) (isLong : Bool) (value : String) (c : Char) : Option State :=
  match codeDigits? c, escape? c with
  | some digits, _ => s.go (.code isLong value digits 0)
  | none, some e => s.resume isLong (value.push e)
  | none, none =>
    if !isLong then none
    else if isBlank c then s.go (.fold value false)
    else if c == '\n' then s.go (.fold value true)
    else if c == '\r' then s.go (.foldReturn value)
    else none

/-- Reads one character. -/
def step (s : State) (c : Char) : Option State :=
  match s.mode with
  | .gap => s.begin c
  | .blank single =>
    if isBlank c then s.go (.blank false) else (s.emit (.blank single)).begin c
  | .gapReturn => if c == '\n' then some (s.emit .newline) else none
  | .comment =>
    if c == '\n' || c == '\r' then s.begin c
    else if isPrintable c then s.go .comment
    else none
  | .bare b => if isBarePart c then s.go (.bare (b.push c)) else (s.emit (.bare b)).begin c
  | .oneQuote quote =>
    if c == quote then s.go (.twoQuotes quote) else s.readShort quote "" c
  | .twoQuotes quote =>
    if c == quote then s.go (.longStart quote) else (s.emit (.text "" false)).begin c
  | .short quote value => s.readShort quote value c
  | .longStart quote =>
    if c == '\n' then s.go (.long quote "" 0)
    else if c == '\r' then s.go (.longReturn quote "" false)
    else s.readLong quote "" c
  | .long quote value quotes =>
    if c == quote then
      if quotes == 4 then some (s.endLong quote value 5) else s.go (.long quote value (quotes + 1))
    else if quotes ≥ 3 then (s.endLong quote value quotes).begin c
    else s.readLong quote (withQuotes value quotes quote) c
  | .longReturn quote value counts =>
    if c == '\n' then s.go (.long quote (if counts then value ++ "\r\n" else value) 0) else none
  | .escape isLong value => s.readEscape isLong value c
  | .code isLong value missing code =>
    (Text.hexDigit? c).bind fun d =>
      let code := code * 16 + d
      if missing ≤ 1 then (scalarOf? code).bind fun e => s.resume isLong (value.push e)
      else s.go (.code isLong value (missing - 1) code)
  | .fold value seenNewline =>
    if isBlank c then s.go (.fold value seenNewline)
    else if c == '\n' then s.go (.fold value true)
    else if c == '\r' then s.go (.foldReturn value)
    else if seenNewline then s.readLong '"' value c
    else none
  | .foldReturn value => if c == '\n' then s.go (.fold value true) else none

/-- The tokens in order, once all characters are read. -/
def close (s : State) : Option (List Token) :=
  match s.mode with
  | .gap | .blank _ | .comment => some s.finished.reverse
  | .bare b => some (s.emit (.bare b)).finished.reverse
  | .twoQuotes _ => some (s.emit (.text "" false)).finished.reverse
  | .long quote value quotes =>
    if quotes ≥ 3 then some (s.endLong quote value quotes).finished.reverse else none
  | _ => none

end State

end Lexer

/-- The tokens of a settings file. A byte order mark at its start does not count. -/
def lex? (source : String) : Option (List Token) := do
  let cs := match source.toList with
    | c :: rest => if c.toNat = 0xFEFF then rest else c :: rest
    | [] => []
  (← cs.foldlM Lexer.State.step {}).close

end RpcBindings.Toml

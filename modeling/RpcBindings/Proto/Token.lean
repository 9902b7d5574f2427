/-!
# Tokens of a schema source

A lexeme is what a token says; a token says it at a position. Readers of tokens are
written for positions of any type, so what they accept cannot depend on layout: spans,
which the lexer gives, are one choice of positions.
-/
namespace RpcBindings.Proto

/-- A range of the source, in bytes. -/
structure Span where
  /-- Where the range starts. -/
  offset : Nat
  /-- How many bytes it takes. -/
  length : Nat
deriving DecidableEq

/-- What a token says. -/
inductive Lexeme where
  /-- An identifier or keyword. -/
  | word (text : String)
  /-- A string literal, with its escapes undone. -/
  | literal (value : String)
  /-- A number; its value is never needed. -/
  | number
  /-- Any other single character. -/
  | symbol (c : Char)
deriving DecidableEq

/-- A lexeme and where it stands. -/
structure Token (Pos : Type) where
  /-- What the token says. -/
  lexeme : Lexeme
  /-- Where it stands. -/
  pos : Pos
deriving DecidableEq

/-- Something a reader was waiting for. -/
inductive Expectation where
  /-- One symbol. -/
  | symbol (c : Char)
  /-- One keyword. -/
  | keyword (word : String)
  /-- A kind of token, in words. -/
  | item (description : String)
deriving DecidableEq

/-- The expectation as it stands in messages. -/
def Expectation.text : Expectation → String
  | .symbol c => "'" ++ String.singleton c ++ "'"
  | .keyword word => "'" ++ word ++ "'"
  | .item description => description

/-- Why a source is refused. -/
inductive SyntaxFault where
  /-- A block comment without its end. -/
  | unterminatedComment
  /-- A string literal that the line or the file ends. -/
  | unterminatedString
  /-- Another token than the expected one. -/
  | expected (what : Expectation)
  /-- The end of the file instead of the expected token. -/
  | endOfFile (what : Expectation)
  /-- A closing brace in the middle of a statement. -/
  | strayBrace
  /-- A keyword that starts nothing at the top level. -/
  | unexpectedWord (word : String)
  /-- A service inside a message. -/
  | nestedService
deriving DecidableEq

/-- The message of a fault. -/
def SyntaxFault.message : SyntaxFault → String
  | .unterminatedComment => "unterminated comment"
  | .unterminatedString => "unterminated string"
  | .expected what => "expected " ++ what.text
  | .endOfFile what => "expected " ++ what.text ++ ", found end of file"
  | .strayBrace => "unexpected '\x7d'"
  | .unexpectedWord word => "unexpected '" ++ word ++ "' at top level"
  | .nestedService => "services cannot be nested in messages"

/-- A fault and the range of the source it is shown at. -/
structure SyntaxError where
  /-- What is wrong. -/
  fault : SyntaxFault
  /-- Where. -/
  span : Span
deriving DecidableEq

end RpcBindings.Proto

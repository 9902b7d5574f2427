import RpcBindings.Json.Value
import RpcBindings.Text.Hex

/-!
# Tokens of a JSON document

The lexer eats one character at a time. Strings are read with their escapes; a `\u` escape
is one UTF-16 unit, and units are paired once the string is complete.
-/
namespace RpcBindings.Json

/-- A token of a document. -/
inductive Token where
  /-- A bracket, brace, colon or comma. -/
  | mark (c : Char)
  /-- A string. -/
  | text (s : Option String)
  /-- A number. -/
  | number (d : Decimal)
  /-- The word `null`. -/
  | null
  /-- One of the words `true` and `false`. -/
  | bool (b : Bool)

/-- A part of a string: a character, or the UTF-16 unit of an escape. -/
inductive Piece where
  /-- A character. -/
  | char (c : Char)
  /-- A unit of UTF-16. -/
  | unit (n : Nat)

/-- The text that pieces spell; half of a surrogate pair spells none. -/
def textOf : List Piece → Option (List Char)
  | [] => some []
  | .char c :: rest => (textOf rest).map (c :: ·)
  | .unit high :: .unit low :: rest =>
    if 0xD800 ≤ high ∧ high ≤ 0xDBFF then
      if 0xDC00 ≤ low ∧ low ≤ 0xDFFF then
        (textOf rest).map (Char.ofNat (0x10000 + (high - 0xD800) * 0x400 + (low - 0xDC00)) :: ·)
      else none
    else if 0xDC00 ≤ high ∧ high ≤ 0xDFFF then none
    else (textOf (.unit low :: rest)).map (Char.ofNat high :: ·)
  | .unit n :: rest =>
    if 0xD800 ≤ n ∧ n ≤ 0xDFFF then none else (textOf rest).map (Char.ofNat n :: ·)

/-- The character of a one-letter escape. -/
def escape? : Char → Option Char
  | '"' => some '"'
  | '\\' => some '\\'
  | '/' => some '/'
  | 'b' => some '\x08'
  | 'f' => some '\x0c'
  | 'n' => some '\n'
  | 'r' => some '\r'
  | 't' => some '\t'
  | _ => none

/-- The values of decimal digits. -/
def digitValues (cs : List Char) : List Nat :=
  cs.map fun c => c.toNat - '0'.toNat

/-- The value of a run of decimal digits. -/
def digitsValue (cs : List Char) : Nat :=
  (digitValues cs).foldl (fun n digit => n * 10 + digit) 0

/-- Whether a run of characters is made of digits, at least one. -/
def areDigits (cs : List Char) : Bool :=
  !cs.isEmpty && cs.all Char.isDigit

/-- Whether digits can stand before the decimal point: no zero leads other digits. -/
def isWhole (cs : List Char) : Bool :=
  areDigits cs && (cs.length == 1 || cs.head? != some '0')

/-- The exponent that follows the `e` of a number. -/
def exponent? (cs : List Char) : Option Int :=
  match cs with
  | '-' :: digits => if areDigits digits then some (-(digitsValue digits : Int)) else none
  | '+' :: digits => if areDigits digits then some (digitsValue digits) else none
  | digits => if areDigits digits then some (digitsValue digits) else none

/-- The number that its characters spell, which may start with a minus sign. -/
def number? (cs : List Char) : Option Decimal := do
  let body := if cs.head? == some '-' then cs.drop 1 else cs
  let mantissa := body.takeWhile fun c => c != 'e' && c != 'E'
  let tail := body.drop mantissa.length
  let whole := mantissa.takeWhile (· != '.')
  let point := mantissa.drop whole.length
  if !isWhole whole then none
  let fraction := point.drop 1
  if !point.isEmpty && !areDigits fraction then none
  let power ← if tail.isEmpty then some 0 else exponent? (tail.drop 1)
  return ⟨digitValues whole, digitValues fraction, power⟩

namespace Lexer

/-- What the lexer is in the middle of. -/
inductive Mode where
  /-- Between tokens. -/
  | gap
  /-- In a word. -/
  | word (cs : List Char)
  /-- In a number. -/
  | number (cs : List Char)
  /-- In a string, whose pieces stand newest first. -/
  | text (pieces : List Piece)
  /-- Behind a backslash. -/
  | escape (pieces : List Piece)
  /-- In a `\u` escape that still needs `missing` digits. -/
  | unit (pieces : List Piece) (missing value : Nat)

/-- Where the lexer has got to. -/
structure State where
  /-- What the lexer is in the middle of. -/
  mode : Mode := .gap
  /-- The finished tokens, newest first. -/
  finished : List Token := []

/-- Adds a finished token. -/
def State.emit (s : State) (t : Token) : State :=
  { mode := .gap, finished := t :: s.finished }

/-- The characters that may occur in a number. -/
def isNumberPart (c : Char) : Bool :=
  c.isDigit || c == '-' || c == '+' || c == '.' || c == 'e' || c == 'E'

/-- Ends a word or a number. -/
def State.settle (s : State) : Option State :=
  match s.mode with
  | .word cs =>
    if cs == "null".toList then some (s.emit .null)
    else if cs == "true".toList then some (s.emit (.bool true))
    else if cs == "false".toList then some (s.emit (.bool false))
    else none
  | .number cs => (number? cs).map fun d => s.emit (.number d)
  | .gap => some s
  | _ => none

/-- Reads a character that starts something new. -/
def State.begin (s : State) (c : Char) : Option State :=
  if c == ' ' || c == '\t' || c == '\n' || c == '\r' then some s
  else if "\x7b\x7d[]:,".toList.contains c then some (s.emit (.mark c))
  else if c == '"' then some { s with mode := .text [] }
  else if c == '-' || c.isDigit then some { s with mode := .number [c] }
  else if c.isAlpha then some { s with mode := .word [c] }
  else none

/-- Reads one character. -/
def State.step (s : State) (c : Char) : Option State :=
  match s.mode with
  | .gap => s.begin c
  | .word cs =>
    if c.isAlpha then some { s with mode := .word (cs ++ [c]) }
    else s.settle.bind fun s => s.begin c
  | .number cs =>
    if isNumberPart c then some { s with mode := .number (cs ++ [c]) }
    else s.settle.bind fun s => s.begin c
  | .text pieces =>
    if c == '"' then some (s.emit (.text ((textOf pieces.reverse).map String.ofList)))
    else if c == '\\' then some { s with mode := .escape pieces }
    else if c.toNat < 0x20 then none
    else some { s with mode := .text (.char c :: pieces) }
  | .escape pieces =>
    if c == 'u' then some { s with mode := .unit pieces 4 0 }
    else (escape? c).map fun e => { s with mode := .text (.char e :: pieces) }
  | .unit pieces missing value =>
    (Text.hexDigit? c).map fun d =>
      let value := value * 16 + d
      if missing ≤ 1 then { s with mode := .text (.unit value :: pieces) }
      else { s with mode := .unit pieces (missing - 1) value }

end Lexer

/-- The tokens of a document. -/
def lex? (document : String) : Option (List Token) := do
  let s ← document.toList.foldlM Lexer.State.step {}
  return (← s.settle).finished.reverse

end RpcBindings.Json

import RpcBindings.Toml.Scalar
import RpcBindings.Toml.Token

/-!
# From tokens to settings

The reader eats one token at a time. It keeps the table read so far, the header whose table
is open, and the arrays and inline tables that are open around the value being read,
innermost first. Lines may end between any two parts of an array or an inline table, though
not inside a dotted key, and a comma may stand behind the last part.

A value without quotes may take several tokens: dots belong to it, and so does a single
space that stands before more of it.
-/
namespace RpcBindings.Toml

/-- The characters of a key without quotes. -/
def isKeyPart (c : Char) : Bool :=
  c.isAlphanum || c == '_' || c == '-'

/-- The key that a token spells. -/
def key? : Token → Option String
  | .bare s => if s.toList.all isKeyPart then some s else none
  | .text s false => some s
  | _ => none

namespace Reader

/-- How many arrays and inline tables may be open at once, and how many segments a dotted
key may have. -/
def limit : Nat := 80

/-- A container that is open. -/
inductive Frame where
  /-- An array with the items read so far. -/
  | array (items : List Value)
  /-- An inline table with the entries read so far, and the key whose value is read. -/
  | table (entries : Entries) (key : List String)

/-- What may follow. -/
inductive Phase where
  /-- A statement or the end of the line. -/
  | line
  /-- The end of the line. -/
  | lineEnd
  /-- A segment of the key of a header or an entry, behind the segments of `path`. -/
  | key (isHeader : Bool) (path : List String)
  /-- A dot, or the end of the key. -/
  | keyEnd (isHeader : Bool) (path : List String)
  /-- The equals sign of an entry of an inline table, on a line behind its key. -/
  | equals (path : List String)
  /-- A value. -/
  | value
  /-- More of a value without quotes, or what follows the value. -/
  | scalar (text : String)
  /-- The same, behind a single space. -/
  | scalarGap (text : String)
  /-- A value or the end of an array. -/
  | item
  /-- An entry or the end of an inline table. -/
  | entry
  /-- A comma or the end of the innermost container. -/
  | separator

/-- Where the reader has got to. -/
structure State where
  /-- The settings read so far. -/
  entries : Entries := []
  /-- The header whose table is open. -/
  header : List String := []
  /-- The key of the entry being read. -/
  path : List String := []
  /-- The open containers, innermost first. -/
  frames : List Frame := []
  /-- What may follow. -/
  phase : Phase := .line

namespace State

/-- Goes on in a phase. -/
def go (s : State) (phase : Phase) : Option State :=
  some { s with phase := phase }

/-- Puts a complete value where it belongs. -/
def complete (s : State) (v : Value) : Option State :=
  match s.frames with
  | [] =>
    (s.entries.insertUnder? v s.path s.header).map fun entries =>
      { s with entries := entries, phase := .lineEnd }
  | .array items :: rest =>
    some { s with frames := .array (items ++ [v]) :: rest, phase := .separator }
  | .table entries key :: rest =>
    (entries.insert? v key).map fun entries =>
      { s with frames := .table entries [] :: rest, phase := .separator }

/-- Opens a container, unless too many are open. -/
def openFrame (s : State) (frame : Frame) (phase : Phase) : Option State :=
  if s.frames.length < limit then some { s with frames := frame :: s.frames, phase := phase }
  else none

/-- Reads the first token of a value. -/
def begin (s : State) : Token → Option State
  | .text t _ => s.complete (.text t)
  | .bare t => s.go (.scalar t)
  | .mark '[' => s.openFrame (.array []) .item
  | .mark '{' => s.openFrame (.table [] []) .entry
  | _ => none

/-- Ends a value without quotes. -/
def endScalar (s : State) (text : String) : Option State :=
  (scalar? text).bind s.complete

/-- Ends the innermost container. -/
def endContainer (s : State) (c : Char) : Option State :=
  match c, s.frames with
  | ']', .array items :: rest => { s with frames := rest }.complete (.array items)
  | '}', .table entries _ :: rest => { s with frames := rest }.complete (.table .inline entries)
  | _, _ => none

/-- Goes on behind the equals sign of an entry. -/
def beginValue (s : State) (path : List String) : State :=
  match s.frames with
  | .table entries _ :: rest => { s with frames := .table entries path :: rest, phase := .value }
  | _ => { s with path := path, phase := .value }

/-- Ends the key of a header or an entry. -/
def endKey (s : State) (isHeader : Bool) (path : List String) (c : Char) : Option State :=
  match isHeader, c with
  | true, ']' =>
    (s.entries.open? path).map fun entries =>
      { s with entries := entries, header := path, phase := .lineEnd }
  | false, '=' => some (s.beginValue path)
  | _, _ => none

/-- Reads a segment of a key. -/
def readKey (s : State) (isHeader : Bool) (path : List String) (t : Token) : Option State :=
  if path.length < limit then
    (key? t).bind fun key => s.go (.keyEnd isHeader (path ++ [key]))
  else none

/-- Whether the innermost container is an array. -/
def inArray (s : State) : Bool :=
  match s.frames with
  | .array _ :: _ => true
  | _ => false

/-- Whether the innermost container is an inline table. -/
def inTable (s : State) : Bool :=
  match s.frames with
  | .table .. :: _ => true
  | _ => false

/-- Reads a token outside values without quotes, where white space does not count. -/
def readToken (s : State) (t : Token) : Option State :=
  match s.phase, t with
  | _, .blank _ => some s
  | .line, .newline => s.go .line
  | .line, .mark '[' => s.go (.key true [])
  | .line, t => s.readKey false [] t
  | .lineEnd, .newline => s.go .line
  | .lineEnd, _ => none
  | .key isHeader path, t => s.readKey isHeader path t
  | .keyEnd isHeader path, .mark '.' => s.go (.key isHeader path)
  | .keyEnd isHeader path, .mark c => s.endKey isHeader path c
  | .keyEnd _ path, .newline => if s.inTable then s.go (.equals path) else none
  | .keyEnd .., _ => none
  | .equals path, .newline => s.go (.equals path)
  | .equals path, .mark '=' => some (s.beginValue path)
  | .equals _, _ => none
  | .value, .newline => if s.inTable then some s else none
  | .value, t => s.begin t
  | .item, .newline => s.go .item
  | .item, .mark ']' => s.endContainer ']'
  | .item, t => s.begin t
  | .entry, .newline => s.go .entry
  | .entry, .mark '}' => s.endContainer '}'
  | .entry, t => s.readKey false [] t
  | .separator, .newline => s.go .separator
  | .separator, .mark ',' => s.go (if s.inArray then .item else .entry)
  | .separator, .mark c => s.endContainer c
  | .separator, _ => none
  | .scalar _, _ => none
  | .scalarGap _, _ => none

/-- Reads one token. -/
def step (s : State) (t : Token) : Option State :=
  match s.phase, t with
  | .scalar text, .bare more => s.go (.scalar (text ++ more))
  | .scalar text, .mark '.' => s.go (.scalar (text.push '.'))
  | .scalar text, .blank true => s.go (.scalarGap text)
  | .scalarGap text, .bare more => s.go (.scalar (text ++ " " ++ more))
  | .scalar text, t => (s.endScalar text).bind fun s => s.readToken t
  | .scalarGap text, t => (s.endScalar text).bind fun s => s.readToken t
  | _, t => s.readToken t

/-- The settings once all tokens are read. -/
def close (s : State) : Option Entries :=
  match s.phase, s.frames with
  | .line, _ => some s.entries
  | .lineEnd, _ => some s.entries
  | .scalar text, [] => (s.endScalar text).map State.entries
  | .scalarGap text, [] => (s.endScalar text).map State.entries
  | _, _ => none

end State

end Reader

/-- The entries of a settings file. -/
def parse? (source : String) : Option Entries := do
  let tokens ← lex? source
  (← tokens.foldlM Reader.State.step {}).close

end RpcBindings.Toml

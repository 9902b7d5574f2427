import RpcBindings.Json.Token

/-!
# From tokens to a JSON value

The reader eats one token at a time and keeps the containers that are open, innermost
first, so nesting of any depth is read without recursion.
-/
namespace RpcBindings.Json

namespace Reader

/-- A container that is open. -/
inductive Frame where
  /-- An array with the items read so far. -/
  | array (items : List Value)
  /-- An object with the entries read so far and the key whose value is being read. -/
  | object (entries : List (Option String × Value)) (key : Option String)

/-- What may follow. -/
inductive Phase where
  /-- A value. -/
  | value
  /-- A value, or the end of an empty array. -/
  | firstItem
  /-- A key. -/
  | key
  /-- A key, or the end of an empty object. -/
  | firstKey
  /-- The colon behind a key. -/
  | colon
  /-- A comma or the end of the innermost container. -/
  | separator
  /-- Nothing: the document is complete. -/
  | done (v : Value)

/-- Where the reader has got to. -/
structure State where
  /-- The open containers, innermost first. -/
  frames : List Frame := []
  /-- What may follow. -/
  phase : Phase := .value

/-- Puts a complete value where it belongs. -/
def State.complete (frames : List Frame) (v : Value) : State :=
  match frames with
  | [] => { frames := [], phase := .done v }
  | .array items :: rest => { frames := .array (items ++ [v]) :: rest, phase := .separator }
  | .object entries key :: rest =>
    { frames := .object (entries ++ [(key, v)]) none :: rest, phase := .separator }

/-- Reads the first token of a value. -/
def State.begin (s : State) : Token → Option State
  | .null => some (.complete s.frames .null)
  | .bool b => some (.complete s.frames (.bool b))
  | .number d => some (.complete s.frames (.number d))
  | .text t => some (.complete s.frames (.text t))
  | .mark '[' => some { frames := .array [] :: s.frames, phase := .firstItem }
  | .mark '{' => some { frames := .object [] none :: s.frames, phase := .firstKey }
  | .mark _ => none

/-- Reads a key. -/
def State.readKey (s : State) (t : Token) : Option State :=
  match t, s.frames with
  | .text key, .object entries _ :: rest =>
    some { frames := .object entries key :: rest, phase := .colon }
  | _, _ => none

/-- Reads what follows a value in a container. -/
def State.readSeparator (s : State) (t : Token) : Option State :=
  match t, s.frames with
  | .mark ',', .array _ :: _ => some { s with phase := .value }
  | .mark ',', .object .. :: _ => some { s with phase := .key }
  | .mark ']', .array items :: rest => some (.complete rest (.array items))
  | .mark '}', .object entries _ :: rest => some (.complete rest (.object entries))
  | _, _ => none

/-- Reads one token. -/
def State.step (s : State) (t : Token) : Option State :=
  match s.phase with
  | .value => s.begin t
  | .firstItem =>
    match t with
    | .mark ']' => s.readSeparator t
    | _ => s.begin t
  | .key => s.readKey t
  | .firstKey =>
    match t with
    | .mark '}' => s.readSeparator t
    | _ => s.readKey t
  | .colon =>
    match t with
    | .mark ':' => some { s with phase := .value }
    | _ => none
  | .separator => s.readSeparator t
  | .done _ => none

end Reader

/-- The value that a document spells, which has to be its only one. -/
def parse? (document : String) : Option Value := do
  let tokens ← lex? document
  let s ← tokens.foldlM Reader.State.step {}
  match s.phase with
  | .done v => some v
  | _ => none

end RpcBindings.Json

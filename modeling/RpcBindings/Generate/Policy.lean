/-!
# Methods with open types

A method whose types are not both known is left out of every generated file. The policy
says how loud that is, and whether a comment marks the gap.
-/
namespace RpcBindings.Generate

/-- What happens to a method with open types, beside being left out. -/
inductive Policy where
  /-- It is noted as an information. -/
  | skip
  /-- It is noted as a warning. -/
  | warn
  /-- It is noted as a warning, and a comment stands in its place. -/
  | comment
deriving DecidableEq

namespace Policy

/-- The policy unless told otherwise. -/
def standard : Policy := .skip

/-- The name of a policy. -/
def text : Policy → String
  | .skip => "skip"
  | .warn => "warn"
  | .comment => "comment"

/-- The policy of a name that is written exactly. -/
def ofName? (name : String) : Option Policy :=
  [Policy.skip, .warn, .comment].find? fun p => p.text == name

/-- A letter in lower case: the ASCII letters, and the Kelvin sign, which is the only other
character whose lower case is an ASCII letter. -/
def lowerLetter (c : Char) : Char :=
  if c.toNat = 0x212A then 'k' else c.toLower

/-- The policy of a name, whatever the case of its letters. -/
def parse? (text : String) : Option Policy :=
  ofName? (String.ofList (text.toList.map lowerLetter))

/-- What is said of a text that names no policy. -/
def unknownMessage (text : String) : String :=
  "unknown policy '" ++ text ++ "', expected 'skip', 'warn' or 'comment'"

end Policy

end RpcBindings.Generate

/-!
# Code fragments

Generated code is a tree of fragments. A fragment says what is written and how deep it is
nested, never how indentation is spelled: that is decided when the tree is rendered.
-/
namespace RpcBindings.Layout

/-- A piece of generated code. -/
inductive Fragment where
  /-- One line at the current depth. -/
  | line (text : String)
  /-- An empty line, without indentation. -/
  | blank
  /-- Text as it is, neither indented nor ended by a newline. -/
  | raw (text : String)
  /-- A header line, a body one step deeper and, if given, a closing line. -/
  | block (header : String) (body : List Fragment) (close : Option String)
  /-- Fragments one step deeper. -/
  | indent (body : List Fragment)
  /-- Fragments at the current depth. -/
  | sequence (body : List Fragment)
  /-- A line comment. -/
  | comment (text : String)

namespace Fragment

/-- A block between a header and a closing line. -/
def enclosed (header : String) (body : List Fragment) (close : String) : Fragment :=
  .block header body (some close)

end Fragment

end RpcBindings.Layout

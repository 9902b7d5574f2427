import RpcBindings.Layout.Fragment

/-!
# Import statements

An import takes a whole module under one name, or a list of its exports, or nothing but
its side effects. The whole-module form wins when both are given.
-/
namespace RpcBindings.TypeScript

open RpcBindings.Layout

/-- A TypeScript `import` statement. -/
structure Import where
  /-- The module that is imported from. -/
  source : String
  /-- The name that stands for the whole module. -/
  wildcard : Option String := none
  /-- The exports taken by name, in order. -/
  names : List String := []

namespace Import

/-- Nothing is bound by the import. -/
def isEmpty (i : Import) : Bool :=
  i.wildcard.isNone && i.names.isEmpty

/-- The statement as one line. -/
def statement (i : Import) : String :=
  match i.wildcard, i.names with
  | some name, _ => "import * as " ++ name ++ " from \"" ++ i.source ++ "\";"
  | none, [] => "import \"" ++ i.source ++ "\";"
  | none, names =>
    "import \x7b " ++ ", ".intercalate names ++ " \x7d from \"" ++ i.source ++ "\";"

/-- The statement as code. -/
def fragments (i : Import) : List Fragment :=
  [.line i.statement]

end Import

end RpcBindings.TypeScript

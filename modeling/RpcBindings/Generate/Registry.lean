import RpcBindings.Schema.Resolve
import RpcBindings.Text.Distinct

/-!
# Names to import

Generated code reaches a message through the outermost scope that holds it, or, when the
message is outside every scope, by its own name. The registry collects both: the scopes
that hold something, and the messages outside every scope that some method uses.
-/
namespace RpcBindings.Generate

open RpcBindings.Schema

mutual

/-- The dotted paths of the scopes at and below a node that hold something. `path` leads to
the scope around the node. -/
def containersOf (path : List String) : Node → List String
  | .scope _ name _ children =>
    let path := path ++ [name]
    (if children.isEmpty then [] else [".".intercalate path]) ++ containersIn path children
  | .enum .. => []
  | .service _ => []

/-- The dotted paths of the scopes of a forest that hold something. -/
def containersIn (path : List String) : List Node → List String
  | [] => []
  | n :: ns => containersOf path n ++ containersIn path ns

end

/-- The messages outside every scope that the methods of a service use. -/
def rootLevelTypes (s : Service) : List String :=
  (s.methods.filterMap Method.resolved?).flatMap fun (request, response) =>
    ([request, response].filter TypeRef.isRootLevel).map TypeRef.name

/-- The names that generated code imports from the message types. -/
structure Registry where
  /-- The dotted paths of scopes that hold something. -/
  containers : List String
  /-- The messages outside every scope that some method uses. -/
  globals : List String

namespace Registry

/-- The names that code for the schemas imports. -/
def ofRoots (roots : List Root) : Registry :=
  { containers := Text.distinct (roots.flatMap fun r => containersIn [] r.nodes)
    globals := Text.distinct
      (roots.flatMap fun r => (servicesAll r.nodes).flatMap rootLevelTypes) }

/-- The outermost scopes, which an import can name. -/
def topLevel (r : Registry) : List String :=
  Text.distinct (r.containers.map Name.first)

/-- Whether nothing needs importing. -/
def isEmpty (r : Registry) : Bool :=
  r.containers.isEmpty && r.globals.isEmpty

/-- The names in an import of the message types, with the names of the plain-data interfaces
if they are asked for. A message that is an outermost scope itself is imported as one. -/
def importNames (r : Registry) (interfaces : Bool) : List String :=
  r.topLevel ++ r.globals.flatMap fun name =>
    (if r.topLevel.contains name then [] else [name])
      ++ (if interfaces then ["I" ++ name] else [])

end Registry

end RpcBindings.Generate

import RpcBindings.Schema.Tree

/-!
# Finding the messages of methods

A type name that starts with a dot is looked up as it is. Any other one is looked up in
the scope of the service and then in the scopes around it, and the innermost message wins.
Only messages are found: a name that is missing, or names something else, stays open.
-/
namespace RpcBindings.Schema

mutual

/-- The full names of the messages at and below a node. -/
def Node.messageNames : Node → List String
  | .scope .message _ fullName children => fullName :: messageNamesAll children
  | .scope .package _ _ children => messageNamesAll children
  | .enum .. => []
  | .service _ => []

/-- The full names of the messages of a forest. -/
def messageNamesAll : List Node → List String
  | [] => []
  | n :: ns => n.messageNames ++ messageNamesAll ns

end

/-- The message that a type name stands for in a scope. -/
def lookupType (messages : List String) (scope name : String) : Option TypeRef :=
  if Name.isAbsolute name then
    if messages.contains name then some ⟨name⟩ else none
  else
    (((Name.enclosing scope).map fun s => Name.member s name).find? messages.contains).map
      fun fullName => ⟨fullName⟩

/-- The method with its messages looked up in a scope. -/
def Method.resolve (messages : List String) (scope : String) (m : Method) : Method :=
  { m with
    request := lookupType messages scope m.requestType
    response := lookupType messages scope m.responseType }

/-- The service with the messages of its methods looked up. -/
def Service.resolve (messages : List String) (s : Service) : Service :=
  { s with methods := s.methods.map (Method.resolve messages s.scope) }

mutual

/-- The node with the messages of all methods below it looked up. -/
def Node.resolve (messages : List String) : Node → Node
  | .scope kind name fullName children =>
    .scope kind name fullName (resolveNodes messages children)
  | .enum name fullName => .enum name fullName
  | .service s => .service (s.resolve messages)

/-- The forest with the messages of all methods looked up. -/
def resolveNodes (messages : List String) : List Node → List Node
  | [] => []
  | n :: ns => n.resolve messages :: resolveNodes messages ns

end

/-- Looks up the messages of methods one after the other, and counts on for every method that
keeps an open type. -/
def resolveMethods (messages : List String) (scope : String) (count : Nat) :
    List Method → List Method × Nat
  | [] => ([], count)
  | m :: ms =>
    let m := m.resolve messages scope
    let count := if m.resolved?.isNone then count + 1 else count
    let (ms, count) := resolveMethods messages scope count ms
    (m :: ms, count)

mutual

/-- Looks up the messages of all methods at and below a node, and counts on for every method
that keeps an open type. -/
def Node.resolveCounting (messages : List String) (count : Nat) : Node → Node × Nat
  | .scope kind name fullName children =>
    let (children, count) := resolveCountingAll messages count children
    (.scope kind name fullName children, count)
  | .enum name fullName => (.enum name fullName, count)
  | .service s =>
    let (methods, count) := resolveMethods messages s.scope count s.methods
    (.service { s with methods }, count)

/-- Looks up the messages of all methods of a forest, and counts on for every method that keeps
an open type. -/
def resolveCountingAll (messages : List String) (count : Nat) : List Node → List Node × Nat
  | [] => ([], count)
  | n :: ns =>
    let (n, count) := n.resolveCounting messages count
    let (ns, count) := resolveCountingAll messages count ns
    (n :: ns, count)

end

mutual

/-- The services at and below a node, in declaration order. -/
def Node.services : Node → List Service
  | .scope _ _ _ children => servicesAll children
  | .enum .. => []
  | .service s => [s]

/-- The services of a forest, in declaration order. -/
def servicesAll : List Node → List Service
  | [] => []
  | n :: ns => n.services ++ servicesAll ns

end

namespace Root

/-- The schema with the messages of all methods looked up. -/
def resolve (r : Root) : Root :=
  { r with nodes := resolveNodes (messageNamesAll r.nodes) r.nodes }

/-- The number of methods with a type that is not known. -/
def unresolvedCount (r : Root) : Nat :=
  ((servicesAll r.nodes).flatMap Service.methods).countP fun m => m.resolved?.isNone

/-- Looks up the messages of all methods of the schema in one walk, and gives the number of
methods that keep an open type. -/
def resolveAll (r : Root) : Root × Nat :=
  let (nodes, count) := resolveCountingAll (messageNamesAll r.nodes) 0 r.nodes
  ({ r with nodes }, count)

end Root

end RpcBindings.Schema

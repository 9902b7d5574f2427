import RpcBindings.Name

/-!
# The schema tree

A schema is a forest of named nodes. Packages and messages are scopes, which hold nodes of
their own; enums and services are leaves. A node carries its full name, the dotted path
from the root down to it. Children stand in declaration order and are found by name.
-/
namespace RpcBindings.Schema

/-- A message type that a method uses, by its full name. -/
structure TypeRef where
  /-- The full name of the message. -/
  fullName : String
deriving DecidableEq

namespace TypeRef

/-- The last segment of the name. -/
def name (t : TypeRef) : String := Name.leaf t.fullName

/-- The name without the root anchor. -/
def qualified (t : TypeRef) : String := Name.qualified t.fullName

/-- The name of the plain-data interface. -/
def interface (t : TypeRef) : String := Name.interface t.fullName

/-- Whether the message is declared outside every package. -/
def isRootLevel (t : TypeRef) : Bool := Name.isRootLevel t.fullName

end TypeRef

/-- A method of a service. -/
structure Method where
  /-- The name of the method. -/
  name : String
  /-- The full name of the service, a dot and the name. -/
  fullName : String
  /-- The request type as written. -/
  requestType : String
  /-- The response type as written. -/
  responseType : String
  /-- Whether the caller sends a stream. -/
  requestStream : Bool := false
  /-- Whether the answer is a stream. -/
  responseStream : Bool := false
  /-- The message the request type names, once it is found. -/
  request : Option TypeRef := none
  /-- The message the response type names, once it is found. -/
  response : Option TypeRef := none
deriving DecidableEq

/-- Both messages of a method, when both are known. -/
def Method.resolved? (m : Method) : Option (TypeRef × TypeRef) :=
  match m.request, m.response with
  | some request, some response => some (request, response)
  | _, _ => none

/-- A service and its methods. -/
structure Service where
  /-- The name of the service. -/
  name : String
  /-- The full name of the service. -/
  fullName : String
  /-- The methods in declaration order. -/
  methods : List Method := []
deriving DecidableEq

namespace Service

/-- The scope that the service is declared in. -/
def scope (s : Service) : String := Name.scope s.fullName

/-- A method of the service with its types as written. -/
def method (s : Service) (name requestType : String) (requestStream : Bool)
    (responseType : String) (responseStream : Bool) : Method :=
  { name, fullName := Name.member s.fullName name, requestType, responseType,
    requestStream, responseStream }

/-- Adds a method at the end. -/
def addMethod (s : Service) (m : Method) : Service :=
  { s with methods := s.methods ++ [m] }

end Service

/-- The two kinds of scopes. -/
inductive ScopeKind where
  /-- A package, which several files may share. -/
  | package
  /-- A message, whose nested declarations it holds. -/
  | message
deriving DecidableEq

/-- A node of a schema. -/
inductive Node where
  /-- A package or a message and what is declared in it. -/
  | scope (kind : ScopeKind) (name fullName : String) (children : List Node)
  /-- An enum. -/
  | enum (name fullName : String)
  /-- A service. -/
  | service (s : Service)

/-- Two declarations with one full name. -/
structure DuplicateName where
  /-- The name that is taken. -/
  fullName : String
deriving DecidableEq

namespace Node

/-- The name of the node in its scope. -/
def name : Node → String
  | .scope _ name _ _ => name
  | .enum name _ => name
  | .service s => s.name

/-- The full name of the node. -/
def fullName : Node → String
  | .scope _ _ fullName _ => fullName
  | .enum _ fullName => fullName
  | .service s => s.fullName

/-- The nodes in a scope; a leaf has none. -/
def children : Node → List Node
  | .scope _ _ _ children => children
  | .enum .. => []
  | .service _ => []

/-- Whether the node is a scope. -/
def isScope : Node → Bool
  | .scope .. => true
  | _ => false

/-- Whether the node is a package. -/
def isPackage : Node → Bool
  | .scope .package .. => true
  | _ => false

/-- Whether the node is a message. -/
def isMessage : Node → Bool
  | .scope .message .. => true
  | _ => false

/-- The service at the node, if it is one. -/
def service? : Node → Option Service
  | .service s => some s
  | _ => none

/-- A scope named in its parent, with nothing in it yet. -/
def emptyScope (kind : ScopeKind) (parent name : String) : Node :=
  .scope kind name (Name.member parent name) []

end Node

/-- The node of a name. -/
def find? (nodes : List Node) (name : String) : Option Node :=
  nodes.find? fun n => n.name == name

/-- Puts a node in the place of the node of its name, or at the end. -/
def put (node : Node) : List Node → List Node
  | [] => [node]
  | n :: ns => if n.name = node.name then node :: ns else n :: put node ns

/-- Puts a node at the end unless its name is taken. -/
def insertNew (nodes : List Node) (node : Node) : Except DuplicateName (List Node) :=
  match find? nodes node.name with
  | some taken => .error ⟨taken.fullName⟩
  | none => .ok (nodes ++ [node])

/-- The node at a path of names. -/
def descend? (nodes : List Node) : List String → Option Node
  | [] => none
  | [name] => find? nodes name
  | name :: rest =>
    match find? nodes name with
    | some node => descend? node.children rest
    | none => none

/-- Edits the nodes of the scope at a path. Missing packages on the way are added; an enum
or a service on the way is in conflict with the path. `scope` is the full name of the
scope that holds `nodes`. -/
def updateScope (edit : String → List Node → Except DuplicateName (List Node))
    (scope : String) (nodes : List Node) : List String → Except DuplicateName (List Node)
  | [] => edit scope nodes
  | name :: rest =>
    let inner := Name.member scope name
    match find? nodes name with
    | none =>
      match updateScope edit inner [] rest with
      | .ok children => .ok (nodes ++ [.scope .package name inner children])
      | .error e => .error e
    | some (.scope kind n full children) =>
      match updateScope edit inner children rest with
      | .ok children => .ok (put (.scope kind n full children) nodes)
      | .error e => .error e
    | some _ => .error ⟨inner⟩

/-- Goes down a path in place.  A missing package is added as soon as the path comes to it, and
an enum or a service on the way ends the walk.  Gives the nodes as the walk leaves them, however
it ends, and the full name of the scope that it comes to. -/
def enterScope (scope : String) (nodes : List Node) :
    List String → List Node × Except DuplicateName String
  | [] => (nodes, .ok scope)
  | name :: rest =>
    let inner := Name.member scope name
    let nodes :=
      if (find? nodes name).isSome then nodes else nodes ++ [.emptyScope .package scope name]
    match find? nodes name with
    | some (.scope kind n full children) =>
      let (children, result) := enterScope inner children rest
      (put (.scope kind n full children) nodes, result)
    | _ => (nodes, .error ⟨inner⟩)

mutual

/-- A node and all nodes below it, each before those below it. -/
def Node.preorder : Node → List Node
  | .scope kind name fullName children =>
    .scope kind name fullName children :: preorderAll children
  | .enum name fullName => [.enum name fullName]
  | .service s => [.service s]

/-- All nodes of a forest, each before those below it. -/
def preorderAll : List Node → List Node
  | [] => []
  | n :: ns => n.preorder ++ preorderAll ns

end

/-- A schema: everything loaded for one entry file. -/
structure Root where
  /-- The files merged into the schema, entry file first. -/
  files : List String := []
  /-- The declarations outside every scope. -/
  nodes : List Node := []

namespace Root

/-- The node of a full name. -/
def get? (r : Root) (fullName : String) : Option Node :=
  match Name.path? fullName with
  | some path => descend? r.nodes path
  | none => none

/-- Edits the nodes of the scope at a path. -/
def update (r : Root) (path : List String)
    (edit : String → List Node → Except DuplicateName (List Node)) :
    Except DuplicateName Root :=
  match updateScope edit "" r.nodes path with
  | .ok nodes => .ok { r with nodes := nodes }
  | .error e => .error e

/-- Makes sure that a path names a scope. -/
def define (r : Root) (path : List String) : Except DuplicateName Root :=
  r.update path fun _ nodes => .ok nodes

/-- Goes down a path in place, and gives the schema as the walk leaves it. -/
def enter (r : Root) (path : List String) : Root × Except DuplicateName String :=
  let (nodes, result) := enterScope "" r.nodes path
  ({ r with nodes := nodes }, result)

/-- The nodes of the scope at a path; the empty path is the root scope. -/
def nodesAt (r : Root) (path : List String) : List Node :=
  match path with
  | [] => r.nodes
  | _ => ((descend? r.nodes path).map Node.children).getD []

end Root

/-- The full name of the scope at a path. -/
def scopeName (path : List String) : String :=
  path.foldl Name.member ""

end RpcBindings.Schema

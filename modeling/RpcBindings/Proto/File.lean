/-!
# Declarations of a schema source

What is kept of a source: its package, its imports, and its messages, enums and services.
Fields, options and the like are not kept.
-/
namespace RpcBindings.Proto

/-- A method as it is declared. -/
structure Rpc where
  /-- The name of the method. -/
  name : String
  /-- The request type as written. -/
  requestType : String
  /-- Whether the caller sends a stream. -/
  requestStream : Bool
  /-- The response type as written. -/
  responseType : String
  /-- Whether the answer is a stream. -/
  responseStream : Bool
deriving DecidableEq

/-- A declaration. -/
inductive Decl where
  /-- A message with the declarations nested in it. -/
  | message (name : String) (members : List Decl)
  /-- An enum; its values are not kept. -/
  | enum (name : String)
  /-- A service with its methods. -/
  | service (name : String) (methods : List Rpc)

/-- An import and where its path stands. -/
structure Import (Pos : Type) where
  /-- The path as written. -/
  path : String
  /-- The position of the string literal. -/
  pos : Pos
deriving DecidableEq

/-- What is kept of a source. -/
structure File (Pos : Type) where
  /-- The segments of the package name; empty without a package. -/
  package : List String := []
  /-- The imports in order. -/
  imports : List (Import Pos) := []
  /-- The declarations in order. -/
  decls : List Decl := []

end RpcBindings.Proto

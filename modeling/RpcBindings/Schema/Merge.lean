import RpcBindings.Proto.File
import RpcBindings.Schema.Tree

/-!
# Merging a source file

The declarations of a file go into the scope that its package names, one after the other.
A name can be declared once in a scope, whatever it is declared as. The members of a
message are put into the message before the message itself is put into its scope.
-/
namespace RpcBindings.Schema

open RpcBindings.Proto

/-- The service that a declaration describes. -/
def Service.ofDecl (parent name : String) (methods : List Rpc) : Service :=
  let empty : Service := { name := name, fullName := Name.member parent name }
  { empty with
    methods := methods.map fun m =>
      empty.method m.name m.requestType m.requestStream m.responseType m.responseStream }

mutual

/-- The node that a declaration in the scope `parent` describes. -/
def nodeOfDecl (parent : String) : Decl → Except DuplicateName Node
  | .message name members =>
    match insertDecls (Name.member parent name) [] members with
    | .ok children => .ok (.scope .message name (Name.member parent name) children)
    | .error e => .error e
  | .enum name => .ok (.enum name (Name.member parent name))
  | .service name methods => .ok (.service (Service.ofDecl parent name methods))

/-- Puts declarations into the scope `parent`, which holds `nodes`. -/
def insertDecls (parent : String) (nodes : List Node) :
    List Decl → Except DuplicateName (List Node)
  | [] => .ok nodes
  | d :: ds =>
    match nodeOfDecl parent d with
    | .error e => .error e
    | .ok node =>
      match insertNew nodes node with
      | .error e => .error e
      | .ok nodes => insertDecls parent nodes ds

end

/-- Merges a source file into a schema. -/
def Root.mergeFile {Pos : Type} (r : Root) (file : File Pos) : Except DuplicateName Root :=
  r.update file.package fun scope nodes => insertDecls scope nodes file.decls

end RpcBindings.Schema

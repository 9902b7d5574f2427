import RpcBindings.Json.Reader
import RpcBindings.Schema.Merge

/-!
# Schema descriptors in JSON

A descriptor is a tree of nodes. What a node is, is told by the keys it has: with
`methods` it is a service, otherwise with `fields` a message, otherwise with `values` an
enum, and otherwise a package. Keys that are not known are passed over. Of two entries of
one name in `nested` or `methods` the last one counts, at the place of the first.

A node and a method can also be written as arrays, with the values of their keys in order.
What is kept of a document is limited in depth, and its strings and keys have to be texts;
what is passed over only has to be JSON.

Packages of the same name are merged; any other two nodes of one name are in conflict.
-/
namespace RpcBindings.Schema

open RpcBindings.Json
open RpcBindings.Proto (Rpc)

/-- A node of a descriptor. -/
inductive Descriptor where
  /-- A package or message and its nodes. -/
  | scope (kind : ScopeKind) (name : String) (nested : List Descriptor)
  /-- An enum. -/
  | enum (name : String)
  /-- A service. -/
  | service (name : String) (methods : List Rpc)

/-- The name of a node. -/
def Descriptor.name : Descriptor → String
  | .scope _ name _ => name
  | .enum name => name
  | .service name _ => name

namespace Descriptor

/-- How many brackets and braces may be open around anything that is kept. -/
def maxDepth : Nat := 127

/-- The value of each key: from an object, in which no such key may be repeated, or from
an array that gives the values in the order of the keys. -/
def slots? (keys : List String) : Value → Option (List (Option Value))
  | .object entries => do
    let entries ← keyed? entries
    if keys.all fun key => (entries.filter fun e => e.1 == key).length ≤ 1 then
      some (keys.map fun key => entries.lookup key)
    else none
  | .array items =>
    if items.length ≤ keys.length then
      some ((List.range keys.length).map fun i => items[i]?)
    else none
  | _ => none

/-- A value that may be missing or `null`. -/
def given? : Option Value → Option Value
  | some .null => none
  | v => v

/-- Whether a value can be kept: texts are texts, numbers fit, and no more than `depth`
brackets are open in it. -/
def isKept (depth : Nat) : Value → Bool
  | .null => true
  | .bool _ => true
  | .number d => d.isFinite
  | .text s => s.isSome
  | .array items =>
    match depth with
    | 0 => false
    | depth + 1 => items.all (isKept depth)
  | .object entries =>
    match depth with
    | 0 => false
    | depth + 1 => entries.all fun e => e.1.isSome && isKept depth e.2
termination_by structural depth

/-- A text that has to be given. -/
def text? : Option Value → Option String
  | some (.text (some s)) => some s
  | _ => none

/-- A truth value that is `false` when it is not given. -/
def flag? : Option Value → Option Bool
  | none => some false
  | some (.bool b) => some b
  | _ => none

/-- Puts an entry in the place of the entry of its name, or at the end. -/
def putBy {α : Type} (name : α → String) (x : α) : List α → List α
  | [] => [x]
  | y :: ys => if name y == name x then x :: ys else y :: putBy name x ys

/-- The entries of an object, each decoded with the depth that is left; the last of one
name counts. -/
def entries? {α : Type} (name : α → String) (decode : Nat → String → Value → Option α)
    (depth : Nat) : Value → Option (List α)
  | .object entries =>
    match depth with
    | 0 => none
    | depth + 1 => do
      let xs ← (← keyed? entries).mapM fun e => decode depth e.1 e.2
      return xs.foldl (fun ys x => putBy name x ys) []
  | _ => none

/-- The method that a value describes. -/
def rpc? (depth : Nat) (name : String) (v : Value) : Option Rpc := do
  if depth == 0 then none
  match ← slots? ["requestType", "responseType", "requestStream", "responseStream"] v with
  | [request, response, requestStream, responseStream] =>
    return ⟨name, ← text? request, ← flag? requestStream, ← text? response,
      ← flag? responseStream⟩
  | _ => none

/-- Whether a kept value is given; nothing when it cannot be kept. -/
def presence? (depth : Nat) (v : Option Value) : Option Bool :=
  match given? v with
  | none => some false
  | some v => if isKept depth v then some true else none

/-- What the keys of a node say: the nodes in it and, unless it is a package, what else it
is. -/
structure Keys where
  /-- The nodes under `nested`. -/
  nested : List Descriptor
  /-- Whether `fields` are given. -/
  fields : Bool
  /-- Whether `values` are given. -/
  values : Bool
  /-- The methods, if they are given. -/
  methods : Option (List Rpc)

/-- What a node with these keys is. -/
def ofKeys (name : String) (k : Keys) : Descriptor :=
  match k.methods with
  | some methods => .service name methods
  | none =>
    if k.fields then .scope .message name k.nested
    else if k.values then .enum name
    else .scope .package name k.nested

/-- Reads the keys of a node. -/
def keys? : Nat → Value → Option Keys
  | 0, _ => none
  | depth + 1, v => do
    match ← slots? ["nested", "fields", "values", "methods"] v with
    | [nested, fields, values, methods] =>
      let nodes ← match given? nested with
        | none => some []
        | some (.object entries) =>
          match depth with
          | 0 => none
          | depth + 1 => do
            let nodes ← (← keyed? entries).mapM fun e => (keys? depth e.2).map (ofKeys e.1)
            some (nodes.foldl (fun ys x => putBy Descriptor.name x ys) [])
        | some _ => none
      let methods ← match given? methods with
        | none => some none
        | some v => (entries? Rpc.name rpc? depth v).map some
      return ⟨nodes, ← presence? depth fields, ← presence? depth values, methods⟩
    | _ => none

/-- The nodes that a document describes. Of the outermost node only the nested ones
count. -/
def parse? (document : String) : Option (List Descriptor) := do
  let v ← Json.parse? document
  return (← keys? maxDepth v).nested

mutual

/-- The node in the scope `parent` that a descriptor describes. -/
def toNode (parent : String) : Descriptor → Node
  | .scope kind name nested =>
    .scope kind name (Name.member parent name) (toNodes (Name.member parent name) nested)
  | .enum name => .enum name (Name.member parent name)
  | .service name methods => .service (Service.ofDecl parent name methods)

/-- The nodes in the scope `parent` that descriptors describe. -/
def toNodes (parent : String) : List Descriptor → List Node
  | [] => []
  | d :: ds => toNode parent d :: toNodes parent ds

end

end Descriptor

mutual

/-- Merges a node into a forest. -/
def mergeNode (nodes : List Node) : Node → Except DuplicateName (List Node)
  | .scope .package name fullName children =>
    match find? nodes name with
    | none => .ok (nodes ++ [.scope .package name fullName children])
    | some (.scope .package n full existing) =>
      match mergeNodes existing children with
      | .ok merged => .ok (put (.scope .package n full merged) nodes)
      | .error e => .error e
    | some taken => .error ⟨taken.fullName⟩
  | .scope .message name fullName children =>
    insertNew nodes (.scope .message name fullName children)
  | .enum name fullName => insertNew nodes (.enum name fullName)
  | .service s => insertNew nodes (.service s)

/-- Merges nodes into a forest, one after the other. -/
def mergeNodes (nodes : List Node) : List Node → Except DuplicateName (List Node)
  | [] => .ok nodes
  | n :: ns =>
    match mergeNode nodes n with
    | .ok nodes => mergeNodes nodes ns
    | .error e => .error e

end

/-- Merges a descriptor into a schema. -/
def Root.mergeDescriptors (r : Root) (ds : List Descriptor) : Except DuplicateName Root :=
  match mergeNodes r.nodes (Descriptor.toNodes "" ds) with
  | .ok nodes => .ok { r with nodes := nodes }
  | .error e => .error e

end RpcBindings.Schema

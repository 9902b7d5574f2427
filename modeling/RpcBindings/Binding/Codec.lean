import RpcBindings.Schema.Tree

/-!
# Codec tables

A generated class turns messages into bytes and back by private fields, one field per
direction and message type. A table holds the fields of one class in the order in which
their types are first needed. Fields are told apart by an identifier: the leaf name of the
type, else its qualified name with underscores, else that name with the first number from
2 on that makes it free. The search for that number has no bound of its own.
-/
namespace RpcBindings.Binding

open RpcBindings.Schema (TypeRef)

/-- Which way a codec works. -/
inductive Direction where
  /-- From a message to bytes. -/
  | serializer
  /-- From bytes to a message. -/
  | deserializer
deriving DecidableEq

/-- One codec field. -/
structure Codec where
  /-- Which way it works. -/
  direction : Direction
  /-- The message type it works on. -/
  message : TypeRef
  /-- What its name ends in. -/
  ident : String
deriving DecidableEq

/-- The generator that code is generated by. -/
inductive Role where
  /-- Client stubs. -/
  | client
  /-- Server bases. -/
  | server
  /-- The manifest of services. -/
  | manifest
deriving DecidableEq

/-- The name of a generator. -/
def Role.text : Role → String
  | .client => "client"
  | .server => "server"
  | .manifest => "meta"

/-- Whether an identifier is used by a field. -/
def isTaken (codecs : List Codec) (ident : String) : Bool :=
  codecs.any fun c => c.ident == ident

/-- A name to put numbers behind, and the identifiers that are taken. -/
structure Numbering where
  /-- What stands before the number. -/
  name : String
  /-- Whether an identifier is taken. -/
  taken : String → Bool

namespace Numbering

/-- The name with a number behind it. -/
def ident (c : Numbering) (n : Nat) : String :=
  c.name ++ "_" ++ toString n

/-- The first of the names with the numbers `n`, `n + 1`, … that is not taken. The search goes
on as long as they are taken; there is no result if it never ends. The numbers are not held to
32 bits, which a table of fewer than `2 ^ 31 - 2` fields does not need more than. -/
def firstFree? (c : Numbering) (n : Nat) : Option String :=
  if c.taken (c.ident n) then c |>.firstFree? (n + 1) else some (c.ident n)
partial_fixpoint

end Numbering

/-- The numbered names that a message can get. -/
def numbering (codecs : List Codec) (message : TypeRef) : Numbering :=
  ⟨Name.underscored message.qualified, isTaken codecs⟩

/-- An identifier for a message that no field uses. -/
def freshIdent (codecs : List Codec) (message : TypeRef) : String :=
  let long := Name.underscored message.qualified
  if !isTaken codecs message.name then message.name
  else if !isTaken codecs long then long
  else ((numbering codecs message).firstFree? 2).getD long

/-- The field of a message in one direction. -/
def findCodec? (codecs : List Codec) (message : TypeRef) : Option Codec :=
  codecs.find? fun c => c.message == message

/-- Adds a field for a message unless it has one. -/
def addCodec (direction : Direction) (codecs : List Codec) (message : TypeRef) : List Codec :=
  match findCodec? codecs message with
  | some _ => codecs
  | none => codecs ++ [⟨direction, message, freshIdent codecs message⟩]

/-- The codec fields of one class. -/
structure CodecTable where
  /-- The fields that turn messages into bytes. -/
  serializers : List Codec := []
  /-- The fields that turn bytes into messages. -/
  deserializers : List Codec := []

namespace CodecTable

/-- Adds a field for a message unless it has one. -/
def register (t : CodecTable) (direction : Direction) (message : TypeRef) : CodecTable :=
  match direction with
  | .serializer => { t with serializers := addCodec .serializer t.serializers message }
  | .deserializer => { t with deserializers := addCodec .deserializer t.deserializers message }

/-- The field that turns a message into bytes. -/
def serializer? (t : CodecTable) (message : TypeRef) : Option Codec :=
  findCodec? t.serializers message

/-- The field that turns bytes into a message. -/
def deserializer? (t : CodecTable) (message : TypeRef) : Option Codec :=
  findCodec? t.deserializers message

/-- The field of a message in a direction. -/
def codec? (t : CodecTable) : Direction → TypeRef → Option Codec
  | .serializer => t.serializer?
  | .deserializer => t.deserializer?

/-- The fields of a direction, in order. -/
def fields (t : CodecTable) : Direction → List Codec
  | .serializer => t.serializers
  | .deserializer => t.deserializers

/-- Adds a field for a message unless it has one, and tells whether it did. -/
def registerIfNew (t : CodecTable) (direction : Direction) (message : TypeRef) :
    CodecTable × Bool :=
  match t.codec? direction message with
  | some _ => (t, false)
  | none => (t.register direction message, true)

/-- All fields, serializers first. -/
def codecs (t : CodecTable) : List Codec :=
  t.serializers ++ t.deserializers

/-- The number of fields. -/
def size (t : CodecTable) : Nat :=
  t.serializers.length + t.deserializers.length

/-- Whether there are no fields. -/
def isEmpty (t : CodecTable) : Bool :=
  t.serializers.isEmpty && t.deserializers.isEmpty

/-- Adds the fields that a generator needs for a method: a client sends requests and reads
responses, a server can do both with both, and the manifest does neither. -/
def bindMethod (role : Role) (t : CodecTable) (request response : TypeRef) : CodecTable :=
  match role with
  | .client => (t.register .serializer request).register .deserializer response
  | .server =>
    (((t.register .serializer request).register .serializer response).register
      .deserializer request).register .deserializer response
  | .manifest => t

/-- The fields for methods with the given requests and responses. -/
def bind (role : Role) (methods : List (TypeRef × TypeRef)) : CodecTable :=
  methods.foldl (fun t m => t.bindMethod role m.1 m.2) {}

end CodecTable

end RpcBindings.Binding

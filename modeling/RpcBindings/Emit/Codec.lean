import RpcBindings.Binding.Service

/-!
# Codec fields in generated classes

A codec is declared as a private field and used through `this`. Declaration and use spell
the same field name.
-/
namespace RpcBindings.Emit

open RpcBindings.Binding
open RpcBindings.Schema (TypeRef)

/-- The field name of an identifier. -/
def codecName (direction : Direction) (ident : String) : String :=
  match direction with
  | .serializer => "serialize" ++ ident
  | .deserializer => "deserialize" ++ ident

/-- The declaration of a codec field, without its semicolon. -/
def codecField (c : Codec) : String :=
  "private " ++ codecName c.direction c.ident ++ " = "
    ++ match c.direction with
      | .serializer =>
        "(message: " ++ c.message.interface ++ ") => <Buffer>" ++ c.message.qualified
          ++ ".encode(message).finish()"
      | .deserializer =>
        "(buffer: Buffer) => " ++ c.message.qualified ++ ".decode(<Uint8Array>buffer)"

/-- The use of a codec field. A message without a field is named by its leaf name. -/
def codecUse (table : CodecTable) (direction : Direction) (message : TypeRef) : String :=
  let ident := ((table.codec? direction message).map Codec.ident).getD message.name
  "this." ++ codecName direction ident

/-- The comment that stands for a method that is left out. -/
def omissionComment (o : Omission) : String :=
  o.name ++ ": skipped, unresolved type " ++ ", ".intercalate o.unresolved

end RpcBindings.Emit

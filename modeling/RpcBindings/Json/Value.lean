import RpcBindings.Json.Decimal

/-!
# JSON values

A value as it stands in a document. The entries of an object keep their order and their
repetitions: what a repeated key means is for the reader of the document to say. A string
or key whose escapes spell half of a surrogate pair stands for no text; whether it may
stand where it does is for the reader to say as well.
-/
namespace RpcBindings.Json

/-- A JSON value. -/
inductive Value where
  /-- The value `null`. -/
  | null
  /-- A truth value. -/
  | bool (b : Bool)
  /-- A number. -/
  | number (d : Decimal)
  /-- A string, or nothing when its escapes spell no text. -/
  | text (s : Option String)
  /-- An array. -/
  | array (items : List Value)
  /-- An object with its entries as they are written. -/
  | object (entries : List (Option String × Value))

/-- The entries of an object whose keys all are texts. -/
def keyed? (entries : List (Option String × Value)) : Option (List (String × Value)) :=
  entries.mapM fun e => e.1.map fun key => (key, e.2)

end RpcBindings.Json

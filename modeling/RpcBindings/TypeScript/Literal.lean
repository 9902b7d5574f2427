import RpcBindings.Layout.Fragment

/-!
# Object and array literals

An object literal is a list of properties and an array literal a list of elements; each
may hold the other. An array without objects is written on one line; an array with an
object is written one element at a time.
-/
namespace RpcBindings.TypeScript

open RpcBindings.Layout

mutual

/-- An entry of an object literal. -/
inductive Property where
  /-- A string value, which is written between quotes. -/
  | text (key value : String)
  /-- An expression, which is written as it is. -/
  | raw (key value : String)
  /-- A nested object. -/
  | object (key : String) (properties : List Property)
  /-- A nested array. -/
  | array (key : String) (elements : List Element)
  /-- An arrow function with the lines of its body. -/
  | arrow (key params : String) (body : List String)
  /-- A comment that stands where a property could. -/
  | comment (text : String)

/-- An entry of an array literal. -/
inductive Element where
  /-- A string value, which is written between quotes. -/
  | text (value : String)
  /-- An expression, which is written as it is. -/
  | raw (value : String)
  /-- An object, which is written on lines of its own. -/
  | object (properties : List Property)

end

/-- An object literal. -/
abbrev ObjectLiteral := List Property

/-- An array literal. -/
abbrev ArrayLiteral := List Element

/-- A text between double quotes. -/
def quoted (s : String) : String :=
  "\"" ++ s ++ "\""

namespace Element

/-- Whether the element is an object. -/
def isObject : Element → Bool
  | .object _ => true
  | _ => false

/-- The element inside a line; an object has no room there and shrinks to its braces. -/
def inline : Element → String
  | .text value => quoted value
  | .raw value => value
  | .object _ => "\x7b\x7d"

end Element

namespace ArrayLiteral

/-- Whether the array is written on one line. -/
def isInline (elements : ArrayLiteral) : Bool :=
  !elements.any Element.isObject

/-- The array on one line. -/
def inline (elements : ArrayLiteral) : String :=
  "[" ++ ", ".intercalate (elements.map Element.inline) ++ "]"

end ArrayLiteral

mutual

/-- A property as code, with the comma that follows it. -/
def Property.fragment : Property → Fragment
  | .text key value => .line (key ++ ": " ++ quoted value ++ ",")
  | .raw key value => .line (key ++ ": " ++ value ++ ",")
  | .object key properties =>
    .enclosed (key ++ ": \x7b") (ObjectLiteral.body properties) "\x7d,"
  | .array key elements =>
    if ArrayLiteral.isInline elements then
      .line (key ++ ": " ++ ArrayLiteral.inline elements ++ ",")
    else .enclosed (key ++ ": [") (ArrayLiteral.body elements) "],"
  | .arrow key params body =>
    .enclosed (key ++ ": (" ++ params ++ ") => \x7b") (body.map Fragment.line) "\x7d,"
  | .comment text => .comment text

/-- An element on lines of its own, with the comma that follows it. -/
def Element.fragment : Element → Fragment
  | .text value => .line (quoted value ++ ",")
  | .raw value => .line (value ++ ",")
  | .object properties => .enclosed "\x7b" (ObjectLiteral.body properties) "\x7d,"

/-- The properties of an object, without the braces around them. -/
def ObjectLiteral.body : ObjectLiteral → List Fragment
  | [] => []
  | p :: ps => p.fragment :: ObjectLiteral.body ps

/-- The elements of an array, without the brackets around them. -/
def ArrayLiteral.body : ArrayLiteral → List Fragment
  | [] => []
  | e :: es => e.fragment :: ArrayLiteral.body es

end

/-- An object literal as code. -/
def ObjectLiteral.fragments (properties : ObjectLiteral) : List Fragment :=
  if properties.isEmpty then [.raw "\x7b\x7d"]
  else [.enclosed "\x7b" properties.body "\x7d"]

/-- An array literal as code. -/
def ArrayLiteral.fragments (elements : ArrayLiteral) : List Fragment :=
  if elements.isInline then [.raw elements.inline]
  else [.enclosed "[" elements.body "]"]

end RpcBindings.TypeScript

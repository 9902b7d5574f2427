import RpcBindings.Layout.Fragment

/-!
# Classes

A class body is a list of members. Blank lines are asked for between groups of members:
a request at the start of the body or right after another blank is dropped at once, and
blanks that nothing follows are dropped when the class is written. So a written body
neither starts nor ends with a blank and never has two in a row.
-/
namespace RpcBindings.TypeScript

open RpcBindings.Layout

/-- A parameter of a method. -/
structure Param where
  /-- The name it is bound to. -/
  name : String
  /-- Its type. -/
  type : String
  /-- Whether callers may leave it out. -/
  optional : Bool := false

/-- The parameter as it stands in a signature. -/
def Param.text (p : Param) : String :=
  p.name ++ (if p.optional then "?" else "") ++ ": " ++ p.type

/-- A method or the constructor of a class. -/
structure Method where
  /-- The name of the method. -/
  name : String
  /-- An abstract method has a signature and no body. -/
  isAbstract : Bool := false
  /-- The parameters in order. -/
  params : List Param := []
  /-- The type of the result, if it is written. -/
  returns : Option String := none
  /-- The statements of the body. -/
  body : List Fragment := []

namespace Method

/-- The head of the method up to its result type. -/
def signature (m : Method) : String :=
  (if m.isAbstract then "abstract " else "") ++ m.name
    ++ "(" ++ ", ".intercalate (m.params.map Param.text) ++ ")"
    ++ (match m.returns with
      | some type => ": " ++ type
      | none => "")

/-- The method as one fragment. -/
def fragment (m : Method) : Fragment :=
  if m.isAbstract then .line (m.signature ++ ";")
  else .enclosed (m.signature ++ " \x7b") m.body "\x7d"

end Method

/-- A member of a class body. -/
inductive Member where
  /-- A field declaration without its semicolon. -/
  | field (declaration : String)
  /-- A method. -/
  | method (m : Method)
  /-- A comment line. -/
  | comment (text : String)
  /-- An empty line between groups of members. -/
  | blank

namespace Member

/-- Whether the member is an empty line. -/
def isBlank : Member → Bool
  | .blank => true
  | _ => false

/-- The member as code. -/
def fragment : Member → Fragment
  | .field declaration => .line (declaration ++ ";")
  | .method m => m.fragment
  | .comment text => .comment text
  | .blank => .blank

end Member

/-- An exported class. -/
structure ClassDecl where
  /-- The name of the class. -/
  name : String
  /-- Whether the class is abstract. -/
  isAbstract : Bool := false
  /-- The class it extends. -/
  base : Option String := none
  /-- The members so far, in order. -/
  members : List Member := []

namespace ClassDecl

/-- Adds a member that is not a blank. -/
def add (c : ClassDecl) (m : Member) : ClassDecl :=
  { c with members := c.members ++ [m] }

/-- Adds a field declaration. -/
def addField (c : ClassDecl) (declaration : String) : ClassDecl :=
  c.add (.field declaration)

/-- Adds a method. -/
def addMethod (c : ClassDecl) (m : Method) : ClassDecl :=
  c.add (.method m)

/-- Adds a comment line. -/
def addComment (c : ClassDecl) (text : String) : ClassDecl :=
  c.add (.comment text)

/-- Asks for an empty line before the next member. -/
def addBlank (c : ClassDecl) : ClassDecl :=
  match c.members.getLast? with
  | none => c
  | some .blank => c
  | some _ => c.add .blank

/-- The head of the class up to its opening brace. -/
def header (c : ClassDecl) : String :=
  "export " ++ (if c.isAbstract then "abstract " else "") ++ "class " ++ c.name
    ++ (match c.base with
      | some base => " extends " ++ base
      | none => "")
    ++ " \x7b"

/-- The members that are written: blanks at the end are dropped. -/
def writtenMembers (c : ClassDecl) : List Member :=
  (c.members.reverse.dropWhile Member.isBlank).reverse

/-- The class as code. -/
def fragments (c : ClassDecl) : List Fragment :=
  [.enclosed c.header (c.writtenMembers.map Member.fragment) "\x7d"]

end ClassDecl

end RpcBindings.TypeScript

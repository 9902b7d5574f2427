import RpcBindings.Text.Split

/-!
# Dotted names

A full name starts with the root anchor: `.foo.bar.Msg` names `Msg` in the scope
`.foo.bar`. Every name form of the generated code is read off a full name, and every one
of them is total: a name without any dot is a leaf directly under the root.
-/
namespace RpcBindings.Name

/-- The scope and the leaf of a name that has a dot. -/
def split? (name : String) : Option (String × String) :=
  (Text.cutLast '.' name.toList).map fun (scope, leaf) =>
    (String.ofList scope, String.ofList leaf)

/-- The full name of the member `leaf` of the scope `scope`; the root scope is empty. -/
def member (scope leaf : String) : String :=
  scope ++ "." ++ leaf

/-- The name without its root anchor: `.foo.bar.Msg` gives `foo.bar.Msg`. -/
def qualified (name : String) : String :=
  match name.toList with
  | '.' :: rest => String.ofList rest
  | _ => name

/-- The last segment: `.foo.bar.Msg` gives `Msg`. -/
def leaf (name : String) : String :=
  match split? name with
  | some (_, last) => last
  | none => name

/-- The scope that holds the name: `.foo.bar.Msg` gives `.foo.bar`. A name at the root, or
one without a dot, is in the root scope. -/
def scope (name : String) : String :=
  match split? name with
  | some (before, _) => before
  | none => ""

/-- The name of the plain-data interface of a message: `.foo.bar.Msg` gives
`foo.bar.IMsg`. -/
def interface (name : String) : String :=
  match split? (qualified name) with
  | some (before, last) => before ++ ".I" ++ last
  | none => "I" ++ qualified name

/-- The routing key of a method on the wire: `.pkg.Svc.Method` gives `/pkg.Svc/Method`. -/
def rpcPath (name : String) : String :=
  match split? (qualified name) with
  | some (before, last) => "/" ++ before ++ "/" ++ last
  | none => "//" ++ qualified name

/-- Whether the last dot of the name is its anchor, as in `.Msg`. -/
def isRootLevel (name : String) : Bool :=
  match Text.cutLast '.' name.toList with
  | some (before, _) => before.isEmpty
  | none => false

/-- Whether the name starts with the root anchor. -/
def isAbsolute (name : String) : Bool :=
  name.toList.head? == some '.'

/-- The segments of a dotted name; a name without a dot is its only segment. -/
def segments (name : String) : List String :=
  Text.pieces '.' name

/-- The path that a full name spells, or nothing when the root anchor is missing. -/
def path? (name : String) : Option (List String) :=
  match name.toList with
  | '.' :: rest => some ((Text.splitOn '.' rest).map String.ofList)
  | _ => none

/-- The first segment of a dotted name. -/
def first (name : String) : String :=
  String.ofList (name.toList.takeWhile (· ≠ '.'))

/-- The name with every dot replaced by an underscore, so that it can stand inside an
identifier. -/
def underscored (name : String) : String :=
  String.ofList (name.toList.map fun c => if c = '.' then '_' else c)

/-- The scope `cs` and all scopes around it, innermost first; the root scope comes last. -/
def enclosingScopes (cs : List Char) : List (List Char) :=
  if cs.isEmpty then [[]]
  else
    match h : Text.cutLast '.' cs with
    | some (outer, _) =>
      have : outer.length < cs.length := by
        have := congrArg List.length (Text.eq_of_cutLast h)
        simp only [List.length_append, List.length_cons] at this
        omega
      cs :: enclosingScopes outer
    | none => [cs, []]
termination_by cs.length

/-- The scopes in which a relative name is looked up, innermost first. -/
def enclosing (scope : String) : List String :=
  (enclosingScopes scope.toList).map String.ofList

end RpcBindings.Name

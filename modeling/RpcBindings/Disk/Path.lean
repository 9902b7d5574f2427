import RpcBindings.Text.Split

/-!
# Paths

A path is the text it was written as; joining and taking parents never normalise it. Its
components are what two spellings of it share: repeated and trailing slashes and `.`
components after the first are not components, a leading `.` is one, and `..` is never
folded.
-/
namespace RpcBindings.Disk

/-- A path as it was written. -/
abbrev Path := String

namespace Path

/-- A piece between slashes that names nothing: empty, or `.` behind another piece. -/
def isIdle (piece : String) : Bool :=
  piece == "" || piece == "."

/-- Whether the path starts at the root directory. -/
def isAbsolute (path : Path) : Bool :=
  path.toList.head? == some '/'

/-- The components of a path; the root directory is the component `/`. -/
def components (path : Path) : List String :=
  match Text.pieces '/' path with
  | [] => []
  | first :: rest =>
    (if first != "" then [first] else if path.isAbsolute then ["/"] else [])
      ++ rest.filter fun piece => !isIdle piece

/-- Whether two paths are spellings with the same components. -/
def sameComponents (p q : Path) : Bool :=
  p.components == q.components

/-- The path `p` seen from the directory `dir`. -/
def join (dir p : Path) : Path :=
  if p.isAbsolute then p
  else if dir == "" || dir.toList.getLast? == some '/' then dir ++ p
  else dir ++ "/" ++ p

/-- Pieces put together again; a lone empty first piece is the root directory. -/
def ofPieces (pieces : List String) : Path :=
  if pieces == [""] then "/" else "/".intercalate pieces

/-- Drops the pieces at the end that name nothing. -/
def trimIdle (pieces : List String) : List String :=
  (pieces.reverse.dropWhile isIdle).reverse

/-- The path without its last component. The empty path and the root directory have no
parent; the parent of a lone name is the empty path. -/
def parent? (path : Path) : Option Path :=
  match Text.pieces '/' path with
  | [] => none
  | first :: rest =>
    match trimIdle rest with
    | [] => if first == "" then none else some ""
    | trimmed => some (ofPieces (first :: trimIdle trimmed.dropLast))

/-- The directory a file is in, as text. -/
def directory (path : Path) : Path :=
  path.parent?.getD ""

/-- Ancestors of `first` followed by the pieces of `behind`, which stand last piece
first. -/
def ancestorsFrom (first : String) : List String → List Path
  | [] => if first == "" then ["/"] else [first]
  | piece :: rest =>
    if isIdle piece then ancestorsFrom first rest
    else ofPieces (first :: (piece :: rest).reverse) :: ancestorsFrom first rest

/-- The path and the directories above it, innermost first, without the empty path. -/
def ancestors (path : Path) : List Path :=
  match Text.pieces '/' path with
  | [] => []
  | first :: rest =>
    if path == "" then [] else ancestorsFrom first rest.reverse

/-- The last component when it is a name. -/
def fileName? (path : Path) : Option String :=
  match path.components.getLast? with
  | some name => if name == "/" || name == "." || name == ".." then none else some name
  | none => none

/-- What follows the last dot of the file name. A dot that starts the name does not
count. -/
def extension? (path : Path) : Option String :=
  match path.fileName? with
  | none => none
  | some name =>
    match Text.cutLast '.' name.toList with
    | some (before, after) => if before.isEmpty then none else some (String.ofList after)
    | none => none

/-- Whether the file name has the extension, whatever the case of its ASCII letters. -/
def hasExtension (path : Path) (extension : String) : Bool :=
  match path.extension? with
  | some found => found.toList.map Char.toLower == extension.toList
  | none => false

end Path

end RpcBindings.Disk

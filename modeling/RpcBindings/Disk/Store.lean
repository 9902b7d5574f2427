import RpcBindings.Disk.Path
import RpcBindings.Text.Lines
import RpcBindings.Text.Utf8

/-!
# The file store

A store holds files and directories as one plain value, so reading is a function of it and
writing gives another one. Everything lies below one root directory. A path that starts with
a slash is walked from there, and every other one from the working directory, the way the
operating system walks it: `..` needs the directory before it to exist and stays at the root
directory, a file cannot be walked through, and a trailing slash asks for a directory. There
are no links, and whoever asks may read and write everything.
-/
namespace RpcBindings.Disk

/-- Why a path could not be read or written. -/
inductive Fault where
  /-- Nothing has that name. -/
  | notFound
  /-- A directory stands where a file is asked for. -/
  | isDirectory
  /-- A file stands where a directory is asked for. -/
  | notDirectory
  /-- The bytes are no UTF-8 text. -/
  | notText
  /-- The name is taken. -/
  | alreadyExists
  /-- The path or one of its names is longer than the system takes. -/
  | nameTooLong
  /-- The path holds a NUL character. -/
  | badPath
deriving DecidableEq

/-- What a file holds. Bytes that spell a text are kept as that text. -/
inductive Content where
  /-- UTF-8 text. -/
  | text (s : String)
  /-- Bytes that are no UTF-8 text. -/
  | binary (bytes : List UInt8)
deriving DecidableEq

namespace Content

/-- The content made of some bytes. -/
def ofBytes (bytes : List UInt8) : Content :=
  match Text.decode? bytes with
  | some s => .text s
  | none => .binary bytes

/-- The content as text, if it is text. -/
def text? : Content → Option String
  | .text s => some s
  | .binary _ => none

/-- The content as text, with the replacement character for what is no text. -/
def display : Content → String
  | .text s => s
  | .binary bytes => Text.decodeLossy bytes

end Content

/-- What stands at a place. -/
inductive Entry where
  /-- A regular file. -/
  | file (content : Content)
  /-- A directory. -/
  | directory
deriving DecidableEq

/-- The names from the root directory down. -/
abbrev Route := List String

/-- The files and directories below the root directory. -/
structure Store where
  /-- What stands where. The working directory and the directories above it are always there
  and are not listed. -/
  entries : List (Route × Entry) := []
  /-- The directory that relative paths are walked from. -/
  workingDirectory : Route := []

namespace Store

/-- What stands at a route. -/
def entryAt (s : Store) (route : Route) : Option Entry :=
  if route.isPrefixOf s.workingDirectory then some .directory else s.entries.lookup route

/-- Puts an entry at a route, in place of what stood there. -/
def put (s : Store) (route : Route) (entry : Entry) : Store :=
  if s.entries.any fun e => e.1 == route then
    { s with entries := s.entries.map fun e => if e.1 == route then (route, entry) else e }
  else { s with entries := s.entries ++ [(route, entry)] }

/-- Whether a directory stands at a route, so that it can be walked through. -/
def isWalkable (s : Store) (route : Route) : Bool :=
  s.entryAt route == some .directory

/-- The longest path the system takes, in bytes. -/
def maxPathBytes : Nat := 4095

/-- The longest name the system takes, in bytes. -/
def maxNameBytes : Nat := 255

/-- One step of a walk: an empty piece or `.` stays, `..` goes up as far as the root
directory, and a name goes down to an entry that exists. -/
def step (s : Store) (route : Route) (piece : String) : Except Fault Route :=
  if !s.isWalkable route then .error .notDirectory
  else if Path.isIdle piece then .ok route
  else if piece == ".." then .ok route.dropLast
  else if Text.byteLength piece.toList > maxNameBytes then .error .nameTooLong
  else if (s.entryAt (route ++ [piece])).isSome then .ok (route ++ [piece])
  else .error .notFound

/-- Where the walk of a path starts. -/
def start (s : Store) (path : Path) : Route :=
  if path.isAbsolute then [] else s.workingDirectory

/-- The system refuses some paths before it walks them. -/
def checkPath (path : Path) : Except Fault Unit :=
  if path == "" then .error .notFound
  else if path.toList.contains (Char.ofNat 0) then .error .badPath
  else if Text.byteLength path.toList > maxPathBytes then .error .nameTooLong
  else .ok ()

/-- The route that a path leads to. -/
def locate (s : Store) (path : Path) : Except Fault Route := do
  checkPath path
  (Text.pieces '/' path).foldlM s.step (s.start path)

/-- The content of the file at a path. -/
def readContent (s : Store) (path : Path) : Except Fault Content := do
  match s.entryAt (← s.locate path) with
  | some (.file content) => .ok content
  | some .directory => .error .isDirectory
  | none => .error .notFound

/-- The text of the file at a path. -/
def readText (s : Store) (path : Path) : Except Fault String := do
  match (← s.readContent path).text? with
  | some text => .ok text
  | none => .error .notText

/-- Whether a path names a regular file. -/
def isFile (s : Store) (path : Path) : Bool :=
  match s.readContent path with
  | .ok _ => true
  | .error _ => false

/-- Whether a path names a directory. -/
def isDirectory (s : Store) (path : Path) : Bool :=
  match s.locate path with
  | .ok route => s.isWalkable route
  | .error _ => false

/-- The pieces before the last one, and the last one; slashes at the end of the path do not
count as pieces. -/
def splitLast (path : Path) : List String × String :=
  match (Text.pieces '/' path).reverse.dropWhile (· == "") with
  | [] => ([], "")
  | last :: before => (before.reverse, last)

/-- Whether the path asks for a directory by the slash at its end. -/
def endsInSlash (path : Path) : Bool :=
  path.toList.getLast? == some '/'

/-- The directory that the last piece of a path is looked up in, and that piece. -/
def locateParent (s : Store) (path : Path) : Except Fault (Route × String) := do
  checkPath path
  let (before, last) := splitLast path
  let dir ← before.foldlM s.step (s.start path)
  if s.isWalkable dir then .ok (dir, last) else .error .notDirectory

/-- Where a path leads that may name a new entry. -/
inductive Spot where
  /-- Something stands there. -/
  | taken (route : Route)
  /-- Nothing stands there, and there is room for an entry. -/
  | free (route : Route)
deriving DecidableEq

/-- Where a new entry named by a path would stand: the directory it would be put in is
walked, and its own name is not. A last piece that is no name leads to what stands there. -/
def locateNew (s : Store) (path : Path) : Except Fault Spot := do
  let (dir, last) ← s.locateParent path
  match s.step dir last with
  | .ok route => .ok (.taken route)
  | .error .notFound => .ok (.free (dir ++ [last]))
  | .error fault => .error fault

/-- Makes one directory, whose parent has to exist. -/
def makeDirectory (s : Store) (path : Path) : Except Fault Store := do
  match ← s.locateNew path with
  | .taken _ => .error .alreadyExists
  | .free route => .ok (s.put route .directory)

/-- Makes the first directory of the list, and before it those behind it that are missing.
The list holds a path and the directories above it, innermost first. What was made stays
made when a later step fails. -/
def makeChain (s : Store) : List Path → Store × Except Fault Unit
  | [] => (s, .ok ())
  | path :: above =>
    match s.makeDirectory path with
    | .ok s' => (s', .ok ())
    | .error .notFound =>
      match s.makeChain above with
      | (s', .error fault) => (s', .error fault)
      | (s', .ok ()) =>
        match s'.makeDirectory path with
        | .ok s'' => (s'', .ok ())
        | .error fault => (s', if s'.isDirectory path then .ok () else .error fault)
    | .error fault => (s, if s.isDirectory path then .ok () else .error fault)

/-- Makes a directory and all missing directories above it. -/
def makeDirectories (s : Store) (path : Path) : Store × Except Fault Unit :=
  s.makeChain path.ancestors

/-- Puts content into a file whose directory exists. A path that ends in a slash names no
file, and its last name is not even looked up. -/
def putContent (s : Store) (path : Path) (content : Content) : Except Fault Store := do
  let _ ← s.locateParent path
  if endsInSlash path then .error .isDirectory
  else
    match ← s.locateNew path with
    | .taken route =>
      if s.isWalkable route then .error .isDirectory else .ok (s.put route (.file content))
    | .free route => .ok (s.put route (.file content))

/-- Writes a file after making the directories it is in. -/
def putFile (s : Store) (path : Path) (content : Content) : Store × Except Fault Unit :=
  let (s, made) := match path.parent? with
    | some dir => s.makeDirectories dir
    | none => (s, .ok ())
  match made with
  | .error fault => (s, .error fault)
  | .ok () =>
    match s.putContent path content with
    | .ok s' => (s', .ok ())
    | .error fault => (s, .error fault)

/-- What happened to a file that was to be written. -/
inductive WriteStatus where
  /-- It was written. -/
  | written
  /-- It held that text already and was left alone. -/
  | unchanged
deriving DecidableEq

/-- Writes a text to a file unless the file holds it already. -/
def save (s : Store) (path : Path) (text : String) : Store × Except Fault WriteStatus :=
  if (s.readText path).toOption = some text then (s, .ok .unchanged)
  else
    match s.putFile path (.text text) with
    | (s', .ok ()) => (s', .ok .written)
    | (s', .error fault) => (s', .error fault)

/-- The files and directories below the working directory as paths in order, a directory with
a slash at its end. -/
def listing (s : Store) : List (String × Option Content) :=
  let below := s.entries.filter fun e => s.workingDirectory.isPrefixOf e.1
  let named := below.map fun (route, entry) =>
    let path := "/".intercalate (route.drop s.workingDirectory.length)
    match entry with
    | .file content => (path, some content)
    | .directory => (path ++ "/", none)
  named.mergeSort fun a b => decide (a.1 ≤ b.1)

end Store

end RpcBindings.Disk

import RpcBindings.Log
import RpcBindings.Proto.Reader
import RpcBindings.Schema.Descriptor
import RpcBindings.Schema.Merge
import RpcBindings.Schema.Problem
import RpcBindings.Schema.Resolve

/-!
# Loading schemas

A schema is loaded from an entry file and everything it imports, depth first. A file is
marked when it is opened and merged after its imports, so a file that is reached again is
passed over, also while it is still open. An import is looked for next to the importing
file and then in the include directories; a well-known one may be missing.

Files are the same when their paths have the same components. The system takes paths up to
a fixed length, so there are finitely many, and the recursion through imports, which never
opens one of them twice, ends below their number.
-/
namespace RpcBindings.Schema

open RpcBindings.Disk
open RpcBindings.Proto (File Import Span)

/-- A schema that is being loaded, and what has been done for it. -/
structure Loading where
  /-- The schema so far. -/
  root : Root := {}
  /-- What has been done, in order. -/
  events : List Event := []

/-- A load that failed, and what was done before. -/
structure LoadFailure where
  /-- What went wrong. -/
  problem : Problem
  /-- What had been done, in order. -/
  events : List Event

/-- Imports under this path may be missing from disk. -/
def wellKnownPath : String := "google/protobuf/"

/-- Whether a file with the components of the path is in the schema. -/
def Root.hasFile (r : Root) (path : Path) : Bool :=
  r.files.any fun file => Path.sameComponents file path

namespace Loading

/-- Notes an event. -/
def log (l : Loading) (e : Event) : Loading :=
  { l with events := l.events ++ [e] }

/-- Marks a file as part of the schema. -/
def mark (l : Loading) (path : Path) : Loading :=
  { l with root := { l.root with files := l.root.files ++ [path] } }

/-- Fails with a problem. -/
def fail (l : Loading) (problem : Problem) : Except LoadFailure Loading :=
  .error ⟨problem, l.events⟩

/-- Takes over a merge into the schema. -/
def merged (l : Loading) (path : Path) (result : Except DuplicateName Root) :
    Except LoadFailure Loading :=
  match result with
  | .ok root => .ok { l with root := root }
  | .error e => l.fail (.duplicateName path e.fullName)

end Loading

/-- The paths that an import of `importer` can stand for, in the order in which they are tried. -/
def importCandidates (includes : List Path) (importer : Path) (path : String) : List Path :=
  (importer.directory :: includes).map fun dir => Path.join dir path

/-- The file that an import of `importer` stands for. -/
def findImport (disk : Store) (includes : List Path) (importer : Path) (path : String) :
    Option Path :=
  (importCandidates includes importer path).find? disk.isFile

/-- Loads what an import of `importer` stands for, with `load` for the file itself. -/
def loadImport (disk : Store) (includes : List Path) (importer : Path)
    (load : Loading → Path → Except LoadFailure Loading) (l : Loading) (i : Import Span) :
    Except LoadFailure Loading :=
  match findImport disk includes importer i.path with
  | some file => load l file
  | none =>
    if wellKnownPath.toList.isPrefixOf i.path.toList then .ok (l.log (.importPassedOver i.path))
    else l.fail (.importNotFound importer i.path i.pos)

/-- Merges a JSON document. -/
def loadDescriptor (l : Loading) (path : Path) (text : String) : Except LoadFailure Loading :=
  match Descriptor.parse? text with
  | none => l.fail (.badDescriptor path none)
  | some ds => l.merged path (l.root.mergeDescriptors ds)

/-- Loads a file and its imports into a schema, through at most `bound` files that are open
at once. -/
def loadInto (disk : Store) (includes : List Path) :
    Nat → Loading → Path → Except LoadFailure Loading
  | 0, l, path => l.fail (.importsTooDeep path)
  | bound + 1, l, path =>
    if l.root.hasFile path then .ok l
    else
      let l := l.mark path
      match disk.readText path with
      | .error cause => l.fail (.unreadable path cause)
      | .ok text =>
        let l := l.log (.schemaRead path)
        if path.hasExtension "json" then loadDescriptor l path text
        else
          match Proto.parse text with
          | .error e => l.fail (.badSource path e.fault e.span)
          | .ok file =>
            match file.imports.foldlM
                (loadImport disk includes path (loadInto disk includes bound)) l with
            | .error e => .error e
            | .ok l => l.merged path (l.root.mergeFile file)

/-- More than there are paths that the system takes. The number is far too large to be
computed with. -/
@[irreducible]
def pathBound : Nat := Nat.pow 256 (Store.maxPathBytes + 1)

/-- Loads an entry file into a schema of its own. -/
def load (disk : Store) (includes : List Path) (entry : Path) : Except LoadFailure Loading :=
  loadInto disk includes pathBound {} entry

/-- Loads entry files one after the other, each into a schema of its own, and looks up the
types of each. -/
def loadAll (disk : Store) (includes : List Path) :
    List Path → Except LoadFailure (List Root × List Event)
  | [] => .ok ([], [])
  | entry :: rest =>
    match load disk includes entry with
    | .error e => .error e
    | .ok l =>
      let (root, unresolved) := l.root.resolveAll
      let events := l.events ++ [.schemaResolved entry unresolved]
      match loadAll disk includes rest with
      | .error e => .error { e with events := events ++ e.events }
      | .ok (roots, later) => .ok (root :: roots, events ++ later)

end RpcBindings.Schema

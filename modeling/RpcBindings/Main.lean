import RpcBindings.Command.Run

/-!
# The program

The program reads what a run looks at into a store, runs the command line on it, prints what
there is to say and writes what has changed. What a run looks at comes out step by step: the
arguments name the configuration, this names files to write and schema files, and a schema file
names the files that it imports.
-/
namespace RpcBindings.Program

open RpcBindings.Disk
open RpcBindings.Command (Request)
open RpcBindings.Proto (Import Span)
open RpcBindings.Settings (Config)

/-- The path of a route from the root directory. -/
def pathOf (route : Route) : Path :=
  "/" ++ "/".intercalate route

/-- Reads what stands at a route. A link is what it leads to, and what cannot be read is not
there. -/
def readEntry (route : Route) : IO (Option Entry) := do
  try
    let found ← IO.FS.realPath (pathOf route)
    if ← found.isDir then return some .directory
    else return some (.file (.ofBytes (← IO.FS.readBinFile found).toList))
  catch _ => return none

/-- Adds what stands along a path to a store. -/
def readAlong (s : Store) (path : Path) : IO Store := do
  let .ok () := Store.checkPath path | return s
  let mut s := s
  let mut route := s.start path
  for piece in Text.pieces '/' path do
    if !Path.isIdle piece then
      route := if piece == ".." then route.dropLast else route ++ [piece]
      if (s.entryAt route).isNone then
        let some entry ← readEntry route | return s
        s := s.put route entry
  return s

/-- The imports of a schema file, if it can be read. -/
def importsOf (s : Store) (path : Path) : List (Import Span) :=
  match s.readText path with
  | .error _ => []
  | .ok text =>
    match Proto.parse text with
    | .error _ => []
    | .ok file => file.imports

/-- Adds schema files to a store, and all files that their imports can stand for. The imports
of the files in `known` have been followed. -/
partial def readSchemas (includes : List Path) (s : Store) (known : List Route) :
    List Path → IO Store
  | [] => return s
  | path :: rest => do
    let s ← readAlong s path
    match s.locate path with
    | .error _ => readSchemas includes s known rest
    | .ok route =>
      if known.contains route then readSchemas includes s known rest
      else
        let imported := (importsOf s path).flatMap fun i =>
          Schema.importCandidates includes path i.path
        readSchemas includes s (route :: known) (imported ++ rest)

/-- Reads what a run with some arguments looks at. -/
def readStore (args : List String) : IO Store := do
  let above := Text.pieces '/' (← IO.currentDir).toString
  let s : Store := { workingDirectory := above.filter fun piece => !Path.isIdle piece }
  let .run a := Request.ofArguments args | return s
  let s ← readAlong s (a.config.getD Config.defaultFile)
  let .ok (config, _) := Config.discover s a.config | return s
  let .ok settings := config.merge a.overrides | return s
  let s ← (settings.out.toList ++ settings.manifestOut.toList).foldlM readAlong s
  readSchemas settings.protoPaths s [] settings.schemas

/-- Writes the files and directories of `after` that `before` does not have. -/
def writeChanges (before after : Store) : IO Unit := do
  for (route, entry) in after.entries do
    if before.entryAt route != some entry then
      match entry with
      | .directory => IO.FS.createDirAll (pathOf route)
      | .file (.text s) => IO.FS.writeFile (pathOf route) s
      | .file (.binary bytes) => IO.FS.writeBinFile (pathOf route) ⟨bytes.toArray⟩

end RpcBindings.Program

open RpcBindings in
/-- Runs the command line in the working directory. -/
def main (args : List String) : IO UInt32 := do
  let disk ← Program.readStore args
  let outcome := Command.run disk args
  for event in outcome.events do
    IO.eprint event.entry
  Program.writeChanges disk outcome.disk
  IO.print outcome.output
  IO.eprint outcome.messages
  if let some failure := outcome.failure then
    IO.eprintln ("error: " ++ failure.message)
  return outcome.exit.toUInt32

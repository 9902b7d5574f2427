import RpcBindings.Generate.Run
import RpcBindings.Report.Sink
import RpcBindings.Settings.Effective

/-!
# Generating files and reporting on it

A run writes the bindings and, if it has a place to go, the manifest. A dry run writes
nothing and hands both texts back. The report says the same of both as a list of notices,
which the terminal shows in its own way.
-/
namespace RpcBindings.Report

open RpcBindings.Disk
open RpcBindings.Generate (Output Stats)
open RpcBindings.Settings (Effective)

/-- A file that was written or found unchanged. -/
structure WrittenFile where
  /-- Its name in reports. -/
  path : String
  /-- What happened to it. -/
  status : Store.WriteStatus
  /-- What it holds. -/
  summary : String

/-- A file that would be written. -/
structure PreviewFile where
  /-- Its name in reports. -/
  path : String
  /-- What it would hold. -/
  content : String

/-- The files of a run. -/
inductive Files where
  /-- They were written. -/
  | written (files : List WrittenFile)
  /-- They would be written. -/
  | preview (files : List PreviewFile)

/-- What a run reports. -/
structure RunReport where
  /-- The warnings in order. -/
  warnings : List String
  /-- The counts. -/
  stats : Stats
  /-- The files. -/
  files : Files

/-- One thing to show. -/
inductive Notice where
  /-- Something was done. -/
  | status (verb text : String)
  /-- Something was left out. -/
  | warning (text : String)
  /-- A heading. -/
  | divider (label : String)
  /-- Text as it is. -/
  | preformatted (text : String)
deriving DecidableEq

/-- A number of things. -/
def count (n : Nat) (noun : String) : String :=
  toString n ++ " " ++ noun ++ (if n = 1 then "" else "s")

/-- What the bindings hold. -/
def bindingsSummary (s : Stats) : String :=
  count s.clients "client" ++ ", " ++ count s.servers "server"
    ++ (if s.skippedMethods > 0 then ", " ++ count s.skippedMethods "method" ++ " skipped" else "")

/-- What the manifest holds. -/
def manifestSummary (s : Stats) : String :=
  count s.manifestEntries "service"

/-- The files that a run would write. -/
def previews (settings : Effective) (o : Output) : List PreviewFile :=
  [{ path := (Sink.ofPath settings.out).describe, content := o.bindings },
   { path := settings.manifestOut.getD "manifest", content := o.manifest }]

/-- Writes a text and says what happened. -/
def writeSection (w : World) (sink : Sink) (text summary activity : String) :
    World × Except WriteProblem WrittenFile :=
  match w.emit sink text with
  | (w, .ok status) => (w, .ok { path := sink.describe, status, summary })
  | (w, .error e) => (w, .error (e.whileDoing activity))

/-- Writes the files of a run. The bindings stay written when the manifest fails. -/
def writeFiles (settings : Effective) (o : Output) (w : World) :
    World × Except WriteProblem (List WrittenFile) :=
  match writeSection w (.ofPath settings.out) o.bindings (bindingsSummary o.stats)
      "Failed to write bindings" with
  | (w, .error e) => (w, .error e)
  | (w, .ok bindings) =>
    match settings.manifestOut with
    | none => (w, .ok [bindings])
    | some path =>
      match writeSection w (.file path) o.manifest (manifestSummary o.stats)
          "Failed to write manifest" with
      | (w, .error e) => (w, .error e)
      | (w, .ok manifest) => (w, .ok [bindings, manifest])

/-- Generates code and writes it, or previews it on a dry run. -/
def deliver (settings : Effective) (o : Output) (dryRun : Bool) (w : World) :
    World × Except WriteProblem RunReport :=
  let warnings := (o.diagnostics.filter Generate.Diagnostic.isWarning).map
    Generate.Diagnostic.body
  if dryRun then
    (w, .ok { warnings, stats := o.stats, files := .preview (previews settings o) })
  else
    match writeFiles settings o w with
    | (w, .ok files) => (w, .ok { warnings, stats := o.stats, files := .written files })
    | (w, .error e) => (w, .error e)

/-- The verb for what happened to a file. -/
def verb : Store.WriteStatus → String
  | .written => "Wrote"
  | .unchanged => "Unchanged"

/-- The notices on the files of a run. -/
def Files.notices (stats : Stats) : Files → List Notice
  | .written files =>
    files.map fun f => .status (verb f.status) (f.path ++ " (" ++ f.summary ++ ")")
  | .preview files =>
    files.flatMap (fun f => [.divider f.path, .preformatted f.content])
      ++ [.divider "Summary",
          .preformatted (toString stats.manifestEntries ++ " services, nothing written")]

/-- The notices of a report. -/
def RunReport.notices (r : RunReport) : List Notice :=
  r.warnings.map Notice.warning ++ r.files.notices r.stats

namespace Notice

/-- A text at the right end of a column of the given width. -/
def alignRight (width : Nat) (s : String) : String :=
  String.ofList (List.replicate (width - s.toList.length) ' ') ++ s

/-- What a notice adds to the output of a program. -/
def output : Notice → String
  | .divider label => "── " ++ label ++ " ──\n"
  | .preformatted text =>
    if text.toList.getLast? = some '\n' then text else text ++ "\n"
  | _ => ""

/-- What a notice adds to the messages of a program. -/
def messages : Notice → String
  | .status verb text => alignRight 9 verb ++ " " ++ text ++ "\n"
  | .warning text => "warning: " ++ text ++ "\n"
  | _ => ""

end Notice

end RpcBindings.Report

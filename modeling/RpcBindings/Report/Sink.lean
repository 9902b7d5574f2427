import RpcBindings.Disk.Store

/-!
# Where generated text goes

Text goes to the terminal or to a file. A file that cannot be written is reported with its
path and, outside that, with what the file was to hold.
-/
namespace RpcBindings.Report

open RpcBindings.Disk

/-- A place for generated text. -/
inductive Sink where
  /-- The terminal. -/
  | terminal
  /-- A file, whose directories are made as needed. -/
  | file (path : Path)
deriving DecidableEq

/-- The sink of an optional path. -/
def Sink.ofPath : Option Path → Sink
  | some path => .file path
  | none => .terminal

/-- The name of a sink in reports. -/
def Sink.describe : Sink → String
  | .terminal => "<stdout>"
  | .file path => path

/-- A file that could not be written. -/
structure WriteProblem where
  /-- The file. -/
  file : Path
  /-- Why not. -/
  cause : Fault
  /-- What was being done, outermost first. -/
  during : List String := []
deriving DecidableEq

namespace WriteProblem

/-- What went wrong in words, outermost first. -/
def chain (p : WriteProblem) : List String :=
  p.during ++ ["failed to write '" ++ p.file ++ "'"]

/-- The problem seen from what was being done. -/
def whileDoing (p : WriteProblem) (activity : String) : WriteProblem :=
  { p with during := activity :: p.during }

end WriteProblem

/-- The files, and what has been printed. -/
structure World where
  /-- The files. -/
  disk : Store
  /-- The text printed so far. -/
  printed : String := ""

/-- Puts a text into a sink. -/
def World.emit (w : World) (sink : Sink) (text : String) :
    World × Except WriteProblem Store.WriteStatus :=
  match sink with
  | .terminal => ({ w with printed := w.printed ++ text }, .ok .written)
  | .file path =>
    match w.disk.save path text with
    | (disk, .ok status) => ({ w with disk := disk }, .ok status)
    | (disk, .error cause) => ({ w with disk := disk }, .error { file := path, cause })

end RpcBindings.Report

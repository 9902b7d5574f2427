import RpcBindings.Disk.Store
import RpcBindings.Generate.Policy
import RpcBindings.Layout.Indent
import RpcBindings.Log
import RpcBindings.Toml.Reader

/-!
# The configuration file

Every key of the file is optional and no other key is allowed. Paths in the file are taken
from its directory.
-/
namespace RpcBindings.Settings

open RpcBindings.Disk
open RpcBindings.Generate (Policy)
open RpcBindings.Layout (Indent)
open RpcBindings.Toml (Value Entries)

/-- What a configuration file says. -/
structure Config where
  /-- The module of the message types. -/
  types : Option String := none
  /-- Where the bindings go. -/
  out : Option Path := none
  /-- Where the manifest goes. -/
  manifestOut : Option Path := none
  /-- The schema files. -/
  schemas : List Path := []
  /-- The directories in which imports are looked for. -/
  protoPaths : List Path := []
  /-- What happens to methods with open types. -/
  unresolved : Option Policy := none
  /-- The module of the transport. -/
  transport : Option String := none
  /-- The module of the observable type. -/
  observable : Option String := none
  /-- The indentation, which may be one that is not supported. -/
  indent : Option Indent := none

/-- Why there are no settings to run with. -/
inductive Problem where
  /-- The file could not be read. -/
  | unreadable (file : Path) (cause : Fault)
  /-- The file is no configuration. -/
  | malformed (file : String)
  /-- The indentation has a width that is not supported. -/
  | indentWidth (width : Nat)
  /-- There are no schema files. -/
  | noSchemas
deriving DecidableEq

namespace Problem

/-- What is wrong, in words. -/
def message : Problem → String
  | .unreadable file _ => "failed to read '" ++ file ++ "'"
  | .malformed file => "failed to parse " ++ file
  | .indentWidth width => "unsupported indent width " ++ toString width
  | .noSchemas => "no schema files given"

/-- The code by which the kind of problem is known. -/
def code : Problem → String
  | .unreadable .. => "protorx::config::io"
  | .malformed _ => "protorx::config::parse"
  | .indentWidth _ => "protorx::config::indent"
  | .noSchemas => "protorx::usage"

/-- What to do about it, where there is something to say. -/
def help : Problem → Option String
  | .unreadable .. => none
  | .malformed _ => none
  | .indentWidth _ => some "use 2, 4 or 8 spaces, or \"tab\""
  | .noSchemas =>
    some "pass schema paths as arguments or list them under `schemas` in protorx.toml"

end Problem

namespace Config

/-- The file that is read when none is named. -/
def defaultFile : Path := "protorx.toml"

/-- A text. -/
def text? : Value → Option String
  | .text s => some s
  | _ => none

/-- A list of texts. -/
def texts? : Value → Option (List String)
  | .array items => items.mapM text?
  | _ => none

/-- An indentation: a number that fits into a byte, or the word for a tab. -/
def indent? : Value → Option Indent
  | .integer n => if 0 ≤ n ∧ n ≤ 255 then some (.spaces n.toNat) else none
  | .text "tab" => some .tab
  | _ => none

/-- A policy: its name, or a table with an empty entry under its name. -/
def policy? : Value → Option Policy
  | .text name => Policy.ofName? name
  | .table _ [(name, .table _ [])] => Policy.ofName? name
  | .table _ [(name, .array [])] => Policy.ofName? name
  | _ => none

/-- Takes over an entry of the table for generated code. -/
def setCode (c : Config) (key : String) (v : Value) : Option Config :=
  match key with
  | "transport" => (text? v).map fun s => { c with transport := some s }
  | "observable" => (text? v).map fun s => { c with observable := some s }
  | "indent" => (indent? v).map fun i => { c with indent := some i }
  | _ => none

/-- Takes over the settings for generated code: a table, or an array with the values of its
three keys in order. -/
def setCodeTable (c : Config) : Value → Option Config
  | .table _ entries => entries.foldlM (fun c e => c.setCode e.1 e.2) c
  | .array (transport :: observable :: indent :: _) => do
    let c ← c.setCode "transport" transport
    let c ← c.setCode "observable" observable
    c.setCode "indent" indent
  | _ => none

/-- Takes over an entry of the file. -/
def set (c : Config) (key : String) (v : Value) : Option Config :=
  match key with
  | "include" => (text? v).map fun s => { c with types := some s }
  | "out" => (text? v).map fun s => { c with out := some s }
  | "meta_out" => (text? v).map fun s => { c with manifestOut := some s }
  | "schemas" => (texts? v).map fun ss => { c with schemas := ss }
  | "proto_paths" => (texts? v).map fun ss => { c with protoPaths := ss }
  | "unresolved" => (policy? v).map fun p => { c with unresolved := some p }
  | "typescript" => c.setCodeTable v
  | _ => none

/-- What the entries of a file say. -/
def ofEntries? (entries : Entries) : Option Config :=
  entries.foldlM (fun c e => c.set e.1 e.2) {}

/-- What a text says that is known as `file`. -/
def parse (source : String) (file : String) : Except Problem Config :=
  match (Toml.parse? source).bind ofEntries? with
  | some c => .ok c
  | none => .error (.malformed file)

/-- The configuration with its paths seen from a directory. -/
def rebase (c : Config) (dir : Path) : Config :=
  { c with
    out := c.out.map (Path.join dir)
    manifestOut := c.manifestOut.map (Path.join dir)
    schemas := c.schemas.map (Path.join dir)
    protoPaths := c.protoPaths.map (Path.join dir) }

/-- Reads a configuration file. -/
def load (disk : Store) (file : Path) : Except Problem (Config × List Event) :=
  match disk.readText file with
  | .error cause => .error (.unreadable file cause)
  | .ok source =>
    match parse source file with
    | .error e => .error e
    | .ok c => .ok (c.rebase file.directory, [.configLoaded file])

/-- Reads the named configuration file, or the default one if it is there. -/
def discover (disk : Store) (file : Option Path) : Except Problem (Config × List Event) :=
  match file with
  | some file => load disk file
  | none => if disk.isFile defaultFile then load disk defaultFile else .ok ({}, [])

end Config

end RpcBindings.Settings

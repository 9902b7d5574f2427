import RpcBindings.Disk.Store
import RpcBindings.Proto.Token

/-!
# Problems with schemas

A problem is a cause: what is wrong, with which file, and where in it. Its message, its
code, its help text and its labels are read off the cause.
-/
namespace RpcBindings.Schema

open RpcBindings.Disk
open RpcBindings.Proto (Span SyntaxFault)

/-- Why a schema could not be loaded. -/
inductive Problem where
  /-- A file could not be read. -/
  | unreadable (file : Path) (cause : Fault)
  /-- A JSON document is no descriptor; the offset is where reading stopped, if known. -/
  | badDescriptor (file : Path) (offset : Option Nat)
  /-- A source is refused. -/
  | badSource (file : Path) (fault : SyntaxFault) (span : Span)
  /-- No file was found for an import. -/
  | importNotFound (file : Path) (path : String) (span : Span)
  /-- A name is declared twice. -/
  | duplicateName (file : Path) (name : String)
  /-- The imports of a file nest deeper than the bound of the run. -/
  | importsTooDeep (file : Path)
deriving DecidableEq

/-- A remark on a range of a source. -/
structure Label where
  /-- The range. -/
  span : Span
  /-- The remark. -/
  text : String
deriving DecidableEq

namespace Problem

/-- The file that the problem is with. -/
def file : Problem → Path
  | .unreadable file _ => file
  | .badDescriptor file _ => file
  | .badSource file _ _ => file
  | .importNotFound file _ _ => file
  | .duplicateName file _ => file
  | .importsTooDeep file => file

/-- What is wrong, in words. -/
def message : Problem → String
  | .unreadable file _ => "failed to read '" ++ file ++ "'"
  | .badDescriptor _ _ => "failed to parse JSON descriptor"
  | .badSource _ fault _ => fault.message
  | .importNotFound _ path _ => "import '" ++ path ++ "' not found"
  | .duplicateName file name => "duplicate name '" ++ name ++ "' in '" ++ file ++ "'"
  | .importsTooDeep file => "imports of '" ++ file ++ "' nest too deep"

/-- The code by which the kind of problem is known. -/
def code : Problem → String
  | .unreadable .. => "protorx::io"
  | .badDescriptor .. => "protorx::json"
  | .badSource .. => "protorx::syntax"
  | .importNotFound .. => "protorx::import"
  | .duplicateName .. => "protorx::duplicate_name"
  | .importsTooDeep _ => "protorx::import"

/-- What to do about it, where there is something to say. -/
def help : Problem → Option String
  | .unreadable .. => none
  | .badDescriptor .. =>
    some "descriptors use the protobuf JSON layout with a top-level `nested` object"
  | .badSource .. => none
  | .importNotFound .. => some "imports are resolved relative to the importing file"
  | .duplicateName .. => some "fully-qualified names must be unique within a schema"
  | .importsTooDeep _ => none

/-- Where in the file it is wrong. -/
def labels : Problem → List Label
  | .badDescriptor _ (some offset) => [⟨⟨offset, 0⟩, "here"⟩]
  | .badSource _ fault span => [⟨span, fault.message⟩]
  | .importNotFound _ _ span => [⟨span, "imported here"⟩]
  | _ => []

end Problem

end RpcBindings.Schema

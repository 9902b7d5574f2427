import RpcBindings.Layout.Builder
import RpcBindings.Text.Lines
import RpcBindings.TypeScript.Import

/-!
# Source files

A source file, or a section of one, is a list of imports followed by body elements. A
blank line divides the imports from the body and each body element from the next.
-/
namespace RpcBindings.TypeScript

open RpcBindings.Layout

/-- A TypeScript file or a section of one. -/
structure SourceFile where
  /-- The import statements in order. -/
  imports : List Import := []
  /-- The code of each body element. -/
  body : List (List Fragment) := []

namespace SourceFile

/-- Nothing is written for the file. -/
def isEmpty (f : SourceFile) : Bool :=
  f.imports.isEmpty && f.body.isEmpty

/-- The file as code. -/
def fragments (f : SourceFile) : List Fragment :=
  f.imports.flatMap Import.fragments
    ++ (if f.imports.isEmpty || f.body.isEmpty then [] else [.blank])
    ++ (f.body.intersperse [.blank]).flatten

/-- The text of the file. -/
def render (indent : Indent) (f : SourceFile) : String :=
  Layout.render indent f.fragments

end SourceFile

/-- Code given as text, one line fragment per line. -/
def codeLines (text : String) : List Fragment :=
  (Text.lines text).map Fragment.line

end RpcBindings.TypeScript

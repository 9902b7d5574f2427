import RpcBindings.Layout.Fragment
import RpcBindings.Layout.Indent

/-!
# Rendering fragments

A builder holds the text written so far and the depth at which the next line stands.
Applying a fragment appends to the text; a nested body is written one step deeper and the
depth is restored after it.
-/
namespace RpcBindings.Layout

/-- Generated text under construction. -/
structure Builder where
  /-- How one step of nesting is written. -/
  indent : Indent := .standard
  /-- The depth of the next line. -/
  depth : Nat := 0
  /-- What has been written. -/
  text : String := ""

namespace Builder

/-- Appends text as it is. -/
def pushRaw (b : Builder) (s : String) : Builder :=
  { b with text := b.text ++ s }

/-- The indentation of a line at the current depth. -/
def margin (b : Builder) : String :=
  String.join (List.replicate b.depth b.indent.unit)

/-- Appends a line at the current depth. -/
def pushLine (b : Builder) (s : String) : Builder :=
  b.pushRaw (b.margin ++ s ++ "\n")

/-- Appends an empty line; it carries no indentation. -/
def pushBlank (b : Builder) : Builder :=
  b.pushRaw "\n"

/-- Appends the closing line of a block that has one. -/
def pushClose (b : Builder) (close : Option String) : Builder :=
  match close with
  | some s => b.pushLine s
  | none => b

/-- One step deeper. -/
def deeper (b : Builder) : Builder :=
  { b with depth := b.depth + 1 }

/-- One step back. -/
def shallower (b : Builder) : Builder :=
  { b with depth := b.depth - 1 }

mutual

/-- Writes a fragment at the current depth. -/
def apply (b : Builder) : Fragment → Builder
  | .line s => b.pushLine s
  | .blank => b.pushBlank
  | .raw s => b.pushRaw s
  | .comment s => b.pushLine ("// " ++ s)
  | .block header body close =>
    ((applyAll (b.pushLine header).deeper body).shallower).pushClose close
  | .indent body => (applyAll b.deeper body).shallower
  | .sequence body => applyAll b body

/-- Writes fragments one after the other. -/
def applyAll (b : Builder) : List Fragment → Builder
  | [] => b
  | f :: fs => applyAll (apply b f) fs

end

end Builder

/-- The text of a list of fragments. -/
def render (indent : Indent) (fragments : List Fragment) : String :=
  (({ indent := indent } : Builder).applyAll fragments).text

end RpcBindings.Layout

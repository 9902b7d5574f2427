/-!
# Indentation

One step of indentation is a fixed text. Widths 2, 4 and 8 are written as asked; every
other width is written as four spaces.
-/
namespace RpcBindings.Layout

/-- How one step of nesting is written. -/
inductive Indent where
  /-- A number of spaces. -/
  | spaces (width : Nat)
  /-- One tab character. -/
  | tab
deriving DecidableEq

namespace Indent

/-- The indentation of generated TypeScript unless told otherwise. -/
def standard : Indent := .spaces 2

/-- The text of one step of nesting. -/
def unit : Indent → String
  | .spaces 2 => "  "
  | .spaces 8 => "        "
  | .spaces _ => "    "
  | .tab => "\t"

/-- Whether a width is written as it was asked for. -/
def isSupportedWidth (width : Nat) : Bool :=
  width == 2 || width == 4 || width == 8

end Indent

instance : Inhabited Indent := ⟨.standard⟩

end RpcBindings.Layout

import RpcBindings.Emit.Options
import RpcBindings.Settings.Config

/-!
# Effective settings

What is asked for on the command line goes before what the configuration says, and that
before the defaults. Schema files of the command line replace those of the configuration;
directories for imports are put before them.
-/
namespace RpcBindings.Settings

open RpcBindings.Disk
open RpcBindings.Generate (Policy)
open RpcBindings.Layout (Indent)

/-- What is asked for on the command line. -/
structure Overrides where
  /-- The schema files. -/
  schemas : List Path := []
  /-- The directories in which imports are looked for. -/
  protoPaths : List Path := []
  /-- The module of the message types. -/
  types : Option String := none
  /-- Where the bindings go. -/
  out : Option Path := none
  /-- Where the manifest goes. -/
  manifestOut : Option Path := none
  /-- What happens to methods with open types. -/
  unresolved : Option Policy := none

/-- What a run works with. -/
structure Effective where
  /-- The schema files, at least one. -/
  schemas : List Path
  /-- The directories in which imports are looked for. -/
  protoPaths : List Path
  /-- Where the bindings go; to the terminal if nowhere else. -/
  out : Option Path
  /-- Where the manifest goes; it is not written if nowhere. -/
  manifestOut : Option Path
  /-- What happens to methods with open types. -/
  unresolved : Policy
  /-- How code is generated. -/
  options : Emit.Options

/-- The indentation to use, which has to be supported. -/
def checkIndent : Option Indent → Except Problem Indent
  | none => .ok .standard
  | some .tab => .ok .tab
  | some (.spaces width) =>
    if Indent.isSupportedWidth width then .ok (.spaces width) else .error (.indentWidth width)

/-- The settings of a run. -/
def Config.merge (c : Config) (o : Overrides) : Except Problem Effective :=
  let schemas := if o.schemas.isEmpty then c.schemas else o.schemas
  if schemas.isEmpty then .error .noSchemas
  else
    match checkIndent c.indent with
    | .error e => .error e
    | .ok indent =>
      let standard : Emit.Options := {}
      .ok
        { schemas
          protoPaths := o.protoPaths ++ c.protoPaths
          out := o.out <|> c.out
          manifestOut := o.manifestOut <|> c.manifestOut
          unresolved := ((o.unresolved <|> c.unresolved).getD .standard)
          options :=
            { types := ((o.types <|> c.types).getD standard.types)
              transport := c.transport.getD standard.transport
              observable := c.observable.getD standard.observable
              indent } }

end RpcBindings.Settings

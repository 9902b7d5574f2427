import RpcBindings.Settings.Effective

/-!
# Command-line arguments

Arguments are read from left to right, one at a time, and the first that cannot be read
decides. A value follows its option in the next argument, behind an equals sign or, for a
short option, right behind it; short options can be joined. An argument that starts with a
dash is no value, a lone dash is. Behind `--` everything is a schema file. Options with one
value and switches can be given once; verbosity is counted. No path is empty.
-/
namespace RpcBindings.Command

open RpcBindings.Disk
open RpcBindings.Generate (Policy)
open RpcBindings.Settings (Overrides)

/-- What the arguments ask for. -/
structure Arguments where
  /-- The configuration file. -/
  config : Option Path := none
  /-- What goes before the configuration. -/
  overrides : Overrides := {}
  /-- Whether nothing is to be written. -/
  dryRun : Bool := false
  /-- How much is to be logged. -/
  verbosity : Nat := 0

/-- What a list of arguments amounts to. -/
inductive Request where
  /-- A run. -/
  | run (a : Arguments)
  /-- The help text. -/
  | help
  /-- The version. -/
  | version
  /-- Arguments that cannot be read. -/
  | misuse

/-- An option that takes a value. -/
inductive Valued where
  /-- The configuration file. -/
  | config
  /-- The module of the message types. -/
  | types
  /-- Where the bindings go. -/
  | out
  /-- Where the manifest goes. -/
  | manifestOut
  /-- A directory in which imports are looked for. -/
  | protoPath
  /-- What happens to methods with open types. -/
  | unresolved
deriving DecidableEq

/-- An option without a value. -/
inductive Switch where
  /-- Nothing is written. -/
  | dryRun
  /-- More is logged. -/
  | verbose
  /-- The help text is shown. -/
  | help
  /-- The version is shown. -/
  | version
deriving DecidableEq

/-- The option of a letter. -/
def shortOption? : Char → Option (Valued ⊕ Switch)
  | 'c' => some (.inl .config)
  | 'i' => some (.inl .types)
  | 'o' => some (.inl .out)
  | 'm' => some (.inl .manifestOut)
  | 'I' => some (.inl .protoPath)
  | 'v' => some (.inr .verbose)
  | 'h' => some (.inr .help)
  | 'V' => some (.inr .version)
  | _ => none

/-- The option of a word. -/
def longOption? : String → Option (Valued ⊕ Switch)
  | "config" => some (.inl .config)
  | "include" => some (.inl .types)
  | "out" => some (.inl .out)
  | "meta-out" => some (.inl .manifestOut)
  | "proto-path" => some (.inl .protoPath)
  | "unresolved" => some (.inl .unresolved)
  | "dry-run" => some (.inr .dryRun)
  | "verbose" => some (.inr .verbose)
  | "help" => some (.inr .help)
  | "version" => some (.inr .version)
  | _ => none

/-- How far the arguments are read. -/
inductive Progress where
  /-- Options and schema files may follow. -/
  | reading (a : Arguments)
  /-- The value of an option has to follow. -/
  | awaiting (a : Arguments) (option : Valued)
  /-- Only schema files may follow. -/
  | trailing (a : Arguments)
  /-- What the arguments amount to is known. -/
  | decided (r : Request)

namespace Arguments

/-- Gives a single-value option its value, unless it has one. -/
def setOnce (old : Option String) (value : String) (set : String → Arguments) : Option Arguments :=
  if old.isSome then none else some (set value)

/-- Gives an option its value. -/
def set (a : Arguments) (option : Valued) (value : String) : Option Arguments :=
  let o := a.overrides
  match option with
  | .types => setOnce o.types value fun v => { a with overrides := { o with types := some v } }
  | .unresolved =>
    match o.unresolved, Policy.parse? value with
    | none, some p => some { a with overrides := { o with unresolved := some p } }
    | _, _ => none
  | option =>
    if value.isEmpty then none
    else
      match option with
      | .config => setOnce a.config value fun v => { a with config := some v }
      | .out => setOnce o.out value fun v => { a with overrides := { o with out := some v } }
      | .manifestOut =>
        setOnce o.manifestOut value fun v =>
          { a with overrides := { o with manifestOut := some v } }
      | _ => some { a with overrides := { o with protoPaths := o.protoPaths ++ [value] } }

/-- Adds a schema file. -/
def addSchema (a : Arguments) (path : String) : Option Arguments :=
  if path.isEmpty then none
  else some { a with overrides := { a.overrides with schemas := a.overrides.schemas ++ [path] } }

/-- Throws a switch. -/
def throwSwitch (a : Arguments) : Switch → Progress
  | .dryRun => if a.dryRun then .decided .misuse else .reading { a with dryRun := true }
  | .verbose => .reading { a with verbosity := a.verbosity + 1 }
  | .help => .decided .help
  | .version => .decided .version

/-- Goes on with arguments, if there still are any to go on with. -/
def proceed (next : Arguments → Progress) : Option Arguments → Progress
  | some a => next a
  | none => .decided .misuse

/-- Reads joined short options. -/
def readShort (a : Arguments) : List Char → Progress
  | [] => .reading a
  | c :: rest =>
    match shortOption? c with
    | none => .decided .misuse
    | some (.inr switch) =>
      match a.throwSwitch switch with
      | .reading a => readShort a rest
      | p => p
    | some (.inl option) =>
      match rest with
      | [] => .awaiting a option
      | '=' :: value => proceed .reading (a.set option (String.ofList value))
      | value => proceed .reading (a.set option (String.ofList value))

/-- Reads a long option, without its dashes. -/
def readLong (a : Arguments) (text : List Char) : Progress :=
  let name := text.takeWhile (· != '=')
  let tail := text.drop name.length
  match longOption? (String.ofList name), tail with
  | some (.inl option), _ :: value => proceed .reading (a.set option (String.ofList value))
  | some (.inl option), [] => .awaiting a option
  | some (.inr switch), [] => a.throwSwitch switch
  | _, _ => .decided .misuse

/-- Reads an argument where options are allowed. -/
def read (a : Arguments) (arg : String) : Progress :=
  match arg.toList with
  | ['-', '-'] => .trailing a
  | '-' :: '-' :: text => a.readLong text
  | '-' :: c :: rest => a.readShort (c :: rest)
  | _ => proceed .reading (a.addSchema arg)

end Arguments

namespace Progress

/-- Whether an argument can be the value of the option before it. -/
def isValue (arg : String) : Bool :=
  match arg.toList with
  | '-' :: _ :: _ => false
  | _ => true

/-- Reads one argument. -/
def step (p : Progress) (arg : String) : Progress :=
  match p with
  | .reading a => a.read arg
  | .awaiting a option =>
    if isValue arg then Arguments.proceed .reading (a.set option arg) else .decided .misuse
  | .trailing a => Arguments.proceed .trailing (a.addSchema arg)
  | .decided r => .decided r

/-- What the arguments amount to once all are read. -/
def close : Progress → Request
  | .reading a => .run a
  | .awaiting .. => .misuse
  | .trailing a => .run a
  | .decided r => r

end Progress

/-- What a list of arguments amounts to. -/
def Request.ofArguments (args : List String) : Request :=
  (args.foldl Progress.step (.reading {})).close

end RpcBindings.Command

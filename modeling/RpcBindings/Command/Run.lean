import RpcBindings.Command.Arguments
import RpcBindings.Report.Generation
import RpcBindings.Schema.Load

/-!
# Running a command

A command reads its configuration, loads the schemas, generates code and delivers it. It
ends with the first step that fails; what was logged and printed until then stays.
-/
namespace RpcBindings.Command

open RpcBindings.Disk
open RpcBindings.Report (World WriteProblem Notice)
open RpcBindings.Settings (Config Overrides Effective)

/-- Why a run failed. -/
inductive Failure where
  /-- There are no settings to run with. -/
  | settings (p : Settings.Problem)
  /-- A schema could not be loaded. -/
  | schema (p : Schema.Problem)
  /-- A file could not be written. -/
  | write (p : WriteProblem)

namespace Failure

/-- What went wrong in words. -/
def message : Failure → String
  | .settings p => p.message
  | .schema p => p.message
  | .write p => ": ".intercalate p.chain

/-- The code by which the kind of failure is known, if it has one. -/
def code? : Failure → Option String
  | .settings p => some p.code
  | .schema p => some p.code
  | .write _ => none

end Failure

/-- A run that is ready to deliver: its settings, what it generated and what it did. -/
structure Prepared where
  /-- The settings. -/
  settings : Effective
  /-- What was generated. -/
  output : Generate.Output
  /-- What was done, in order. -/
  events : List Event

/-- Reads the configuration, loads the schemas and generates code. -/
def prepare (disk : Store) (config : Option Path) (overrides : Overrides) :
    Except (Failure × List Event) Prepared :=
  match Config.discover disk config with
  | .error p => .error (.settings p, [])
  | .ok (c, configured) =>
    match c.merge overrides with
    | .error p => .error (.settings p, configured)
    | .ok settings =>
      match Schema.loadAll disk settings.protoPaths settings.schemas with
      | .error e => .error (.schema e.problem, configured ++ e.events)
      | .ok (roots, loaded) =>
        let output := Generate.run settings.options settings.unresolved roots
        .ok { settings, output, events := configured ++ loaded ++ output.events }

/-- How a program ended and what it left behind. -/
structure Outcome where
  /-- The files. -/
  disk : Store
  /-- The exit code. -/
  exit : Nat
  /-- What was printed as output. -/
  output : String := ""
  /-- What was printed as messages. -/
  messages : String := ""
  /-- What was done, in order. -/
  events : List Event := []
  /-- Why the run failed, if it did. -/
  failure : Option Failure := none

namespace Outcome

/-- The lines that the log shows: the first one of every event. -/
def logLines (o : Outcome) : List String :=
  o.events.filterMap fun e => e.lines.head?

/-- All other lines of the messages: what follows the first line of an event, and then what
was printed at the end. -/
def messageLines (o : Outcome) : List String :=
  o.events.flatMap (fun e => e.lines.drop 1) ++ Text.lines o.messages

end Outcome

/-- The least important level that is logged. -/
def logLevel : Nat → Level
  | 0 => .warn
  | 1 => .info
  | _ => .debug

/-- The events that are logged. -/
def logged (verbosity : Nat) (events : List Event) : List Event :=
  events.filter fun e => (logLevel verbosity).rank ≤ e.level.rank

/-- The name and version of the program. -/
def versionText : String := "protorx 0.3.0\n"

/-- The help text. -/
def helpText : String :=
  "\n".intercalate
    ["Generate rxjs gRPC bindings for TypeScript from protobuf schemas",
     "",
     "Usage: protorx [OPTIONS] [SCHEMAS]...",
     "",
     "Arguments:",
     "  [SCHEMAS]...  Schema files (.proto or JSON descriptors); replaces `schemas` from the config",
     "",
     "Options:",
     "  -c, --config <CONFIG>           Path to the config file (defaults to ./protorx.toml when present)",
     "  -i, --include <INCLUDE>         Module path of the generated message types [default:",
     "                                  ../apis/proto]",
     "  -o, --out <OUT>                 Bindings file (stdout when omitted)",
     "  -m, --meta-out <META_OUT>       Manifest file (not written when omitted)",
     "  -I, --proto-path <PROTO_PATHS>  Extra directory to search for imports (repeatable)",
     "      --unresolved <UNRESOLVED>   What to do with methods whose types do not resolve: skip, warn or",
     "                                  comment",
     "      --dry-run                   Print both outputs instead of writing files",
     "  -v, --verbose...                Log more (-v info, -vv debug)",
     "  -h, --help                      Print help",
     "  -V, --version                   Print version",
     ""]

/-- Runs with the given arguments. -/
def runWith (disk : Store) (a : Arguments) : Outcome :=
  match prepare disk a.config a.overrides with
  | .error (failure, events) =>
    { disk, exit := 1, events := logged a.verbosity events, failure := some failure }
  | .ok p =>
    let events := logged a.verbosity p.events
    match Report.deliver p.settings p.output a.dryRun { disk } with
    | (w, .error e) =>
      { disk := w.disk, exit := 1, output := w.printed, events, failure := some (.write e) }
    | (w, .ok report) =>
      let notices := report.notices
      { disk := w.disk
        exit := 0
        output := w.printed ++ String.join (notices.map Notice.output)
        messages := String.join (notices.map Notice.messages)
        events }

/-- Runs a command line. -/
def run (disk : Store) (args : List String) : Outcome :=
  match Request.ofArguments args with
  | .run a => runWith disk a
  | .help => { disk, exit := 0, output := helpText }
  | .version => { disk, exit := 0, output := versionText }
  | .misuse => { disk, exit := 2, messages := helpText }

end RpcBindings.Command

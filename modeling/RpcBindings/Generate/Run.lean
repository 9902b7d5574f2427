import RpcBindings.Emit.Options
import RpcBindings.Generate.Diagnostic
import RpcBindings.Generate.Policy
import RpcBindings.Generate.Tour
import RpcBindings.Log

/-!
# Generation runs

A run goes through all schemas once per generator: clients, servers, manifest. Each pass
starts its tour anew, so all three meet the same services in the same order. A method that
is left out is reported once in a run, by the pass that meets it first.
-/
namespace RpcBindings.Generate

open RpcBindings.Binding
open RpcBindings.Emit (Options)
open RpcBindings.Schema (Root)

/-- What a run has reported. -/
structure Journal where
  /-- The full names of the methods reported as left out. -/
  reported : List String := []
  /-- The diagnostics in order. -/
  diagnostics : List Diagnostic := []
  /-- The events in order. -/
  events : List Event := []

/-- The message about a method that is left out. -/
def omissionMessage (o : Omission) : String :=
  "method skipped, unresolved type `" ++ "`, `".intercalate o.unresolved ++ "`"

namespace Policy

/-- How much an omission matters under a policy. -/
def severity : Policy → Severity
  | .skip => .info
  | .warn | .comment => .warning

/-- The level of the event of an omission. -/
def level : Policy → Level
  | .skip => .debug
  | .warn | .comment => .warn

/-- The model as the generators see it: omissions are shown only as comments. -/
def shown (policy : Policy) (m : ServiceModel) : ServiceModel :=
  if policy = .comment then m else { m with omissions := [] }

/-- The diagnostic of an omission. -/
def diagnostic (policy : Policy) (o : Omission) : Diagnostic :=
  { severity := policy.severity
    message := omissionMessage o
    location := some (Name.qualified o.fullName) }

end Policy

namespace Journal

/-- Reports an omission unless its method has been reported. -/
def report (policy : Policy) (j : Journal) (o : Omission) : Journal :=
  if j.reported.contains o.fullName then j
  else
    { reported := j.reported ++ [o.fullName]
      diagnostics := j.diagnostics ++ [policy.diagnostic o]
      events := j.events ++ [.methodSkipped policy.level (Name.qualified o.fullName)] }

/-- Notes that a service is generated, and reports its omissions. -/
def noteService (policy : Policy) (role : Role) (j : Journal) (m : ServiceModel) : Journal :=
  m.omissions.foldl (report policy)
    { j with events := j.events ++ [.serviceEmitted role.text m.fullName] }

end Journal

/-- The models of all services for a generator. -/
def modelsFor (role : Role) (roots : List Root) : List ServiceModel :=
  (Tour.ofRoots roots).services.map (ServiceModel.ofService role)

/-- One pass: the models as the generator sees them, and the journal after it. -/
def pass (policy : Policy) (role : Role) (roots : List Root) (j : Journal) :
    List ServiceModel × Journal :=
  let models := modelsFor role roots
  (models.map policy.shown, models.foldl (Journal.noteService policy role) j)

/-- Counts of a run. -/
structure Stats where
  /-- The number of clients. -/
  clients : Nat
  /-- The number of servers. -/
  servers : Nat
  /-- The number of services in the manifest. -/
  manifestEntries : Nat
  /-- The number of methods left out. -/
  skippedMethods : Nat
deriving DecidableEq

/-- What a run gives. -/
structure Output where
  /-- The text of the bindings. -/
  bindings : String
  /-- The text of the manifest. -/
  manifest : String
  /-- The diagnostics in order. -/
  diagnostics : List Diagnostic
  /-- The counts. -/
  stats : Stats
  /-- The events in order. -/
  events : List Event

/-- Adds a section behind a blank line. -/
def appendSection (text part : String) : String :=
  (if text.isEmpty then text else text ++ "\n") ++ part

/-- Generates code for schemas. -/
def run (options : Options) (policy : Policy) (roots : List Root) : Output :=
  let registry := Registry.ofRoots roots
  let (clients, j) := pass policy .client roots {}
  let (servers, j) := pass policy .server roots j
  let (listed, j) := pass policy .manifest roots j
  let sections := clients.map options.client ++ servers.map options.server
  { bindings := sections.foldl appendSection (options.bindingsHeader registry)
    manifest := appendSection (options.manifestHeader registry) (options.manifest listed)
    diagnostics := j.diagnostics
    stats :=
      { clients := clients.length
        servers := servers.length
        manifestEntries := listed.length
        skippedMethods := j.reported.length }
    events := j.events ++ [.generationFinished Options.language clients.length servers.length
      listed.length] }

end RpcBindings.Generate

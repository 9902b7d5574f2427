import RpcBindings.Emit.Client
import RpcBindings.Emit.Manifest
import RpcBindings.Emit.Server
import RpcBindings.Generate.Registry

/-!
# Generated files and their options

The options name the modules that generated code imports and the indentation it is written
with. Bindings import the transport, the observable type and the message types; the
manifest imports the message types only.
-/
namespace RpcBindings.Emit

open RpcBindings.Binding
open RpcBindings.Generate (Registry)
open RpcBindings.Layout
open RpcBindings.TypeScript

/-- How code is generated. -/
structure Options where
  /-- The module of the transport. -/
  transport : String := "grpc"
  /-- The module of the observable type. -/
  observable : String := "rxjs"
  /-- The module of the message types. -/
  types : String := "../apis/proto"
  /-- The indentation. -/
  indent : Indent := .standard

namespace Options

/-- The language of the generated code. -/
def language : String := "typescript"

/-- The import of the message types, if any are needed. -/
def typesImport (o : Options) (registry : Registry) (interfaces : Bool) : List Import :=
  if registry.isEmpty then []
  else [{ source := o.types, names := registry.importNames interfaces }]

/-- The start of the bindings. -/
def bindingsHeader (o : Options) (registry : Registry) : String :=
  SourceFile.render o.indent
    { imports :=
        [{ source := o.transport, wildcard := some "grpc" },
         { source := o.observable, names := ["Observable"] }]
          ++ o.typesImport registry true }

/-- The client of a service. -/
def client (o : Options) (service : ServiceModel) : String :=
  (Client.sectionFile service).render o.indent

/-- The server base of a service. -/
def server (o : Options) (service : ServiceModel) : String :=
  (Server.sectionFile service).render o.indent

/-- The start of the manifest. -/
def manifestHeader (o : Options) (registry : Registry) : String :=
  SourceFile.render o.indent { imports := o.typesImport registry false }

/-- The manifest of services. -/
def manifest (o : Options) (services : List ServiceModel) : String :=
  (Manifest.body services).render o.indent

end Options

end RpcBindings.Emit

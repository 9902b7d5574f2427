import RpcBindings.Binding.Service
import RpcBindings.Emit.Server

/-!
# The manifest

The manifest lists every service with its endpoints: the routing key, the message types and
what streams.
-/
namespace RpcBindings.Emit.Manifest

open RpcBindings.Binding
open RpcBindings.Layout
open RpcBindings.TypeScript

/-- The entry of an endpoint. -/
def endpointEntry (e : Endpoint) : ObjectLiteral :=
  [.text "name" e.rpcPath,
   .raw "reqType" e.request.qualified,
   .raw "resType" e.response.qualified,
   .raw "reqStream" (Server.boolText e.shape.requestStream),
   .raw "resStream" (Server.boolText e.shape.responseStream)]

/-- The entry of a service. -/
def serviceEntry (service : ServiceModel) : ObjectLiteral :=
  [.text "service" service.qualified,
   .array "methods" (service.endpoints.map fun e => .object (endpointEntry e))]

/-- The manifest of services as code. -/
def fragments (services : List ServiceModel) : List Fragment :=
  if services.isEmpty then [.line "export default [];"]
  else
    [.enclosed "export default ["
      (ArrayLiteral.body (services.map fun s => .object (serviceEntry s))) "];"]

/-- The body of the manifest file. -/
def body (services : List ServiceModel) : SourceFile :=
  { body := [fragments services] }

end RpcBindings.Emit.Manifest

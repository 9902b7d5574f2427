import RpcBindings.Binding.Codec
import RpcBindings.Binding.Shape

/-!
# What is generated for a service

A method whose two messages are known becomes an endpoint; any other method is left out,
with the type names that stayed open. Both lists keep the declaration order.
-/
namespace RpcBindings.Binding

open RpcBindings.Schema (TypeRef Method)

/-- A method that code is generated for. -/
structure Endpoint where
  /-- The name of the method. -/
  name : String
  /-- The full name of the method. -/
  fullName : String
  /-- The routing key on the wire. -/
  rpcPath : String
  /-- What streams. -/
  shape : Shape
  /-- The request message. -/
  request : TypeRef
  /-- The response message. -/
  response : TypeRef
deriving DecidableEq

/-- The endpoint of a method whose messages are known. -/
def Endpoint.ofMethod? (m : Method) : Option Endpoint :=
  m.resolved?.map fun (request, response) =>
    { name := m.name
      fullName := m.fullName
      rpcPath := Name.rpcPath m.fullName
      shape := .ofFlags m.requestStream m.responseStream
      request, response }

/-- A method that is left out. -/
structure Omission where
  /-- The name of the method. -/
  name : String
  /-- The full name of the method. -/
  fullName : String
  /-- The type names, as written, that stayed open. -/
  unresolved : List String
deriving DecidableEq

/-- The type names of a method that stayed open. -/
def openTypes (m : Method) : List String :=
  (if m.request.isNone then [m.requestType] else [])
    ++ (if m.response.isNone then [m.responseType] else [])

/-- The omission of a method whose messages are not both known. -/
def Omission.ofMethod? (m : Method) : Option Omission :=
  match m.resolved? with
  | some _ => none
  | none => some { name := m.name, fullName := m.fullName, unresolved := openTypes m }

/-- What a generator needs to know of a service. -/
structure ServiceModel where
  /-- The name of the service. -/
  name : String
  /-- The full name of the service. -/
  fullName : String
  /-- The methods that code is generated for. -/
  endpoints : List Endpoint
  /-- The methods that are left out. -/
  omissions : List Omission
  /-- The codec fields that the generated class needs. -/
  codecs : CodecTable

namespace ServiceModel

/-- The model of a service for a generator. -/
def ofService (role : Role) (s : Schema.Service) : ServiceModel :=
  let endpoints := s.methods.filterMap Endpoint.ofMethod?
  { name := s.name
    fullName := s.fullName
    endpoints
    omissions := s.methods.filterMap Omission.ofMethod?
    codecs := .bind role (endpoints.map fun e => (e.request, e.response)) }

/-- The name of the service without the root anchor. -/
def qualified (m : ServiceModel) : String := Name.qualified m.fullName

end ServiceModel

end RpcBindings.Binding

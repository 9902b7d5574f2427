import RpcBindings.Emit.Client

/-!
# Server bases

A server class has its codec fields, a method that registers the unary endpoints with a
transport server, and one abstract method per endpoint. Streaming endpoints are not
registered: a comment says so in both tables of the registration.
-/
namespace RpcBindings.Emit.Server

open RpcBindings.Binding
open RpcBindings.Layout
open RpcBindings.TypeScript

/-- The name of the server class of a service. -/
def className (service : ServiceModel) : String := service.name ++ "Server"

/-- A truth value in code. -/
def boolText (b : Bool) : String := if b then "true" else "false"

/-- What the transport has to know of an endpoint. -/
def descriptor (service : ServiceModel) (e : Endpoint) : ObjectLiteral :=
  [.text "path" e.rpcPath,
   .raw "requestStream" (boolText e.shape.requestStream),
   .raw "responseStream" (boolText e.shape.responseStream),
   .raw "requestSerialize" (codecUse service.codecs .serializer e.request),
   .raw "requestDeserialize" (codecUse service.codecs .deserializer e.request),
   .raw "responseSerialize" (codecUse service.codecs .serializer e.response),
   .raw "responseDeserialize" (codecUse service.codecs .deserializer e.response)]

/-- The comment that stands for a streaming endpoint. -/
def streamingNote (e : Endpoint) : String :=
  e.name ++ ": " ++ e.shape.text ++ " registration is not supported"

/-- The entry of an endpoint in the descriptor table. -/
def descriptorEntry (service : ServiceModel) (e : Endpoint) : Property :=
  if e.shape.isUnary then .object (quoted e.rpcPath) (descriptor service e)
  else .comment (streamingNote e)

/-- The parameters of the handler of a unary endpoint. -/
def handlerParams (e : Endpoint) : String :=
  "call: grpc.ServerUnaryCall<" ++ e.request.interface ++ ">, callback: grpc.sendUnaryData<"
    ++ e.response.interface ++ ">"

/-- The statement of that handler. -/
def handlerCall (e : Endpoint) : String :=
  "this." ++ e.name ++ "(call.request, call.metadata)"
    ++ ".then(res => callback(null, res), error => callback(error, null));"

/-- The entry of an endpoint in the handler table. -/
def handlerEntry (e : Endpoint) : Property :=
  if e.shape.isUnary then .arrow (quoted e.rpcPath) (handlerParams e) [handlerCall e]
  else .comment (streamingNote e)

/-- The method that registers the unary endpoints. -/
def attachToServer (service : ServiceModel) : TypeScript.Method :=
  { name := "attachToServer"
    params := [{ name := "server", type := "grpc.Server" }]
    body :=
      [.sequence
        [.line "server.addService(\x7b",
         .indent (ObjectLiteral.body (service.endpoints.map (descriptorEntry service))),
         .line "\x7d, \x7b",
         .indent (ObjectLiteral.body (service.endpoints.map handlerEntry)),
         .line "\x7d);"]] }

/-- The method that an implementation provides for an endpoint. -/
def abstractMethod (e : Endpoint) : TypeScript.Method :=
  { name := e.name
    isAbstract := true
    params :=
      [{ name := "req", type := requestType e.shape e.request.interface },
       { name := "meta", type := "grpc.Metadata" }]
    returns := some (resultType e.shape e.response.interface) }

/-- The server class of a service. -/
def classOf (service : ServiceModel) : ClassDecl :=
  let start : ClassDecl := { name := className service, isAbstract := true }
  let fields := service.codecs.codecs.foldl (fun c codec => c.addField (codecField codec)) start
  let head := fields.addBlank.addMethod (attachToServer service)
  let body := service.endpoints.foldl (fun c e => c.addBlank.addMethod (abstractMethod e)) head
  service.omissions.foldl (fun c o => c.addBlank.addComment (omissionComment o)) body

/-- The section of a service in the bindings. -/
def sectionFile (service : ServiceModel) : SourceFile :=
  { body := [(classOf service).fragments] }

end RpcBindings.Emit.Server

import RpcBindings.Emit.Codec
import RpcBindings.TypeScript.Class
import RpcBindings.TypeScript.Literal
import RpcBindings.TypeScript.SourceFile

/-!
# Client stubs

A client class has its codec fields, a constructor and one method per endpoint. A method
that answers once returns a promise, and one that answers with a stream returns an
observable; a request that streams is an observable, too. The four shapes differ in the
transport call and in how its events are passed on.
-/
namespace RpcBindings.Emit

open RpcBindings.Binding
open RpcBindings.Layout
open RpcBindings.TypeScript

/-- The type of a stream of values. -/
def observableOf (type : String) : String := "Observable<" ++ type ++ ">"

/-- The type of a value that comes later. -/
def promiseOf (type : String) : String := "Promise<" ++ type ++ ">"

/-- The type of a request parameter. -/
def requestType (shape : Shape) (type : String) : String :=
  if shape.requestStream then observableOf type else type

/-- The type of the result of a call. -/
def resultType (shape : Shape) (type : String) : String :=
  if shape.responseStream then observableOf type else promiseOf type

namespace Client

/-- The name of the client class of a service. -/
def className (service : ServiceModel) : String := service.name ++ "Client"

/-- The metadata and the call options of every transport call. -/
def metadata : String := "meta || new grpc.Metadata(), \x7b\x7d"

/-- The callback that settles the promise around a transport call. -/
def settle : String := "(error, res) => error ? reject(error) : resolve(res)"

/-- The path and the two codecs of a transport call. -/
def callTarget (service : ServiceModel) (e : Endpoint) : String :=
  quoted e.rpcPath ++ ", " ++ codecUse service.codecs .serializer e.request ++ ", "
    ++ codecUse service.codecs .deserializer e.response

/-- The statements that pass the events of a call on to the subscriber. -/
def forwardEvents (response : String) : List Fragment :=
  [.line ("call.on(\"data\", (res: " ++ response ++ ") => subscriber.next(res));"),
   .line "call.on(\"error\", (error: Error) => subscriber.error(error));",
   .line "call.on(\"end\", () => subscriber.complete());"]

/-- The observer that writes a request stream into a call. -/
def requestObserver (request : String) : ObjectLiteral :=
  [.raw "next" ("(message: " ++ request ++ ") => call.write(message)"),
   .raw "error" "(error: Error) => call.destroy(error)",
   .raw "complete" "() => call.end()"]

/-- A subscription of that observer, behind the text `binder`. -/
def writeInput (binder request : String) : Fragment :=
  .enclosed (binder ++ "req.subscribe(\x7b") (requestObserver request).body "\x7d);"

/-- A promise around statements. -/
def inPromise (response : String) (body : List Fragment) : Fragment :=
  .enclosed ("return new " ++ promiseOf response ++ "((resolve, reject) => \x7b") body "\x7d);"

/-- An observable around statements. -/
def inObservable (response : String) (body : List Fragment) : Fragment :=
  .enclosed ("return new " ++ observableOf response ++ "(subscriber => \x7b") body "\x7d);"

/-- The body of a client method. -/
def methodBody (service : ServiceModel) (e : Endpoint) : Fragment :=
  let target := callTarget service e
  let response := e.response.qualified
  let request := e.request.interface
  match e.shape with
  | .unary =>
    inPromise response
      [.line ("this.makeUnaryRequest(" ++ target ++ ", req, " ++ metadata ++ ", " ++ settle
        ++ ");")]
  | .serverStreaming =>
    inObservable response
      ([.line ("const call = this.makeServerStreamRequest(" ++ target ++ ", req, " ++ metadata
          ++ ");")]
        ++ forwardEvents response
        ++ [.line "return () => call.cancel();"])
  | .clientStreaming =>
    inPromise response
      [.line ("const call = this.makeClientStreamRequest(" ++ target ++ ", " ++ metadata ++ ", "
          ++ settle ++ ");"),
       writeInput "" request]
  | .bidirectional =>
    inObservable response
      ([.line ("const call = this.makeBidiStreamRequest(" ++ target ++ ", " ++ metadata
          ++ ");")]
        ++ forwardEvents response
        ++ [writeInput "const input = " request,
            .enclosed "return () => \x7b"
              [.line "input.unsubscribe();", .line "call.cancel();"] "\x7d;"])

/-- The client method of an endpoint. -/
def method (service : ServiceModel) (e : Endpoint) : TypeScript.Method :=
  { name := e.name
    params :=
      [{ name := "req", type := requestType e.shape e.request.interface },
       { name := "meta", type := "grpc.Metadata", optional := true }]
    returns := some (resultType e.shape e.response.qualified)
    body := [methodBody service e] }

/-- The constructor of a client class. -/
def constructor : TypeScript.Method :=
  { name := "constructor"
    params :=
      [{ name := "endpoint", type := "string" },
       { name := "security", type := "grpc.ChannelCredentials", optional := true }]
    body := [.line "super(endpoint, security || grpc.credentials.createInsecure());"] }

/-- The client class of a service. -/
def classOf (service : ServiceModel) : ClassDecl :=
  let start : ClassDecl := { name := className service, base := some "grpc.Client" }
  let fields := service.codecs.codecs.foldl (fun c codec => c.addField (codecField codec)) start
  let head := fields.addBlank.addMethod constructor
  let body := service.endpoints.foldl (fun c e => c.addBlank.addMethod (method service e)) head
  service.omissions.foldl (fun c o => c.addBlank.addComment (omissionComment o)) body

/-- The statements behind the class that make room for its method tables. -/
def markers (service : ServiceModel) : List Fragment :=
  codeLines ("\n".intercalate
    ["(<any>" ++ className service ++ ".prototype).$method_definitions = \x7b\x7d;",
     "(<any>" ++ className service ++ ".prototype).$method_names = \x7b\x7d;"])

/-- The section of a service in the bindings. -/
def sectionFile (service : ServiceModel) : SourceFile :=
  { body := [(classOf service).fragments, markers service] }

end Client

end RpcBindings.Emit

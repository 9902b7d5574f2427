import Mathlib.Data.List.Forall2
import RpcBindings.Emit.Manifest
import RpcBindings.Proofs.ClassBodies

/-! # Client, server and manifest of a service

Five pieces of generated code speak of the methods of a service: the stubs of the client class,
the abstract methods of the server class, the two tables with which the server registers itself,
and the entry in the manifest.  Nothing in the generated code ties them together; a call reaches
its method only because all five were made from the same list.  `endpoints_agree` compares what
they say of every method with the method as it was declared: they agree on its routing key, on
what streams, and on its place.

The pieces are read here as they are written: the methods of a class are found among its written
members, a transport call among the lines of a body, and a property under its key.
-/
namespace RpcBindings.Emit

open RpcBindings.Binding
open RpcBindings.Layout
open RpcBindings.Schema (TypeRef)
open RpcBindings.TypeScript

/-! ## Reading generated code -/

/-- The members of a class that are written, without the empty lines between them. -/
def contentOf (c : ClassDecl) : List Member :=
  c.writtenMembers.filter fun m => !m.isBlank

/-- The method that a member is, if it is one. -/
def method? : Member → Option TypeScript.Method
  | .method m => some m
  | _ => none

/-- The methods of a class in order. -/
def methodsOf (c : ClassDecl) : List TypeScript.Method :=
  (contentOf c).filterMap method?

/-- The type of the parameter of a name. -/
def paramType? (m : TypeScript.Method) (name : String) : Option String :=
  (m.params.find? fun p => p.name == name).map Param.type

mutual

/-- The lines of code in a fragment, at whatever depth they stand. -/
def codeOf : Fragment → List String
  | .line text => [text]
  | .blank => []
  | .raw text => [text]
  | .block header body close => header :: codeOfAll body ++ close.toList
  | .indent body => codeOfAll body
  | .sequence body => codeOfAll body
  | .comment _ => []

/-- The lines of code in fragments. -/
def codeOfAll : List Fragment → List String
  | [] => []
  | f :: fs => codeOf f ++ codeOfAll fs

end

/-- Whether a line of code calls the transport, be it for the result or to keep the call. -/
def isTransportCall (line : String) : Bool :=
  ["this.make", "const call = this.make"].any fun start => start.toList.isPrefixOf line.toList

/-- The transport calls that a method makes. -/
def transportCalls (m : TypeScript.Method) : List String :=
  (codeOfAll m.body).filter isTransportCall

/-- The key of a property; a comment has none. -/
def key? : Property → Option String
  | .text key _ => some key
  | .raw key _ => some key
  | .object key _ => some key
  | .array key _ => some key
  | .arrow key _ _ => some key
  | .comment _ => none

/-- The property of a key. -/
def property? (o : ObjectLiteral) (key : String) : Option Property :=
  o.find? fun p => key? p == some key

/-- What an entry of a table is listed as: its key, or the comment that it is. -/
def label : Property → String ⊕ String
  | .text key _ => .inl key
  | .raw key _ => .inl key
  | .object key _ => .inl key
  | .array key _ => .inl key
  | .arrow key _ _ => .inl key
  | .comment text => .inr text

/-! ## The members of a class -/

section Content

/-- Only empty lines are dropped when a class is written. -/
theorem contentOf_eq (c : ClassDecl) : contentOf c = c.members.filter fun m => !m.isBlank :=
  filter_rdropWhile c.members

theorem contentOf_add (c : ClassDecl) {m : Member} (h : m.isBlank = false) :
    contentOf (c.add m) = contentOf c ++ [m] := by
  rw [contentOf_eq, contentOf_eq, ClassDecl.add, List.filter_append,
    List.filter_cons_of_pos (by simp [h])]
  rfl

theorem contentOf_addBlank (c : ClassDecl) : contentOf c.addBlank = contentOf c := by
  unfold ClassDecl.addBlank
  split
  · rfl
  · rfl
  · rw [contentOf_eq, contentOf_eq, ClassDecl.add, List.filter_append]
    exact List.append_nil _

/-- Members that are added one after the other stand behind what the class has. -/
theorem contentOf_foldl {α : Type} {f : ClassDecl → α → ClassDecl} {member : α → Member}
    (hf : ∀ c x, contentOf (f c x) = contentOf c ++ [member x]) (xs : List α) (c : ClassDecl) :
    contentOf (xs.foldl f c) = contentOf c ++ xs.map member := by
  induction xs generalizing c with
  | nil => exact (List.append_nil _).symm
  | cons x xs ih => rw [List.foldl_cons, ih, hf, List.map_cons, ← List.append_cons]

/-- A class of a service has its codec fields, a method of its own, a method for each endpoint
and a comment for each omission. -/
theorem contentOf_class (start : ClassDecl) (hstart : start.members = []) (service : ServiceModel)
    (first : TypeScript.Method) (method : Endpoint → TypeScript.Method) :
    contentOf
        (service.omissions.foldl (fun c o => c.addBlank.addComment (omissionComment o))
          (service.endpoints.foldl (fun c e => c.addBlank.addMethod (method e))
            ((service.codecs.codecs.foldl (fun c codec => c.addField (codecField codec))
              start).addBlank.addMethod first))) =
      service.codecs.codecs.map (fun codec => .field (codecField codec)) ++
        .method first :: service.endpoints.map (fun e => .method (method e)) ++
        service.omissions.map fun o => .comment (omissionComment o) := by
  have hcomment : ∀ (c : ClassDecl) (o : Omission),
      contentOf (c.addBlank.addComment (omissionComment o)) =
        contentOf c ++ [.comment (omissionComment o)] := fun c o => by
    rw [ClassDecl.addComment, contentOf_add _ rfl, contentOf_addBlank]
  have hmethod : ∀ (c : ClassDecl) (m : TypeScript.Method),
      contentOf (c.addBlank.addMethod m) = contentOf c ++ [.method m] := fun c m => by
    rw [ClassDecl.addMethod, contentOf_add _ rfl, contentOf_addBlank]
  have hfield : ∀ (c : ClassDecl) (codec : Codec),
      contentOf (c.addField (codecField codec)) = contentOf c ++ [.field (codecField codec)] :=
    fun c codec => contentOf_add c rfl
  have hnone : contentOf start = [] := by rw [contentOf_eq, hstart]; rfl
  rw [contentOf_foldl hcomment, contentOf_foldl fun c e => hmethod c (method e), hmethod,
    contentOf_foldl hfield, hnone]
  simp

/-- Of these only the methods are methods. -/
theorem methodsOf_class (start : ClassDecl) (hstart : start.members = []) (service : ServiceModel)
    (first : TypeScript.Method) (method : Endpoint → TypeScript.Method) :
    methodsOf
        (service.omissions.foldl (fun c o => c.addBlank.addComment (omissionComment o))
          (service.endpoints.foldl (fun c e => c.addBlank.addMethod (method e))
            ((service.codecs.codecs.foldl (fun c codec => c.addField (codecField codec))
              start).addBlank.addMethod first))) =
      first :: service.endpoints.map method := by
  rw [methodsOf, contentOf_class start hstart, List.filterMap_append, List.filterMap_append,
    List.filterMap_cons, List.filterMap_map, List.filterMap_map, List.filterMap_map]
  simp [Function.comp_def, method?]

/-- **A client class has its constructor and one method for each endpoint.** -/
theorem methodsOf_client (service : ServiceModel) :
    methodsOf (Client.classOf service) =
      Client.constructor :: service.endpoints.map (Client.method service) :=
  methodsOf_class _ rfl service Client.constructor (Client.method service)

/-- **A server class has its registration and one method for each endpoint.** -/
theorem methodsOf_server (service : ServiceModel) :
    methodsOf (Server.classOf service) =
      Server.attachToServer service :: service.endpoints.map Server.abstractMethod :=
  methodsOf_class _ rfl service (Server.attachToServer service) Server.abstractMethod

end Content

/-! ## What streams -/

section Streams
variable (shape : Shape) (type : String)

theorem observableOf_ne : observableOf type ≠ type := by
  intro h
  have hlength := congrArg String.length h
  simp only [observableOf, String.length_append] at hlength
  have hstart : "Observable<".length = 11 := by decide
  omega

theorem observableOf_ne_promiseOf : observableOf type ≠ promiseOf type := by
  intro h
  have hhead := congrArg (fun s : String => s.toList.head?) h
  simp [observableOf, promiseOf] at hhead

theorem requestType_eq_observableOf :
    requestType shape type = observableOf type ↔ shape.requestStream = true := by
  unfold requestType
  split
  · next h => exact iff_of_true rfl h
  · next h => exact iff_of_false (observableOf_ne type).symm h

theorem requestType_eq_self :
    requestType shape type = type ↔ shape.requestStream = false := by
  unfold requestType
  split
  · next h => exact iff_of_false (observableOf_ne type) (by simp [h])
  · next h => exact iff_of_true rfl (by simpa using h)

theorem resultType_eq_observableOf :
    resultType shape type = observableOf type ↔ shape.responseStream = true := by
  unfold resultType
  split
  · next h => exact iff_of_true rfl h
  · next h => exact iff_of_false (observableOf_ne_promiseOf type).symm h

theorem resultType_eq_promiseOf :
    resultType shape type = promiseOf type ↔ shape.responseStream = false := by
  unfold resultType
  split
  · next h => exact iff_of_false (observableOf_ne_promiseOf type) (by simp [h])
  · next h => exact iff_of_true rfl (by simpa using h)

end Streams

/-- A generated method takes the request and gives the response of a method, as streams exactly
where the method streams.  `request` and `response` are the types of single messages. -/
structure Signed (m : Schema.Method) (request response : String) (t : TypeScript.Method) :
    Prop where
  name : t.name = m.name
  streams : paramType? t "req" = some (observableOf request) ↔ m.requestStream = true
  single : paramType? t "req" = some request ↔ m.requestStream = false
  answersStream : t.returns = some (observableOf response) ↔ m.responseStream = true
  answersOnce : t.returns = some (promiseOf response) ↔ m.responseStream = false

theorem signed_of_shape {m : Schema.Method} {shape : Shape}
    (hshape : shape = .ofFlags m.requestStream m.responseStream) {request response : String}
    {t : TypeScript.Method} (hname : t.name = m.name)
    (hrequest : paramType? t "req" = some (requestType shape request))
    (hresponse : t.returns = some (resultType shape response)) : Signed m request response t where
  name := hname
  streams := by
    rw [hrequest, Option.some_inj, requestType_eq_observableOf, hshape,
      Shape.requestStream_ofFlags]
  single := by
    rw [hrequest, Option.some_inj, requestType_eq_self, hshape, Shape.requestStream_ofFlags]
  answersStream := by
    rw [hresponse, Option.some_inj, resultType_eq_observableOf, hshape,
      Shape.responseStream_ofFlags]
  answersOnce := by
    rw [hresponse, Option.some_inj, resultType_eq_promiseOf, hshape,
      Shape.responseStream_ofFlags]

/-! ## Transport calls -/

theorem codeOfAll_append (xs ys : List Fragment) :
    codeOfAll (xs ++ ys) = codeOfAll xs ++ codeOfAll ys := by
  induction xs with
  | nil => rfl
  | cons x xs ih => rw [List.cons_append, codeOfAll, ih, codeOfAll, List.append_assoc]

/-- There is no transport call in the fragments. -/
def Silent (fragments : List Fragment) : Prop :=
  (codeOfAll fragments).filter isTransportCall = []

theorem Silent.append {xs ys : List Fragment} (hx : Silent xs) (hy : Silent ys) :
    Silent (xs ++ ys) := by
  rw [Silent, codeOfAll_append, List.filter_append, hx, hy, List.append_nil]

theorem silent_forwardEvents (response : String) : Silent (Client.forwardEvents response) := by
  simp [Silent, Client.forwardEvents, codeOfAll, codeOf, isTransportCall]

theorem silent_writeInput {binder : String} (h : binder = "" ∨ binder = "const input = ")
    (request : String) : Silent [Client.writeInput binder request] := by
  rcases h with rfl | rfl <;>
    simp [Silent, Client.writeInput, Client.requestObserver, ObjectLiteral.body,
      Property.fragment, Fragment.enclosed, codeOfAll, codeOf, isTransportCall]

/-- A block that starts with a call and has no other makes that call. -/
theorem filter_enclosed {header call close : String} {rest : List Fragment}
    (hheader : isTransportCall header = false) (hcall : isTransportCall call = true)
    (hrest : Silent rest) (hclose : isTransportCall close = false) :
    (codeOfAll [.enclosed header (.line call :: rest) close]).filter isTransportCall = [call] := by
  have hlines : codeOfAll [.enclosed header (.line call :: rest) close] =
      header :: call :: (codeOfAll rest ++ [close]) := by
    simp [Fragment.enclosed, codeOfAll, codeOf]
  rw [hlines, List.filter_cons_of_neg (by simp [hheader]), List.filter_cons_of_pos hcall,
    List.filter_append, hrest, List.filter_cons_of_neg (by simp [hclose])]
  rfl

/-- The call of the transport that serves a method with these streams. -/
def primitive (requestStream responseStream : Bool) : String :=
  match requestStream, responseStream with
  | false, false => "makeUnaryRequest"
  | false, true => "makeServerStreamRequest"
  | true, false => "makeClientStreamRequest"
  | true, true => "makeBidiStreamRequest"

/-- The line calls the transport for a method with these streams along a path. -/
def CallsAlong (requestStream responseStream : Bool) (path line : String) : Prop :=
  ∃ binder arguments, line =
    binder ++ "this." ++ primitive requestStream responseStream ++ "(" ++ quoted path ++ ", " ++
      arguments

/-- The path of a call stands in front of its codecs. -/
theorem callsAlong_callTarget {a b : Bool} {start : String} (binder : String)
    (hstart : start = binder ++ "this." ++ primitive a b ++ "(") (service : ServiceModel)
    (e : Endpoint) (rest : String) :
    CallsAlong a b e.rpcPath (start ++ (Client.callTarget service e ++ rest)) := by
  refine ⟨binder, codecUse service.codecs .serializer e.request ++ ", " ++
    codecUse service.codecs .deserializer e.response ++ rest, ?_⟩
  rw [hstart, Client.callTarget]
  simp only [String.append_assoc]

/-- **A client method makes one transport call**, the one for the shape of its endpoint, along
the routing key of the endpoint. -/
theorem transportCalls_client (service : ServiceModel) (e : Endpoint) :
    ∃ call, transportCalls (Client.method service e) = [call] ∧
      CallsAlong e.shape.requestStream e.shape.responseStream e.rpcPath call := by
  have hclose : isTransportCall "\x7d);" = false := by decide
  have hpromise : isTransportCall
      ("return new " ++ promiseOf e.response.qualified ++ "((resolve, reject) => \x7b") =
        false := by
    simp [isTransportCall, List.isPrefixOf]
  have hobservable : isTransportCall
      ("return new " ++ observableOf e.response.qualified ++ "(subscriber => \x7b") = false := by
    simp [isTransportCall, List.isPrefixOf]
  have hevents := silent_forwardEvents e.response.qualified
  unfold transportCalls Client.method
  rw [Client.methodBody]
  -- in all four shapes the call comes first; the bodies differ in what they do with it afterwards
  cases hshape : e.shape with
  | unary =>
    refine ⟨_, filter_enclosed hpromise ?_ rfl hclose, ?_⟩
    · simp [isTransportCall]
    · simp only [String.append_assoc]
      exact callsAlong_callTarget "" (by decide) service e _
  | serverStreaming =>
    have hcancel : Silent [.line "return () => call.cancel();"] := by
      simp [Silent, codeOfAll, codeOf, isTransportCall]
    refine ⟨_, filter_enclosed hobservable ?_ (hevents.append hcancel) hclose, ?_⟩
    · simp [isTransportCall]
    · simp only [String.append_assoc]
      exact callsAlong_callTarget "const call = " (by decide) service e _
  | clientStreaming =>
    refine ⟨_, filter_enclosed hpromise ?_ (silent_writeInput (Or.inl rfl) _) hclose, ?_⟩
    · simp [isTransportCall]
    · simp only [String.append_assoc]
      exact callsAlong_callTarget "const call = " (by decide) service e _
  | bidirectional =>
    have hinput : Silent [Client.writeInput "const input = " e.request.interface,
        .enclosed "return () => \x7b" [.line "input.unsubscribe();", .line "call.cancel();"]
          "\x7d;"] := by
      refine (silent_writeInput (Or.inr rfl) _).append ?_
      simp [Silent, Fragment.enclosed, codeOfAll, codeOf, isTransportCall]
    refine ⟨_, filter_enclosed hobservable ?_ (hevents.append hinput) hclose, ?_⟩
    · simp [isTransportCall]
    · simp only [String.append_assoc]
      exact callsAlong_callTarget "const call = " (by decide) service e _

/-! ## What is generated for a method -/

/-- The methods of a service whose types are both known. -/
def resolvedMethods (s : Schema.Service) : List Schema.Method :=
  s.methods.filter fun m => m.resolved?.isSome

/-- The stub of a method in the client class. -/
def IsStub (m : Schema.Method) (stub : TypeScript.Method) : Prop :=
  ∃ request response, m.resolved? = some (request, response) ∧
    Signed m request.interface response.qualified stub ∧
    ∃ call, transportCalls stub = [call] ∧
      CallsAlong m.requestStream m.responseStream (Name.rpcPath m.fullName) call

/-- The method that an implementation of the server class provides for a method. -/
def IsBase (m : Schema.Method) (base : TypeScript.Method) : Prop :=
  ∃ request response, m.resolved? = some (request, response) ∧ base.isAbstract = true ∧
    Signed m request.interface response.interface base

/-- The property of a key is `true` exactly when the flag is set, and `false` otherwise. -/
structure Flagged (o : ObjectLiteral) (key : String) (flag : Bool) : Prop where
  set : property? o key = some (.raw key "true") ↔ flag = true
  unset : property? o key = some (.raw key "false") ↔ flag = false

/-- The object that lists a method in the manifest. -/
def IsListed (m : Schema.Method) (entry : Element) : Prop :=
  ∃ properties, entry = .object properties ∧
    property? properties "name" = some (.text "name" (Name.rpcPath m.fullName)) ∧
    Flagged properties "reqStream" m.requestStream ∧
    Flagged properties "resStream" m.responseStream

/-- Whether the method is unary: neither its request nor its response streams. -/
def isUnary (m : Schema.Method) : Bool := !m.requestStream && !m.responseStream

/-- The descriptor and the handler of a method in the tables of a registration: under its quoted
routing key when it is unary, and otherwise a comment in the place of both. -/
def IsRegistered (m : Schema.Method) (descriptor handler : Property) : Prop :=
  if isUnary m then
    ∃ properties params rest,
      descriptor = .object (quoted (Name.rpcPath m.fullName)) properties ∧
      property? properties "path" = some (.text "path" (Name.rpcPath m.fullName)) ∧
      property? properties "requestStream" = some (.raw "requestStream" "false") ∧
      property? properties "responseStream" = some (.raw "responseStream" "false") ∧
      handler = .arrow (quoted (Name.rpcPath m.fullName)) params
        ["this." ++ m.name ++ "(call.request, call.metadata)" ++ rest]
  else ∃ note, descriptor = .comment (m.name ++ ": " ++ note) ∧
    handler = .comment (m.name ++ ": " ++ note)

/-- The method registers methods with a transport server, by a table of descriptors and a table
of handlers that have the same entries in the same order. -/
def Registers (ms : List Schema.Method) (attach : TypeScript.Method) : Prop :=
  ∃ descriptors handlers : ObjectLiteral,
    attach.body =
      [.sequence
        [.line "server.addService(\x7b", .indent descriptors.body, .line "\x7d, \x7b",
         .indent handlers.body, .line "\x7d);"]] ∧
    descriptors.map label = handlers.map label ∧
    descriptors.filterMap key? =
      (ms.filter isUnary).map (fun m => quoted (Name.rpcPath m.fullName)) ∧
    descriptors.length = ms.length ∧ handlers.length = ms.length ∧
    List.Forall₂ (fun m entry => IsRegistered m entry.1 entry.2) ms (descriptors.zip handlers)

/-- Client, server and manifest say the same of the methods of a service: each has one piece for
every method whose types are known, in declaration order. -/
structure EndpointsAgree (s : Schema.Service) : Prop where
  client : ∃ stubs,
    methodsOf (Client.classOf (.ofService .client s)) = Client.constructor :: stubs ∧
    List.Forall₂ IsStub (resolvedMethods s) stubs
  server : ∃ attach bases,
    methodsOf (Server.classOf (.ofService .server s)) = attach :: bases ∧
    attach.name = "attachToServer" ∧ attach.isAbstract = false ∧
    Registers (resolvedMethods s) attach ∧
    List.Forall₂ IsBase (resolvedMethods s) bases
  manifest : ∃ entries,
    Manifest.serviceEntry (.ofService .manifest s) =
      [.text "service" (Name.qualified s.fullName), .array "methods" entries] ∧
    List.Forall₂ IsListed (resolvedMethods s) entries

/-! ## Endpoints and their methods -/

theorem endpoint_eq_some {m : Schema.Method} {e : Endpoint} (h : Endpoint.ofMethod? m = some e) :
    m.resolved? = some (e.request, e.response) ∧ e.name = m.name ∧
      e.rpcPath = Name.rpcPath m.fullName ∧
      e.shape = .ofFlags m.requestStream m.responseStream := by
  obtain ⟨⟨request, response⟩, hresolved, rfl⟩ := Option.map_eq_some_iff.mp h
  exact ⟨hresolved, rfl, rfl, rfl⟩

/-- Each method whose types are known has an endpoint, and the endpoints stand in the order of
the methods. -/
theorem forall₂_endpoints (ms : List Schema.Method) :
    List.Forall₂ (fun m e => Endpoint.ofMethod? m = some e)
      (ms.filter fun m => m.resolved?.isSome) (ms.filterMap Endpoint.ofMethod?) := by
  induction ms with
  | nil => exact .nil
  | cons m ms ih =>
    cases hresolved : m.resolved? with
    | none =>
      have hnone : Endpoint.ofMethod? m = none := by rw [Endpoint.ofMethod?, hresolved]; rfl
      rw [List.filter_cons_of_neg (by simp [hresolved]), List.filterMap_cons_none hnone]
      exact ih
    | some types =>
      obtain ⟨e, he⟩ : ∃ e, Endpoint.ofMethod? m = some e := by
        rw [Endpoint.ofMethod?, hresolved]
        exact ⟨_, rfl⟩
      rw [List.filter_cons_of_pos (by simp [hresolved]), List.filterMap_cons_some he]
      exact .cons he ih

/-- What holds of every endpoint and its method holds along the list. -/
theorem forall₂_map_endpoints {α : Type} {R : Schema.Method → α → Prop} (f : Endpoint → α)
    (s : Schema.Service) (h : ∀ m e, Endpoint.ofMethod? m = some e → R m (f e)) :
    List.Forall₂ R (resolvedMethods s) ((s.methods.filterMap Endpoint.ofMethod?).map f) := by
  rw [List.forall₂_map_right_iff]
  exact (forall₂_endpoints s.methods).imp h

section Endpoints
variable {m : Schema.Method} {e : Endpoint}

theorem isStub_method (h : Endpoint.ofMethod? m = some e) (service : ServiceModel) :
    IsStub m (Client.method service e) := by
  obtain ⟨hresolved, hname, hpath, hshape⟩ := endpoint_eq_some h
  obtain ⟨call, hcalls, halong⟩ := transportCalls_client service e
  rw [hshape, Shape.requestStream_ofFlags, Shape.responseStream_ofFlags, hpath] at halong
  exact ⟨e.request, e.response, hresolved, signed_of_shape hshape hname rfl rfl, call, hcalls,
    halong⟩

theorem isBase_abstractMethod (h : Endpoint.ofMethod? m = some e) :
    IsBase m (Server.abstractMethod e) := by
  obtain ⟨hresolved, hname, _, hshape⟩ := endpoint_eq_some h
  exact ⟨e.request, e.response, hresolved, rfl, signed_of_shape hshape hname rfl rfl⟩

theorem flagged_of_property {o : ObjectLiteral} {key : String} {flag : Bool}
    (h : property? o key = some (.raw key (Server.boolText flag))) : Flagged o key flag := by
  cases flag with
  | false => exact ⟨by rw [h]; simp [Server.boolText], by rw [h]; simp [Server.boolText]⟩
  | true => exact ⟨by rw [h]; simp [Server.boolText], by rw [h]; simp [Server.boolText]⟩

theorem isListed_endpointEntry (h : Endpoint.ofMethod? m = some e) :
    IsListed m (.object (Manifest.endpointEntry e)) := by
  obtain ⟨_, _, hpath, hshape⟩ := endpoint_eq_some h
  rw [Manifest.endpointEntry, hshape, hpath, Shape.requestStream_ofFlags,
    Shape.responseStream_ofFlags]
  exact ⟨_, rfl, rfl, flagged_of_property rfl, flagged_of_property rfl⟩

theorem isUnary_shape (h : Endpoint.ofMethod? m = some e) : e.shape.isUnary = isUnary m := by
  obtain ⟨_, _, _, hshape⟩ := endpoint_eq_some h
  rw [hshape, isUnary]
  cases m.requestStream <;> cases m.responseStream <;> rfl

theorem isRegistered_entries (h : Endpoint.ofMethod? m = some e) (service : ServiceModel) :
    IsRegistered m (Server.descriptorEntry service e) (Server.handlerEntry e) := by
  obtain ⟨_, hname, hpath, hshape⟩ := endpoint_eq_some h
  rw [Server.descriptorEntry, Server.handlerEntry, isUnary_shape h]
  unfold IsRegistered
  split
  · next hunary =>
    obtain ⟨hrequest, hresponse⟩ : m.requestStream = false ∧ m.responseStream = false := by
      simpa [isUnary] using hunary
    rw [hrequest, hresponse] at hshape
    rw [Server.descriptor, Server.handlerCall, hshape, hname, hpath]
    exact ⟨_, _, ".then(res => callback(null, res), error => callback(error, null));", rfl, rfl,
      rfl, rfl, rfl⟩
  · refine ⟨e.shape.text ++ " registration is not supported", ?_⟩
    rw [Server.streamingNote, hname]
    simp [String.append_assoc]

theorem label_entries (service : ServiceModel) (e : Endpoint) :
    label (Server.descriptorEntry service e) = label (Server.handlerEntry e) := by
  unfold Server.descriptorEntry Server.handlerEntry
  split <;> rfl

/-- The keys of the descriptor table are the routing keys of the unary methods. -/
theorem keys_descriptors {ms : List Schema.Method} {es : List Endpoint}
    (h : List.Forall₂ (fun m e => Endpoint.ofMethod? m = some e) ms es) (service : ServiceModel) :
    (es.map (Server.descriptorEntry service)).filterMap key? =
      (ms.filter isUnary).map fun m => quoted (Name.rpcPath m.fullName) := by
  induction h with
  | nil => rfl
  | @cons m e ms es he _ ih =>
    obtain ⟨_, _, hpath, _⟩ := endpoint_eq_some he
    rw [List.map_cons, Server.descriptorEntry, isUnary_shape he]
    cases hunary : isUnary m with
    | true =>
      rw [List.filter_cons_of_pos hunary, if_pos rfl, List.filterMap_cons, ih, hpath]
      rfl
    | false =>
      rw [List.filter_cons_of_neg (by simp [hunary]), if_neg Bool.false_ne_true,
        List.filterMap_cons, ih]
      rfl

theorem registers_attachToServer (role : Role) (s : Schema.Service) :
    Registers (resolvedMethods s) (Server.attachToServer (.ofService role s)) := by
  have hmethods := forall₂_endpoints s.methods
  have hlength := hmethods.length_eq
  refine ⟨_, _, rfl, ?_, keys_descriptors hmethods _, ?_, ?_, ?_⟩
  · rw [List.map_map, List.map_map]
    exact List.map_congr_left fun e _ => label_entries _ e
  · rw [List.length_map]
    exact hlength.symm
  · rw [List.length_map]
    exact hlength.symm
  · rw [List.zip_map']
    exact forall₂_map_endpoints _ s fun m e he => isRegistered_entries he _

end Endpoints

/-- **Client, server and manifest agree on every method**, for every service, whatever its methods
are called and whichever of them have open types.  The stubs of the client, the abstract methods
of the server and the entries of the manifest are those of the methods whose types are known, one
for one and in declaration order; each stub makes one transport call, along the routing key that
the manifest lists, and all three have a stream exactly where the method has one.  In the
registration both tables have the same entries in the same order: the unary methods under their
quoted routing keys, and a comment for every other method. -/
theorem endpoints_agree (s : Schema.Service) : EndpointsAgree s where
  client := by
    refine ⟨_, methodsOf_client _, ?_⟩
    exact forall₂_map_endpoints _ s fun m e he => isStub_method he _
  server := by
    refine ⟨_, _, methodsOf_server _, rfl, rfl, registers_attachToServer .server s, ?_⟩
    exact forall₂_map_endpoints _ s fun m e he => isBase_abstractMethod he
  manifest := by
    refine ⟨_, rfl, ?_⟩
    exact forall₂_map_endpoints _ s fun m e he => isListed_endpointEntry he

end RpcBindings.Emit

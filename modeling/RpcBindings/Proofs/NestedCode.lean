import RpcBindings.Proofs.Unbracketed

/-! # Generated code is well nested

Clients, server bases and the manifest are put together from lines whose brackets match only in
part: a header opens what another line closes, and a table ends where the next one starts.  Each
piece is balanced as soon as the names in it hold no bracket, and from there on balance is carried
by the fragments: literals, methods and classes are balanced when what stands in them is, and so
are the sections of a service (`Client.balanced_section`, `Server.balanced_section`,
`Manifest.balanced_body`).
-/
namespace RpcBindings.TypeScript

open RpcBindings.Layout
open RpcBindings.Text (Balanced brackets brackets_append brackets_ofList)

/-! ## Literals -/

section Literals
variable {key value : String}

theorem brackets_quoted (value : String) : brackets (quoted value) = brackets value := by
  have hquote : brackets "\"" = [] := (brackets_ofList _).trans (by decide)
  rw [quoted, brackets_append, brackets_append, hquote, List.nil_append, List.append_nil]

theorem body_eq_map (ps : ObjectLiteral) : ps.body = ps.map Property.fragment := by
  induction ps with
  | nil => rfl
  | cons p ps ih => rw [ObjectLiteral.body, ih, List.map_cons]

theorem elements_eq_map (es : ArrayLiteral) : es.body = es.map Element.fragment := by
  induction es with
  | nil => rfl
  | cons e es ih => rw [ArrayLiteral.body, ih, List.map_cons]

theorem balanced_comment {text : String} (h : brackets text = []) :
    (Property.comment text).fragment.Balanced := by
  rw [Property.fragment, Fragment.Balanced, Fragment.brackets]
  exact Text.balanced_of_eq_nil h

theorem balanced_raw (hkey : brackets key = []) (hvalue : Balanced (brackets value)) :
    (Property.raw key value).fragment.Balanced := by
  have hline : Balanced (brackets ": " ++ brackets ",") := by decide
  rw [Property.fragment, Fragment.Balanced, Fragment.brackets, brackets_append, brackets_append,
    brackets_append, hkey, List.nil_append]
  exact hline.between hvalue

theorem balanced_text (hkey : brackets key = []) (hvalue : brackets value = []) :
    (Property.text key value).fragment.Balanced := by
  have hquoted : Balanced (brackets (quoted value)) := by
    rw [brackets_quoted]
    exact Text.balanced_of_eq_nil hvalue
  exact balanced_raw hkey hquoted

theorem balanced_object {ps : ObjectLiteral} (hkey : brackets key = [])
    (h : ∀ p ∈ ps, p.fragment.Balanced) : (Property.object key ps).fragment.Balanced := by
  rw [Property.fragment, body_eq_map]
  refine balanced_enclosed ?_ (List.forall_mem_map.mpr h)
  rw [brackets_append, hkey]
  decide

theorem balanced_arrow {params : String} {body : List String} (hkey : brackets key = [])
    (hparams : brackets params = []) (h : ∀ line ∈ body, Balanced (brackets line)) :
    (Property.arrow key params body).fragment.Balanced := by
  rw [Property.fragment]
  refine balanced_enclosed ?_ (List.forall_mem_map.mpr h)
  rw [brackets_append, brackets_append, brackets_append, hkey, hparams]
  decide

theorem balanced_array {es : ArrayLiteral} (hkey : brackets key = [])
    (hinline : ∀ e ∈ es, Balanced (brackets e.inline)) (h : ∀ e ∈ es, e.fragment.Balanced) :
    (Property.array key es).fragment.Balanced := by
  rw [Property.fragment]
  split
  · have hbrackets : Balanced (brackets "[" ++ brackets "]") := by decide
    have hes : Balanced ((es.map Element.inline).flatMap brackets) :=
      .flatMap (List.forall_mem_map.mpr hinline)
    refine balanced_raw hkey ?_
    rw [ArrayLiteral.inline, brackets_append, brackets_append, Text.brackets_joined]
    exact hbrackets.between hes
  · rw [elements_eq_map]
    refine balanced_enclosed ?_ (List.forall_mem_map.mpr h)
    rw [brackets_append, hkey]
    decide

theorem balanced_objectElement {ps : ObjectLiteral} (h : ∀ p ∈ ps, p.fragment.Balanced) :
    (Element.object ps).fragment.Balanced := by
  rw [Element.fragment, body_eq_map]
  exact balanced_enclosed (by decide) (List.forall_mem_map.mpr h)

end Literals

/-! ## Classes -/

theorem brackets_param {name type : String} (optional : Bool) (hname : brackets name = [])
    (htype : brackets type = []) : brackets (Param.text ⟨name, type, optional⟩) = [] := by
  have hmark : brackets (if optional then "?" else "") = [] := by
    split <;> decide
  simp only [Param.text, brackets_append, hname, hmark, htype]
  decide

theorem brackets_signature {m : Method} (hname : brackets m.name = [])
    (hparams : ∀ p ∈ m.params, brackets p.text = []) (hreturns : ∀ type ∈ m.returns,
      brackets type = []) : brackets m.signature = ['(', ')'] := by
  have hjoined : (m.params.map Param.text).flatMap brackets = [] :=
    List.flatMap_eq_nil_iff.mpr (List.forall_mem_map.mpr hparams)
  have hstart : brackets (if m.isAbstract then "abstract " else "") = [] := by
    split <;> decide
  unfold Method.signature
  cases hresult : m.returns with
  | none =>
    simp only [brackets_append, Text.brackets_joined, hname, hjoined, hstart]
    decide
  | some type =>
    simp only [brackets_append, Text.brackets_joined, hname, hjoined, hstart,
      hreturns type hresult]
    decide

theorem balanced_method {m : Method} (hname : brackets m.name = [])
    (hparams : ∀ p ∈ m.params, brackets p.text = []) (hreturns : ∀ type ∈ m.returns,
      brackets type = []) (hbody : ∀ f ∈ m.body, f.Balanced) : m.fragment.Balanced := by
  have hsignature := brackets_signature hname hparams hreturns
  unfold Method.fragment
  split
  · rw [Fragment.Balanced, Fragment.brackets, brackets_append, hsignature]
    decide
  · refine balanced_enclosed ?_ hbody
    rw [brackets_append, hsignature]
    decide

theorem balanced_class {c : ClassDecl} (hheader : brackets c.header = ['\x7b'])
    (h : ∀ m ∈ c.writtenMembers, m.fragment.Balanced) : ∀ f ∈ c.fragments, f.Balanced := by
  rw [ClassDecl.fragments, List.forall_mem_singleton]
  refine balanced_enclosed ?_ (List.forall_mem_map.mpr h)
  rw [hheader]
  decide

theorem bracketsAll_codeLines (text : String) : bracketsAll (codeLines text) = brackets text := by
  rw [bracketsAll_eq_flatMap, codeLines, List.flatMap_map]
  exact Text.brackets_lines text

end RpcBindings.TypeScript

namespace RpcBindings.Emit

open RpcBindings.Binding
open RpcBindings.Layout
open RpcBindings.Schema (TypeRef)
open RpcBindings.Text (Balanced brackets brackets_append brackets_ofList)
open RpcBindings.TypeScript

variable {service : ServiceModel} {e : Endpoint}

/-! ## Codec fields -/

theorem brackets_codecName (direction : Direction) {ident : String} (h : brackets ident = []) :
    brackets (codecName direction ident) = [] := by
  cases direction with
  | serializer =>
    rw [codecName, brackets_append, h]
    decide
  | deserializer =>
    rw [codecName, brackets_append, h]
    decide

theorem balanced_codecField {c : Codec} (h : c.Unbracketed) :
    (Member.field (codecField c)).fragment.Balanced := by
  have hname (direction : Direction) := brackets_codecName direction h.ident
  have hqualified := Name.brackets_qualified h.message
  have hinterface := Name.brackets_interface h.message
  rw [Member.fragment, Fragment.Balanced, Fragment.brackets, codecField]
  cases c.direction with
  | serializer =>
    simp only [brackets_append, hname, TypeRef.qualified, TypeRef.interface, hqualified, hinterface]
    repeat rw [brackets_ofList]
    decide
  | deserializer =>
    simp only [brackets_append, hname, TypeRef.qualified, hqualified]
    repeat rw [brackets_ofList]
    decide

theorem brackets_codecUse {table : CodecTable} (direction : Direction) {message : TypeRef}
    (h : ∀ c ∈ table.codecs, c.Unbracketed) (hmessage : brackets message.fullName = []) :
    brackets (codecUse table direction message) = [] := by
  have hident : brackets (((table.codec? direction message).map Codec.ident).getD message.name) =
      [] := by
    cases hcodec : table.codec? direction message with
    | none => exact Name.brackets_leaf hmessage
    | some c =>
      have hmem : c ∈ table.codecs := by
        cases direction with
        | serializer => exact List.mem_append_left _ (findCodec?_eq_some hcodec).1
        | deserializer => exact List.mem_append_right _ (findCodec?_eq_some hcodec).1
      exact (h c hmem).ident
  rw [codecUse, brackets_append, brackets_codecName direction hident]
  decide

theorem balanced_omissionComment {o : Omission}
    (h : ∀ name ∈ o.name :: o.unresolved, brackets name = []) :
    (Member.comment (omissionComment o)).fragment.Balanced := by
  obtain ⟨hname, htypes⟩ := List.forall_mem_cons.mp h
  rw [Member.fragment, Fragment.Balanced, Fragment.brackets, omissionComment, brackets_append,
    brackets_append, hname, Text.brackets_joined, List.flatMap_eq_nil_iff.mpr htypes,
    brackets_ofList]
  decide

/-! ## Types in signatures -/

section Types
variable {type : String} (h : brackets type = [])
include h

theorem brackets_observableOf : brackets (observableOf type) = [] := by
  rw [observableOf, brackets_append, brackets_append, h]
  decide

theorem brackets_promiseOf : brackets (promiseOf type) = [] := by
  rw [promiseOf, brackets_append, brackets_append, h]
  decide

theorem brackets_requestType (shape : Shape) : brackets (requestType shape type) = [] := by
  unfold requestType
  split
  · exact brackets_observableOf h
  · exact h

theorem brackets_resultType (shape : Shape) : brackets (resultType shape type) = [] := by
  unfold resultType
  split
  · exact brackets_observableOf h
  · exact brackets_promiseOf h

end Types

/-- The parameters of a method of a service. -/
theorem brackets_params (he : e.Unbracketed) (optional : Bool) :
    ∀ p ∈ ([{ name := "req", type := requestType e.shape e.request.interface },
      { name := "meta", type := "grpc.Metadata", optional }] : List Param),
        brackets p.text = [] := by
  have hrequest := brackets_requestType (Name.brackets_interface he.request) e.shape
  rw [List.forall_mem_cons, List.forall_mem_singleton]
  exact ⟨brackets_param false (by decide) hrequest, brackets_param optional (by decide) (by decide)⟩

/-! ## The header of a class -/

theorem header_addBlank (c : ClassDecl) : c.addBlank.header = c.header := by
  unfold ClassDecl.addBlank
  split <;> rfl

/-- No member that is added to a class changes its header. -/
theorem header_class (start : ClassDecl) (service : ServiceModel) (first : TypeScript.Method)
    (method : Endpoint → TypeScript.Method) :
    (service.omissions.foldl (fun c o => c.addBlank.addComment (omissionComment o))
      (service.endpoints.foldl (fun c e => c.addBlank.addMethod (method e))
        ((service.codecs.codecs.foldl (fun c codec => c.addField (codecField codec))
          start).addBlank.addMethod first))).header = start.header := by
  have hfold {α : Type} {f : ClassDecl → α → ClassDecl} (hf : ∀ c x, (f c x).header = c.header)
      (xs : List α) (c : ClassDecl) : (xs.foldl f c).header = c.header := by
    induction xs generalizing c with
    | nil => rfl
    | cons x xs ih => rw [List.foldl_cons, ih, hf]
  have hcomment (c : ClassDecl) (o : Omission) :
      (c.addBlank.addComment (omissionComment o)).header = c.header := header_addBlank c
  have hmethod (c : ClassDecl) (m : TypeScript.Method) :
      (c.addBlank.addMethod m).header = c.header := header_addBlank c
  have hfield (c : ClassDecl) (codec : Codec) :
      (c.addField (codecField codec)).header = c.header := rfl
  rw [hfold hcomment, hfold fun c e => hmethod c (method e), hmethod, hfold hfield]

/-! ## Clients -/

namespace Client

theorem brackets_metadata : brackets metadata = ['(', ')', '\x7b', '\x7d'] :=
  (brackets_ofList _).trans (by decide)

theorem brackets_settle : brackets settle = ['(', ')', '(', ')', '(', ')'] :=
  (brackets_ofList _).trans (by decide)

theorem brackets_callTarget (h : service.Unbracketed) (he : e.Unbracketed) :
    brackets (callTarget service e) = [] := by
  have hcomma : brackets ", " = [] := (brackets_ofList _).trans (by decide)
  simp only [callTarget, brackets_append, brackets_quoted, he.rpcPath, hcomma,
    brackets_codecUse _ h.codecs he.request, brackets_codecUse _ h.codecs he.response,
    List.append_nil]

theorem balanced_forwardEvents {response : String} (h : brackets response = []) :
    ∀ f ∈ forwardEvents response, f.Balanced := by
  simp only [forwardEvents, List.forall_mem_cons, Fragment.Balanced, Fragment.brackets,
    brackets_append, h]
  repeat rw [brackets_ofList]
  exact ⟨by decide, by decide, by decide, List.forall_mem_nil _⟩

theorem balanced_writeInput {binder request : String} (hbinder : brackets binder = [])
    (h : brackets request = []) : (writeInput binder request).Balanced := by
  unfold writeInput
  refine balanced_enclosed ?_ ?_
  · rw [brackets_append, hbinder]
    decide
  · rw [body_eq_map, List.forall_mem_map, requestObserver]
    simp only [List.forall_mem_cons]
    refine ⟨balanced_raw (by decide) ?_, balanced_raw (by decide) ?_,
      balanced_raw (by decide) ?_, List.forall_mem_nil _⟩
    · rw [brackets_append, brackets_append, h]
      repeat rw [brackets_ofList]
      decide
    · rw [brackets_ofList]
      decide
    · decide

theorem balanced_inPromise {response : String} {body : List Fragment} (h : brackets response = [])
    (hbody : ∀ f ∈ body, f.Balanced) : (inPromise response body).Balanced := by
  refine balanced_enclosed ?_ hbody
  rw [brackets_append, brackets_append, brackets_promiseOf h]
  repeat rw [brackets_ofList]
  decide

theorem balanced_inObservable {response : String} {body : List Fragment}
    (h : brackets response = []) (hbody : ∀ f ∈ body, f.Balanced) :
    (inObservable response body).Balanced := by
  refine balanced_enclosed ?_ hbody
  rw [brackets_append, brackets_append, brackets_observableOf h]
  repeat rw [brackets_ofList]
  decide

/-- **The body of a client method is balanced, whatever streams.** -/
theorem balanced_methodBody (h : service.Unbracketed) (he : e.Unbracketed) :
    (methodBody service e).Balanced := by
  have htarget := brackets_callTarget h he
  have hresponse : brackets e.response.qualified = [] := Name.brackets_qualified he.response
  have hrequest : brackets e.request.interface = [] := Name.brackets_interface he.request
  have hforward := balanced_forwardEvents hresponse
  unfold methodBody
  cases e.shape with
  | unary =>
    refine balanced_inPromise hresponse (List.forall_mem_singleton.mpr ?_)
    simp only [Fragment.Balanced, Fragment.brackets, brackets_append, htarget, brackets_metadata,
      brackets_settle]
    repeat rw [brackets_ofList]
    decide
  | serverStreaming =>
    refine balanced_inObservable hresponse ?_
    rw [List.forall_mem_append, List.forall_mem_append, List.forall_mem_singleton,
      List.forall_mem_singleton]
    simp only [Fragment.Balanced, Fragment.brackets, brackets_append, htarget, brackets_metadata]
    repeat rw [brackets_ofList]
    exact ⟨⟨by decide, hforward⟩, by decide⟩
  | clientStreaming =>
    refine balanced_inPromise hresponse ?_
    rw [List.forall_mem_cons, List.forall_mem_singleton]
    refine ⟨?_, balanced_writeInput (by decide) hrequest⟩
    simp only [Fragment.Balanced, Fragment.brackets, brackets_append, htarget, brackets_metadata,
      brackets_settle]
    repeat rw [brackets_ofList]
    decide
  | bidirectional =>
    have hcancel : (Fragment.enclosed "return () => \x7b"
        [.line "input.unsubscribe();", .line "call.cancel();"] "\x7d;").Balanced := by
      simp only [Fragment.Balanced, brackets_enclosed, bracketsAll, Fragment.brackets]
      repeat rw [brackets_ofList]
      decide
    refine balanced_inObservable hresponse ?_
    rw [List.forall_mem_append, List.forall_mem_append, List.forall_mem_singleton,
      List.forall_mem_cons, List.forall_mem_singleton]
    refine ⟨⟨?_, hforward⟩, balanced_writeInput ((brackets_ofList _).trans (by decide)) hrequest,
      hcancel⟩
    simp only [Fragment.Balanced, Fragment.brackets, brackets_append, htarget, brackets_metadata]
    repeat rw [brackets_ofList]
    decide

theorem balanced_method (h : service.Unbracketed) (he : e.Unbracketed) :
    (method service e).fragment.Balanced := by
  have hresponse := brackets_resultType (Name.brackets_qualified he.response) e.shape
  refine TypeScript.balanced_method he.name (brackets_params he true) ?_ ?_
  · rintro type ⟨⟩
    exact hresponse
  · exact List.forall_mem_singleton.mpr (balanced_methodBody h he)

theorem balanced_constructor : constructor.fragment.Balanced := by
  refine TypeScript.balanced_method (by decide) ?_ (fun _ h => nomatch h) ?_
  · rw [constructor, List.forall_mem_cons, List.forall_mem_singleton]
    exact ⟨brackets_param false (by decide) (by decide), brackets_param true (by decide)
      ((brackets_ofList _).trans (by decide))⟩
  · refine List.forall_mem_singleton.mpr ?_
    rw [Fragment.Balanced, Fragment.brackets, brackets_ofList]
    decide

theorem brackets_header (h : service.Unbracketed) :
    brackets (classOf service).header = ['\x7b'] := by
  refine (congrArg brackets (header_class _ _ _ _)).trans ?_
  simp only [ClassDecl.header, className, brackets_append, h.name, Bool.false_eq_true, if_false]
  decide

theorem balanced_markers (h : service.Unbracketed) :
    Balanced (bracketsAll (markers service)) := by
  rw [markers, bracketsAll_codeLines, String.intercalate_cons_cons, String.intercalate_singleton]
  simp only [className, brackets_append, h.name]
  repeat rw [brackets_ofList]
  decide

/-- **The client of a service is balanced.** -/
theorem balanced_section (h : service.Unbracketed) :
    Balanced (bracketsAll (sectionFile service).fragments) := by
  have hclass : ∀ f ∈ (classOf service).fragments, f.Balanced := by
    refine balanced_class (brackets_header h) (forall_writtenMembers rfl ?_ ?_ ?_ ?_ ?_)
    · exact Text.Balanced.nil
    · exact fun c hc => balanced_codecField (h.codecs c hc)
    · exact balanced_constructor
    · exact fun e he => balanced_method h (h.endpoints e he)
    · exact fun o ho => balanced_omissionComment (h.omissions o ho)
  rw [fragments_sectionFile, bracketsAll_append, bracketsAll, Fragment.brackets, List.nil_append]
  exact (balanced_bracketsAll hclass).append (balanced_markers h)

end Client

/-! ## Servers -/

namespace Server

theorem brackets_boolText (b : Bool) : brackets (boolText b) = [] := by
  cases b <;> decide

theorem brackets_streamingNote (he : e.Unbracketed) :
    brackets (streamingNote e) = [] := by
  have hshape : brackets e.shape.text = [] := by
    cases e.shape <;> decide
  rw [streamingNote, brackets_append, brackets_append, brackets_append, he.name, hshape]
  repeat rw [brackets_ofList]
  decide

theorem balanced_descriptorEntry (h : service.Unbracketed) (he : e.Unbracketed) :
    (descriptorEntry service e).fragment.Balanced := by
  have hkey : brackets (quoted e.rpcPath) = [] := (brackets_quoted _).trans he.rpcPath
  have hflag (b : Bool) := Text.balanced_of_eq_nil (brackets_boolText b)
  have huse (direction : Direction) {message : TypeRef} (hm : brackets message.fullName = []) :=
    Text.balanced_of_eq_nil (brackets_codecUse direction h.codecs hm)
  unfold descriptorEntry
  split
  · refine balanced_object hkey ?_
    simp only [descriptor, List.forall_mem_cons]
    exact ⟨balanced_text (by decide) he.rpcPath, balanced_raw (by decide) (hflag _),
      balanced_raw (by decide) (hflag _), balanced_raw (by decide) (huse _ he.request),
      balanced_raw (by decide) (huse _ he.request), balanced_raw (by decide) (huse _ he.response),
      balanced_raw (by decide) (huse _ he.response), List.forall_mem_nil _⟩
  · exact balanced_comment (brackets_streamingNote he)

theorem balanced_handlerEntry (he : e.Unbracketed) :
    (handlerEntry e).fragment.Balanced := by
  have hkey : brackets (quoted e.rpcPath) = [] := (brackets_quoted _).trans he.rpcPath
  have hrequest : brackets e.request.interface = [] := Name.brackets_interface he.request
  have hresponse : brackets e.response.interface = [] := Name.brackets_interface he.response
  unfold handlerEntry
  split
  · refine balanced_arrow hkey ?_ (List.forall_mem_singleton.mpr ?_)
    · unfold handlerParams
      -- the two types are not to be compared with each other
      generalize e.request.interface = request at hrequest ⊢
      generalize e.response.interface = response at hresponse ⊢
      simp only [brackets_append, hrequest, hresponse]
      repeat rw [brackets_ofList]
      decide
    · simp only [handlerCall, brackets_append, he.name]
      repeat rw [brackets_ofList]
      decide
  · exact balanced_comment (brackets_streamingNote he)

/-- **The registration is balanced around its two tables.**  Neither of the lines between them is
balanced by itself. -/
theorem balanced_attachToServer (h : service.Unbracketed) :
    (attachToServer service).fragment.Balanced := by
  have hdescriptors : Balanced (bracketsAll
      (ObjectLiteral.body (service.endpoints.map (descriptorEntry service)))) := by
    rw [body_eq_map]
    refine balanced_bracketsAll (List.forall_mem_map.mpr (List.forall_mem_map.mpr ?_))
    exact fun e he => balanced_descriptorEntry h (h.endpoints e he)
  have hhandlers : Balanced (bracketsAll
      (ObjectLiteral.body (service.endpoints.map handlerEntry))) := by
    rw [body_eq_map]
    refine balanced_bracketsAll (List.forall_mem_map.mpr (List.forall_mem_map.mpr ?_))
    exact fun e he => balanced_handlerEntry (h.endpoints e he)
  have hlines : Balanced (brackets "server.addService(\x7b" ++
      (brackets "\x7d, \x7b" ++ brackets "\x7d);")) := by
    decide
  have hfirst := hlines.between hdescriptors
  rw [← List.append_assoc] at hfirst
  have hboth := hfirst.between hhandlers
  have hname : brackets "attachToServer" = [] := (brackets_ofList _).trans (by decide)
  refine TypeScript.balanced_method hname ?_ (fun _ h => nomatch h) ?_
  · rw [attachToServer, List.forall_mem_singleton]
    exact brackets_param false (by decide) (by decide)
  · refine List.forall_mem_singleton.mpr ?_
    simpa [Fragment.Balanced, Fragment.brackets, bracketsAll] using hboth

theorem balanced_abstractMethod (he : e.Unbracketed) :
    (abstractMethod e).fragment.Balanced := by
  have hresponse := brackets_resultType (Name.brackets_interface he.response) e.shape
  refine TypeScript.balanced_method he.name (brackets_params he false) ?_ (List.forall_mem_nil _)
  rintro type ⟨⟩
  exact hresponse

theorem brackets_header (h : service.Unbracketed) :
    brackets (classOf service).header = ['\x7b'] := by
  refine (congrArg brackets (header_class _ _ _ _)).trans ?_
  simp only [ClassDecl.header, className, brackets_append, h.name]
  decide

/-- **The server base of a service is balanced.** -/
theorem balanced_section (h : service.Unbracketed) :
    Balanced (bracketsAll (sectionFile service).fragments) := by
  rw [fragments_sectionFile]
  refine balanced_bracketsAll (balanced_class (brackets_header h) (forall_writtenMembers rfl
    ?_ ?_ ?_ ?_ ?_))
  · exact Text.Balanced.nil
  · exact fun c hc => balanced_codecField (h.codecs c hc)
  · exact balanced_attachToServer h
  · exact fun e he => balanced_abstractMethod (h.endpoints e he)
  · exact fun o ho => balanced_omissionComment (h.omissions o ho)

end Server

/-! ## The manifest -/

namespace Manifest

theorem balanced_endpointEntry (he : e.Unbracketed) :
    ∀ p ∈ endpointEntry e, p.fragment.Balanced := by
  have hflag (b : Bool) := Text.balanced_of_eq_nil (Server.brackets_boolText b)
  have hrequest := Text.balanced_of_eq_nil (Name.brackets_qualified he.request)
  have hresponse := Text.balanced_of_eq_nil (Name.brackets_qualified he.response)
  simp only [endpointEntry, List.forall_mem_cons]
  exact ⟨balanced_text (by decide) he.rpcPath, balanced_raw (by decide) hrequest,
    balanced_raw (by decide) hresponse, balanced_raw (by decide) (hflag _),
    balanced_raw (by decide) (hflag _), List.forall_mem_nil _⟩

theorem balanced_serviceEntry (h : service.Unbracketed) :
    ∀ p ∈ serviceEntry service, p.fragment.Balanced := by
  rw [serviceEntry, List.forall_mem_cons, List.forall_mem_singleton]
  refine ⟨balanced_text (by decide) (Name.brackets_qualified h.fullName),
    balanced_array (by decide) (List.forall_mem_map.mpr ?_) (List.forall_mem_map.mpr ?_)⟩
  · intro e _
    rw [Element.inline]
    decide
  · exact fun e he => balanced_objectElement (balanced_endpointEntry (h.endpoints e he))

/-- **The manifest of services is balanced.** -/
theorem balanced_body {services : List ServiceModel} (h : ∀ s ∈ services, s.Unbracketed) :
    Balanced (bracketsAll (body services).fragments) := by
  rw [fragments_body, fragments]
  split
  · decide
  · rw [elements_eq_map]
    refine balanced_bracketsAll (List.forall_mem_singleton.mpr (balanced_enclosed (by decide) ?_))
    refine List.forall_mem_map.mpr (List.forall_mem_map.mpr fun s hs => ?_)
    exact balanced_objectElement (balanced_serviceEntry (h s hs))

end Manifest

end RpcBindings.Emit

namespace RpcBindings.Generate

open RpcBindings.Binding
open RpcBindings.Disk
open RpcBindings.Emit
open RpcBindings.Layout (wellNested_render_iff)
open RpcBindings.Proto (IsDotted)
open RpcBindings.Schema
open RpcBindings.Text (WellNested brackets)

/-! ## Runs -/

/-- The model is built for some generator and policy from a service whose names hold no
bracket. -/
def PlainlyBuilt (m : ServiceModel) : Prop :=
  ∃ (policy : Policy) (role : Role) (s : Service),
    m = policy.shown (.ofService role s) ∧ ∀ name ∈ s.names, brackets name = []

theorem PlainlyBuilt.unbracketed {m : ServiceModel} (h : PlainlyBuilt m) : m.Unbracketed := by
  obtain ⟨policy, role, s, rfl, hnames⟩ := h
  exact unbracketed_shown policy (unbracketed_ofService role hnames)

theorem brackets_of_isDotted {name : String} (h : IsDotted name) : brackets name = [] := by
  refine Text.brackets_eq_nil_of_class (p := fun c => Proto.isWordPart c || c == '.')
    (by decide) fun c hc => ?_
  simpa using h c hc

/-- **Generated code is well nested.**  The client, the server base and the manifest of services
whose names hold no bracket are well nested, whatever methods they have, whichever of them are
left out and however the code is indented.  The names of services that are loaded from sources
hold nothing but the characters of words and dots. -/
theorem wellNested_code :
    (∀ (options : Options) (models : List ServiceModel), (∀ m ∈ models, PlainlyBuilt m) →
      (∀ m ∈ models, WellNested (options.client m) ∧ WellNested (options.server m)) ∧
        WellNested (options.manifest models)) ∧
    ∀ (disk : Store) (includes entries : List Path) (roots : List Root) (events : List Event),
      loadAll disk includes entries = .ok (roots, events) →
      (∀ r ∈ roots, ∀ p ∈ r.files, Path.hasExtension p "json" = false) →
      ∀ r ∈ roots, ∀ s ∈ servicesAll r.nodes, ∀ name ∈ s.names,
        IsDotted name ∧ brackets name = [] := by
  refine ⟨fun options models h => ⟨fun m hm => ⟨?_, ?_⟩, ?_⟩, ?_⟩
  · exact (wellNested_render_iff _ _).mpr (Client.balanced_section (h m hm).unbracketed)
  · exact (wellNested_render_iff _ _).mpr (Server.balanced_section (h m hm).unbracketed)
  · exact (wellNested_render_iff _ _).mpr
      (Manifest.balanced_body fun m hm => (h m hm).unbracketed)
  · intro disk includes entries roots events hload hsources r hr s hs name hname
    have hdotted := isDotted_names hload hsources r hr s hs name hname
    exact ⟨hdotted, brackets_of_isDotted hdotted⟩

/-- A source with a method of every shape, and one with a type that is declared nowhere. -/
def everyShape : Store :=
  { entries :=
      [(["main.proto"],
        .file (.text ("package p; message M \x7b\x7d service S \x7b rpc A (M) returns (M); " ++
          "rpc B (M) returns (stream M); rpc C (stream M) returns (M); " ++
          "rpc D (stream M) returns (stream M); rpc E (M) returns (Lost); \x7d")))] }

theorem wellNested_code_everyShape :
    ∃ roots events, loadAll everyShape [] ["main.proto"] = .ok (roots, events) ∧
      (shownModels .comment .server roots).map (fun m =>
          (m.endpoints.map Endpoint.shape, m.omissions.map Omission.name)) =
        [([.unary, .serverStreaming, .clientStreaming, .bidirectional], ["E"])] ∧
      ∀ m ∈ shownModels .comment .server roots,
        WellNested (Options.client {} m) ∧ WellNested (Options.server {} m) := by
  have hrun : ((loadAll everyShape [] ["main.proto"]).toOption.any fun (roots, _) =>
      (shownModels .comment .server roots).map (fun m =>
          (m.endpoints.map Endpoint.shape, m.omissions.map Omission.name)) ==
        [([.unary, .serverStreaming, .clientStreaming, .bidirectional], ["E"])] &&
      roots.all fun r => r.files.all fun p => !Path.hasExtension p "json") = true := by
    decide +kernel
  obtain ⟨⟨roots, events⟩, hload, hrun⟩ := exists_ok_of_any hrun
  simp only [Bool.and_eq_true, beq_iff_eq, List.all_eq_true, Bool.not_eq_true'] at hrun
  obtain ⟨hnested, hnames⟩ := wellNested_code
  refine ⟨roots, events, hload, hrun.1, (hnested {} _ ?_).1⟩
  refine List.forall_mem_map.mpr fun s hs => ?_
  obtain ⟨r, hr, hs⟩ := Tour.mem_servicesAll hs
  have hdotted := hnames _ _ _ _ _ hload hrun.2 r hr s hs
  exact ⟨.comment, .server, s, rfl, fun name hname => (hdotted name hname).2⟩

end RpcBindings.Generate

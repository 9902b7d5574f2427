import RpcBindings.Proofs.Brackets
import RpcBindings.Proofs.CodecTable
import RpcBindings.Proofs.SpelledNames

/-! # Models without brackets

The names in generated code are cut out of the names of a service, put together from their
segments, or numbered.  None of this adds a bracket, so a model of a service whose names hold none
holds none either (`unbracketed_ofService`), and that includes the identifiers of its codec
fields.
-/
namespace RpcBindings.Name

open RpcBindings.Text (brackets brackets_append brackets_ofList)

/-! ## Names without brackets -/

section Names
variable {name : String}

theorem brackets_split? {before last : String} (h : brackets name = [])
    (hsplit : split? name = some (before, last)) : brackets before = [] ∧ brackets last = [] := by
  obtain ⟨⟨scope, leaf⟩, hcut, hsame⟩ := Option.map_eq_some_iff.mp hsplit
  cases hsame
  rw [brackets, Text.eq_of_cutLast hcut, List.filter_append, List.append_eq_nil_iff] at h
  rw [brackets_ofList, brackets_ofList]
  exact ⟨h.1, h.2⟩

theorem brackets_qualified (h : brackets name = []) : brackets (qualified name) = [] := by
  unfold qualified
  split
  · next rest hrest =>
    rw [brackets, hrest] at h
    rw [brackets_ofList]
    exact h
  · exact h

theorem brackets_leaf (h : brackets name = []) : brackets (leaf name) = [] := by
  unfold leaf
  split
  · next hsplit => exact (brackets_split? h hsplit).2
  · exact h

theorem brackets_interface (h : brackets name = []) : brackets (interface name) = [] := by
  have hqualified := brackets_qualified h
  unfold interface
  split
  · next hsplit =>
    obtain ⟨hbefore, hlast⟩ := brackets_split? hqualified hsplit
    rw [brackets_append, brackets_append, hbefore, hlast]
    decide
  · rw [brackets_append, hqualified]
    decide

theorem brackets_rpcPath (h : brackets name = []) : brackets (rpcPath name) = [] := by
  have hqualified := brackets_qualified h
  unfold rpcPath
  split
  · next hsplit =>
    obtain ⟨hbefore, hlast⟩ := brackets_split? hqualified hsplit
    rw [brackets_append, brackets_append, brackets_append, hbefore, hlast]
    decide
  · rw [brackets_append, hqualified]
    decide

theorem brackets_underscored (h : brackets name = []) : brackets (underscored name) = [] := by
  rw [Text.brackets_eq_nil] at h ⊢
  rw [underscored, String.toList_ofList]
  refine List.forall_mem_map.mpr fun c hc => ?_
  split
  · decide
  · exact h c hc

end Names

end RpcBindings.Name

namespace RpcBindings.Binding

open RpcBindings.Schema (Method Service TypeRef)
open RpcBindings.Text (brackets brackets_append brackets_ofList)

theorem brackets_toString (n : Nat) : brackets (toString n) = [] := by
  refine Text.brackets_eq_nil_of_class (p := Char.isDigit) (by decide) fun c hc => ?_
  rw [show toString n = n.repr from rfl, Nat.toList_repr] at hc
  exact Nat.isDigit_of_mem_toDigits (by decide) (by decide) hc

/-- Identifiers are made of names, underscores and numbers. -/
theorem brackets_freshIdent {message : TypeRef} (h : brackets message.fullName = [])
    (codecs : List Codec) : brackets (freshIdent codecs message) = [] := by
  have hlong := Name.brackets_underscored (Name.brackets_qualified h)
  rcases freshIdent_cases codecs message with ⟨-, he⟩ | ⟨-, -, he⟩ | ⟨-, -, n, -, -, -, he⟩
  · rw [he]
    exact Name.brackets_leaf h
  · rw [he]
    exact hlong
  · rw [he, Numbering.ident, numbering, brackets_append, brackets_append, brackets_toString,
      TypeRef.qualified, hlong]
    decide

/-! ## Models without brackets -/

/-- No name of the endpoint holds a bracket. -/
structure Endpoint.Unbracketed (e : Endpoint) : Prop where
  name : brackets e.name = []
  rpcPath : brackets e.rpcPath = []
  request : brackets e.request.fullName = []
  response : brackets e.response.fullName = []

/-- No name of the codec field holds a bracket. -/
structure Codec.Unbracketed (c : Codec) : Prop where
  message : brackets c.message.fullName = []
  ident : brackets c.ident = []

/-- No name of the model holds a bracket. -/
structure ServiceModel.Unbracketed (m : ServiceModel) : Prop where
  name : brackets m.name = []
  fullName : brackets m.fullName = []
  endpoints : ∀ e ∈ m.endpoints, e.Unbracketed
  omissions : ∀ o ∈ m.omissions, ∀ name ∈ o.name :: o.unresolved, brackets name = []
  codecs : ∀ c ∈ m.codecs.codecs, c.Unbracketed

theorem unbracketed_addCodec (direction : Direction) {codecs : List Codec} {message : TypeRef}
    (h : ∀ c ∈ codecs, c.Unbracketed) (hmessage : brackets message.fullName = []) :
    ∀ c ∈ addCodec direction codecs message, c.Unbracketed := by
  rcases addCodec_cases direction codecs message with ⟨_, _, hsame⟩ | ⟨_, hadded⟩
  · rw [hsame]
    exact h
  · rw [hadded, List.forall_mem_append, List.forall_mem_singleton]
    exact ⟨h, hmessage, brackets_freshIdent hmessage codecs⟩

theorem unbracketed_register (direction : Direction) {t : CodecTable} {message : TypeRef}
    (h : ∀ c ∈ t.codecs, c.Unbracketed) (hmessage : brackets message.fullName = []) :
    ∀ c ∈ (t.register direction message).codecs, c.Unbracketed := by
  obtain ⟨hserializers, hdeserializers⟩ := List.forall_mem_append.mp h
  cases direction with
  | serializer =>
    exact List.forall_mem_append.mpr
      ⟨unbracketed_addCodec .serializer hserializers hmessage, hdeserializers⟩
  | deserializer =>
    exact List.forall_mem_append.mpr
      ⟨hserializers, unbracketed_addCodec .deserializer hdeserializers hmessage⟩

theorem unbracketed_registerAll {t : CodecTable} {steps : List (Direction × TypeRef)}
    (h : ∀ c ∈ t.codecs, c.Unbracketed) (hsteps : ∀ step ∈ steps, brackets step.2.fullName = []) :
    ∀ c ∈ (t.registerAll steps).codecs, c.Unbracketed := by
  induction steps generalizing t with
  | nil => exact h
  | cons step steps ih =>
    obtain ⟨hstep, hrest⟩ := List.forall_mem_cons.mp hsteps
    exact ih (unbracketed_register step.1 h hstep) hrest

theorem mem_of_mem_steps {role : Role} {request response : TypeRef} {step : Direction × TypeRef}
    (h : step ∈ CodecTable.steps role request response) : step.2 = request ∨ step.2 = response := by
  unfold CodecTable.steps at h
  split at h <;> grind

theorem unbracketed_endpoint {m : Method} {e : Endpoint}
    (hnames : ∀ name ∈ m.names, brackets name = []) (h : Endpoint.ofMethod? m = some e) :
    e.Unbracketed := by
  obtain ⟨hresolved, hname, hpath, _⟩ := Emit.endpoint_eq_some h
  unfold Method.resolved? at hresolved
  split at hresolved
  · next request response hrequest hresponse =>
    cases hresolved
    simp only [Method.names, hrequest, hresponse, Option.toList_some, List.map_cons, List.map_nil,
      List.cons_append, List.nil_append, List.forall_mem_cons] at hnames
    obtain ⟨hmethod, hfull, _, _, hrequest, hresponse, _⟩ := hnames
    exact ⟨hname ▸ hmethod, hpath ▸ Name.brackets_rpcPath hfull, hrequest, hresponse⟩
  · cases hresolved

/-- **A service whose names hold no bracket has models of that kind.** -/
theorem unbracketed_ofService (role : Role) {s : Service}
    (h : ∀ name ∈ s.names, brackets name = []) : (ServiceModel.ofService role s).Unbracketed := by
  obtain ⟨hname, hrest⟩ := List.forall_mem_cons.mp h
  obtain ⟨hfull, hmethods⟩ := List.forall_mem_cons.mp hrest
  have hmethod : ∀ m ∈ s.methods, ∀ name ∈ m.names, brackets name = [] :=
    List.forall_mem_flatMap.mp hmethods
  have hendpoints : ∀ e ∈ s.methods.filterMap Endpoint.ofMethod?, e.Unbracketed := by
    intro e he
    obtain ⟨m, hm, he⟩ := List.mem_filterMap.mp he
    exact unbracketed_endpoint (hmethod m hm) he
  refine ⟨hname, hfull, hendpoints, fun o ho name hmem => ?_, ?_⟩
  · obtain ⟨m, hm, ho⟩ := List.mem_filterMap.mp ho
    have hwritten := Generate.mem_written ho name hmem
    refine hmethod m hm name (List.mem_append_left _ ?_)
    simp only [List.mem_cons, List.not_mem_nil, or_false] at hwritten ⊢
    grind
  · show ∀ c ∈ (CodecTable.bind role _).codecs, c.Unbracketed
    rw [CodecTable.bind_eq]
    refine unbracketed_registerAll (List.forall_mem_nil _) (List.forall_mem_flatMap.mpr ?_)
    refine List.forall_mem_map.mpr fun e he step hstep => ?_
    rcases mem_of_mem_steps hstep with hrequest | hresponse
    · rw [hrequest]
      exact (hendpoints e he).request
    · rw [hresponse]
      exact (hendpoints e he).response

theorem unbracketed_shown (policy : Generate.Policy) {m : ServiceModel} (h : m.Unbracketed) :
    (policy.shown m).Unbracketed := by
  unfold Generate.Policy.shown
  split
  · exact h
  · exact { h with omissions := List.forall_mem_nil _ }

end RpcBindings.Binding

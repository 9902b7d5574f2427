import Mathlib.Data.List.Nodup
import RpcBindings.Emit.Server
import RpcBindings.Proofs.CodecTable

/-! # Codec uses and codec fields

A generated class declares its codecs as private fields and uses them through `this`.
Declaration and use meet only in the text of a name, and a use that names the wrong field
encodes one message as another.  This module proves that they meet in the right place: each
codec that a client call or a server descriptor uses is one field of the class, made for
that direction and that message and set to the conversion of it, and no other field of the
class has its name (`codecUses_wired`).  Leaf names that several messages share are no
exception.
-/
namespace RpcBindings.Emit

open RpcBindings.Binding
open RpcBindings.Schema (TypeRef)
open RpcBindings.TypeScript

/-- The name of the field that a codec is declared as. -/
def fieldName (c : Codec) : String := codecName c.direction c.ident

/-- The function that a codec field holds: from a message to its bytes, or from bytes to the
message.  The message is written as the interface of its type, and the function is that of the
type itself. -/
def conversion (direction : Direction) (message : TypeRef) : String :=
  match direction with
  | .serializer =>
    "(message: " ++ message.interface ++ ") => <Buffer>" ++ message.qualified ++
      ".encode(message).finish()"
  | .deserializer => "(buffer: Buffer) => " ++ message.qualified ++ ".decode(<Uint8Array>buffer)"

/-- The declaration `declared` sets the field of a codec to a conversion. -/
def Holds (declared : String) (c : Codec) (direction : Direction) (message : TypeRef) : Prop :=
  declared = "private " ++ fieldName c ++ " = " ++ conversion direction message

theorem holds_codecField (c : Codec) : Holds (codecField c) c c.direction c.message := by
  obtain ⟨direction, message, ident⟩ := c
  cases direction with
  | serializer => rfl
  | deserializer => rfl

/-- A field name tells its direction and its identifier: the two directions differ in the
first letter already. -/
theorem codecName_inj {d d' : Direction} {a b : String} (h : codecName d a = codecName d' b) :
    d = d' ∧ a = b := by
  have hne : ∀ a b : String, "serialize" ++ a ≠ "deserialize" ++ b := by
    intro a b he
    have hhead := congrArg (fun s : String => s.toList.head?) he
    simp at hhead
  cases d with
  | serializer =>
    cases d' with
    | serializer => exact ⟨rfl, (String.append_right_inj _).mp h⟩
    | deserializer => exact absurd h (hne a b)
  | deserializer =>
    cases d' with
    | serializer => exact absurd h.symm (hne b a)
    | deserializer => exact ⟨rfl, (String.append_right_inj _).mp h⟩

section Table
variable {t : CodecTable}

theorem nodup_map_fieldName {direction : Direction} {codecs : List Codec}
    (h : Registered direction codecs) : (codecs.map fieldName).Nodup := by
  have hmap : codecs.map fieldName = (codecs.map Codec.ident).map (codecName direction) := by
    rw [List.map_map]
    refine List.map_congr_left fun c hc => ?_
    rw [Function.comp_apply, fieldName, h.direction_eq c hc]
  rw [hmap]
  exact h.idents_nodup.map fun _ _ he => (codecName_inj he).2

/-- **No two fields of a table have one name.** -/
theorem nodup_fieldNames (ht : t.Valid) : (t.codecs.map fieldName).Nodup := by
  rw [CodecTable.codecs, List.map_append]
  refine List.nodup_append.mpr
    ⟨nodup_map_fieldName ht.serializers, nodup_map_fieldName ht.deserializers, ?_⟩
  -- fields of different directions differ in their names
  intro a ha b hb hab
  obtain ⟨c, hc, rfl⟩ := List.mem_map.mp ha
  obtain ⟨c', hc', rfl⟩ := List.mem_map.mp hb
  have hdir := (codecName_inj hab).1
  rw [ht.serializers.direction_eq c hc, ht.deserializers.direction_eq c' hc'] at hdir
  cases hdir

/-- `use` is the use of exactly one field of the table: the one that was registered for the
message in that direction, so that no leaf name stands in for it, and that holds the conversion
of that very message. -/
def Wired (t : CodecTable) (direction : Direction) (message : TypeRef) (use : String) : Prop :=
  ∃ c ∈ t.codecs, t.codec? direction message = some c ∧
    c.direction = direction ∧ c.message.fullName = message.fullName ∧
    Holds (codecField c) c direction message ∧
    use = "this." ++ fieldName c ∧ ∀ c' ∈ t.codecs, use = "this." ++ fieldName c' → c' = c

theorem wired_codecUse (ht : t.Valid) {direction : Direction} {message : TypeRef} {c : Codec}
    (h : t.codec? direction message = some c) :
    Wired t direction message (codecUse t direction message) := by
  obtain ⟨hmem, hdirection, hmessage⟩ := CodecTable.codec?_eq_some ht h
  have huse : codecUse t direction message = "this." ++ fieldName c := by
    rw [codecUse, h, fieldName, hdirection]
    rfl
  have hholds : Holds (codecField c) c direction message := by
    have hown := holds_codecField c
    rwa [hdirection, hmessage] at hown
  refine ⟨c, hmem, h, hdirection, congrArg TypeRef.fullName hmessage, hholds, huse, ?_⟩
  intro c' hc' he
  have hname : fieldName c' = fieldName c := (String.append_right_inj _).mp (he.symm.trans huse)
  exact List.inj_on_of_nodup_map (nodup_fieldNames ht) hc' hmem hname

end Table

/-! ## The fields that a class declares -/

/-- The declaration that a member makes, if it is a field. -/
def declaration? : Member → Option String
  | .field declaration => some declaration
  | _ => none

/-- The field declarations of a class in order. -/
def declaredFields (c : ClassDecl) : List String :=
  c.members.filterMap declaration?

theorem declaredFields_add (c : ClassDecl) (m : Member) :
    declaredFields (c.add m) = declaredFields c ++ (declaration? m).toList := by
  rw [declaredFields, ClassDecl.add, List.filterMap_append, declaredFields]
  cases h : declaration? m <;> simp [h]

theorem declaredFields_addBlank (c : ClassDecl) :
    declaredFields c.addBlank = declaredFields c := by
  unfold ClassDecl.addBlank
  split
  · rfl
  · rfl
  · rw [declaredFields_add]
    exact List.append_nil _

theorem declaredFields_addBlank_addMethod (c : ClassDecl) (m : TypeScript.Method) :
    declaredFields (c.addBlank.addMethod m) = declaredFields c := by
  rw [ClassDecl.addMethod, declaredFields_add, declaredFields_addBlank]
  exact List.append_nil _

theorem declaredFields_addBlank_addComment (c : ClassDecl) (text : String) :
    declaredFields (c.addBlank.addComment text) = declaredFields c := by
  rw [ClassDecl.addComment, declaredFields_add, declaredFields_addBlank]
  exact List.append_nil _

theorem declaredFields_foldl {α : Type} {f : ClassDecl → α → ClassDecl}
    (hf : ∀ c x, declaredFields (f c x) = declaredFields c) (xs : List α) (c : ClassDecl) :
    declaredFields (xs.foldl f c) = declaredFields c := by
  induction xs generalizing c with
  | nil => rfl
  | cons x xs ih => rw [List.foldl_cons, ih, hf]

theorem declaredFields_foldl_addField (codecs : List Codec) (c : ClassDecl) :
    declaredFields (codecs.foldl (fun c codec => c.addField (codecField codec)) c) =
      declaredFields c ++ codecs.map codecField := by
  induction codecs generalizing c with
  | nil => simp
  | cons codec codecs ih =>
    rw [List.foldl_cons, ih, ClassDecl.addField, declaredFields_add]
    simp [declaration?]

/-- A class that puts its codecs before everything else declares the fields of its table and
no others. -/
theorem declaredFields_class (start : ClassDecl) (service : ServiceModel)
    (first : TypeScript.Method) (method : Endpoint → TypeScript.Method) :
    declaredFields
        (service.omissions.foldl (fun c o => c.addBlank.addComment (omissionComment o))
          (service.endpoints.foldl (fun c e => c.addBlank.addMethod (method e))
            ((service.codecs.codecs.foldl (fun c codec => c.addField (codecField codec))
              start).addBlank.addMethod first))) =
      declaredFields start ++ service.codecs.codecs.map codecField := by
  rw [declaredFields_foldl fun c o => declaredFields_addBlank_addComment c (omissionComment o),
    declaredFields_foldl fun c e => declaredFields_addBlank_addMethod c (method e),
    declaredFields_addBlank_addMethod, declaredFields_foldl_addField]

/-! ## The codecs that a service uses -/

/-- The codecs that a generator needs for an endpoint of the service are wired. -/
theorem wired_ofService {role : Role} {s : Schema.Service} {e : Endpoint}
    (he : e ∈ (ServiceModel.ofService role s).endpoints) {direction : Direction}
    {message : TypeRef}
    (h : (direction, message) ∈ CodecTable.steps role e.request e.response) :
    Wired (ServiceModel.ofService role s).codecs direction message
      (codecUse (ServiceModel.ofService role s).codecs direction message) := by
  have hmethod : (e.request, e.response) ∈
      (ServiceModel.ofService role s).endpoints.map fun e => (e.request, e.response) :=
    List.mem_map.mpr ⟨e, he, rfl⟩
  obtain ⟨c, hc⟩ := CodecTable.codec?_bind hmethod h
  exact wired_codecUse (CodecTable.valid_bind role _) hc

/-- The codec fields of a class are those of a table, each holds the conversion that its codec is
there for, and each has a name of its own. -/
structure DeclaresCodecs (c : ClassDecl) (t : CodecTable) : Prop where
  declared : declaredFields c = t.codecs.map codecField
  holds : ∀ codec ∈ t.codecs, Holds (codecField codec) codec codec.direction codec.message
  distinct : (t.codecs.map fieldName).Nodup

/-- What is asked of a client class: a call passes the transport the codec that writes its
request and the one that reads its response. -/
structure ClientWired (service : ServiceModel) : Prop where
  fields : DeclaresCodecs (Client.classOf service) service.codecs
  calls : ∀ e ∈ service.endpoints, ∃ writeRequest readResponse,
    Client.callTarget service e =
        quoted e.rpcPath ++ ", " ++ writeRequest ++ ", " ++ readResponse ∧
      Wired service.codecs .serializer e.request writeRequest ∧
      Wired service.codecs .deserializer e.response readResponse

/-- What is asked of a server class: a descriptor gives the transport the codecs that write
and read the request, and those that write and read the response. -/
structure ServerWired (service : ServiceModel) : Prop where
  fields : DeclaresCodecs (Server.classOf service) service.codecs
  descriptors : ∀ e ∈ service.endpoints,
    ∃ writeRequest readRequest writeResponse readResponse,
      Server.descriptor service e =
          [.text "path" e.rpcPath,
           .raw "requestStream" (Server.boolText e.shape.requestStream),
           .raw "responseStream" (Server.boolText e.shape.responseStream),
           .raw "requestSerialize" writeRequest, .raw "requestDeserialize" readRequest,
           .raw "responseSerialize" writeResponse, .raw "responseDeserialize" readResponse] ∧
        Wired service.codecs .serializer e.request writeRequest ∧
        Wired service.codecs .deserializer e.request readRequest ∧
        Wired service.codecs .serializer e.response writeResponse ∧
        Wired service.codecs .deserializer e.response readResponse

theorem declaresCodecs_ofService (role : Role) (s : Schema.Service) {c : ClassDecl}
    (hc : declaredFields c = (ServiceModel.ofService role s).codecs.codecs.map codecField) :
    DeclaresCodecs c (ServiceModel.ofService role s).codecs where
  declared := hc
  holds codec _ := holds_codecField codec
  distinct := nodup_fieldNames (CodecTable.valid_bind role _)

/-- **Codec uses are wired**, for every service, whatever its methods and messages are
called: a use in a client call or a server descriptor is the use of exactly one field of its
class, and that field has the direction and the message the use is there for. -/
theorem codecUses_wired (s : Schema.Service) :
    ClientWired (.ofService .client s) ∧ ServerWired (.ofService .server s) := by
  constructor
  · refine ⟨declaresCodecs_ofService .client s (declaredFields_class _ _ _ _), ?_⟩
    intro e he
    exact ⟨_, _, rfl, wired_ofService he (by simp [CodecTable.steps]),
      wired_ofService he (by simp [CodecTable.steps])⟩
  · refine ⟨declaresCodecs_ofService .server s (declaredFields_class _ _ _ _), ?_⟩
    intro e he
    exact ⟨_, _, _, _, rfl, wired_ofService he (by simp [CodecTable.steps]),
      wired_ofService he (by simp [CodecTable.steps]),
      wired_ofService he (by simp [CodecTable.steps]),
      wired_ofService he (by simp [CodecTable.steps])⟩

/-- A service that works on two messages of one leaf name. -/
def leafTwins : Schema.Service :=
  { name := "Store"
    fullName := ".p.Store"
    methods :=
      [{ name := "Get", fullName := ".p.Store.Get", requestType := "a.Msg",
         responseType := "a.Msg", request := some ⟨".a.Msg"⟩, response := some ⟨".a.Msg"⟩ },
       { name := "Put", fullName := ".p.Store.Put", requestType := "b.Msg",
         responseType := "a.Msg", request := some ⟨".b.Msg"⟩, response := some ⟨".a.Msg"⟩ }] }

/-- The second of two messages of one leaf name is wired to a field of its own. -/
theorem codecUses_wired_leafTwins :
    ∃ e ∈ (ServiceModel.ofService .client leafTwins).endpoints, e.request = ⟨".b.Msg"⟩ ∧
      codecUse (ServiceModel.ofService .client leafTwins).codecs .serializer e.request =
        "this.serializeb_Msg" ∧
      ∃ writeRequest readResponse,
        Client.callTarget (.ofService .client leafTwins) e =
            quoted e.rpcPath ++ ", " ++ writeRequest ++ ", " ++ readResponse ∧
          Wired (ServiceModel.ofService .client leafTwins).codecs .serializer e.request
            writeRequest ∧
          Wired (ServiceModel.ofService .client leafTwins).codecs .deserializer e.response
            readResponse :=
  ⟨⟨"Put", ".p.Store.Put", "/p.Store/Put", .unary, ⟨".b.Msg"⟩, ⟨".a.Msg"⟩⟩, by decide, rfl,
    by decide, (codecUses_wired leafTwins).1.calls _ (by decide)⟩

end RpcBindings.Emit

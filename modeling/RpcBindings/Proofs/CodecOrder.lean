import Mathlib.Data.List.Nodup
import RpcBindings.Proofs.CodecTable
import RpcBindings.Text.Distinct

/-! # The order of codec fields

A registration tells whether it has added a field.  It has done so when no field of its direction
was found under the full name of the message, and then the field stands behind all others of that
direction; nothing else changes (`Registers`).  So the full names of a direction are those that were
registered, each where it was registered first (`keys_registerAll`), and binding methods registers
them in the order in which the methods use them.

A server registers the same messages in both directions, and it does so in step: the two directions
never differ in a message or an identifier (`mirrored_bind`).  This needs no search to be repeated,
since the identifier of a message is chosen by the identifiers in use alone (`freshIdent_congr`).
-/
namespace RpcBindings.Binding

open RpcBindings.Schema (TypeRef)

/-- The full names under which the fields are found, in order. -/
def keys (codecs : List Codec) : List String := codecs.map fun c => c.message.fullName

section Keys
variable {codecs : List Codec} {message : TypeRef}

theorem mem_keys : message.fullName ∈ keys codecs ↔ ∃ c ∈ codecs, c.message = message := by
  rw [keys, List.mem_map]
  constructor
  · rintro ⟨c, hc, hname⟩
    exact ⟨c, hc, congrArg TypeRef.mk hname⟩
  · rintro ⟨c, hc, rfl⟩
    exact ⟨c, hc, rfl⟩

theorem findCodec?_eq_none_iff :
    findCodec? codecs message = none ↔ message.fullName ∉ keys codecs := by
  rw [mem_keys, findCodec?, List.find?_eq_none]
  simp only [beq_iff_eq, not_exists, not_and]

/-- A registration adds the full name of the message unless it is there. -/
theorem keys_addCodec (direction : Direction) (codecs : List Codec) (message : TypeRef) :
    keys (addCodec direction codecs message) =
      if message.fullName ∈ keys codecs then keys codecs
      else keys codecs ++ [message.fullName] := by
  rcases addCodec_cases direction codecs message with ⟨c, hfound, he⟩ | ⟨hnone, he⟩
  · obtain ⟨hc, hmessage⟩ := findCodec?_eq_some hfound
    rw [he, if_pos (mem_keys.mpr ⟨c, hc, hmessage⟩)]
  · rw [he, if_neg (findCodec?_eq_none_iff.mp hnone), keys, List.map_append]
    rfl

theorem Registered.nodup_keys {direction : Direction} (h : Registered direction codecs) :
    (keys codecs).Nodup := by
  have hmessages := List.pairwise_map.mp h.messages_nodup
  exact List.pairwise_map.mpr (hmessages.imp fun hne he => hne (congrArg TypeRef.mk he))

/-- What is found under a full name is the field of that name. -/
theorem Registered.findCodec?_iff {direction : Direction} (h : Registered direction codecs)
    {c : Codec} :
    findCodec? codecs message = some c ↔
      c ∈ codecs ∧ c.message.fullName = message.fullName := by
  constructor
  · intro hfound
    obtain ⟨hc, rfl⟩ := findCodec?_eq_some hfound
    exact ⟨hc, rfl⟩
  · rintro ⟨hc, hname⟩
    obtain rfl : c.message = message := congrArg TypeRef.mk hname
    cases hfound : findCodec? codecs c.message with
    | none => exact absurd (mem_keys.mpr ⟨c, hc, rfl⟩) (findCodec?_eq_none_iff.mp hfound)
    | some found =>
      obtain ⟨hmem, hmessage⟩ := findCodec?_eq_some hfound
      rw [List.inj_on_of_nodup_map h.messages_nodup hmem hc hmessage]

end Keys

namespace CodecTable

/-! ## One registration -/

section Register
variable {t : CodecTable} {direction : Direction} {message : TypeRef}

theorem codec?_eq (t : CodecTable) (direction : Direction) (message : TypeRef) :
    t.codec? direction message = findCodec? (t.fields direction) message := by
  cases direction <;> rfl

theorem fields_register_self (t : CodecTable) (direction : Direction) (message : TypeRef) :
    (t.register direction message).fields direction =
      addCodec direction (t.fields direction) message := by
  cases direction <;> rfl

theorem fields_register_of_ne {other : Direction} (h : other ≠ direction) :
    (t.register direction message).fields other = t.fields other := by
  cases direction with
  | serializer =>
    cases other with
    | serializer => exact absurd rfl h
    | deserializer => rfl
  | deserializer =>
    cases other with
    | serializer => rfl
    | deserializer => exact absurd rfl h

theorem register_of_found {c : Codec} (h : t.codec? direction message = some c) :
    t.register direction message = t := by
  have hsame : addCodec direction (t.fields direction) message = t.fields direction := by
    rw [codec?_eq] at h
    rw [addCodec, h]
  cases direction with
  | serializer => exact congrArg (fun fields => { t with serializers := fields }) hsame
  | deserializer => exact congrArg (fun fields => { t with deserializers := fields }) hsame

/-- The table after a registration, whatever it tells. -/
theorem registerIfNew_fst (t : CodecTable) (direction : Direction) (message : TypeRef) :
    (t.registerIfNew direction message).1 = t.register direction message := by
  rw [registerIfNew]
  cases h : t.codec? direction message with
  | none => rfl
  | some c => exact (register_of_found h).symm

theorem registerIfNew_snd (t : CodecTable) (direction : Direction) (message : TypeRef) :
    (t.registerIfNew direction message).2 = true ↔
      message.fullName ∉ keys (t.fields direction) := by
  rw [registerIfNew, ← findCodec?_eq_none_iff, ← codec?_eq]
  cases t.codec? direction message <;> simp

end Register

/-- What a registration tells and leaves behind. -/
structure Registers (t : CodecTable) (direction : Direction) (message : TypeRef)
    (result : CodecTable × Bool) : Prop where
  /-- It tells whether the full name was new to its direction. -/
  added_iff : result.2 = true ↔ message.fullName ∉ keys (t.fields direction)
  /-- A new name gets one field, behind all others. -/
  appended : result.2 = true → ∃ ident,
    result.1.fields direction = t.fields direction ++ [⟨direction, message, ident⟩]
  /-- Otherwise its direction stays as it is. -/
  kept : result.2 = false → result.1.fields direction = t.fields direction
  /-- The other direction stays as it is. -/
  other : ∀ d, d ≠ direction → result.1.fields d = t.fields d

theorem registers_registerIfNew (t : CodecTable) (direction : Direction) (message : TypeRef) :
    t.Registers direction message (t.registerIfNew direction message) := by
  have hadded := t.registerIfNew_snd direction message
  refine ⟨hadded, fun h => ?_, fun h => ?_, fun d hd => ?_⟩
  · refine ⟨freshIdent (t.fields direction) message, ?_⟩
    have hnone := findCodec?_eq_none_iff.mpr (hadded.mp h)
    rw [registerIfNew_fst, fields_register_self, addCodec, hnone]
  · have hfound : t.codec? direction message ≠ none := by
      rw [codec?_eq, ne_eq, findCodec?_eq_none_iff, ← hadded, h]
      exact Bool.false_ne_true
    obtain ⟨c, hc⟩ := Option.ne_none_iff_exists'.mp hfound
    rw [registerIfNew_fst, register_of_found hc]
  · rw [registerIfNew_fst, fields_register_of_ne hd]

/-! ## Runs -/

/-- The table after registrations, one after the other, into an empty one. -/
def afterCalls (calls : List (Direction × TypeRef)) : CodecTable :=
  calls.foldl (fun t call => (t.registerIfNew call.1 call.2).1) {}

theorem afterCalls_eq (calls : List (Direction × TypeRef)) :
    afterCalls calls = registerAll {} calls := by
  have hstep : (fun (t : CodecTable) (call : Direction × TypeRef) =>
      (t.registerIfNew call.1 call.2).1) = fun t call => t.register call.1 call.2 :=
    funext fun t => funext fun call => t.registerIfNew_fst call.1 call.2
  rw [afterCalls, hstep, registerAll]

theorem Valid.fields {t : CodecTable} (h : t.Valid) (direction : Direction) :
    Registered direction (t.fields direction) := by
  cases direction with
  | serializer => exact h.serializers
  | deserializer => exact h.deserializers

/-- The full names that are registered in a direction, in order. -/
def asked (direction : Direction) (calls : List (Direction × TypeRef)) : List String :=
  (calls.filter fun call => call.1 = direction).map fun call => call.2.fullName

theorem asked_cons_self (direction : Direction) (message : TypeRef)
    (calls : List (Direction × TypeRef)) :
    asked direction ((direction, message) :: calls) =
      message.fullName :: asked direction calls := by
  simp [asked]

theorem asked_cons_of_ne {d direction : Direction} (h : d ≠ direction) (message : TypeRef)
    (calls : List (Direction × TypeRef)) :
    asked direction ((d, message) :: calls) = asked direction calls := by
  simp [asked, h]

theorem keys_registerAll_of {t : CodecTable} {direction : Direction} {names : List String}
    (h : keys (t.fields direction) = Text.distinct names) (calls : List (Direction × TypeRef)) :
    keys ((t.registerAll calls).fields direction) =
      Text.distinct (names ++ asked direction calls) := by
  induction calls generalizing t names with
  | nil =>
    rw [asked, List.filter_nil, List.map_nil, List.append_nil]
    exact h
  | cons call calls ih =>
    obtain ⟨d, message⟩ := call
    by_cases hd : d = direction
    · subst hd
      -- the registration goes the way of `distinct`
      have hstep : keys ((t.register d message).fields d) =
          Text.distinct (names ++ [message.fullName]) := by
        rw [fields_register_self, keys_addCodec, h, Text.distinct_concat]
        simp only [Text.mem_distinct]
      rw [asked_cons_self, List.append_cons]
      exact ih hstep
    · have hstep : keys ((t.register d message).fields direction) = Text.distinct names := by
        rw [fields_register_of_ne (Ne.symm hd), h]
      rw [asked_cons_of_ne hd]
      exact ih hstep

/-- **The full names of a direction are those that were registered, in the order of their first
registration.** -/
theorem keys_registerAll (calls : List (Direction × TypeRef)) (direction : Direction) :
    keys ((registerAll {} calls).fields direction) = Text.distinct (asked direction calls) := by
  have hempty : keys (fields {} direction) = Text.distinct [] := by
    cases direction <;> rfl
  exact keys_registerAll_of hempty calls

/-! ## Binding -/

theorem asked_flatMap (direction : Direction) {α : Type} (xs : List α)
    (f : α → List (Direction × TypeRef)) :
    asked direction (xs.flatMap f) = xs.flatMap fun x => asked direction (f x) := by
  rw [asked, List.filter_flatMap, List.map_flatMap]
  rfl

theorem keys_bind (role : Role) (methods : List (TypeRef × TypeRef)) (direction : Direction) :
    keys ((bind role methods).fields direction) =
      Text.distinct (methods.flatMap fun m => asked direction (steps role m.1 m.2)) := by
  rw [bind_eq, keys_registerAll, asked_flatMap]

/-! ## Both directions in step -/

/-- The message and the identifier of a field. -/
def face (c : Codec) : TypeRef × String := (c.message, c.ident)

/-- Field by field, both directions have the same messages and identifiers. -/
def Mirrored (t : CodecTable) : Prop :=
  t.serializers.map face = t.deserializers.map face

section Mirrored
variable {xs ys : List Codec}

theorem idents_of_faces (h : xs.map face = ys.map face) :
    xs.map Codec.ident = ys.map Codec.ident := by
  have hidents := congrArg (List.map Prod.snd) h
  rwa [List.map_map, List.map_map] at hidents

theorem keys_of_faces (h : xs.map face = ys.map face) : keys xs = keys ys := by
  have hkeys := congrArg (List.map fun f => f.1.fullName) h
  rwa [List.map_map, List.map_map] at hkeys

/-- Only the identifiers in use decide which one a message gets. -/
theorem freshIdent_congr (h : xs.map Codec.ident = ys.map Codec.ident) (message : TypeRef) :
    freshIdent xs message = freshIdent ys message := by
  have htaken : isTaken xs = isTaken ys := by
    funext ident
    rw [Bool.eq_iff_iff, isTaken_iff, isTaken_iff, h]
  simp only [freshIdent, numbering, htaken]

theorem faces_addCodec (h : xs.map face = ys.map face) (d d' : Direction) (message : TypeRef) :
    (addCodec d xs message).map face = (addCodec d' ys message).map face := by
  have hsame : findCodec? xs message = none ↔ findCodec? ys message = none := by
    rw [findCodec?_eq_none_iff, findCodec?_eq_none_iff, keys_of_faces h]
  rcases addCodec_cases d xs message with ⟨c, hfound, he⟩ | ⟨hnone, he⟩ <;>
    rcases addCodec_cases d' ys message with ⟨c', hfound', he'⟩ | ⟨hnone', he'⟩
  · rw [he, he', h]
  · rw [hsame.mpr hnone'] at hfound
    cases hfound
  · rw [hsame.mp hnone] at hfound'
    cases hfound'
  · rw [he, he', List.map_append, List.map_append, h,
      freshIdent_congr (idents_of_faces h) message]
    rfl

theorem Mirrored.bindMethod {t : CodecTable} (h : t.Mirrored) (request response : TypeRef) :
    (t.bindMethod .server request response).Mirrored := by
  have hrequest := faces_addCodec h .serializer .deserializer request
  exact faces_addCodec hrequest .serializer .deserializer response

/-- **A server's table has the same messages and identifiers in both directions.** -/
theorem mirrored_bind (methods : List (TypeRef × TypeRef)) : (bind .server methods).Mirrored := by
  have hrun : ∀ t : CodecTable, t.Mirrored →
      (methods.foldl (fun t m => t.bindMethod .server m.1 m.2) t).Mirrored := by
    induction methods with
    | nil => exact fun _ h => h
    | cons m methods ih => exact fun t h => ih _ (h.bindMethod m.1 m.2)
  exact hrun {} rfl

/-- Fields of one full name have one identifier. -/
theorem Mirrored.ident_eq {t : CodecTable} (h : t.Mirrored) (ht : t.Valid) {c c' : Codec}
    (hc : c ∈ t.serializers) (hc' : c' ∈ t.deserializers)
    (hname : c.message.fullName = c'.message.fullName) : c.ident = c'.ident := by
  have hface : face c ∈ t.deserializers.map face := h ▸ List.mem_map.mpr ⟨c, hc, rfl⟩
  obtain ⟨twin, htwin, he⟩ := List.mem_map.mp hface
  have hmessage : twin.message = c'.message :=
    (congrArg Prod.fst he).trans (congrArg TypeRef.mk hname)
  have hsame : twin = c' :=
    List.inj_on_of_nodup_map ht.deserializers.messages_nodup htwin hc' hmessage
  rw [← hsame]
  exact (congrArg Prod.snd he).symm

end Mirrored

/-- **Codec tables are filled in order.**  After any registrations into an empty table, each
direction has fields of that direction only, no two of them share a full name or an identifier, and
what is found under a full name is the field of that name; the next registration, whatever it is,
adds one field at the end of its direction just when the full name is new to it, tells so, and
changes no other field.  A client's table therefore has the full names of requests and of responses,
each where it is first used; a server's table has in both directions those of requests and
responses, with one identifier for both fields of a message. -/
theorem registered_in_order (calls : List (Direction × TypeRef))
    (methods : List (TypeRef × TypeRef)) :
    (∀ direction,
      Registered direction ((afterCalls calls).fields direction) ∧
      (keys ((afterCalls calls).fields direction)).Nodup ∧
      (∀ message c, (afterCalls calls).codec? direction message = some c ↔
        c ∈ (afterCalls calls).fields direction ∧ c.message.fullName = message.fullName) ∧
      ∀ message, (afterCalls calls).Registers direction message
        ((afterCalls calls).registerIfNew direction message)) ∧
    (keys (bind .client methods).serializers =
        Text.distinct (methods.map fun m => m.1.fullName) ∧
      keys (bind .client methods).deserializers =
        Text.distinct (methods.map fun m => m.2.fullName)) ∧
    (keys (bind .server methods).serializers =
        Text.distinct (methods.flatMap fun m => [m.1.fullName, m.2.fullName]) ∧
      keys (bind .server methods).deserializers =
        Text.distinct (methods.flatMap fun m => [m.1.fullName, m.2.fullName]) ∧
      ∀ c ∈ (bind .server methods).serializers, ∀ c' ∈ (bind .server methods).deserializers,
        c.message.fullName = c'.message.fullName → c.ident = c'.ident) := by
  refine ⟨fun direction => ?_, ⟨?_, ?_⟩, ?_, ?_, ?_⟩
  · have hvalid : (afterCalls calls).Valid := by
      rw [afterCalls_eq]
      exact Valid.empty.registerAll calls
    have hregistered := hvalid.fields direction
    refine ⟨hregistered, hregistered.nodup_keys, fun message c => ?_, fun message => ?_⟩
    · rw [codec?_eq]
      exact hregistered.findCodec?_iff
    · exact registers_registerIfNew _ direction message
  · rw [List.map_eq_flatMap]
    exact keys_bind .client methods .serializer
  · rw [List.map_eq_flatMap]
    exact keys_bind .client methods .deserializer
  · exact keys_bind .server methods .serializer
  · exact keys_bind .server methods .deserializer
  · intro c hc c' hc' hname
    exact (mirrored_bind methods).ident_eq (valid_bind .server methods) hc hc' hname

end CodecTable

end RpcBindings.Binding

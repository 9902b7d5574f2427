import RpcBindings.Proofs.IdentSearch

/-! # Registration runs

A codec table is built by registrations, one direction and one message at a time.  This
module says what a single registration can do (`addCodec_cases`), what it keeps
(`CodecTable.Valid`), and what therefore holds after every run of registrations: within
one direction neither a message nor an identifier is used by two fields, and every
registered message has a field.

That identifiers are not used twice rests on the search for them, which always ends with a
free one (`freshIdent_free`).
-/
namespace RpcBindings.Binding

open RpcBindings.Schema (TypeRef)

/-! ## One registration -/

theorem findCodec?_eq_some {codecs : List Codec} {message : TypeRef} {c : Codec}
    (h : findCodec? codecs message = some c) : c ∈ codecs ∧ c.message = message := by
  rw [findCodec?] at h
  have hbeq := List.find?_some h
  exact ⟨List.mem_of_find?_eq_some h, eq_of_beq hbeq⟩

theorem findCodec?_eq_none {codecs : List Codec} {message : TypeRef}
    (h : findCodec? codecs message = none) : message ∉ codecs.map Codec.message := by
  intro hmem
  obtain ⟨c, hc, rfl⟩ := List.mem_map.mp hmem
  simpa using List.find?_eq_none.mp h c hc

/-- A registration keeps the table when the message has a field, and otherwise adds one at
the end. -/
theorem addCodec_cases (direction : Direction) (codecs : List Codec) (message : TypeRef) :
    (∃ c, findCodec? codecs message = some c ∧ addCodec direction codecs message = codecs) ∨
      (findCodec? codecs message = none ∧
        addCodec direction codecs message =
          codecs ++ [⟨direction, message, freshIdent codecs message⟩]) := by
  unfold addCodec
  cases h : findCodec? codecs message with
  | none => exact Or.inr ⟨rfl, rfl⟩
  | some c => exact Or.inl ⟨c, rfl, rfl⟩

theorem findCodec?_addCodec_self (direction : Direction) (codecs : List Codec)
    (message : TypeRef) : ∃ c, findCodec? (addCodec direction codecs message) message = some c := by
  rcases addCodec_cases direction codecs message with ⟨c, hc, he⟩ | ⟨hnone, he⟩
  · exact ⟨c, by rw [he, hc]⟩
  · refine ⟨⟨direction, message, freshIdent codecs message⟩, ?_⟩
    rw [findCodec?] at hnone
    rw [he, findCodec?, List.find?_append, hnone]
    simp

/-- A field stays the field of its message. -/
theorem findCodec?_addCodec_of_some (direction : Direction) {codecs : List Codec}
    (message : TypeRef) {other : TypeRef} {c : Codec} (h : findCodec? codecs other = some c) :
    findCodec? (addCodec direction codecs message) other = some c := by
  rcases addCodec_cases direction codecs message with ⟨_, _, he⟩ | ⟨_, he⟩
  · rw [he, h]
  · rw [findCodec?] at h
    rw [he, findCodec?, List.find?_append, h, Option.some_or]

/-- What registrations in one direction keep: the fields work that way, and no two of them
share a message or an identifier. -/
structure Registered (direction : Direction) (codecs : List Codec) : Prop where
  direction_eq : ∀ c ∈ codecs, c.direction = direction
  messages_nodup : (codecs.map Codec.message).Nodup
  idents_nodup : (codecs.map Codec.ident).Nodup

theorem nodup_map_concat {α β : Type} {f : α → β} {xs : List α} {x : α}
    (h : (xs.map f).Nodup) (hx : f x ∉ xs.map f) : ((xs ++ [x]).map f).Nodup := by
  rw [List.map_append]
  refine List.nodup_append.mpr ⟨h, List.pairwise_singleton _ _, ?_⟩
  intro a ha b hb hab
  rw [List.map_singleton, List.mem_singleton] at hb
  subst a b
  exact hx ha

theorem Registered.nil (direction : Direction) : Registered direction [] := by
  constructor <;> simp

theorem Registered.addCodec {direction : Direction} {codecs : List Codec}
    (h : Registered direction codecs) (message : TypeRef) :
    Registered direction (addCodec direction codecs message) := by
  rcases addCodec_cases direction codecs message with ⟨_, _, he⟩ | ⟨hnone, he⟩
  · rw [he]
    exact h
  · -- the message is new to the table, and its identifier is chosen to be
    rw [he]
    have hmessage := findCodec?_eq_none hnone
    have hident : freshIdent codecs message ∉ codecs.map Codec.ident := by
      rw [← isTaken_iff, freshIdent_free]
      simp
    constructor
    · intro c hc
      rcases List.mem_append.mp hc with hc | hc
      · exact h.direction_eq c hc
      · rw [List.mem_singleton.mp hc]
    · exact nodup_map_concat h.messages_nodup hmessage
    · exact nodup_map_concat h.idents_nodup hident

namespace CodecTable

/-! ## Tables and runs -/

/-- The table invariant: both directions are well registered. -/
structure Valid (t : CodecTable) : Prop where
  serializers : Registered .serializer t.serializers
  deserializers : Registered .deserializer t.deserializers

theorem Valid.empty : Valid {} := ⟨.nil _, .nil _⟩

theorem Valid.register {t : CodecTable} (h : t.Valid) (direction : Direction)
    (message : TypeRef) : (t.register direction message).Valid := by
  cases direction with
  | serializer => exact ⟨h.serializers.addCodec message, h.deserializers⟩
  | deserializer => exact ⟨h.serializers, h.deserializers.addCodec message⟩

/-- The table after a run of registrations. -/
def registerAll (t : CodecTable) (steps : List (Direction × TypeRef)) : CodecTable :=
  steps.foldl (fun t step => t.register step.1 step.2) t

theorem registerAll_append (t : CodecTable) (xs ys : List (Direction × TypeRef)) :
    t.registerAll (xs ++ ys) = (t.registerAll xs).registerAll ys :=
  List.foldl_append

theorem Valid.registerAll {t : CodecTable} (h : t.Valid) (steps : List (Direction × TypeRef)) :
    (t.registerAll steps).Valid := by
  induction steps generalizing t with
  | nil => exact h
  | cons step steps ih => exact ih (h.register step.1 step.2)

theorem codec?_register_self (t : CodecTable) (direction : Direction) (message : TypeRef) :
    ∃ c, (t.register direction message).codec? direction message = some c := by
  cases direction <;> exact findCodec?_addCodec_self ..

theorem codec?_register_of_some {t : CodecTable} {direction : Direction} {message : TypeRef}
    {c : Codec} (h : t.codec? direction message = some c) (d : Direction) (m : TypeRef) :
    (t.register d m).codec? direction message = some c := by
  cases direction with
  | serializer =>
    cases d with
    | serializer => exact findCodec?_addCodec_of_some _ m h
    | deserializer => exact h
  | deserializer =>
    cases d with
    | serializer => exact h
    | deserializer => exact findCodec?_addCodec_of_some _ m h

theorem codec?_registerAll_of_some {t : CodecTable} {direction : Direction}
    {message : TypeRef} {c : Codec} (h : t.codec? direction message = some c)
    (steps : List (Direction × TypeRef)) :
    (t.registerAll steps).codec? direction message = some c := by
  induction steps generalizing t with
  | nil => exact h
  | cons step steps ih => exact ih (codec?_register_of_some h step.1 step.2)

/-- **What a run registers has a field after it.** -/
theorem codec?_registerAll (t : CodecTable) {steps : List (Direction × TypeRef)}
    {direction : Direction} {message : TypeRef} (h : (direction, message) ∈ steps) :
    ∃ c, (t.registerAll steps).codec? direction message = some c := by
  -- the run is cut at the registration, which makes the field; what follows keeps it
  obtain ⟨before, after, rfl⟩ := List.append_of_mem h
  obtain ⟨c, hc⟩ := codec?_register_self (t.registerAll before) direction message
  refine ⟨c, ?_⟩
  rw [registerAll_append]
  exact codec?_registerAll_of_some hc after

/-- A field that is found is one of the table's, for that message and that direction. -/
theorem codec?_eq_some {t : CodecTable} (ht : t.Valid) {direction : Direction}
    {message : TypeRef} {c : Codec} (h : t.codec? direction message = some c) :
    c ∈ t.codecs ∧ c.direction = direction ∧ c.message = message := by
  cases direction with
  | serializer =>
    obtain ⟨hmem, hmessage⟩ := findCodec?_eq_some h
    exact ⟨List.mem_append_left _ hmem, ht.serializers.direction_eq c hmem, hmessage⟩
  | deserializer =>
    obtain ⟨hmem, hmessage⟩ := findCodec?_eq_some h
    exact ⟨List.mem_append_right _ hmem, ht.deserializers.direction_eq c hmem, hmessage⟩

/-! ## Binding methods -/

/-- The registrations that a generator makes for a method. -/
def steps (role : Role) (request response : TypeRef) : List (Direction × TypeRef) :=
  match role with
  | .client => [(.serializer, request), (.deserializer, response)]
  | .server =>
    [(.serializer, request), (.serializer, response), (.deserializer, request),
      (.deserializer, response)]
  | .manifest => []

theorem bindMethod_eq (role : Role) (t : CodecTable) (request response : TypeRef) :
    t.bindMethod role request response = t.registerAll (steps role request response) := by
  cases role <;> rfl

/-- Binding methods is one run of registrations. -/
theorem bind_eq (role : Role) (methods : List (TypeRef × TypeRef)) :
    bind role methods = registerAll {} (methods.flatMap fun m => steps role m.1 m.2) := by
  have general : ∀ t : CodecTable,
      methods.foldl (fun t m => t.bindMethod role m.1 m.2) t =
        t.registerAll (methods.flatMap fun m => steps role m.1 m.2) := by
    induction methods with
    | nil => exact fun _ => rfl
    | cons m methods ih =>
      intro t
      rw [List.foldl_cons, ih, bindMethod_eq, List.flatMap_cons, registerAll_append]
  exact general {}

theorem valid_bind (role : Role) (methods : List (TypeRef × TypeRef)) :
    (bind role methods).Valid := by
  rw [bind_eq]
  exact Valid.empty.registerAll _

/-- Every codec that a generator needs for one of its methods has a field. -/
theorem codec?_bind {role : Role} {methods : List (TypeRef × TypeRef)} {m : TypeRef × TypeRef}
    (hm : m ∈ methods) {direction : Direction} {message : TypeRef}
    (h : (direction, message) ∈ steps role m.1 m.2) :
    ∃ c, (bind role methods).codec? direction message = some c := by
  rw [bind_eq]
  exact codec?_registerAll {} (List.mem_flatMap.mpr ⟨m, hm, h⟩)

end CodecTable

end RpcBindings.Binding

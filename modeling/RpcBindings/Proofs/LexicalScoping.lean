import Mathlib.Data.List.Infix
import RpcBindings.Proofs.SchemaTree

/-! # Types are looked up by lexical scoping

The look-up of a type works on texts: it cuts the name of a scope at its last dot again and
again, puts the written name behind what is left and asks whether that is the name of a message.
On the tree of a schema this is lexical scoping.  The scopes that the cuts lead through are the
paths that the path of the scope starts with, longest first (`Name.enclosing_eq_inits`); a name
put behind a scope is the path of the scope continued by the segments of the name; and a full
name is that of a message exactly when a message stands at its path
(`Root.Orderly.mem_messageNames`).  So a method finds, for each of its two types, the message
that stands innermost, and what it finds depends on the paths of messages alone
(`lexical_load`).
-/
namespace RpcBindings

open RpcBindings.Schema (scopeName)

/-! ## The scopes around a scope -/

theorem Name.enclosing_eq_inits {path : List String} (h : ∀ segment ∈ path, DotFree segment) :
    enclosing (scopeName path) = path.inits.reverse.map scopeName := by
  induction path using List.reverseRecOn with
  | nil => exact enclosing_root
  | append_singleton init last ih =>
    have hlast : DotFree last := h last (by simp)
    have hinit := ih fun segment hsegment => h segment (List.mem_append_left _ hsegment)
    rw [enclosing_scopeName hlast, hinit, List.inits_append]
    simp

namespace Schema

open RpcBindings.Disk

section Longest
variable {path outer : List String} {p : List String → Bool}

/-- The first among the prefixes of a path, longest first, is the longest that has `p`. -/
theorem find?_inits_eq_some (h : path.inits.reverse.find? p = some outer) :
    outer <+: path ∧ p outer = true ∧
      ∀ longer, longer <+: path → p longer = true → longer.length ≤ outer.length := by
  have hmem : outer <+: path :=
    (List.mem_inits _ _).mp (List.mem_reverse.mp (List.mem_of_find?_eq_some h))
  refine ⟨hmem, List.find?_some h, ?_⟩
  clear hmem
  induction path using List.reverseRecOn with
  | nil =>
    intro longer hlonger _
    rw [List.prefix_nil.mp hlonger]
    exact Nat.zero_le _
  | append_singleton init last ih =>
    have hinits : (init ++ [last]).inits.reverse = (init ++ [last]) :: init.inits.reverse := by
      rw [List.inits_append]
      simp
    rw [hinits] at h
    intro longer hlonger hp
    by_cases hwhole : p (init ++ [last]) = true
    · rw [List.find?_cons_of_pos hwhole] at h
      cases h
      exact hlonger.length_le
    · rw [List.find?_cons_of_neg hwhole] at h
      rcases List.prefix_concat_iff.mp hlonger with rfl | hlonger
      · exact absurd hp hwhole
      · exact ih h longer hlonger hp

theorem find?_inits_isSome :
    (path.inits.reverse.find? p).isSome = true ↔ ∃ outer, outer <+: path ∧ p outer = true := by
  rw [List.find?_isSome]
  simp only [List.mem_reverse, List.mem_inits]

end Longest

/-! ## Looking types up along paths -/

section Lookup
variable {messages : List String} {scope : List String} {written : String}

theorem lookupType_congr {messages' : List String}
    (h : ∀ name, name ∈ messages ↔ name ∈ messages') (scope written : String) :
    lookupType messages scope written = lookupType messages' scope written := by
  have hcontains : messages.contains = messages'.contains := by
    funext name
    rw [Bool.eq_iff_iff, List.contains_iff_mem, List.contains_iff_mem, h]
  unfold lookupType
  rw [hcontains]

/-- A relative name is looked up behind every path that the path of the scope starts with. -/
theorem lookupType_relative (hscope : ∀ segment ∈ scope, Name.DotFree segment)
    (hrelative : Name.isAbsolute written = false) :
    lookupType messages (scopeName scope) written =
      (scope.inits.reverse.find? fun outer =>
          messages.contains (scopeName (outer ++ Name.segments written))).map
        fun outer => ⟨scopeName (outer ++ Name.segments written)⟩ := by
  rw [lookupType, hrelative, if_neg Bool.false_ne_true, Name.enclosing_eq_inits hscope,
    List.map_map, List.find?_map, Option.map_map]
  simp only [Function.comp_def, Name.member_scopeName]

/-- A name that starts at the root is looked up as it is. -/
theorem lookupType_absolute {path : List String} (hpath : Name.path? written = some path)
    (scope : String) :
    lookupType messages scope written =
      if scopeName path ∈ messages then some ⟨scopeName path⟩ else none := by
  have habsolute : Name.isAbsolute written = true := by
    rw [← Name.isSome_path?, hpath]
    rfl
  rw [lookupType, habsolute, if_pos rfl, (Name.eq_scopeName_of_path? hpath).1]
  simp only [List.contains_iff_mem]

end Lookup

/-! ## Messages at paths -/

namespace Root

/-- The node is a message that stands at the path. -/
structure MessageAt (r : Root) (path : List String) (n : Node) : Prop where
  stands : StandsAt r.nodes path n
  isMessage : n.isMessage = true

/-- A message stands at the path. -/
def HasMessage (r : Root) (path : List String) : Prop :=
  ∃ n, r.MessageAt path n

/-- What has been found for a type name that is written in the scope at a path is what lexical
scoping gives for it. -/
structure Lexical (r : Root) (scope : List String) (written : String) (found : Option TypeRef) :
    Prop where
  /-- A relative name is found exactly when a message stands at its segments behind some path
  that the path of the scope starts with. -/
  relative : Name.isAbsolute written = false →
    (found.isSome = true ↔
      ∃ outer, outer <+: scope ∧ r.HasMessage (outer ++ Name.segments written))
  /-- It is the message behind the longest of these paths. -/
  innermost : Name.isAbsolute written = false → ∀ t, found = some t →
    ∃ outer n, outer <+: scope ∧ r.MessageAt (outer ++ Name.segments written) n ∧
      (∀ longer, longer <+: scope → r.HasMessage (longer ++ Name.segments written) →
        longer.length ≤ outer.length) ∧
      t.fullName = n.fullName ∧ r.get? t.fullName = some n
  /-- A name that starts at the root is found exactly when a message stands at its path. -/
  absolute : ∀ path, Name.path? written = some path →
    (found.isSome = true ↔ r.HasMessage path)
  /-- It is that message. -/
  anchored : ∀ path, Name.path? written = some path → ∀ t, found = some t →
    ∃ n, r.MessageAt path n ∧ t.fullName = n.fullName ∧ r.get? t.fullName = some n

end Root

namespace Root.Orderly

variable {r : Root}

/-- The names of messages are the full names of the paths at which messages stand. -/
theorem mem_messageNamesAll_iff (h : r.Orderly) {name : String} :
    name ∈ messageNamesAll r.nodes ↔ ∃ path, r.HasMessage path ∧ scopeName path = name := by
  rw [mem_messageNamesAll]
  constructor
  · rintro ⟨a, ha, hmessage, rfl⟩
    obtain ⟨n, hn, hbare⟩ := exists_standsAt_of_placed ha
    rw [← hbare, isMessage_bare] at hmessage
    exact ⟨a.path, ⟨n, hn, hmessage⟩, (h.named a ha).fullName_eq.symm⟩
  · rintro ⟨path, ⟨n, hn, hmessage⟩, rfl⟩
    refine ⟨_, hn.placed, ?_, ?_⟩
    · rw [isMessage_bare, hmessage]
    · rw [fullName_bare, h.fullName_eq hn]

/-- **A full name is that of a message exactly when a message stands at its path.** -/
theorem mem_messageNames (h : r.Orderly) {path : List String} (hne : path ≠ [])
    (hpath : ∀ segment ∈ path, Name.DotFree segment) :
    scopeName path ∈ messageNamesAll r.nodes ↔ r.HasMessage path := by
  rw [h.mem_messageNamesAll_iff]
  constructor
  · rintro ⟨path', ⟨n, hn⟩, heq⟩
    have hsame : path' = path :=
      Name.scopeName_inj hn.stands.path_ne_nil hne (h.dotFree hn.stands) hpath heq
    exact hsame ▸ ⟨n, hn⟩
  · intro hmessage
    exact ⟨path, hmessage, rfl⟩

/-- Schemas with messages at the same paths have the same names of messages. -/
theorem messageNamesAll_congr {r' : Root} (h : r.Orderly) (h' : r'.Orderly)
    (hsame : ∀ path, r.HasMessage path ↔ r'.HasMessage path) (name : String) :
    name ∈ messageNamesAll r.nodes ↔ name ∈ messageNamesAll r'.nodes := by
  rw [h.mem_messageNamesAll_iff, h'.mem_messageNamesAll_iff]
  simp only [hsame]

/-- The full name of the path of a message leads back to the message. -/
theorem exists_message (h : r.Orderly) {path : List String} (hmessage : r.HasMessage path) :
    ∃ n, r.MessageAt path n ∧ scopeName path = n.fullName ∧
      r.get? (scopeName path) = some n := by
  obtain ⟨n, hn⟩ := hmessage
  have hname := h.fullName_eq hn.stands
  exact ⟨n, hn, hname.symm, h.get?_eq_some.mpr ⟨mem_preorderAll.mpr ⟨path, hn.stands⟩, hname⟩⟩

/-- **Looking a type up is lexical scoping.** -/
theorem lexical_lookupType (h : r.Orderly) {scope : List String}
    (hscope : ∀ segment ∈ scope, Name.DotFree segment) (written : String) :
    r.Lexical scope written (lookupType (messageNamesAll r.nodes) (scopeName scope) written) := by
  -- behind every scope, the name of a message is asked for exactly where one stands
  have hbehind : ∀ outer, outer <+: scope →
      ((messageNamesAll r.nodes).contains (scopeName (outer ++ Name.segments written)) = true ↔
        r.HasMessage (outer ++ Name.segments written)) := by
    intro outer houter
    rw [List.contains_iff_mem]
    refine h.mem_messageNames (by simp [Name.segments_ne_nil]) fun segment hsegment => ?_
    rcases List.mem_append.mp hsegment with hsegment | hsegment
    · exact hscope segment (houter.subset hsegment)
    · exact Name.dotFree_of_mem_segments hsegment
  have hanchored : ∀ path, Name.path? written = some path →
      (scopeName path ∈ messageNamesAll r.nodes ↔ r.HasMessage path) := by
    intro path hpath
    obtain ⟨_, hne, hdotFree⟩ := Name.eq_scopeName_of_path? hpath
    exact h.mem_messageNames hne hdotFree
  constructor
  case relative =>
    intro hrelative
    rw [lookupType_relative hscope hrelative, Option.isSome_map, find?_inits_isSome]
    exact exists_congr fun outer => and_congr_right (hbehind outer)
  case innermost =>
    intro hrelative t ht
    rw [lookupType_relative hscope hrelative] at ht
    obtain ⟨outer, hfind, rfl⟩ := Option.map_eq_some_iff.mp ht
    obtain ⟨houter, hmem, hlongest⟩ := find?_inits_eq_some hfind
    obtain ⟨n, hn, hname, hget⟩ := h.exists_message ((hbehind outer houter).mp hmem)
    refine ⟨outer, n, houter, hn, fun longer hlonger hmessage => ?_, hname, hget⟩
    exact hlongest longer hlonger ((hbehind longer hlonger).mpr hmessage)
  case absolute =>
    intro path hpath
    rw [lookupType_absolute hpath, ← hanchored path hpath]
    split
    · next hmem => exact iff_of_true rfl hmem
    · next hmem => exact iff_of_false Bool.false_ne_true hmem
  case anchored =>
    intro path hpath t ht
    rw [lookupType_absolute hpath] at ht
    split at ht
    · next hmem =>
      cases ht
      exact h.exists_message ((hanchored path hpath).mp hmem)
    · cases ht

end Root.Orderly

/-! ## Resolved schemas -/

section Resolved
variable {messages : List String} {nodes : List Node}

theorem Tidy.resolve (h : Tidy nodes) : Tidy (resolveNodes messages nodes) := by
  induction h with
  | @intro nodes names _ ih =>
    rw [resolveNodes_eq_map]
    refine .intro ?_ ?_
    · rw [List.map_map, Function.comp_def]
      simpa only [name_resolve] using names
    · intro n hn
      obtain ⟨m, hm, rfl⟩ := List.mem_map.mp hn
      rw [children_resolve]
      exact ih m hm

theorem Root.Orderly.resolve {r : Root} (h : r.Orderly) : r.resolve.Orderly :=
  ⟨h.tidy.resolve, h.named.resolve⟩

/-- What stands in a resolved forest is what stood there, resolved. -/
theorem exists_of_standsAt_resolve {path : List String} {n : Node}
    (h : StandsAt (resolveNodes messages nodes) path n) :
    ∃ written, StandsAt nodes path written ∧ written.resolve messages = n := by
  generalize hnodes : resolveNodes messages nodes = resolved at h
  induction h generalizing nodes with
  | here hn =>
    subst hnodes
    rw [resolveNodes_eq_map] at hn
    obtain ⟨m, hm, rfl⟩ := List.mem_map.mp hn
    exact ⟨m, name_resolve messages m ▸ .here hm, rfl⟩
  | inside hn _ ih =>
    subst hnodes
    rw [resolveNodes_eq_map] at hn
    obtain ⟨m, hm, rfl⟩ := List.mem_map.mp hn
    obtain ⟨written, hwritten, hresolve⟩ := ih (children_resolve messages m).symm
    exact ⟨written, name_resolve messages m ▸ .inside hm hwritten, hresolve⟩

end Resolved

/-- A method of a resolved schema has found what its types stand for in the scope of its
service. -/
theorem Root.Orderly.found_of_service {r : Root} (h : r.resolve.Orderly) {scope : List String}
    {name : String} {s : Service}
    (hs : StandsAt r.resolve.nodes (scope ++ [name]) (.service s)) {m : Method}
    (hm : m ∈ s.methods) :
    m.request = lookupType (messageNamesAll r.resolve.nodes) (scopeName scope) m.requestType ∧
      m.response =
        lookupType (messageNamesAll r.resolve.nodes) (scopeName scope) m.responseType := by
  have hsame : ∀ name, name ∈ messageNamesAll r.nodes ↔ name ∈ messageNamesAll r.resolve.nodes :=
    fun name => (mem_messageNamesAll_resolveNodes (messageNamesAll r.nodes)).symm
  have hlast : Name.DotFree name := h.dotFree hs name (by simp)
  have hscope : s.scope = scopeName scope := by
    have hname : s.fullName = scopeName (scope ++ [name]) := h.fullName_eq hs
    rw [Service.scope, hname, Name.scope_scopeName hlast]
  obtain ⟨written, _, hresolve⟩ := exists_of_standsAt_resolve hs
  cases written with
  | scope => cases hresolve
  | enum => cases hresolve
  | service s' =>
    cases hresolve
    obtain ⟨m', _, rfl⟩ := List.mem_map.mp hm
    have hwritten : s'.scope = scopeName scope := hscope
    rw [hwritten, ← lookupType_congr hsame, ← lookupType_congr hsame]
    exact ⟨rfl, rfl⟩

/-- **Types are looked up by lexical scoping.**  In every schema that is loaded from sources
alone, a method of the service at the path `scope ++ [name]` has found, for its request and
its response, what lexical scoping on the tree gives.  Nothing else matters to what it finds:
in any other such schema with messages at the same paths, a method of a service in the same
scope has found the same for the same written types, whichever files declare the messages. -/
theorem lexical_load {disk : Store} {includes : List Path} {entry : Path} {l : Loading}
    (hload : load disk includes entry = .ok l)
    (hsources : ∀ p ∈ l.root.files, Path.hasExtension p "json" = false)
    {scope : List String} {name : String} {s : Service}
    (hs : StandsAt l.root.resolve.nodes (scope ++ [name]) (.service s)) {m : Method}
    (hm : m ∈ s.methods) :
    l.root.resolve.Lexical scope m.requestType m.request ∧
      l.root.resolve.Lexical scope m.responseType m.response ∧
      ∀ (disk' : Store) (includes' : List Path) (entry' : Path) (l' : Loading),
        load disk' includes' entry' = .ok l' →
        (∀ p ∈ l'.root.files, Path.hasExtension p "json" = false) →
        (∀ path, l.root.resolve.HasMessage path ↔ l'.root.resolve.HasMessage path) →
        ∀ (name' : String) (s' : Service) (m' : Method),
          StandsAt l'.root.resolve.nodes (scope ++ [name']) (.service s') → m' ∈ s'.methods →
            (m.requestType = m'.requestType → m.request = m'.request) ∧
              (m.responseType = m'.responseType → m.response = m'.response) := by
  have horderly := (orderly_load hload hsources).resolve
  have hscope : ∀ segment ∈ scope, Name.DotFree segment := fun segment hsegment =>
    horderly.dotFree hs segment (List.mem_append_left _ hsegment)
  obtain ⟨hrequest, hresponse⟩ := horderly.found_of_service hs hm
  refine ⟨?_, ?_, ?_⟩
  · rw [hrequest]
    exact horderly.lexical_lookupType hscope m.requestType
  · rw [hresponse]
    exact horderly.lexical_lookupType hscope m.responseType
  · intro disk' includes' entry' l' hload' hsources' hsame name' s' m' hs' hm'
    have horderly' := (orderly_load hload' hsources').resolve
    obtain ⟨hrequest', hresponse'⟩ := horderly'.found_of_service hs' hm'
    have hlookup := lookupType_congr (horderly.messageNamesAll_congr horderly' hsame)
    constructor
    · intro hwritten
      rw [hrequest, hrequest', hwritten, hlookup]
    · intro hwritten
      rw [hresponse, hresponse', hwritten, hlookup]

/-- A message that hides one of the same name in the package around it. -/
def hiddenMessage : Store :=
  { entries :=
      [(["a.proto"],
        .file (.text ("import \"b.proto\"; package p.q; message M \x7b\x7d " ++
          "service S \x7b rpc Call (M) returns (Outer.Inner); " ++
          "rpc Reset (.p.M) returns (E); \x7d"))),
       (["b.proto"],
        .file (.text ("package p; message M \x7b\x7d enum E \x7b\x7d " ++
          "message Outer \x7b message Inner \x7b\x7d \x7d")))] }

theorem lexical_hiddenMessage :
    ∃ l s, load hiddenMessage [] "a.proto" = .ok l ∧
      StandsAt l.root.resolve.nodes ["p", "q", "S"] (.service s) ∧
      (s.methods.map fun m => (m.request, m.response)) =
        [(some ⟨".p.q.M"⟩, some ⟨".p.Outer.Inner"⟩), (some ⟨".p.M"⟩, none)] ∧
      ∀ m ∈ s.methods, l.root.resolve.Lexical ["p", "q"] m.requestType m.request ∧
        l.root.resolve.Lexical ["p", "q"] m.responseType m.response := by
  have hrun : ((load hiddenMessage [] "a.proto").toOption.any fun l =>
      (l.root.files.all fun p => !Path.hasExtension p "json") &&
        ((descend? l.root.resolve.nodes ["p", "q", "S"]).bind Node.service?).any fun s =>
          (s.methods.map fun m => (m.request, m.response)) ==
            [(some ⟨".p.q.M"⟩, some ⟨".p.Outer.Inner"⟩), (some ⟨".p.M"⟩, none)]) = true := by
    decide +kernel
  obtain ⟨l, hload, hl⟩ := exists_ok_of_any hrun
  simp only [Bool.and_eq_true, List.all_eq_true, Bool.not_eq_true', Option.any_eq_true,
    beq_iff_eq, Option.bind_eq_some_iff] at hl
  obtain ⟨hsources, s, ⟨n, hdescend, hservice⟩, hfound⟩ := hl
  have hn : n = .service s := by
    cases n with
    | scope => cases hservice
    | enum => cases hservice
    | service s' => exact congrArg Node.service (Option.some.inj hservice)
  subst hn
  have hs : StandsAt l.root.resolve.nodes (["p", "q"] ++ ["S"]) (.service s) :=
    standsAt_of_descend? hdescend
  refine ⟨l, s, hload, hs, hfound, fun m hm => ?_⟩
  obtain ⟨hrequest, hresponse, _⟩ := lexical_load hload hsources hs hm
  exact ⟨hrequest, hresponse⟩

end Schema

end RpcBindings

import RpcBindings.Proofs.Naming
import RpcBindings.Proofs.TourCoverage

/-! # Generated code imports what it names

Generated code writes a message by its qualified name or by the name of its interface, and
what has to be imported is the first segment of what is written.  The import of the message
types is collected on another way: scopes that hold something are read off the tree, and
messages outside every scope off the methods that use them.  The two agree because the full
name of a message spells its path.  A path of one segment is a message outside every scope,
which the registry has as a global; a longer one starts at a scope that holds something,
which the registry has as a container.
-/
namespace RpcBindings.Generate

open RpcBindings.Binding
open RpcBindings.Disk (Path Store)
open RpcBindings.Emit (Options)
open RpcBindings.Schema

namespace Registry

/-- The import of the message types names what code writes for a message: always its
qualified name, and its interface if interfaces are asked for. -/
structure Covers (r : Registry) (interfaces : Bool) (t : TypeRef) : Prop where
  qualified_mem : Name.first t.qualified ∈ r.importNames interfaces
  interface_mem : interfaces = true → Name.first t.interface ∈ r.importNames interfaces

theorem mem_importNames_of_topLevel {r : Registry} {name : String} (h : name ∈ r.topLevel)
    (interfaces : Bool) : name ∈ r.importNames interfaces :=
  List.mem_append_left _ h

theorem mem_importNames_of_globals {r : Registry} {name : String} (h : name ∈ r.globals)
    (interfaces : Bool) :
    name ∈ r.importNames interfaces ∧
      (interfaces = true → "I" ++ name ∈ r.importNames interfaces) := by
  constructor
  · -- a global that is an outermost scope as well is listed there, and only there
    by_cases htop : name ∈ r.topLevel
    · exact mem_importNames_of_topLevel htop interfaces
    · refine List.mem_append_right _ (List.mem_flatMap.mpr ⟨name, h, ?_⟩)
      rw [if_neg (fun hc => htop (List.contains_iff_mem.mp hc))]
      exact List.mem_append_left _ (List.mem_singleton.mpr rfl)
  · rintro rfl
    refine List.mem_append_right _ (List.mem_flatMap.mpr ⟨name, h, ?_⟩)
    exact List.mem_append_right _ (List.mem_singleton.mpr rfl)

theorem isEmpty_of_mem_importNames {r : Registry} {interfaces : Bool} {name : String}
    (h : name ∈ r.importNames interfaces) : r.isEmpty = false := by
  rw [isEmpty, Bool.and_eq_false_iff, List.isEmpty_eq_false_iff, List.isEmpty_eq_false_iff]
  rcases List.mem_append.mp h with h | h
  · obtain ⟨container, hcontainer, _⟩ := List.mem_map.mp (Text.mem_distinct.mp h)
    exact Or.inl (List.ne_nil_of_mem hcontainer)
  · obtain ⟨message, hmessage, _⟩ := List.mem_flatMap.mp h
    exact Or.inr (List.ne_nil_of_mem hmessage)

/-! ## What the registry collects -/

section Collect
variable {roots : List Root} {r : Root}

theorem mem_containersIn {path : List String} {nodes : List Node} {n : Node} {container : String}
    (hn : n ∈ nodes) (h : container ∈ containersOf path n) :
    container ∈ containersIn path nodes := by
  induction nodes with
  | nil => cases hn
  | cons m ms ih =>
    rw [containersIn, List.mem_append]
    rcases List.mem_cons.mp hn with rfl | hn
    · exact Or.inl h
    · exact Or.inr (ih hn)

/-- The outermost scope around a node is imported. -/
theorem mem_topLevel_of_placed (hr : r ∈ roots) {a : Placed} (ha : a ∈ placedAll r.nodes)
    {first : String} {rest : List String} (hpath : a.path = first :: rest) (hrest : rest ≠ [])
    (hfirst : Name.DotFree first) : first ∈ (ofRoots roots).topLevel := by
  obtain ⟨n, hn, han⟩ := mem_placedAll.mp ha
  cases n with
  | enum =>
    rw [List.mem_singleton.mp han] at hpath
    cases hpath
    exact absurd rfl hrest
  | service =>
    rw [List.mem_singleton.mp han] at hpath
    cases hpath
    exact absurd rfl hrest
  | scope kind name full children =>
    rcases mem_placed_scope.mp han with rfl | ⟨b, hb, rfl⟩
    · cases hpath
      exact absurd rfl hrest
    · obtain ⟨rfl, rfl⟩ := List.cons.inj hpath
      have hne : children.isEmpty = false := by
        cases children with
        | nil => cases hb
        | cons => rfl
      have hcontainer : name ∈ containersOf [] (.scope kind name full children) := by
        rw [containersOf, hne]
        exact List.mem_append_left _ (List.mem_singleton.mpr rfl)
      have hmem := mem_containersIn hn hcontainer
      refine Text.mem_distinct.mpr (List.mem_map.mpr ⟨name, ?_, Name.first_of_dotFree hfirst⟩)
      exact Text.mem_distinct.mpr (List.mem_flatMap.mpr ⟨r, hr, hmem⟩)

/-- A message outside every scope that a method uses is imported. -/
theorem mem_globals_of_used (hr : r ∈ roots) {s : Service} (hs : s ∈ servicesAll r.nodes)
    {m : Method} (hm : m ∈ s.methods) {request response t : TypeRef}
    (hresolved : m.resolved? = some (request, response)) (ht : t ∈ [request, response])
    (hroot : t.isRootLevel = true) : t.name ∈ (ofRoots roots).globals := by
  refine Text.mem_distinct.mpr (List.mem_flatMap.mpr ⟨r, hr, List.mem_flatMap.mpr ⟨s, hs, ?_⟩⟩)
  refine List.mem_flatMap.mpr ⟨(request, response), List.mem_filterMap.mpr ⟨m, hm, hresolved⟩, ?_⟩
  exact List.mem_map.mpr ⟨t, List.mem_filter.mpr ⟨ht, hroot⟩, rfl⟩

/-- **The import covers every message that a method of the schemas uses.** -/
theorem covers_of_used (hr : r ∈ roots) (hnamed : r.Named) {s : Service}
    (hs : s ∈ servicesAll r.nodes) {m : Method} (hm : m ∈ s.methods)
    {request response t : TypeRef} (hresolved : m.resolved? = some (request, response))
    (ht : t ∈ [request, response]) (hmessage : t.fullName ∈ messageNamesAll r.nodes)
    (interfaces : Bool) : (ofRoots roots).Covers interfaces t := by
  obtain ⟨a, ha, _, hfull⟩ := mem_messageNamesAll.mp hmessage
  obtain ⟨hname, hdots⟩ := hnamed a ha
  have hspelled : t.fullName = scopeName a.path := hfull.symm.trans hname
  obtain ⟨first, rest, hpath⟩ := List.exists_cons_of_ne_nil (path_ne_nil ha)
  rw [hpath] at hspelled hdots
  have hfirst : Name.DotFree first := hdots first (List.mem_cons_self ..)
  have hqualified : Name.first t.qualified = first := by
    rw [TypeRef.qualified, hspelled]
    exact Name.first_qualified hfirst
  -- one segment is a message outside every scope, more segments lead into a scope
  rcases List.eq_nil_or_concat rest with rfl | ⟨init, last, hrest⟩
  · have hroot : t.isRootLevel = true := by
      rw [TypeRef.isRootLevel, hspelled]
      exact @Name.isRootLevel_scopeName first [] hfirst
    have hleaf : t.name = first := by
      rw [TypeRef.name, hspelled]
      exact @Name.leaf_scopeName first [] hfirst
    have hinterface : Name.first t.interface = "I" ++ first := by
      rw [TypeRef.interface, hspelled]
      exact Name.first_interface_root hfirst
    have hglobal := mem_globals_of_used hr hs hm hresolved ht hroot
    rw [hleaf] at hglobal
    obtain ⟨hself, hinterfaceMem⟩ := mem_importNames_of_globals hglobal interfaces
    exact ⟨hqualified ▸ hself, fun hi => hinterface ▸ hinterfaceMem hi⟩
  · rw [List.concat_eq_append] at hrest
    subst hrest
    have hlast : Name.DotFree last := hdots last (by simp)
    have hinterface : Name.first t.interface = first := by
      rw [TypeRef.interface, hspelled]
      exact Name.first_interface hfirst hlast
    have htop : first ∈ (ofRoots roots).topLevel :=
      mem_topLevel_of_placed hr ha hpath (by simp) hfirst
    have hmem := mem_importNames_of_topLevel htop interfaces
    exact ⟨hqualified ▸ hmem, fun _ => hinterface ▸ hmem⟩

end Collect

end Registry

/-! ## The headers of a run -/

theorem typesImport_of_mem (options : Options) {registry : Registry} {interfaces : Bool}
    {name : String} (h : name ∈ registry.importNames interfaces) :
    options.typesImport registry interfaces =
      [{ source := options.types, names := registry.importNames interfaces }] := by
  rw [Options.typesImport, Registry.isEmpty_of_mem_importNames h, if_neg Bool.false_ne_true]

theorem endpoints_shown (policy : Policy) (m : ServiceModel) :
    (policy.shown m).endpoints = m.endpoints := by
  unfold Policy.shown
  split <;> rfl

/-- The endpoints of a model are the methods of a service whose two messages are known. -/
theorem exists_method_of_endpoint {role : Role} {s : Service} {e : Endpoint}
    (h : e ∈ (ServiceModel.ofService role s).endpoints) :
    ∃ m ∈ s.methods, m.resolved? = some (e.request, e.response) := by
  obtain ⟨m, hm, he⟩ := List.mem_filterMap.mp h
  obtain ⟨⟨request, response⟩, hresolved, rfl⟩ := Option.map_eq_some_iff.mp he
  exact ⟨m, hm, hresolved⟩

/-- Both messages of an endpoint are covered, whichever schema its service stands in. -/
theorem covers_endpoint {disk : Store} {includes entries : List Path} {roots : List Root}
    {events : List Event} (hload : loadAll disk includes entries = .ok (roots, events))
    (hsources : ∀ r ∈ roots, ∀ p ∈ r.files, Path.hasExtension p "json" = false)
    {policy : Policy} {role : Role} {j : Journal} {m : ServiceModel} {e : Endpoint}
    (hm : m ∈ (pass policy role roots j).1) (he : e ∈ m.endpoints) (interfaces : Bool) :
    ∀ t ∈ [e.request, e.response], (Registry.ofRoots roots).Covers interfaces t := by
  obtain ⟨s, hvisited, rfl⟩ := mem_pass_iff.mp hm
  rw [endpoints_shown] at he
  obtain ⟨method, hmethod, hresolved⟩ := exists_method_of_endpoint he
  obtain ⟨r, hr, hs⟩ := Tour.mem_servicesAll hvisited
  have hnamed : r.Named := Root.named_of_loadAll hload hr (hsources r hr)
  have hmessages : e.request.fullName ∈ messageNamesAll r.nodes ∧
      e.response.fullName ∈ messageNamesAll r.nodes := by
    obtain ⟨entry, _, l, _, rfl⟩ := exists_load_of_mem hload hr
    exact Root.message_of_resolved hs hmethod hresolved
  intro t ht
  refine Registry.covers_of_used hr hnamed hs hmethod hresolved ht ?_ interfaces
  rw [List.mem_cons, List.mem_singleton] at ht
  rcases ht with rfl | rfl
  · exact hmessages.1
  · exact hmessages.2

/-- **Generated code imports what it names.**  When schemas are loaded from sources alone,
the types import of the bindings and the one of the manifest exist as soon as a method is
generated, and they name the first segment of everything that is written for its messages. -/
theorem imports_messages {disk : Store} {includes entries : List Path} {roots : List Root}
    {events : List Event} (hload : loadAll disk includes entries = .ok (roots, events))
    (hsources : ∀ r ∈ roots, ∀ p ∈ r.files, Path.hasExtension p "json" = false)
    (options : Options) (policy : Policy) (role : Role) (j : Journal) {m : ServiceModel}
    (hm : m ∈ (pass policy role roots j).1) {e : Endpoint} (he : e ∈ m.endpoints) :
    ∃ bindings manifest : List String,
      options.typesImport (Registry.ofRoots roots) true =
        [{ source := options.types, names := bindings }] ∧
      options.typesImport (Registry.ofRoots roots) false =
        [{ source := options.types, names := manifest }] ∧
      ∀ t ∈ [e.request, e.response],
        Name.first t.interface ∈ bindings ∧ Name.first t.qualified ∈ bindings ∧
          Name.first t.qualified ∈ manifest := by
  have hbindings := covers_endpoint hload hsources hm he true
  have hmanifest := covers_endpoint hload hsources hm he false
  have hrequest : e.request ∈ [e.request, e.response] := List.mem_cons_self ..
  refine ⟨_, _, typesImport_of_mem options (hbindings _ hrequest).qualified_mem,
    typesImport_of_mem options (hmanifest _ hrequest).qualified_mem, ?_⟩
  intro t ht
  exact ⟨(hbindings t ht).interface_mem rfl, (hbindings t ht).qualified_mem,
    (hmanifest t ht).qualified_mem⟩

/-- A service in a package, and messages outside of it. -/
def outsideMessages : Store :=
  { entries :=
      [(["api.proto"],
        .file (.text ("import \"types.proto\"; package p; " ++
          "service S \x7b rpc Call (Ping) returns (Outer.Inner); \x7d"))),
       (["types.proto"],
        .file (.text "message Ping \x7b\x7d message Outer \x7b message Inner \x7b\x7d \x7d"))] }

theorem imports_messages_outside :
    ∃ roots events, loadAll outsideMessages [] ["api.proto"] = .ok (roots, events) ∧
      ∃ m ∈ (pass .warn .client roots {}).1, ∃ e ∈ m.endpoints,
        e.request.fullName = ".Ping" ∧ e.response.fullName = ".Outer.Inner" ∧
        ∃ bindings manifest : List String,
          Options.typesImport {} (Registry.ofRoots roots) true =
            [{ source := "../apis/proto", names := bindings }] ∧
          Options.typesImport {} (Registry.ofRoots roots) false =
            [{ source := "../apis/proto", names := manifest }] ∧
          ∀ t ∈ [e.request, e.response],
            Name.first t.interface ∈ bindings ∧ Name.first t.qualified ∈ bindings ∧
              Name.first t.qualified ∈ manifest := by
  have hrun : ((loadAll outsideMessages [] ["api.proto"]).toOption.any fun (roots, _) =>
      (roots.all fun r => r.files.all fun p => !Path.hasExtension p "json") &&
        (pass .warn .client roots {}).1.any fun m => m.endpoints.any fun e =>
          e.request.fullName == ".Ping" && e.response.fullName == ".Outer.Inner") = true := by
    decide +kernel
  cases hload : loadAll outsideMessages [] ["api.proto"] with
  | error e =>
    rw [hload] at hrun
    cases hrun
  | ok result =>
    obtain ⟨roots, events⟩ := result
    rw [hload] at hrun
    simp only [Except.toOption, Option.any_some, Bool.and_eq_true, List.any_eq_true,
      List.all_eq_true, Bool.not_eq_true', beq_iff_eq] at hrun
    obtain ⟨hsources, m, hm, e, he, hrequest, hresponse⟩ := hrun
    exact ⟨roots, events, rfl, m, hm, e, he, hrequest, hresponse,
      imports_messages hload hsources {} .warn .client {} hm he⟩

end RpcBindings.Generate

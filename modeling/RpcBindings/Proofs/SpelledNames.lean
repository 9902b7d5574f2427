import RpcBindings.Proofs.CommentLines

/-! # How the names of a service are spelled

Generated code is made of the names of a service: its own, those of its methods, the types as
they are written and the messages that were found for them (`Service.names`).  In a schema from
sources alone all of these hold nothing but the characters of words and dots
(`isDotted_names`).  A full name is the path to its node, and the segments of a path are names
that are declared, or segments of a package.
-/
namespace RpcBindings.Proto

section Dotted
variable {scope leaf name : String}

theorem IsDotted.member (hscope : IsDotted scope) (hleaf : IsDotted leaf) :
    IsDotted (Name.member scope leaf) := by
  intro c hc
  rw [Name.toList_member, List.mem_append, List.mem_cons] at hc
  rcases hc with hc | rfl | hc
  · exact hscope c hc
  · exact Or.inr rfl
  · exact hleaf c hc

theorem IsDotted.foldl_member {path : List String} (hscope : IsDotted scope)
    (hpath : ∀ segment ∈ path, IsDotted segment) : IsDotted (path.foldl Name.member scope) := by
  induction path generalizing scope with
  | nil => exact hscope
  | cons first rest ih =>
    obtain ⟨hfirst, hrest⟩ := List.forall_mem_cons.mp hpath
    exact ih (hscope.member hfirst) hrest

theorem IsDotted.of_mem_segments (h : IsDotted name) {segment : String}
    (hsegment : segment ∈ Name.segments name) : IsDotted segment := by
  intro c hc
  have hdotted : c ∈ Name.dotted (Name.segments name) :=
    List.mem_flatMap.mpr ⟨segment, hsegment, List.mem_cons_of_mem _ hc⟩
  rw [Name.dotted_segments, List.mem_cons] at hdotted
  rcases hdotted with rfl | hmem
  · exact Or.inr rfl
  · exact h c hmem

end Dotted

/-- The segments of a package are spelled by words and dots. -/
theorem package_of_parse {source : String} {file : File Span} (h : parse source = .ok file) :
    ∀ segment ∈ file.package, IsDotted segment := by
  rcases (wellRead_of_parse h).package with hnone | ⟨name, hname, hpackage⟩
  · rw [hnone]
    exact List.forall_mem_nil _
  · rw [hpackage]
    exact fun segment hsegment => hname.isDotted.of_mem_segments hsegment

end RpcBindings.Proto

namespace RpcBindings.Schema

open RpcBindings.Disk
open RpcBindings.Proto (Decl File IsDotted Span declNames)

/-! ## Names in generated code -/

/-- The names that code for a method can hold. -/
def Method.names (m : Method) : List String :=
  [m.name, m.fullName, m.requestType, m.responseType] ++
    (m.request.toList ++ m.response.toList).map TypeRef.fullName

/-- The names that code for a service can hold. -/
def Service.names (s : Service) : List String :=
  s.name :: s.fullName :: s.methods.flatMap Method.names

/-! ## Paths -/

theorem mem_declNames_of_path {parent : String} {ds : List Decl} :
    ∀ a ∈ placedAll (declNodes parent ds), ∀ segment ∈ a.path, segment ∈ declNames ds := by
  have hhere : ∀ {name : String} {node : Node} {a : Placed}, a ∈ [⟨[name], node⟩] →
      ∀ segment ∈ a.path, segment = name := by
    intro name node a ha segment hsegment
    rw [List.mem_singleton.mp ha] at hsegment
    exact List.mem_singleton.mp hsegment
  induction ds using decl_induction generalizing parent with
  | nil => exact fun a ha => nomatch ha
  | message name members rest ihMembers ih =>
    intro a ha segment hsegment
    rcases List.mem_append.mp ha with ha | ha
    · rcases mem_placed_scope.mp ha with rfl | ⟨b, hb, rfl⟩
      · rw [List.mem_singleton.mp hsegment]
        exact List.mem_append_left _ (List.mem_cons_self ..)
      · rcases List.mem_cons.mp hsegment with rfl | hsegment
        · exact List.mem_append_left _ (List.mem_cons_self ..)
        · exact List.mem_append_left _ (List.mem_cons_of_mem _ (ihMembers b hb segment hsegment))
    · exact List.mem_append_right _ (ih a ha segment hsegment)
  | enum name rest ih =>
    intro a ha segment hsegment
    rcases List.mem_append.mp ha with ha | ha
    · rw [hhere ha segment hsegment]
      exact List.mem_append_left _ (List.mem_cons_self ..)
    · exact List.mem_append_right _ (ih a ha segment hsegment)
  | service name methods rest ih =>
    intro a ha segment hsegment
    rcases List.mem_append.mp ha with ha | ha
    · rw [hhere ha segment hsegment]
      exact List.mem_append_left _ (List.mem_cons_self ..)
    · exact List.mem_append_right _ (ih a ha segment hsegment)

theorem mem_path_nest {scope : String} {inner : List Node} {path : List String} :
    ∀ a ∈ placedAll (nest scope inner path), ∀ segment ∈ a.path,
      segment ∈ path ∨ ∃ b ∈ placedAll inner, segment ∈ b.path := by
  induction path generalizing scope with
  | nil => exact fun a ha segment hsegment => Or.inr ⟨a, ha, hsegment⟩
  | cons name rest ih =>
    intro a ha segment hsegment
    rw [nest, placedAll_singleton] at ha
    rcases mem_placed_scope.mp ha with rfl | ⟨b, hb, rfl⟩
    · exact Or.inl (List.mem_singleton.mp hsegment ▸ List.mem_cons_self ..)
    · rcases List.mem_cons.mp hsegment with rfl | hsegment
      · exact Or.inl (List.mem_cons_self ..)
      · exact (ih b hb segment hsegment).imp (List.mem_cons_of_mem _) id

theorem isDotted_path_sourceForest {source : String} {file : File Span}
    (h : Proto.parse source = .ok file) :
    ∀ a ∈ placedAll (sourceForest file), ∀ segment ∈ a.path, IsDotted segment := by
  intro a ha segment hsegment
  rcases mem_path_nest a ha segment hsegment with hpackage | ⟨b, hb, hdeclared⟩
  · exact Proto.package_of_parse h segment hpackage
  · have hname := mem_declNames_of_path b hb segment hdeclared
    exact ((Proto.names_of_parse h).1 segment hname).isDotted

theorem name_mem_path {nodes : List Node} {a : Placed} (ha : a ∈ placedAll nodes) :
    a.node.name ∈ a.path := by
  obtain ⟨n, hstands, hbare⟩ := exists_standsAt_of_placed ha
  have hname : n.bare.name = n.name := by cases n <;> rfl
  rw [← hbare, hname]
  exact hstands.name_mem

/-! ## Schemas from sources -/

section Load
variable {disk : Store} {includes : List Path} {entry : Path} {l : Loading}

theorem isDotted_path_load (h : load disk includes entry = .ok l)
    (hsources : ∀ p ∈ l.root.files, Path.hasExtension p "json" = false) :
    ∀ a ∈ placedAll l.root.nodes, ∀ segment ∈ a.path, IsDotted segment := by
  intro a ha
  have hends := sound_load disk includes entry
  rw [h] at hends
  obtain ⟨p, hp, _, hforest⟩ := hends.of_ok.placed a ha
  cases hsource : sourceAt disk p with
  | none =>
    rw [forestAt, hsource, documentAt_eq_none (hsources p hp)] at hforest
    cases hforest
  | some file =>
    rw [forestAt_source hsource] at hforest
    obtain ⟨source, hparse⟩ := exists_parse_of_sourceAt hsource
    exact isDotted_path_sourceForest hparse a hforest

theorem isDotted_fullName_load (h : load disk includes entry = .ok l)
    (hsources : ∀ p ∈ l.root.files, Path.hasExtension p "json" = false) :
    ∀ a ∈ placedAll l.root.nodes, IsDotted a.node.fullName := by
  intro a ha
  have hends := sound_load disk includes entry
  rw [h] at hends
  rw [(hends.of_ok.named hsources a ha).fullName_eq]
  exact IsDotted.foldl_member (List.forall_mem_nil _) (isDotted_path_load h hsources a ha)

theorem isDotted_messageNames_load (h : load disk includes entry = .ok l)
    (hsources : ∀ p ∈ l.root.files, Path.hasExtension p "json" = false) :
    ∀ name ∈ messageNamesAll l.root.nodes, IsDotted name := by
  intro name hname
  obtain ⟨a, ha, _, rfl⟩ := mem_messageNamesAll.mp hname
  exact isDotted_fullName_load h hsources a ha

/-- The names of a service as it is declared. -/
theorem isDotted_service (h : load disk includes entry = .ok l)
    (hsources : ∀ p ∈ l.root.files, Path.hasExtension p "json" = false) {s : Service}
    (hs : s ∈ servicesAll l.root.nodes) : IsDotted s.name ∧ IsDotted s.fullName := by
  obtain ⟨a, ha, hnode⟩ := mem_servicesAll.mp hs
  have hname := isDotted_path_load h hsources a ha a.node.name (name_mem_path ha)
  have hfull := isDotted_fullName_load h hsources a ha
  rw [hnode] at hname hfull
  exact ⟨hname, hfull⟩

end Load

/-- **The names of a service that is loaded from sources are spelled by words and dots.** -/
theorem isDotted_names {disk : Store} {includes entries : List Path} {roots : List Root}
    {events : List Event} (hload : loadAll disk includes entries = .ok (roots, events))
    (hsources : ∀ r ∈ roots, ∀ p ∈ r.files, Path.hasExtension p "json" = false) :
    ∀ r ∈ roots, ∀ s ∈ servicesAll r.nodes, ∀ name ∈ s.names, IsDotted name := by
  intro r hr s hs
  obtain ⟨entry, _, l, hl, rfl⟩ := exists_load_of_mem hload hr
  have hfiles := hsources l.root.resolve hr
  obtain ⟨written, hwritten, rfl⟩ := exists_of_mem_servicesAll hs
  obtain ⟨hname, hfull⟩ := isDotted_service hl hfiles hwritten
  have hfound : ∀ {type : String} {t : TypeRef},
      lookupType (messageNamesAll l.root.nodes) written.scope type = some t →
        IsDotted t.fullName :=
    fun h => isDotted_messageNames_load hl hfiles _ (mem_of_lookupType h)
  refine List.forall_mem_cons.mpr ⟨hname, List.forall_mem_cons.mpr ⟨hfull, ?_⟩⟩
  refine List.forall_mem_flatMap.mpr (List.forall_mem_map.mpr fun m hm => ?_)
  obtain ⟨hmethod, hrequest, hresponse⟩ := Generate.isDotted_method hl hfiles hwritten hm
  have hmember := namesMethods_load hl written hwritten m hm
  refine List.forall_mem_append.mpr ⟨?_, List.forall_mem_map.mpr fun t ht => ?_⟩
  · simp only [List.forall_mem_cons]
    refine ⟨hmethod, ?_, hrequest, hresponse, List.forall_mem_nil _⟩
    show IsDotted m.fullName
    rw [hmember]
    exact hfull.member hmethod
  · rcases List.mem_append.mp ht with ht | ht
    · exact hfound (Option.mem_toList.mp ht)
    · exact hfound (Option.mem_toList.mp ht)

end RpcBindings.Schema

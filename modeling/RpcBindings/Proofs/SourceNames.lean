import RpcBindings.Proofs.Soundness

/-! # The names and types in a source

The names that a source declares are identifiers, and the types of its methods are spelled by its
words and by dots.  Both are read off what can be declared.

A package is cut out of a type name at its dots, so its segments hold none.  They need not be
identifiers: a package may be written with a leading dot, and then its first segment is
empty.
-/
namespace RpcBindings.Proto

mutual

/-- The names that a declaration gives: its own and those declared in it. -/
def Decl.names : Decl → List String
  | .message name members => name :: declNames members
  | .enum name => [name]
  | .service name methods => name :: methods.map Rpc.name

/-- The names that declarations give. -/
def declNames : List Decl → List String
  | [] => []
  | d :: ds => d.names ++ declNames ds

end

/-- The types of a method. -/
def Rpc.types (m : Rpc) : List String := [m.requestType, m.responseType]

mutual

/-- The types of the methods in a declaration. -/
def Decl.types : Decl → List String
  | .message _ members => declTypes members
  | .enum _ => []
  | .service _ methods => methods.flatMap Rpc.types

/-- The types of the methods in declarations. -/
def declTypes : List Decl → List String
  | [] => []
  | d :: ds => d.types ++ declTypes ds

end

theorem declNames_eq_flatMap (ds : List Decl) : declNames ds = ds.flatMap Decl.names := by
  induction ds with
  | nil => rfl
  | cons d ds ih => rw [declNames, ih, List.flatMap_cons]

theorem declTypes_eq_flatMap (ds : List Decl) : declTypes ds = ds.flatMap Decl.types := by
  induction ds with
  | nil => rfl
  | cons d ds ih => rw [declTypes, ih, List.flatMap_cons]

/-! ## Names -/

theorem Decl.Nestable.names {d : Decl} (h : d.Nestable) : ∀ n ∈ d.names, IsIdentifier n := by
  induction h with
  | @message name members hname _ ih =>
    rw [Decl.names, declNames_eq_flatMap, List.forall_mem_cons]
    exact ⟨hname, List.forall_mem_flatMap.mpr ih⟩
  | enum hname => exact List.forall_mem_singleton.mpr hname

theorem Decl.Declarable.names {d : Decl} (h : d.Declarable) : ∀ n ∈ d.names, IsIdentifier n := by
  cases h with
  | nestable h => exact h.names
  | service hname hmethods =>
    exact List.forall_mem_cons.mpr ⟨hname, List.forall_mem_map.mpr fun m hm => (hmethods m hm).name⟩

/-- **The names that a source declares are identifiers, and the segments of its package hold
no dot.** -/
theorem names_of_parse {source : String} {file : File Span} (h : parse source = .ok file) :
    (∀ n ∈ declNames file.decls, IsIdentifier n) ∧
      ∀ segment ∈ file.package, Name.DotFree segment := by
  have hfile := wellRead_of_parse h
  constructor
  · rw [declNames_eq_flatMap]
    exact List.forall_mem_flatMap.mpr fun d hd => (hfile.decls d hd).names
  · rcases hfile.package with hnone | ⟨name, -, hpackage⟩
    · rw [hnone]
      exact List.forall_mem_nil _
    · rw [hpackage]
      exact fun segment => Name.dotFree_of_mem_segments

/-! ## Types -/

/-- The text has no characters but those of words and dots. -/
def IsDotted (text : String) : Prop := ∀ c ∈ text.toList, isWordPart c = true ∨ c = '.'

theorem IsIdentifier.isDotted {w : String} (h : IsIdentifier w) : IsDotted w :=
  fun c hc => Or.inl (h.isWordPart c hc)

theorem IsTypeName.isDotted {type : String} (h : IsTypeName type) : IsDotted type := by
  obtain ⟨path, -, hidents, hsegments⟩ := h
  intro c hc
  have hdotted : c ∈ Name.dotted (Name.segments type) := by
    rw [Name.dotted_segments]
    exact List.mem_cons_of_mem _ hc
  obtain ⟨segment, hsegment, hc⟩ := List.mem_flatMap.mp hdotted
  rcases List.mem_cons.mp hc with rfl | hc
  · exact Or.inr rfl
  · have hidents' : ∀ s ∈ "" :: path, IsIdentifier s ∨ s = "" :=
      List.forall_mem_cons.mpr ⟨Or.inr rfl, fun s hs => Or.inl (hidents s hs)⟩
    have hmem : segment ∈ "" :: path := by
      rcases hsegments with hsegments | hsegments
      · exact List.mem_cons_of_mem _ (hsegments ▸ hsegment)
      · exact hsegments ▸ hsegment
    rcases hidents' segment hmem with hident | rfl
    · exact hident.isDotted c hc
    · cases hc

theorem Decl.Nestable.types {d : Decl} (h : d.Nestable) : d.types = [] := by
  induction h with
  | @message name members _ _ ih =>
    rw [Decl.types, declTypes_eq_flatMap]
    exact List.flatMap_eq_nil_iff.mpr ih
  | enum _ => rfl

theorem Decl.Declarable.types {d : Decl} (h : d.Declarable) : ∀ type ∈ d.types, IsTypeName type := by
  cases h with
  | nestable h =>
    rw [h.types]
    exact List.forall_mem_nil _
  | service _ hmethods =>
    refine List.forall_mem_flatMap.mpr fun m hm => List.forall_mem_cons.mpr ?_
    exact ⟨(hmethods m hm).request.1, List.forall_mem_singleton.mpr (hmethods m hm).response.1⟩

/-- **The types of methods in a source are spelled by words and dots.** -/
theorem types_of_parse {source : String} {file : File Span} (h : parse source = .ok file) :
    ∀ type ∈ declTypes file.decls, IsDotted type := by
  rw [declTypes_eq_flatMap]
  refine List.forall_mem_flatMap.mpr fun d hd type htype => ?_
  exact (((wellRead_of_parse h).decls d hd).types type htype).isDotted

end RpcBindings.Proto

import RpcBindings.Proofs.MethodNames

/-! # The forms of a full name

Generated code uses a full name in five forms, and each of them is cut from the text of the name:
the anchor is taken off, or the text is cut at its last dot.  For the name of a path of segments
without dots all forms are what the path says (`PathForms`).  The routing key of a method keeps
enough of the path to tell it from all others, as long as no segment holds a slash either.
-/
namespace RpcBindings.Name

open RpcBindings.Schema (TypeRef scopeName)

/-! ## Joined segments -/

/-- Segments that are joined by dots. -/
theorem toList_joined (first : String) (rest : List String) :
    (".".intercalate (first :: rest)).toList = first.toList ++ dotted rest := by
  induction rest generalizing first with
  | nil => simp [dotted]
  | cons second rest ih =>
    rw [String.intercalate_cons_cons, String.toList_append, String.toList_append, ih,
      List.append_assoc]
    rfl

theorem scopeName_concat (init : List String) (last : String) :
    scopeName (init ++ [last]) = member (scopeName init) last :=
  List.foldl_concat ..

section Concat
variable {init : List String} {last : String}

/-- The name without its anchor is the path joined by dots. -/
theorem qualified_eq_joined {path : List String} (hne : path ≠ []) :
    qualified (scopeName path) = ".".intercalate path := by
  obtain ⟨first, rest, rfl⟩ := List.exists_cons_of_ne_nil hne
  apply String.toList_inj.mp
  rw [qualified_scopeName, toList_joined]

/-- The letter of an interface goes before the last segment. -/
theorem interface_eq_joined (hlast : DotFree last) :
    interface (scopeName (init ++ [last])) = ".".intercalate (init ++ ["I" ++ last]) := by
  cases init with
  | nil =>
    rw [List.nil_append, List.nil_append, interface_root hlast, String.intercalate_singleton]
  | cons first rest =>
    apply String.toList_inj.mp
    rw [List.cons_append, List.cons_append, interface_scoped hlast, toList_joined]

theorem isAbsolute_scopeName (hne : init ≠ []) : isAbsolute (scopeName init) = true := by
  obtain ⟨first, rest, rfl⟩ := List.exists_cons_of_ne_nil hne
  rw [isAbsolute, toList_scopeName]
  rfl

/-- The routing key has the scope and the last segment between slashes. -/
theorem rpcPath_eq_joined (hne : init ≠ []) (hlast : DotFree last) :
    rpcPath (scopeName (init ++ [last])) = "/" ++ ".".intercalate init ++ "/" ++ last := by
  obtain ⟨first, rest, rfl⟩ := List.exists_cons_of_ne_nil hne
  have hscope : (scopeName (first :: rest)).toList = '.' :: (first.toList ++ dotted rest) :=
    toList_scopeName _
  apply String.toList_inj.mp
  rw [scopeName_concat, toList_rpcPath hscope hlast, ← toList_joined]
  simp

end Concat

/-! ## All forms -/

/-- The forms of the full name of a path. -/
structure PathForms (path : List String) (hne : path ≠ []) : Prop where
  qualified : Name.qualified (scopeName path) = ".".intercalate path
  leaf : Name.leaf (scopeName path) = path.getLast hne
  typeName : (TypeRef.mk (scopeName path)).name = path.getLast hne
  interface : Name.interface (scopeName path) =
    ".".intercalate (path.dropLast ++ ["I" ++ path.getLast hne])
  isRootLevel : (TypeRef.mk (scopeName path)).isRootLevel = true ↔ path.length = 1
  rpcPath : 2 ≤ path.length → Name.rpcPath (scopeName path) =
    "/" ++ ".".intercalate path.dropLast ++ "/" ++ path.getLast hne

theorem pathForms_concat {init : List String} {last : String} (hlast : DotFree last)
    (hne : init ++ [last] ≠ []) : PathForms (init ++ [last]) hne where
  qualified := qualified_eq_joined hne
  leaf := by rw [leaf_scopeName hlast, List.getLast_concat]
  typeName := by
    show Name.leaf _ = _
    rw [leaf_scopeName hlast, List.getLast_concat]
  interface := by rw [interface_eq_joined hlast, List.dropLast_concat, List.getLast_concat]
  isRootLevel := by
    show Name.isRootLevel _ = true ↔ _
    rw [isRootLevel_scopeName hlast, List.isEmpty_iff, List.length_append, List.length_singleton,
      Nat.add_eq_right, List.length_eq_zero_iff]
  rpcPath hlength := by
    have hinit : init ≠ [] := by
      rintro rfl
      simp at hlength
    rw [rpcPath_eq_joined hinit hlast, List.dropLast_concat, List.getLast_concat]

/-- The segment holds none of the characters that name forms put between segments. -/
def Separable (segment : String) : Prop := DotFree segment ∧ '/' ∉ segment.toList

theorem exists_concat_of_two_le {path : List String} (h : 2 ≤ path.length) :
    ∃ init last, path = init ++ [last] ∧ init ≠ [] := by
  rcases List.eq_nil_or_concat' path with rfl | ⟨init, last, rfl⟩
  · simp at h
  · refine ⟨init, last, rfl, ?_⟩
    rintro rfl
    simp at h

/-- A routing key tells the full name that it was made from. -/
theorem scopeName_eq_of_rpcPath {path path' : List String} (hlength : 2 ≤ path.length)
    (hlength' : 2 ≤ path'.length) (h : ∀ segment ∈ path, Separable segment)
    (h' : ∀ segment ∈ path', Separable segment)
    (heq : rpcPath (scopeName path) = rpcPath (scopeName path')) :
    scopeName path = scopeName path' := by
  obtain ⟨init, last, rfl, hne⟩ := exists_concat_of_two_le hlength
  obtain ⟨init', last', rfl, hne'⟩ := exists_concat_of_two_le hlength'
  obtain ⟨hdots, hslashes⟩ := h last (by simp)
  obtain ⟨hdots', hslashes'⟩ := h' last' (by simp)
  rw [scopeName_concat, scopeName_concat] at heq ⊢
  obtain ⟨hscope, hlast⟩ := rpcPath_member_inj (isAbsolute_scopeName hne)
    (isAbsolute_scopeName hne') hdots hdots' hslashes hslashes' heq
  rw [hscope, hlast]

/-- **Every form of a full name is what its path says**, and no two methods share a routing
key. -/
theorem fullName_forms :
    (∀ (path : List String) (hne : path ≠ []), (∀ segment ∈ path, DotFree segment) →
      PathForms path hne) ∧
    ∀ path path' : List String, 2 ≤ path.length → 2 ≤ path'.length →
      (∀ segment ∈ path, Separable segment) → (∀ segment ∈ path', Separable segment) →
      rpcPath (scopeName path) = rpcPath (scopeName path') → scopeName path = scopeName path' := by
  refine ⟨?_, fun path path' => scopeName_eq_of_rpcPath⟩
  intro path hne h
  obtain ⟨init, last, rfl⟩ := (List.eq_nil_or_concat' path).resolve_left hne
  exact pathForms_concat (h last (by simp)) hne

/-- A path of three segments, once written out and once cut from a text. -/
theorem fullName_forms_watch :
    PathForms ["foo", "Svc", "Watch"] (by decide) ∧
      rpcPath (scopeName (segments "foo.Svc.Watch")) = "/foo.Svc/Watch" ∧
      scopeName (segments "foo.Svc.Watch") = scopeName ["foo", "Svc", "Watch"] := by
  have hwritten : ∀ segment ∈ ["foo", "Svc", "Watch"], Separable segment := by
    simp only [List.forall_mem_cons, Separable, DotFree]
    decide
  have hcut : ∀ segment ∈ segments "foo.Svc.Watch", Separable segment := by
    rw [show segments "foo.Svc.Watch" = ["foo", "Svc", "Watch"] by decide]
    exact hwritten
  have hdots : ∀ segment ∈ ["foo", "Svc", "Watch"], DotFree segment :=
    fun segment hsegment => (hwritten segment hsegment).1
  refine ⟨fullName_forms.1 _ (by decide) hdots, by decide, ?_⟩
  exact fullName_forms.2 _ _ (by decide) (by decide) hcut hwritten (by decide)

end RpcBindings.Name

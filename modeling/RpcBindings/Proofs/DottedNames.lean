import RpcBindings.Schema.Tree

/-! # Full names and their segments

The full name of a node is the path to it with a dot before every segment.  As long as no
segment holds a dot, the path can be read off the name again (`path?_scopeName`), and so can
all the forms in which generated code uses it: the name without its anchor, its first and its
last segment, and the name of the interface.  Cutting a scope at its last dot leads to the scope
around it, so the scopes in which a name is looked up are the paths that the scope starts with
(`enclosing_scopeName`).
-/
namespace RpcBindings

namespace Text

theorem cutLast_eq_none {sep : Char} {cs : List Char} (h : sep ∉ cs) :
    cutLast sep cs = none := by
  induction cs with
  | nil => rfl
  | cons c cs ih =>
    rw [List.mem_cons, not_or] at h
    rw [cutLast, ih h.2, if_neg (Ne.symm h.1)]

/-- The last cut is at the given separator when none follows it. -/
theorem cutLast_append {sep : Char} {before after : List Char} (h : sep ∉ after) :
    cutLast sep (before ++ sep :: after) = some (before, after) := by
  induction before with
  | nil => rw [List.nil_append, cutLast, cutLast_eq_none h, if_pos rfl]
  | cons c cs ih => rw [List.cons_append, cutLast, ih]

/-- No piece holds a separator. -/
theorem notMem_of_mem_splitOn {sep : Char} {cs piece : List Char} (h : piece ∈ splitOn sep cs) :
    sep ∉ piece := by
  induction cs generalizing piece with
  | nil =>
    rw [List.mem_singleton.mp h]
    exact List.not_mem_nil
  | cons c cs ih =>
    unfold splitOn at h
    split at h
    · rcases List.mem_cons.mp h with rfl | h
      · exact List.not_mem_nil
      · exact ih h
    · next hc =>
      split at h
      · rw [List.mem_singleton.mp h, List.mem_singleton]
        exact Ne.symm hc
      · next first rest hsplit =>
        rw [hsplit] at ih
        rcases List.mem_cons.mp h with rfl | h
        · rw [List.mem_cons, not_or]
          exact ⟨Ne.symm hc, ih (List.mem_cons_self ..)⟩
        · exact ih (List.mem_cons_of_mem _ h)

theorem splitOn_eq_singleton {sep : Char} {cs : List Char} (h : sep ∉ cs) :
    splitOn sep cs = [cs] := by
  induction cs with
  | nil => rfl
  | cons c cs ih =>
    rw [List.mem_cons, not_or] at h
    rw [splitOn, if_neg (Ne.symm h.1), ih h.2]

/-- The first piece ends at the first separator. -/
theorem splitOn_append {sep : Char} {before after : List Char} (h : sep ∉ before) :
    splitOn sep (before ++ sep :: after) = before :: splitOn sep after := by
  induction before with
  | nil => rw [List.nil_append, splitOn, if_pos rfl]
  | cons c cs ih =>
    rw [List.mem_cons, not_or] at h
    rw [List.cons_append, splitOn, if_neg (Ne.symm h.1), ih h.2]

/-- Putting a separator before every piece gives the text back, behind a separator. -/
theorem flatMap_splitOn (sep : Char) (cs : List Char) :
    (splitOn sep cs).flatMap (sep :: ·) = sep :: cs := by
  induction cs with
  | nil => rfl
  | cons c cs ih =>
    obtain ⟨first, rest, hsplit⟩ := List.exists_cons_of_ne_nil (splitOn_ne_nil sep cs)
    rw [splitOn]
    split
    · next hc =>
      rw [List.flatMap_cons, ih, hc]
      rfl
    · rw [hsplit] at ih ⊢
      rw [List.flatMap_cons, List.cons_append] at ih
      rw [List.flatMap_cons, List.cons_append, List.cons_append, (List.cons.inj ih).2]

end Text

namespace Name

open RpcBindings.Schema (scopeName)

/-- The text holds no dot. -/
def DotFree (s : String) : Prop := '.' ∉ s.toList

theorem dotFree_of_mem_segments {name segment : String} (h : segment ∈ segments name) :
    DotFree segment := by
  obtain ⟨piece, hpiece, rfl⟩ := List.mem_map.mp h
  rw [DotFree, String.toList_ofList]
  exact Text.notMem_of_mem_splitOn hpiece

/-- The segments of a path, each behind a dot. -/
def dotted (path : List String) : List Char :=
  path.flatMap fun s => '.' :: s.toList

theorem dotted_append (xs ys : List String) : dotted (xs ++ ys) = dotted xs ++ dotted ys :=
  List.flatMap_append

theorem dotted_singleton (s : String) : dotted [s] = '.' :: s.toList :=
  List.flatMap_singleton ..

theorem toList_foldl_member (scope : String) (path : List String) :
    (path.foldl member scope).toList = scope.toList ++ dotted path := by
  induction path generalizing scope with
  | nil => exact (List.append_nil _).symm
  | cons s rest ih =>
    rw [List.foldl_cons, ih, member, String.toList_append, String.toList_append,
      List.append_assoc, List.append_assoc]
    rfl

theorem toList_scopeName (path : List String) : (scopeName path).toList = dotted path :=
  toList_foldl_member "" path

section Forms
variable {first last : String} {init rest : List String}

/-! ## The two ends of a name -/

theorem qualified_scopeName (first : String) (rest : List String) :
    (qualified (scopeName (first :: rest))).toList = first.toList ++ dotted rest := by
  have hlist : (scopeName (first :: rest)).toList = '.' :: (first.toList ++ dotted rest) :=
    toList_scopeName _
  rw [qualified, hlist]
  exact String.toList_ofList

theorem first_eq {name : String} (hfirst : DotFree first)
    (hname : name.toList = first.toList ++ dotted rest) : Name.first name = first := by
  have hall : ∀ c ∈ first.toList, decide (c ≠ '.') = true := by
    intro c hc
    refine decide_eq_true ?_
    rintro rfl
    exact hfirst hc
  -- what follows the segment is nothing or starts with a dot
  have htail : (dotted rest).takeWhile (· ≠ '.') = [] := by
    cases rest with
    | nil => rfl
    | cons s rest => rfl
  rw [Name.first, hname, List.takeWhile_append_of_pos hall, htail, List.append_nil,
    String.ofList_toList]

theorem first_of_dotFree (hfirst : DotFree first) : Name.first first = first := by
  have hlist : first.toList = first.toList ++ dotted [] := (List.append_nil _).symm
  exact first_eq hfirst hlist

/-- The first segment of a name without its anchor. -/
theorem first_qualified (hfirst : DotFree first) :
    Name.first (qualified (scopeName (first :: rest))) = first :=
  first_eq hfirst (qualified_scopeName first rest)

theorem cutLast_scopeName (hlast : DotFree last) :
    Text.cutLast '.' (scopeName (init ++ [last])).toList = some (dotted init, last.toList) := by
  rw [toList_scopeName, dotted_append, dotted_singleton]
  exact Text.cutLast_append hlast

theorem leaf_scopeName (hlast : DotFree last) : leaf (scopeName (init ++ [last])) = last := by
  rw [leaf, split?, cutLast_scopeName hlast]
  exact String.ofList_toList

theorem scope_scopeName (hlast : DotFree last) :
    scope (scopeName (init ++ [last])) = scopeName init := by
  rw [scope, split?, cutLast_scopeName hlast, ← toList_scopeName]
  exact String.ofList_toList

theorem isRootLevel_scopeName (hlast : DotFree last) :
    isRootLevel (scopeName (init ++ [last])) = init.isEmpty := by
  rw [isRootLevel, cutLast_scopeName hlast]
  cases init <;> rfl

/-! ## The interface -/

theorem interface_root (hfirst : DotFree first) :
    interface (scopeName [first]) = "I" ++ first := by
  have hlist : (qualified (scopeName [first])).toList = first.toList := by
    rw [qualified_scopeName]
    exact List.append_nil _
  have hname : qualified (scopeName [first]) = first := String.toList_inj.mp hlist
  rw [interface, split?, hname, Text.cutLast_eq_none hfirst]
  rfl

theorem first_interface_root (hfirst : DotFree first) :
    Name.first (interface (scopeName [first])) = "I" ++ first := by
  have hdots : DotFree ("I" ++ first) := by
    rw [DotFree, String.toList_append, List.mem_append, not_or]
    exact ⟨by decide, hfirst⟩
  rw [interface_root hfirst, first_of_dotFree hdots]

theorem interface_scoped (hlast : DotFree last) :
    (interface (scopeName (first :: (init ++ [last])))).toList =
      first.toList ++ dotted (init ++ ["I" ++ last]) := by
  have hcut : Text.cutLast '.' (qualified (scopeName (first :: (init ++ [last])))).toList =
      some (first.toList ++ dotted init, last.toList) := by
    rw [qualified_scopeName, dotted_append, dotted_singleton, ← List.append_assoc]
    exact Text.cutLast_append hlast
  -- the letter goes before the last segment, behind the dot
  rw [interface, split?, hcut, dotted_append, dotted_singleton]
  simp

/-- The first segment of the name of an interface in a scope. -/
theorem first_interface (hfirst : DotFree first) (hlast : DotFree last) :
    Name.first (interface (scopeName (first :: (init ++ [last])))) = first :=
  first_eq hfirst (interface_scoped hlast)

end Forms

/-! ## Names and paths -/

theorem segments_ne_nil (name : String) : segments name ≠ [] := fun hnil =>
  Text.splitOn_ne_nil '.' name.toList (List.map_eq_nil_iff.mp hnil)

theorem dotted_segments (name : String) : dotted (segments name) = '.' :: name.toList := by
  rw [← Text.flatMap_splitOn, dotted, segments, Text.pieces, List.flatMap_map]
  simp

/-- A name that is looked up in a scope is the path of the scope and then its own segments. -/
theorem member_scopeName (path : List String) (name : String) :
    member (scopeName path) name = scopeName (path ++ segments name) := by
  apply String.toList_inj.mp
  rw [toList_scopeName, dotted_append, dotted_segments, ← toList_scopeName]
  simp [member]

theorem splitOn_dotted {first : String} {rest : List String} (hfirst : DotFree first)
    (hrest : ∀ segment ∈ rest, DotFree segment) :
    Text.splitOn '.' (first.toList ++ dotted rest) = (first :: rest).map String.toList := by
  induction rest generalizing first with
  | nil => rw [dotted, List.flatMap_nil, List.append_nil, Text.splitOn_eq_singleton hfirst]; rfl
  | cons second rest ih =>
    have hdotted : dotted (second :: rest) = '.' :: (second.toList ++ dotted rest) := rfl
    rw [hdotted, Text.splitOn_append hfirst, ih (hrest second (List.mem_cons_self ..))
      fun segment hsegment => hrest segment (List.mem_cons_of_mem _ hsegment)]
    rfl

/-- **The path can be read off a full name.** -/
theorem path?_scopeName {path : List String} (hne : path ≠ [])
    (h : ∀ segment ∈ path, DotFree segment) : path? (scopeName path) = some path := by
  obtain ⟨first, rest, rfl⟩ := List.exists_cons_of_ne_nil hne
  have hlist : (scopeName (first :: rest)).toList = '.' :: (first.toList ++ dotted rest) :=
    toList_scopeName _
  rw [path?, hlist]
  change some ((Text.splitOn '.' (first.toList ++ dotted rest)).map String.ofList) = _
  rw [splitOn_dotted (h first (List.mem_cons_self ..))
    fun segment hsegment => h segment (List.mem_cons_of_mem _ hsegment), List.map_map]
  simp

theorem scopeName_inj {path path' : List String} (hne : path ≠ []) (hne' : path' ≠ [])
    (h : ∀ segment ∈ path, DotFree segment) (h' : ∀ segment ∈ path', DotFree segment)
    (heq : scopeName path = scopeName path') : path = path' := by
  have hpath := path?_scopeName hne h
  rw [heq, path?_scopeName hne' h'] at hpath
  exact (Option.some.inj hpath).symm

theorem segments_of_dotFree {name : String} (h : DotFree name) : segments name = [name] := by
  rw [segments, Text.pieces, Text.splitOn_eq_singleton h, List.map_singleton, String.ofList_toList]

/-- The leaf is the last segment. -/
theorem segments_member {leaf : String} (scope : String) (h : DotFree leaf) :
    segments (member scope leaf) = segments scope ++ [leaf] := by
  have hdotFree : ∀ segment ∈ segments scope ++ [leaf], DotFree segment := by
    simp only [List.forall_mem_append, List.forall_mem_singleton]
    exact ⟨fun segment => dotFree_of_mem_segments, h⟩
  refine scopeName_inj (segments_ne_nil _) (List.append_ne_nil_of_right_ne_nil _ (by simp))
    (fun segment => dotFree_of_mem_segments) hdotFree (String.toList_inj.mp ?_)
  rw [toList_scopeName, toList_scopeName, dotted_segments, dotted_append, dotted_segments,
    dotted_singleton]
  simp [member]

theorem head?_segments_member {leaf : String} (scope : String) (h : DotFree leaf) :
    (segments (member scope leaf)).head? = (segments scope).head? := by
  obtain ⟨first, rest, hcons⟩ := List.exists_cons_of_ne_nil (segments_ne_nil scope)
  rw [segments_member scope h, hcons]
  rfl

/-- What a name spells is a path of which it is the full name. -/
theorem eq_scopeName_of_path? {name : String} {path : List String} (h : path? name = some path) :
    name = scopeName path ∧ path ≠ [] ∧ ∀ segment ∈ path, DotFree segment := by
  unfold path? at h
  split at h
  · next rest hlist =>
    cases h
    refine ⟨?_, ?_, ?_⟩
    · apply String.toList_inj.mp
      rw [toList_scopeName, hlist, ← Text.flatMap_splitOn, dotted, List.flatMap_map]
      simp
    · exact fun hnil => Text.splitOn_ne_nil '.' rest (List.map_eq_nil_iff.mp hnil)
    · intro segment hsegment
      obtain ⟨piece, hpiece, rfl⟩ := List.mem_map.mp hsegment
      rw [DotFree, String.toList_ofList]
      exact Text.notMem_of_mem_splitOn hpiece
  · cases h

/-- A name spells a path exactly when it is absolute. -/
theorem isSome_path? (name : String) : (path? name).isSome = isAbsolute name := by
  unfold path? isAbsolute
  split
  · next rest hlist => rw [hlist]; rfl
  · next hnot =>
    cases hlist : name.toList with
    | nil => rfl
    | cons c cs =>
      have hc : c ≠ '.' := fun hc => hnot cs (by rw [hlist, hc])
      simpa using hc

/-! ## The scopes around a scope -/

theorem enclosing_root : enclosing (scopeName []) = [scopeName []] := by
  rw [enclosing, toList_scopeName, dotted, List.flatMap_nil, enclosingScopes]
  rfl

theorem enclosing_scopeName {last : String} {init : List String} (hlast : DotFree last) :
    enclosing (scopeName (init ++ [last])) =
      scopeName (init ++ [last]) :: enclosing (scopeName init) := by
  have hcut := @cutLast_scopeName last init hlast
  have hne : (scopeName (init ++ [last])).toList.isEmpty = false := by
    rw [toList_scopeName, dotted_append, dotted_singleton]
    simp
  rw [enclosing, enclosing, enclosingScopes, hne, if_neg Bool.false_ne_true]
  split
  · next outer leaf houter =>
    rw [hcut] at houter
    cases houter
    rw [List.map_cons, String.ofList_toList, ← toList_scopeName]
  · next hnone =>
    rw [hcut] at hnone
    cases hnone

end Name

end RpcBindings

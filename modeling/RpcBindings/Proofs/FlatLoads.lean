import RpcBindings.Proofs.MergeOrder

/-! # Loads without imports of imports

When what an entry file imports has no imports of its own, the traversal of the import graph is
a walk along the imports of the entry file.  A file is passed over when its components have come
before, and the entry file is merged last (`mergeOrder`).  Such a load goes through exactly when
all its files can be understood, each of them declares every name once, and every later file fits
every earlier one (`Flat.exists_load_iff`).
-/
namespace RpcBindings.Schema

open RpcBindings.Disk
open RpcBindings.Proto (File Span)

/-! ## Paths that are opened -/

/-- The paths that are opened when the paths `todo` are met in order and `seen` have been opened
before: those whose components are new. -/
def opened : List Path → List Path → List Path
  | _, [] => []
  | seen, path :: rest =>
    if seen.any fun file => Path.sameComponents file path then opened seen rest
    else path :: opened (seen ++ [path]) rest

/-- The order in which the entry file and what it imports are merged, when nothing of this
imports anything. -/
def mergeOrder (disk : Store) (includes : List Path) (entry : Path) : List Path :=
  opened [entry] (importsAt disk includes entry) ++ [entry]

section Opened
variable {seen todo : List Path} {path : Path}

theorem fresh_iff : Fresh seen path ↔
    (seen.any fun file => Path.sameComponents file path) = false :=
  (hasFile_eq_false_iff (r := { files := seen })).symm

theorem mem_opened (h : path ∈ opened seen todo) : path ∈ todo ∧ Fresh seen path := by
  induction todo generalizing seen with
  | nil => cases h
  | cons p rest ih =>
    rw [opened] at h
    split at h
    · exact ⟨List.mem_cons_of_mem _ (ih h).1, (ih h).2⟩
    · next hnew =>
      rcases List.mem_cons.mp h with rfl | h
      · exact ⟨List.mem_cons_self .., fresh_iff.mpr (Bool.eq_false_iff.mpr hnew)⟩
      · obtain ⟨hmem, hfresh⟩ := ih h
        exact ⟨List.mem_cons_of_mem _ hmem, fun q hq => hfresh q (List.mem_append_left _ hq)⟩

theorem distinct_opened (seen todo : List Path) : (opened seen todo).Pairwise Differ := by
  induction todo generalizing seen with
  | nil => exact List.Pairwise.nil
  | cons p rest ih =>
    rw [opened]
    split
    · exact ih seen
    · refine List.pairwise_cons.mpr ⟨fun q hq => ?_, ih _⟩
      exact (mem_opened hq).2 p (List.mem_append_right _ (List.mem_singleton.mpr rfl))

/-- Of every path that is met, a spelling with its components has been opened. -/
theorem exists_opened (h : path ∈ todo) :
    ∃ file ∈ seen ++ opened seen todo, Path.sameComponents file path = true := by
  induction todo generalizing seen with
  | nil => cases h
  | cons p rest ih =>
    rw [opened]
    split
    · next hknown =>
      rcases List.mem_cons.mp h with rfl | h
      · obtain ⟨file, hfile, hsame⟩ := List.any_eq_true.mp hknown
        exact ⟨file, List.mem_append_left _ hfile, hsame⟩
      · exact ih h
    · rcases List.mem_cons.mp h with rfl | h
      · exact ⟨path, List.mem_append_right _ (List.mem_cons_self ..), beq_self_eq_true _⟩
      · obtain ⟨file, hfile, hsame⟩ := @ih (seen ++ [p]) h
        exact ⟨file, by simpa using hfile, hsame⟩

/-- A traversal of paths that lead nowhere opens and closes them one by one. -/
theorem depthFirst_opened {edges : Path → List Path} (h : ∀ p ∈ todo, edges p = []) :
    DepthFirst edges seen todo (seen ++ opened seen todo) (opened seen todo) := by
  induction todo generalizing seen with
  | nil =>
    rw [opened, List.append_nil]
    exact .done
  | cons p rest ih =>
    have hrest : ∀ q ∈ rest, edges q = [] := fun q hq => h q (List.mem_cons_of_mem _ hq)
    rw [opened]
    split
    · next hknown =>
      refine .passed (fun hfresh => ?_) (ih hrest)
      rw [fresh_iff.mp hfresh] at hknown
      cases hknown
    · next hnew =>
      have hinner : DepthFirst edges (seen ++ [p]) (edges p) (seen ++ [p]) [] := by
        rw [h p (List.mem_cons_self ..)]
        exact .done
      have houter := @ih (seen ++ [p]) hrest
      rw [List.append_assoc] at houter
      exact .entered (fresh_iff.mpr (Bool.eq_false_iff.mpr hnew)) hinner houter

end Opened

/-! ## Flat loads -/

/-- The entry file is a source, its imports are all found, and what they lead to has no imports
of its own. -/
structure Flat (disk : Store) (includes : List Path) (entry : Path) (file : File Span) :
    Prop where
  source : sourceAt disk entry = some file
  found : ∀ i ∈ file.imports, (findImport disk includes entry i.path).isSome = true
  leaves : ∀ p ∈ importsAt disk includes entry, ∀ imported, sourceAt disk p = some imported →
    imported.imports = []

section Flat
variable {disk : Store} {includes : List Path} {entry : Path} {file : File Span}

theorem Flat.depthFirst (h : Flat disk includes entry file) :
    DepthFirst (importsAt disk includes) [] [entry]
      (entry :: opened [entry] (importsAt disk includes entry))
      (mergeOrder disk includes entry) := by
  have hleaves : ∀ p ∈ importsAt disk includes entry, importsAt disk includes p = [] := by
    intro p hp
    unfold importsAt
    split
    · next imported himported => rw [h.leaves p hp imported himported, List.filterMap_nil]
    · rfl
  exact .entered (List.forall_mem_nil _) (depthFirst_opened hleaves) .done

/-- The entry file and all files that are merged before it. -/
theorem mem_mergeOrder {p : Path} (h : p ∈ mergeOrder disk includes entry) :
    p = entry ∨ p ∈ importsAt disk includes entry ∧ Differ entry p := by
  rcases List.mem_append.mp h with h | h
  · obtain ⟨hmem, hfresh⟩ := mem_opened h
    exact Or.inr ⟨hmem, hfresh entry (List.mem_singleton.mpr rfl)⟩
  · exact Or.inl (List.mem_singleton.mp h)

theorem distinct_mergeOrder : (mergeOrder disk includes entry).Pairwise Differ := by
  refine List.pairwise_append.mpr ⟨distinct_opened _ _, List.pairwise_singleton _ _, ?_⟩
  intro p hp q hq
  rw [List.mem_singleton.mp hq]
  exact Std.Symm.symm _ _ ((mem_opened hp).2 entry (List.mem_singleton.mpr rfl))

/-- A file that is merged is complete as soon as it can be understood. -/
theorem Flat.complete_iff (h : Flat disk includes entry file) {p : Path}
    (hp : p ∈ mergeOrder disk includes entry) :
    Complete disk includes p ↔ (sourceAt disk p).isSome ∨ (documentAt disk p).isSome := by
  refine ⟨fun hcomplete => hcomplete.described, fun hdescribed => ⟨hdescribed, ?_⟩⟩
  intro imported himported i hi
  rcases mem_mergeOrder hp with rfl | ⟨hp, _⟩
  · rw [h.source] at himported
    cases himported
    rw [isSettled, h.found i hi, Bool.true_or]
  · rw [h.leaves p hp imported himported] at hi
    cases hi

theorem Flat.load_eq_ok (h : Flat disk includes entry file) {root : Root} :
    outcomeRoot? (load disk includes entry) = some root ↔
      (∀ p ∈ mergeOrder disk includes entry,
        (sourceAt disk p).isSome ∨ (documentAt disk p).isSome) ∧
      root.files = entry :: opened [entry] (importsAt disk includes entry) ∧
      ∃ merged, (mergeOrder disk includes entry).foldlM (Root.mergeAt disk) {} = .ok merged ∧
        root.nodes = merged.nodes := by
  rw [outcomeRoot?_load_eq_some h.depthFirst]
  refine and_congr_left fun _ => forall_congr' fun p => ?_
  rw [h.depthFirst.perm.mem_iff]
  exact forall_congr' fun hp => h.complete_iff hp

/-- **A load without imports of imports goes through exactly when all its files can be
understood, each declares every name once, and every later file fits every earlier one.** -/
theorem Flat.exists_load_iff (h : Flat disk includes entry file) :
    (∃ l, load disk includes entry = .ok l) ↔
      (∀ p ∈ mergeOrder disk includes entry,
        ((sourceAt disk p).isSome ∨ (documentAt disk p).isSome) ∧ Tidy (forestAt disk p)) ∧
        (mergeOrder disk includes entry).Pairwise fun p q => Fits disk (forestAt disk p) q := by
  have hmerge := @exists_foldlM_mergeAt_iff disk {} (mergeOrder disk includes entry) .nil
  constructor
  · rintro ⟨l, hload⟩
    have hroot : outcomeRoot? (load disk includes entry) = some l.root := by rw [hload]; rfl
    obtain ⟨hdescribed, _, merged, hmerged, _⟩ := h.load_eq_ok.mp hroot
    obtain ⟨htidy, hpairs⟩ := hmerge.mp ⟨merged, hmerged⟩
    exact ⟨fun p hp => ⟨hdescribed p hp, (htidy p hp).1⟩, hpairs⟩
  · rintro ⟨hall, hpairs⟩
    obtain ⟨merged, hmerged⟩ := hmerge.mpr
      ⟨fun p hp => ⟨(hall p hp).2, receives_nil_left _ _⟩, hpairs⟩
    have hroot : outcomeRoot? (load disk includes entry) =
        some (merged.within (entry :: opened [entry] (importsAt disk includes entry))) :=
      h.load_eq_ok.mpr ⟨fun p hp => (hall p hp).1, rfl, merged, hmerged, rfl⟩
    cases hload : load disk includes entry with
    | error e =>
      rw [hload] at hroot
      cases hroot
    | ok l => exact ⟨l, rfl⟩

/-- What such a load leaves behind. -/
theorem Flat.joins_load (h : Flat disk includes entry file) {l : Loading}
    (hload : load disk includes entry = .ok l) :
    Joins [] ((mergeOrder disk includes entry).flatMap (forestAt disk)) l.root.nodes ∧
      Tidy l.root.nodes := by
  have hroot : outcomeRoot? (load disk includes entry) = some l.root := by rw [hload]; rfl
  obtain ⟨_, _, merged, hmerged, hnodes⟩ := h.load_eq_ok.mp hroot
  rw [hnodes]
  exact joins_foldlM_mergeAt .nil hmerged

end Flat

end RpcBindings.Schema

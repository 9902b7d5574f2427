import RpcBindings.Proofs.DepthFirst

/-! # A load merges the import graph depth first

A load does three things at once: it follows imports, it notes what it has done, and it merges
files into one schema that all of them share.  This module takes the three apart.  Without the
notes a load is `loadRoot`, which goes through the imports of a file and then absorbs the file
(`outcomeRoot?_loadInto`).  Without the merging it is a depth-first traversal of the import
graph: the schema it leaves behind is the one that the files give when they are absorbed in the
order in which the traversal closes them, and its files are the paths in the order in which the
traversal opens them (`loadRoot_of_depthFirst`).  Together they say when a load goes through
and what it gives (`load_depthFirst`).
-/
namespace RpcBindings.Schema

open RpcBindings.Disk
open RpcBindings.Proto (File Import Span)

/-! ## Absorbing one file -/

/-- Whether an import is found, or may be missing. -/
def isSettled (disk : Store) (includes : List Path) (importer : Path) (i : Import Span) : Bool :=
  (findImport disk includes importer i.path).isSome ||
    wellKnownPath.toList.isPrefixOf i.path.toList

/-- The file at a path can be read and understood, and its imports are settled. -/
structure Complete (disk : Store) (includes : List Path) (path : Path) : Prop where
  described : (sourceAt disk path).isSome ∨ (documentAt disk path).isSome
  settled : ∀ file, sourceAt disk path = some file →
    ∀ i ∈ file.imports, isSettled disk includes path i = true

namespace Root

/-- Merges the file at a path into a schema: of a source the package is defined and then the
declarations are inserted into it, and a document is merged node by node.  A file that is
neither adds nothing. -/
def mergeAt (disk : Store) (r : Root) (path : Path) : Except DuplicateName Root :=
  match sourceAt disk path, documentAt disk path with
  | some file, _ => do
    let r ← r.define file.package
    r.update file.package fun scope nodes => insertDecls scope nodes file.decls
  | none, some ds => r.mergeDescriptors ds
  | none, none => .ok r

/-- The schema with other files. -/
def within (r : Root) (files : List Path) : Root := { r with files := files }

end Root

/-- Merges the file at a path if it is complete. -/
def absorb (disk : Store) (includes : List Path) (r : Root) (path : Path) : Option Root :=
  match sourceAt disk path, documentAt disk path with
  | some file, _ =>
    if file.imports.all (isSettled disk includes path) then (r.mergeFile file).toOption else none
  | none, some ds => (r.mergeDescriptors ds).toOption
  | none, none => none

section Absorb
variable {disk : Store} {includes : List Path} {path : Path}

theorem mergeAt_source {file : File Span} (h : sourceAt disk path = some file) (r : Root) :
    r.mergeAt disk path = r.mergeFile file := by
  unfold Root.mergeAt
  rw [h, Root.mergeFile_eq]

theorem absorb_source {file : File Span} (h : sourceAt disk path = some file) (r : Root) :
    absorb disk includes r path =
      if file.imports.all (isSettled disk includes path) then (r.mergeFile file).toOption
      else none := by
  unfold absorb
  rw [h]

theorem mergeFile_within (r : Root) (file : File Span) (files : List Path) :
    ((r.within files).mergeFile file).toOption =
      (r.mergeFile file).toOption.map (·.within files) := by
  unfold Root.mergeFile Root.update Root.within
  cases updateScope (fun scope nodes => insertDecls scope nodes file.decls) "" r.nodes
    file.package <;> rfl

theorem mergeDescriptors_within (r : Root) (ds : List Descriptor) (files : List Path) :
    ((r.within files).mergeDescriptors ds).toOption =
      (r.mergeDescriptors ds).toOption.map (·.within files) := by
  unfold Root.mergeDescriptors Root.within
  cases mergeNodes r.nodes (Descriptor.toNodes "" ds) <;> rfl

/-- What a file adds does not depend on the files before it. -/
theorem absorb_within (r : Root) (files : List Path) :
    absorb disk includes (r.within files) path =
      (absorb disk includes r path).map (·.within files) := by
  unfold absorb
  split
  · split
    · exact mergeFile_within r _ files
    · rfl
  · exact mergeDescriptors_within r _ files
  · rfl

theorem foldlM_absorb_within (paths : List Path) (r : Root) (files : List Path) :
    paths.foldlM (absorb disk includes) (r.within files) =
      (paths.foldlM (absorb disk includes) r).map (·.within files) := by
  induction paths generalizing r with
  | nil => rfl
  | cons path rest ih =>
    rw [List.foldlM_cons, List.foldlM_cons, absorb_within]
    cases absorb disk includes r path with
    | none => rfl
    | some r' => exact ih r'

theorem complete_source {file : File Span} (h : sourceAt disk path = some file) :
    Complete disk includes path ↔ file.imports.all (isSettled disk includes path) = true := by
  rw [List.all_eq_true]
  constructor
  · intro hcomplete
    exact hcomplete.settled file h
  · intro hall
    refine ⟨Or.inl (by rw [h]; rfl), fun file' h' => ?_⟩
    rw [h] at h'
    cases h'
    exact hall

/-- A file is absorbed exactly when it is complete and its merge goes through. -/
theorem absorb_eq_some {r r' : Root} :
    absorb disk includes r path = some r' ↔
      Complete disk includes path ∧ r.mergeAt disk path = .ok r' := by
  cases hsource : sourceAt disk path with
  | some file =>
    rw [mergeAt_source hsource, complete_source hsource, absorb_source hsource]
    split
    · next hall => exact toOption_eq_some.trans (and_iff_right hall).symm
    · next hall => exact iff_of_false (fun h => by cases h) fun h => hall h.1
  | none =>
    cases hdocument : documentAt disk path with
    | some ds =>
      have hcomplete : Complete disk includes path := by
        refine ⟨Or.inr (by rw [hdocument]; rfl), fun file h => ?_⟩
        rw [hsource] at h
        cases h
      rw [absorb, Root.mergeAt, hsource, hdocument]
      exact toOption_eq_some.trans (and_iff_right hcomplete).symm
    | none =>
      rw [absorb, hsource, hdocument]
      refine iff_of_false (fun h => by cases h) ?_
      rintro ⟨hcomplete, _⟩
      rcases hcomplete.described with h | h
      · rw [hsource] at h
        cases h
      · rw [hdocument] at h
        cases h

/-- **Files are absorbed one after the other exactly when all of them are complete and every
merge goes through.** -/
theorem foldlM_absorb_eq_some {paths : List Path} {r r' : Root} :
    paths.foldlM (absorb disk includes) r = some r' ↔
      (∀ p ∈ paths, Complete disk includes p) ∧ paths.foldlM (Root.mergeAt disk) r = .ok r' := by
  induction paths generalizing r with
  | nil => simp [pure, Except.pure]
  | cons path rest ih =>
    rw [List.foldlM_cons, List.foldlM_cons, List.forall_mem_cons]
    constructor
    · intro h
      obtain ⟨between, habsorb, hrest⟩ := Option.bind_eq_some_iff.mp h
      obtain ⟨hcomplete, hmerge⟩ := absorb_eq_some.mp habsorb
      obtain ⟨hall, hmerges⟩ := ih.mp hrest
      exact ⟨⟨hcomplete, hall⟩, by rw [hmerge]; exact hmerges⟩
    · rintro ⟨⟨hcomplete, hall⟩, hmerges⟩
      cases hmerge : r.mergeAt disk path with
      | error e =>
        rw [hmerge] at hmerges
        cases hmerges
      | ok between =>
        rw [hmerge] at hmerges
        rw [absorb_eq_some.mpr ⟨hcomplete, hmerge⟩]
        exact ih.mpr ⟨hall, hmerges⟩

end Absorb

/-! ## A load without its notes -/

/-- The schema that a load leaves behind, if it goes through. -/
def outcomeRoot? : Except LoadFailure Loading → Option Root
  | .ok l => some l.root
  | .error _ => none

/-- Visits a file and its imports, through at most `bound` files that are open at once: what a
load does to the schema. -/
def loadRoot (disk : Store) (includes : List Path) : Nat → Root → Path → Option Root
  | 0, _, _ => none
  | bound + 1, r, path =>
    if r.hasFile path then some r
    else do
      let followed ← (importsAt disk includes path).foldlM (loadRoot disk includes bound)
        (r.within (r.files ++ [path]))
      absorb disk includes followed path

section Quiet
variable {disk : Store} {includes : List Path} {path : Path}

/-- Imports that are all settled are followed one after the other, and one that is not ends
the load. -/
theorem outcomeRoot?_imports {load : Loading → Path → Except LoadFailure Loading}
    {visit : Root → Path → Option Root}
    (hload : ∀ l file, outcomeRoot? (load l file) = visit l.root file)
    (imports : List (Import Span)) (l : Loading) :
    outcomeRoot? (imports.foldlM (loadImport disk includes path load) l) =
      if imports.all (isSettled disk includes path) then
        (imports.filterMap fun i => findImport disk includes path i.path).foldlM visit l.root
      else none := by
  induction imports generalizing l with
  | nil => rfl
  | cons i rest ih =>
    rw [List.foldlM_cons, List.all_cons]
    unfold loadImport
    cases hfind : findImport disk includes path i.path with
    | some file =>
      have hsettled : isSettled disk includes path i = true := by rw [isSettled, hfind]; rfl
      rw [hsettled, Bool.true_and, List.filterMap_cons, hfind]
      dsimp only
      rw [List.foldlM_cons, ← hload]
      cases load l file with
      | error e => split <;> rfl
      | ok l' => exact ih l'
    | none =>
      rw [List.filterMap_cons, hfind]
      dsimp only
      cases hknown : wellKnownPath.toList.isPrefixOf i.path.toList with
      | true =>
        have hsettled : isSettled disk includes path i = true := by
          rw [isSettled, hknown, Bool.or_true]
        rw [hsettled, Bool.true_and]
        exact ih (l.log (.importPassedOver i.path))
      | false =>
        have hsettled : isSettled disk includes path i = false := by
          rw [isSettled, hfind, hknown]; rfl
        rw [hsettled]
        rfl

theorem outcomeRoot?_merged (l : Loading) (result : Except DuplicateName Root) :
    outcomeRoot? (l.merged path result) = result.toOption := by
  cases result <;> rfl

/-- A file that is no source is absorbed as soon as it is opened. -/
theorem loadRoot_of_sourceAt_eq_none {bound : Nat} {r : Root} (hnew : r.hasFile path = false)
    (hsource : sourceAt disk path = none) :
    loadRoot disk includes (bound + 1) r path =
      absorb disk includes (r.within (r.files ++ [path])) path := by
  rw [loadRoot, hnew, importsAt, hsource]
  rfl

theorem loadRoot_of_undescribed {bound : Nat} {r : Root} (hnew : r.hasFile path = false)
    (hsource : sourceAt disk path = none) (hdocument : documentAt disk path = none) :
    loadRoot disk includes (bound + 1) r path = none := by
  rw [loadRoot_of_sourceAt_eq_none hnew hsource, absorb, hsource, hdocument]

/-- A document that has been opened is merged at once. -/
theorem outcomeRoot?_document {text : String} (hjson : path.hasExtension "json" = true)
    (hread : disk.readText path = .ok text) (l : Loading) :
    outcomeRoot? (loadDescriptor l path text) = absorb disk includes l.root path := by
  rw [absorb, sourceAt_eq_none hjson, documentAt_of_read hjson hread, loadDescriptor]
  cases Descriptor.parse? text with
  | none => rfl
  | some ds => exact outcomeRoot?_merged _ _

/-- A source is absorbed after its imports. -/
theorem loadRoot_of_sourceAt_eq_some {bound : Nat} {r : Root} {file : File Span}
    (hnew : r.hasFile path = false) (hsource : sourceAt disk path = some file) :
    loadRoot disk includes (bound + 1) r path = (do
      let followed ← (file.imports.filterMap fun i => findImport disk includes path i.path).foldlM
        (loadRoot disk includes bound) (r.within (r.files ++ [path]))
      absorb disk includes followed path) := by
  rw [loadRoot, hnew, importsAt, hsource]
  rfl

/-- A source that has been opened is merged after its imports, if all of them are settled. -/
theorem outcomeRoot?_source {load : Loading → Path → Except LoadFailure Loading}
    {visit : Root → Path → Option Root}
    (hload : ∀ l file, outcomeRoot? (load l file) = visit l.root file) {file : File Span}
    (hsource : sourceAt disk path = some file) (l : Loading) :
    outcomeRoot? (match file.imports.foldlM (loadImport disk includes path load) l with
      | .error e => .error e
      | .ok l => l.merged path (l.root.mergeFile file)) = (do
        let followed ← (file.imports.filterMap fun i =>
          findImport disk includes path i.path).foldlM visit l.root
        absorb disk includes followed path) := by
  have himports := @outcomeRoot?_imports disk includes path load visit hload file.imports l
  cases hall : file.imports.all (isSettled disk includes path) with
  | true =>
    rw [hall, if_pos rfl] at himports
    rw [← himports]
    cases file.imports.foldlM (loadImport disk includes path load) l with
    | error e => rfl
    | ok l' =>
      rw [outcomeRoot?_merged]
      exact (absorb_source hsource l'.root).trans (if_pos hall) |>.symm
  | false =>
    -- the load ends at the import that is not settled, and a file that has one is not absorbed
    rw [hall, if_neg Bool.false_ne_true] at himports
    have hrefused : ∀ r, absorb disk includes r path = none := fun r => by
      rw [absorb_source hsource, hall, if_neg Bool.false_ne_true]
    simp only [hrefused, Option.bind_eq_bind, Option.bind_fun_none]
    cases hfold : file.imports.foldlM (loadImport disk includes path load) l with
    | error e => rfl
    | ok l' =>
      rw [hfold] at himports
      cases himports

/-- **What a load does to the schema does not depend on what it notes.** -/
theorem outcomeRoot?_loadInto (bound : Nat) (l : Loading) (path : Path) :
    outcomeRoot? (loadInto disk includes bound l path) =
      loadRoot disk includes bound l.root path := by
  induction bound generalizing l path with
  | zero => rfl
  | succ bound ih =>
    cases hnew : l.root.hasFile path with
    | true =>
      rw [loadInto, loadRoot, hnew]
      rfl
    | false =>
      rw [loadInto, hnew, if_neg Bool.false_ne_true]
      cases hread : disk.readText path with
      | error cause =>
        obtain ⟨hsource, hdocument⟩ := undescribed_of_unreadable hread
        exact (loadRoot_of_undescribed hnew hsource hdocument).symm
      | ok text =>
        dsimp only
        split
        · next hjson =>
          rw [loadRoot_of_sourceAt_eq_none hnew (sourceAt_eq_none hjson disk)]
          exact outcomeRoot?_document hjson hread ((l.mark path).log (.schemaRead path))
        · next hjson =>
          have hjson : path.hasExtension "json" = false := Bool.eq_false_iff.mpr hjson
          cases hparse : Proto.parse text with
          | error e =>
            have hsource : sourceAt disk path = none := by
              rw [sourceAt_of_read hjson hread, hparse]
              rfl
            exact (loadRoot_of_undescribed hnew hsource (documentAt_eq_none hjson disk)).symm
          | ok file =>
            have hsource := sourceAt_eq_some hjson hread hparse
            rw [loadRoot_of_sourceAt_eq_some hnew hsource]
            exact outcomeRoot?_source ih hsource ((l.mark path).log (.schemaRead path))

end Quiet

/-! ## A load as a traversal -/

theorem hasFile_eq_false_iff {r : Root} {path : Path} :
    r.hasFile path = false ↔ Fresh r.files path := by
  refine ⟨hasFile_eq_false, fun h => ?_⟩
  rw [Root.hasFile, List.any_eq_false]
  intro file hfile
  exact Bool.eq_false_iff.mp (h file hfile)

/-- Only a file that can be read has imports. -/
theorem exists_text_of_importsAt {disk : Store} {includes : List Path} {path : Path}
    (h : importsAt disk includes path ≠ []) : ∃ text, disk.readText path = .ok text := by
  unfold importsAt sourceAt at h
  cases hread : disk.readText path with
  | ok text => exact ⟨text, rfl⟩
  | error cause =>
    rw [hread] at h
    simp [Except.toOption] at h

section Traversal
variable {disk : Store} {includes : List Path}

/-- A path that is met for the first time is visited by absorbing what the traversal closes
behind it and then the file itself. -/
theorem loadRoot_entered {bound : Nat} {r : Root} {path : Path} {between inner : List Path}
    (hnew : Fresh r.files path)
    (hinner : (importsAt disk includes path).foldlM (loadRoot disk includes bound)
        (r.within (r.files ++ [path])) =
      (inner.foldlM (absorb disk includes) (r.within (r.files ++ [path]))).map
        (·.within between)) :
    loadRoot disk includes (bound + 1) r path =
      ((inner ++ [path]).foldlM (absorb disk includes) r).map (·.within between) := by
  rw [loadRoot, hasFile_eq_false_iff.mpr hnew, if_neg Bool.false_ne_true, hinner,
    foldlM_absorb_within, List.foldlM_append]
  cases inner.foldlM (absorb disk includes) r with
  | none => rfl
  | some r' => exact (absorb_within r' between).trans (by simp)

/-- **A load absorbs files in the order in which a depth-first traversal closes them**, and
has the files that the traversal opens. -/
theorem loadRoot_of_depthFirst {seen todo seen' closed : List Path}
    (h : DepthFirst (importsAt disk includes) seen todo seen' closed) {bound : Nat} {r : Root}
    (hfiles : r.files = seen) (hroom : Room disk bound seen) :
    todo.foldlM (loadRoot disk includes bound) r =
      (closed.foldlM (absorb disk includes) r).map (·.within seen') := by
  induction h generalizing bound r with
  | done =>
    subst hfiles
    rfl
  | passed hknown _ ih =>
    obtain ⟨bound, rfl⟩ := Nat.exists_eq_add_one_of_ne_zero hroom.pos.ne'
    subst hfiles
    have hfile := Bool.of_not_eq_false fun hfile => hknown (hasFile_eq_false_iff.mp hfile)
    rw [List.foldlM_cons, loadRoot, if_pos hfile]
    exact ih rfl hroom
  | @entered seen rest between seen' inner outer path hnew hinner _ ihInner ihOuter =>
    obtain ⟨bound, rfl⟩ := Nat.exists_eq_add_one_of_ne_zero hroom.pos.ne'
    subst hfiles
    have hfollowed : (importsAt disk includes path).foldlM (loadRoot disk includes bound)
        (r.within (r.files ++ [path])) =
          (inner.foldlM (absorb disk includes) (r.within (r.files ++ [path]))).map
            (·.within between) := by
      by_cases hnil : importsAt disk includes path = []
      · -- nothing is followed, so no room is needed
        rw [hnil] at hinner ⊢
        cases hinner
        rfl
      · obtain ⟨text, hread⟩ := exists_text_of_importsAt hnil
        exact ihInner rfl (hroom.open hread hnew)
    have hsub : r.files ⊆ between :=
      ((List.prefix_append r.files [path]).trans hinner.seen_prefix).subset
    have hclosed : (inner ++ path :: outer).foldlM (absorb disk includes) r =
        ((inner ++ [path]).foldlM (absorb disk includes) r).bind
          (outer.foldlM (absorb disk includes)) := by
      rw [List.append_cons]
      exact List.foldlM_append
    rw [List.foldlM_cons, loadRoot_entered hnew hfollowed, hclosed]
    cases (inner ++ [path]).foldlM (absorb disk includes) r with
    | none => rfl
    | some r' =>
      have hrest : rest.foldlM (loadRoot disk includes (bound + 1)) (r'.within between) =
          (outer.foldlM (absorb disk includes) (r'.within between)).map (·.within seen') :=
        ihOuter rfl (hroom.mono hsub)
      rw [foldlM_absorb_within, Option.map_map] at hrest
      exact hrest

/-- What the load of an entry file leaves behind, in terms of the traversal from it. -/
theorem outcomeRoot?_load {entry : Path} {preorder postorder : List Path}
    (h : DepthFirst (importsAt disk includes) [] [entry] preorder postorder) :
    outcomeRoot? (load disk includes entry) =
      (postorder.foldlM (absorb disk includes) {}).map (·.within preorder) := by
  have hvisit : [entry].foldlM (loadRoot disk includes pathBound) {} =
      (postorder.foldlM (absorb disk includes) {}).map (·.within preorder) :=
    loadRoot_of_depthFirst h rfl (room_start disk)
  rw [List.foldlM_cons] at hvisit
  simp only [List.foldlM_nil, bind_pure] at hvisit
  exact (outcomeRoot?_loadInto pathBound {} entry).trans hvisit

/-- A load gives a schema exactly when the files of the traversal are complete and can be
merged, and then it is the schema of that merge. -/
theorem outcomeRoot?_load_eq_some {entry : Path} {preorder postorder : List Path}
    (h : DepthFirst (importsAt disk includes) [] [entry] preorder postorder) {root : Root} :
    outcomeRoot? (load disk includes entry) = some root ↔
      (∀ p ∈ preorder, Complete disk includes p) ∧ root.files = preorder ∧
        ∃ merged, postorder.foldlM (Root.mergeAt disk) {} = .ok merged ∧
          root.nodes = merged.nodes := by
  have hmem : ∀ p, p ∈ preorder ↔ p ∈ postorder := fun p => h.perm.mem_iff
  rw [outcomeRoot?_load h, Option.map_eq_some_iff]
  simp only [foldlM_absorb_eq_some, hmem]
  constructor
  · rintro ⟨merged, ⟨hcomplete, hmerge⟩, rfl⟩
    exact ⟨hcomplete, rfl, merged, hmerge, rfl⟩
  · rintro ⟨hcomplete, hfiles, merged, hmerge, hnodes⟩
    refine ⟨merged, ⟨hcomplete, hmerge⟩, ?_⟩
    rw [Root.within, ← hfiles, ← hnodes]

end Traversal

/-- **A load merges the import graph depth first.**  From every entry file, on every disk and
with every list of include directories, there is exactly one depth-first traversal along the
imports that are found.  The load goes through exactly when every file of the traversal can be
read and understood, every import of it is found or may be missing, and the files can be merged
into an empty schema one after the other, in the order in which the traversal closes them.  The
schema then holds what that merge gives, and its files are the paths of the traversal, each
once and in the order of opening, the entry file first. -/
theorem load_depthFirst (disk : Store) (includes : List Path) (entry : Path) :
    ∃ preorder postorder,
      DepthFirst (importsAt disk includes) [] [entry] preorder postorder ∧
      (∀ opened closed, DepthFirst (importsAt disk includes) [] [entry] opened closed →
        opened = preorder ∧ closed = postorder) ∧
      preorder.head? = some entry ∧ preorder.Pairwise Differ ∧
      ∀ root, (∃ events, load disk includes entry = .ok ⟨root, events⟩) ↔
        (∀ p ∈ preorder, Complete disk includes p) ∧ root.files = preorder ∧
          ∃ merged, postorder.foldlM (Root.mergeAt disk) {} = .ok merged ∧
            root.nodes = merged.nodes := by
  obtain ⟨preorder, postorder, h⟩ := exists_depthFirst
    (fun _ => exists_text_of_importsAt) (room_start disk) [entry]
  refine ⟨preorder, postorder, h, fun _ _ h' => h.unique h', h.head?_eq,
    h.distinct List.Pairwise.nil, fun root => ?_⟩
  rw [← outcomeRoot?_load_eq_some h]
  constructor
  · rintro ⟨events, hload⟩
    rw [hload]
    rfl
  · intro hroot
    cases hload : load disk includes entry with
    | error e =>
      rw [hload] at hroot
      cases hroot
    | ok l =>
      rw [hload] at hroot
      cases hroot
      exact ⟨l.events, rfl⟩

end RpcBindings.Schema

import Mathlib.Data.Set.Card
import RpcBindings.Proofs.LoadOrder

/-! # Loads end

Imports may lead back to a file that is still open, and nothing in the recursion through them gets
smaller but the set of files that are left to be opened.  That set is finite, for the system takes
no path that is too long (`finite_reachable`).  A visit that is not stopped at its start opens a
file of it, and no visit closes what has been opened for good (`files_loadInto`), so every visit
that is made in between starts with fewer files left (`Calls.left_lt`).

The bound of the recursion is therefore never reached when it is larger than the number of files
that the entry file leads to, and its value has no influence then (`loadInto_eq_of_le`).
-/
namespace RpcBindings.Schema

open RpcBindings.Disk
open RpcBindings.Proto (File Import Span)

/-! ## What is left to be opened -/

section Left
variable (disk : Store) (includes : List Path) (entry : Path)

/-- The paths that the entry file leads to.  A path is told by its components, so spellings that
share them count once. -/
def reachable : Set (List String) :=
  {cs | ∃ p, Reaches disk includes entry p ∧ p.components = cs}

/-- The paths that the entry file leads to and that are not among the files of the schema. -/
def unopened (r : Root) : Set (List String) :=
  {cs | cs ∈ reachable disk includes entry ∧ ∀ file ∈ r.files, Path.components file ≠ cs}

/-- How many paths the entry file leads to that are not among the files of the schema. -/
noncomputable def left (r : Root) : Nat := (unopened disk includes entry r).ncard

end Left

/-- Paths that the system takes are finitely many, and fewer than the bound of a load. -/
theorem finite_of_byteLength_le {paths : Set Path}
    (h : ∀ p ∈ paths, Text.byteLength p.toList ≤ Store.maxPathBytes) :
    paths.Finite ∧ paths.ncard < pathBound := by
  -- the bound is not to be computed, so the length of paths is forgotten first
  unfold pathBound
  generalize Store.maxPathBytes = n at h ⊢
  have hfinite : paths.Finite := by
    have hnumbers : (Set.image Text.number paths).Finite := by
      refine (Set.finite_lt_nat (256 ^ (n + 1))).subset ?_
      rintro _ ⟨p, hp, rfl⟩
      exact Text.number_lt (h p hp)
    exact hnumbers.of_finite_image Text.number_injective.injOn
  refine ⟨hfinite, ?_⟩
  rw [Set.ncard_eq_toFinset_card paths hfinite, ← Finset.length_toList]
  refine Text.length_lt_of_byteLength_le (Finset.nodup_toList _) fun p hp => h p ?_
  rwa [Finset.mem_toList, Set.Finite.mem_toFinset] at hp

section Reach
variable {disk : Store} {includes : List Path} {entry : Path}

/-- The paths that the entry file leads to are finitely many, and fewer than the bound of a
load. -/
theorem finite_reaches : {p | Reaches disk includes entry p}.Finite ∧
    {p | Reaches disk includes entry p}.ncard < pathBound := by
  by_cases hnil : importsAt disk includes entry = []
  · -- nothing is followed, however long the path of the entry file may be
    have honly : {p | Reaches disk includes entry p} = {entry} := by
      refine Set.eq_singleton_iff_unique_mem.mpr ⟨.entry, fun p hp => ?_⟩
      induction hp with
      | entry => rfl
      | followed _ himport ih =>
        rw [ih, hnil] at himport
        cases himport
    have hone : ({""} : Set Path).ncard < pathBound := by
      refine (finite_of_byteLength_le fun p hp => ?_).2
      rw [Set.mem_singleton_iff.mp hp]
      exact Nat.zero_le _
    rw [Set.ncard_singleton] at hone
    rw [honly, Set.ncard_singleton]
    exact ⟨Set.finite_singleton entry, hone⟩
  · obtain ⟨text, hread⟩ := exists_text_of_importsAt hnil
    refine finite_of_byteLength_le fun p hp => ?_
    cases hp with
    | entry => exact byteLength_le_of_readText hread
    | followed _ himport => exact byteLength_le_of_isFile (isFile_of_mem_importsAt himport)

variable (disk includes entry) in
/-- **Only finitely many paths are reachable from an entry file.** -/
theorem finite_reachable : (reachable disk includes entry).Finite :=
  finite_reaches.1.image _

theorem ncard_reachable_lt : (reachable disk includes entry).ncard < pathBound :=
  (Set.ncard_image_le finite_reaches.1).trans_lt finite_reaches.2

theorem finite_unopened (r : Root) : (unopened disk includes entry r).Finite :=
  (finite_reachable disk includes entry).subset fun _ hcs => hcs.1

theorem left_start : left disk includes entry {} = (reachable disk includes entry).ncard := by
  have heq : unopened disk includes entry {} = reachable disk includes entry :=
    Set.ext fun cs => and_iff_left fun file hfile => absurd hfile List.not_mem_nil
  rw [left, heq]

/-- The more files there are in the schema, the fewer are left. -/
theorem left_le_of_subset {r r' : Root} (h : r.files ⊆ r'.files) :
    left disk includes entry r' ≤ left disk includes entry r :=
  Set.ncard_le_ncard (fun _ hcs => ⟨hcs.1, fun file hfile => hcs.2 file (h hfile)⟩)
    (finite_unopened r)

/-- **A file that is opened is one less to be opened.** -/
theorem left_mark_lt {l : Loading} {path : Path} (hreach : Reaches disk includes entry path)
    (hnew : l.root.hasFile path = false) :
    left disk includes entry (l.mark path).root < left disk includes entry l.root := by
  have hmem : path.components ∈ unopened disk includes entry l.root := by
    refine ⟨⟨path, hreach, rfl⟩, fun file hfile heq => ?_⟩
    have hdiffer := hasFile_eq_false hnew file hfile
    rw [Differ, Path.sameComponents, heq, beq_self_eq_true] at hdiffer
    cases hdiffer
  have hopened : path.components ∉ unopened disk includes entry (l.mark path).root := fun hcs =>
    hcs.2 path (List.mem_append_right _ (List.mem_singleton.mpr rfl)) rfl
  have hsubset : unopened disk includes entry (l.mark path).root ⊆
      unopened disk includes entry l.root := fun cs hcs =>
    ⟨hcs.1, fun file hfile => hcs.2 file (List.mem_append_left _ hfile)⟩
  exact Set.ncard_lt_ncard ⟨hsubset, fun hback => hopened (hback hmem)⟩ (finite_unopened l.root)

end Reach

/-! ## One visit -/

/-- The load did not fail because imports nest too deep. -/
def Shallow (e : LoadFailure) : Prop := ∀ path, e.problem ≠ .importsTooDeep path

/-- The visit keeps the files of the schema, and does not fail because imports nest too deep. -/
abbrev Keeps (l : Loading) : Except LoadFailure Loading → Prop :=
  Ends (fun l' => l.root.files <+: l'.root.files) Shallow

section Visit
variable {disk : Store} {includes : List Path} {l : Loading} {path : Path}

theorem loadInto_known (hknown : l.root.hasFile path = true) (bound : Nat) :
    loadInto disk includes (bound + 1) l path = .ok l := by
  rw [loadInto, if_pos hknown]

/-- A source is merged after its imports. -/
theorem loadInto_source {file : File Span} (hnew : l.root.hasFile path = false)
    (hsource : sourceAt disk path = some file) (bound : Nat) :
    loadInto disk includes (bound + 1) l path =
      file.imports.foldlM (loadImport disk includes path (loadInto disk includes bound))
        ((l.mark path).log (.schemaRead path)) >>= fun l' =>
          l'.merged path (l'.root.mergeFile file) := by
  obtain ⟨text, hread⟩ : ∃ text, disk.readText path = .ok text := by
    cases hread : disk.readText path with
    | ok text => exact ⟨text, rfl⟩
    | error cause =>
      rw [(undescribed_of_unreadable hread).1] at hsource
      cases hsource
  cases hjson : path.hasExtension "json" with
  | true =>
    rw [sourceAt_eq_none hjson] at hsource
    cases hsource
  | false =>
    rw [sourceAt_of_read hjson hread, toOption_eq_some] at hsource
    rw [loadInto, hnew, if_neg Bool.false_ne_true, hread]
    dsimp only
    rw [hjson, if_neg Bool.false_ne_true, hsource]
    dsimp only
    cases file.imports.foldlM (loadImport disk includes path (loadInto disk includes bound))
      ((l.mark path).log (.schemaRead path)) <;> rfl

theorem keeps_merged {result : Except DuplicateName Root}
    (h : ∀ r, result = .ok r → r.files = l.root.files) : Keeps l (l.merged path result) := by
  cases result with
  | ok r => exact .ok (h r rfl ▸ List.prefix_refl _)
  | error e => exact .error fun _ he => nomatch he

/-- A file that is no source has no imports, so the bound is not asked for. -/
theorem exists_visit_of_sourceAt_eq_none (hnew : l.root.hasFile path = false)
    (hnone : sourceAt disk path = none) :
    ∃ result, (∀ bound, loadInto disk includes (bound + 1) l path = result) ∧ Keeps l result := by
  have hmark : l.root.files <+: l.root.files ++ [path] := List.prefix_append ..
  simp only [loadInto, hnew, if_neg Bool.false_ne_true]
  cases hread : disk.readText path with
  | error cause => exact ⟨_, fun _ => rfl, .error fun _ he => nomatch he⟩
  | ok text =>
    dsimp only
    cases hjson : path.hasExtension "json" with
    | true =>
      refine ⟨_, fun _ => if_pos rfl, ?_⟩
      unfold loadDescriptor
      split
      · exact .error fun _ he => nomatch he
      · refine (keeps_merged fun r hr => (Root.mergeDescriptors_ok hr).1).imp ?_ fun _ => id
        exact fun _ => hmark.trans
    | false =>
      rw [sourceAt_of_read hjson hread] at hnone
      cases hparse : Proto.parse text with
      | error e => exact ⟨_, fun _ => if_neg Bool.false_ne_true, .error fun _ he => nomatch he⟩
      | ok file =>
        rw [hparse] at hnone
        cases hnone

end Visit

/-! ## Visits keep files -/

section Files
variable {disk : Store} {includes : List Path}

/-- An import keeps what a visit of the file that it stands for keeps. -/
theorem files_imports {load : Loading → Path → Except LoadFailure Loading} {importer : Path}
    (hload : ∀ l file, Ends (fun l' => l.root.files <+: l'.root.files) (fun _ => True) (load l file))
    (imports : List (Import Span)) (l : Loading) :
    Ends (fun l' => l.root.files <+: l'.root.files) (fun _ => True)
      (imports.foldlM (loadImport disk includes importer load) l) := by
  refine ends_foldlM (fun l' hl' i _ => ?_) (List.prefix_refl _)
  unfold loadImport
  split
  · exact (hload l' _).imp (fun _ => hl'.trans) fun _ => id
  · split
    · exact .ok hl'
    · exact .error trivial

/-- **No visit takes a file out of the schema.** -/
theorem files_loadInto (bound : Nat) (l : Loading) (path : Path) :
    Ends (fun l' => l.root.files <+: l'.root.files) (fun _ => True)
      (loadInto disk includes bound l path) := by
  induction bound generalizing l path with
  | zero => exact .error trivial
  | succ bound ih =>
    cases hnew : l.root.hasFile path with
    | true =>
      rw [loadInto_known hnew]
      exact .ok (List.prefix_refl _)
    | false =>
      cases hsource : sourceAt disk path with
      | none =>
        obtain ⟨result, hresult, hkeeps⟩ := @exists_visit_of_sourceAt_eq_none disk includes _ _
          hnew hsource
        rw [hresult]
        exact hkeeps.imp (fun _ => id) fun _ _ => trivial
      | some file =>
        rw [loadInto_source hnew hsource]
        have himports := @files_imports disk includes _ path ih file.imports
          ((l.mark path).log (.schemaRead path))
        cases hfold : file.imports.foldlM
            (loadImport disk includes path (loadInto disk includes bound))
            ((l.mark path).log (.schemaRead path)) with
        | error e => exact .error trivial
        | ok l' =>
          rw [hfold] at himports
          have hsub : l.root.files <+: l'.root.files :=
            (List.prefix_append ..).trans himports.of_ok
          exact (keeps_merged fun r hr => Root.files_mergeFile hr).imp (fun _ => hsub.trans)
            fun _ _ => trivial

end Files

/-! ## The bound -/

section Bound
variable {disk : Store} {includes : List Path} {entry : Path}
variable {opened : List Path} {l : Loading} {path : Path}

/-- What holds while the imports of an open file are followed: fewer files than `bound` are left
to be opened. -/
structure Within (disk : Store) (includes : List Path) (entry : Path) (opened : List Path)
    (bound : Nat) (l : Loading) : Prop where
  sound : Sound disk includes entry opened l
  room : left disk includes entry l.root < bound

theorem within_start {bound : Nat} (h : (reachable disk includes entry).ncard < bound) :
    Within disk includes entry [] bound {} :=
  ⟨sound_start, left_start.trans_lt h⟩

/-- An open file leaves room for one less. -/
theorem Within.opening {bound : Nat} (h : Within disk includes entry opened (bound + 1) l)
    (hreach : Reaches disk includes entry path) (hnew : l.root.hasFile path = false) :
    Within disk includes entry (path :: opened) bound ((l.mark path).log (.schemaRead path)) where
  sound := h.sound.opening hreach hnew
  room := Nat.lt_of_lt_of_le (left_mark_lt hreach hnew) (Nat.le_of_lt_succ h.room)

/-- A visit keeps the room that is left, whatever bound it is made with. -/
theorem Within.visited {bound : Nat} (h : Within disk includes entry opened bound l)
    (hreach : Reaches disk includes entry path) (bound' : Nat) :
    Ends (Within disk includes entry opened bound) (fun _ => True)
      (loadInto disk includes bound' l path) := by
  refine ((sound_loadInto bound' h.sound hreach).and (files_loadInto bound' l path)).imp ?_
    fun _ _ => trivial
  rintro l' ⟨hsound, hfiles⟩
  exact ⟨hsound, Nat.lt_of_le_of_lt (left_le_of_subset hfiles.subset) h.room⟩

theorem Within.passedOver {bound : Nat} (h : Within disk includes entry opened bound l)
    (name : String) :
    Within disk includes entry opened bound (l.log (.importPassedOver name)) :=
  ⟨h.sound.passedOver name, h.room⟩

/-- **A visit with enough room does not fail because imports nest too deep.** -/
theorem shallow_loadInto {bound : Nat} (h : Within disk includes entry opened bound l)
    (hreach : Reaches disk includes entry path) :
    Ends (fun _ => True) Shallow (loadInto disk includes bound l path) := by
  induction bound generalizing opened l path with
  | zero => exact absurd h.room (Nat.not_lt_zero _)
  | succ bound ih =>
    cases hnew : l.root.hasFile path with
    | true =>
      rw [loadInto_known hnew]
      exact .ok trivial
    | false =>
      cases hsource : sourceAt disk path with
      | none =>
        obtain ⟨result, hresult, hkeeps⟩ := @exists_visit_of_sourceAt_eq_none disk includes _ _
          hnew hsource
        rw [hresult]
        exact hkeeps.imp (fun _ _ => trivial) fun _ => id
      | some file =>
        rw [loadInto_source hnew hsource]
        have himports : Ends (Within disk includes entry (path :: opened) bound) Shallow
            (file.imports.foldlM (loadImport disk includes path (loadInto disk includes bound))
              ((l.mark path).log (.schemaRead path))) := by
          refine ends_foldlM (fun l' hl' i hi => ?_) (h.opening hreach hnew)
          unfold loadImport
          split
          · next q hq =>
            have hreach' := hreach.followed (mem_importsAt hsource hi hq)
            exact ((hl'.visited hreach' bound).and (ih hl' hreach')).imp (fun _ => And.left)
              fun _ => And.right
          · split
            · exact .ok (hl'.passedOver i.path)
            · exact .error fun _ he => nomatch he
        cases hfold : file.imports.foldlM
            (loadImport disk includes path (loadInto disk includes bound))
            ((l.mark path).log (.schemaRead path)) with
        | error e =>
          rw [hfold] at himports
          exact .error himports.of_error
        | ok l' =>
          exact (keeps_merged fun r hr => Root.files_mergeFile hr).imp (fun _ _ => trivial)
            fun _ => id

/-- **A visit with enough room ends as it does under every larger bound.** -/
theorem loadInto_eq_of_le {bound bound' : Nat} (h : Within disk includes entry opened bound l)
    (hle : bound ≤ bound') (hreach : Reaches disk includes entry path) :
    loadInto disk includes bound l path = loadInto disk includes bound' l path := by
  induction bound generalizing bound' opened l path with
  | zero => exact absurd h.room (Nat.not_lt_zero _)
  | succ bound ih =>
    obtain ⟨bound', rfl⟩ := Nat.exists_eq_add_one_of_ne_zero (Nat.ne_zero_of_lt hle)
    cases hnew : l.root.hasFile path with
    | true => rw [loadInto_known hnew, loadInto_known hnew]
    | false =>
      cases hsource : sourceAt disk path with
      | none =>
        obtain ⟨result, hresult, -⟩ := @exists_visit_of_sourceAt_eq_none disk includes _ _
          hnew hsource
        rw [hresult, hresult]
      | some file =>
        rw [loadInto_source hnew hsource, loadInto_source hnew hsource]
        -- the imports are followed with room for one less under the smaller bound
        refine congrArg (· >>= _) (foldlM_congr (fun l' hl' i hi => ?_) (h.opening hreach hnew))
        unfold loadImport
        split
        · next q hq =>
          have hreach' := hreach.followed (mem_importsAt hsource hi hq)
          exact ⟨hl'.visited hreach' bound, ih hl' (Nat.le_of_succ_le_succ hle) hreach'⟩
        · split
          · exact ⟨.ok (hl'.passedOver i.path), rfl⟩
          · exact ⟨.error trivial, rfl⟩

end Bound

/-! ## The visits of a load -/

section Visits
variable (disk : Store) (includes : List Path)

/-- A visit of `path` that may have `bound` more files open comes to an import that stands for the
file `path'`, and then the schema is as in `l'`. -/
inductive Calls (bound : Nat) (l : Loading) (path : Path) : Loading → Path → Prop
  | import {file : File Span} {before after : List (Import Span)} {i : Import Span}
      {l' : Loading} {path' : Path} : l.root.hasFile path = false →
      sourceAt disk path = some file → file.imports = before ++ i :: after →
      before.foldlM (loadImport disk includes path (loadInto disk includes bound))
        ((l.mark path).log (.schemaRead path)) = .ok l' →
      findImport disk includes path i.path = some path' → Calls bound l path l' path'

/-- The visits that a load with the bound `start` makes, each with the number of files it may have
open and with the schema it starts from. -/
inductive Visits (entry : Path) (start : Nat) : Nat → Loading → Path → Prop
  | entry : Visits entry start start {} entry
  | called {bound : Nat} {l l' : Loading} {path path' : Path} :
      Visits entry start (bound + 1) l path → Calls disk includes bound l path l' path' →
      Visits entry start bound l' path'

end Visits

section Calls
variable {disk : Store} {includes : List Path} {entry : Path}
variable {l l' : Loading} {path path' : Path} {bound : Nat}

/-- A visit calls for a path that the entry file leads to, too, and the schema is sound then. -/
theorem Calls.sound {opened : List Path} (h : Calls disk includes bound l path l' path')
    (hsound : Sound disk includes entry opened l) (hreach : Reaches disk includes entry path) :
    Sound disk includes entry (path :: opened) l' ∧ Reaches disk includes entry path' := by
  obtain ⟨hnew, hsource, himports, hfold, hfind⟩ := h
  rename_i file before after i
  have hmem : ∀ j ∈ before ++ [i], j ∈ file.imports := by
    intro j hj
    rw [himports, List.append_cons]
    exact List.mem_append_left _ hj
  have hi : i ∈ before ++ [i] := List.mem_append_right _ (List.mem_singleton.mpr rfl)
  refine ⟨?_, hreach.followed (mem_importsAt hsource (hmem i hi) hfind)⟩
  have hends : Ends (Sound disk includes entry (path :: opened)) (Failed disk includes entry)
      (before.foldlM (loadImport disk includes path (loadInto disk includes bound))
        ((l.mark path).log (.schemaRead path))) := by
    refine ends_foldlM (fun l hl j hj => ?_) (hsound.opening hreach hnew)
    exact hl.imported fun q hq => sound_loadInto bound hl (hreach.followed
      (mem_importsAt hsource (hmem j (List.mem_append_left _ hj)) hq))
  rw [hfold] at hends
  exact hends.of_ok

/-- **A visit that a visit makes starts with fewer files left to be opened.** -/
theorem Calls.left_lt (h : Calls disk includes bound l path l' path')
    (hreach : Reaches disk includes entry path) :
    left disk includes entry l'.root < left disk includes entry l.root := by
  obtain ⟨hnew, hsource, himports, hfold, hfind⟩ := h
  rename_i file before after i
  have hfiles := @files_imports disk includes (loadInto disk includes bound) path
    (files_loadInto bound) before ((l.mark path).log (.schemaRead path))
  rw [hfold] at hfiles
  exact Nat.lt_of_le_of_lt (left_le_of_subset hfiles.of_ok.subset) (left_mark_lt hreach hnew)

theorem Visits.sound {start : Nat} (h : Visits disk includes entry start bound l path) :
    ∃ opened, Sound disk includes entry opened l ∧ Reaches disk includes entry path := by
  induction h with
  | entry => exact ⟨[], sound_start, .entry⟩
  | called _ hcalls ih =>
    obtain ⟨opened, hsound, hreach⟩ := ih
    exact ⟨_, hcalls.sound hsound hreach⟩

end Calls

/-- **Loads end, whatever cycles the imports form.**  From every entry file only finitely many paths
are reachable.  At every visit that the load makes, under whatever bound, no two files of the schema
have the same components, neither at its start nor once its file is opened nor at its end.  A visit
that is not stopped because its file is known opens one of the reachable paths that are left, and
every visit that it makes starts with fewer of them left than it has itself.  So no bound above the
number of reachable paths is ever reached, and all of them give the same result as the load. -/
theorem load_ends (disk : Store) (includes : List Path) (entry : Path) :
    (reachable disk includes entry).Finite ∧
    (∀ start bound l path, Visits disk includes entry start bound l path →
      l.root.files.Pairwise Differ ∧
      (l.root.hasFile path = false → (l.mark path).root.files.Pairwise Differ ∧
        left disk includes entry (l.mark path).root < left disk includes entry l.root) ∧
      (∀ inner l' path', Calls disk includes inner l path l' path' →
        left disk includes entry l'.root < left disk includes entry l.root) ∧
      ∀ l', loadInto disk includes bound l path = .ok l' → l'.root.files.Pairwise Differ) ∧
    ∀ bound, (reachable disk includes entry).ncard < bound →
      loadInto disk includes bound {} entry = load disk includes entry ∧
      Ends (fun _ => True) Shallow (loadInto disk includes bound {} entry) := by
  refine ⟨finite_reachable disk includes entry, ?_, ?_⟩
  · intro start bound l path h
    obtain ⟨opened, hsound, hreach⟩ := h.sound
    refine ⟨hsound.distinct, fun hnew => ?_, fun inner l' path' hcalls => hcalls.left_lt hreach,
      ?_⟩
    · exact ⟨(hsound.opening hreach hnew).distinct, left_mark_lt hreach hnew⟩
    · intro l' hl'
      have hends := sound_loadInto bound hsound hreach
      rw [hl'] at hends
      exact hends.of_ok.distinct
  · intro bound hbound
    have hwithin := within_start hbound
    refine ⟨?_, shallow_loadInto hwithin .entry⟩
    rcases Nat.le_total bound pathBound with hle | hle
    · exact loadInto_eq_of_le hwithin hle .entry
    · exact (loadInto_eq_of_le (within_start ncard_reachable_lt) hle .entry).symm

/-- Two files outside the working directory that import each other, and one of them itself. -/
def importCycle : Store :=
  { entries :=
      [(["lib"], .directory),
        (["lib", "a.proto"], .file (.text "import \"b.proto\";")),
        (["lib", "b.proto"], .file (.text "import \"/lib/a.proto\"; import \"b.proto\";"))]
    workingDirectory := ["work"] }

example : (loadInto importCycle [] 3 {} "/lib/a.proto").toOption.map (·.root.files) =
    some ["/lib/a.proto", "/lib/b.proto"] := by
  decide +kernel

end RpcBindings.Schema

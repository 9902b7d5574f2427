import RpcBindings.Proofs.Merge
import RpcBindings.Proofs.Resolution
import RpcBindings.Proofs.Runs
import RpcBindings.Schema.Load

/-! # What holds during a load

A load goes into the imports of a file while the file is open and merges it when they are
done.  `Sound` is what holds between any two steps: the files that have been read are the
files of the schema, no two of them have the same components, and what the schema holds comes
from the files that are no longer open.  One visit of a file preserves it (`sound_loadInto`),
and a visit that fails leaves a trace of the same kind behind (`Failed`).
-/
namespace RpcBindings.Schema

open RpcBindings.Disk
open RpcBindings.Proto (File Import Span)

/-! ## Files on disk -/

/-- The declarations of the source at a path, if it is one and can be read. -/
def sourceAt (disk : Store) (path : Path) : Option (File Span) :=
  if path.hasExtension "json" then none
  else (disk.readText path).toOption.bind fun text => (Proto.parse text).toOption

/-- The nodes of the JSON document at a path, if it is one and can be read. -/
def documentAt (disk : Store) (path : Path) : Option (List Descriptor) :=
  if path.hasExtension "json" then (disk.readText path).toOption.bind Descriptor.parse?
  else none

/-- The forest that the file at a path describes; a file that is refused describes nothing. -/
def forestAt (disk : Store) (path : Path) : List Node :=
  match sourceAt disk path with
  | some file => sourceForest file
  | none => ((documentAt disk path).map (Descriptor.toNodes "")).getD []

theorem sourceAt_of_read {disk : Store} {path : Path} {text : String}
    (hjson : path.hasExtension "json" = false) (hread : disk.readText path = .ok text) :
    sourceAt disk path = (Proto.parse text).toOption := by
  rw [sourceAt, hjson, hread, if_neg Bool.false_ne_true]
  rfl

theorem sourceAt_eq_some {disk : Store} {path : Path} {text : String} {file : File Span}
    (hjson : path.hasExtension "json" = false) (hread : disk.readText path = .ok text)
    (hparse : Proto.parse text = .ok file) : sourceAt disk path = some file := by
  rw [sourceAt_of_read hjson hread, hparse]
  rfl

theorem sourceAt_eq_none {path : Path} (hjson : path.hasExtension "json" = true)
    (disk : Store) : sourceAt disk path = none := by
  rw [sourceAt, if_pos hjson]

theorem documentAt_of_read {disk : Store} {path : Path} {text : String}
    (hjson : path.hasExtension "json" = true) (hread : disk.readText path = .ok text) :
    documentAt disk path = Descriptor.parse? text := by
  rw [documentAt, if_pos hjson, hread]
  rfl

theorem documentAt_eq_none {path : Path} (hjson : path.hasExtension "json" = false)
    (disk : Store) : documentAt disk path = none := by
  rw [documentAt, hjson, if_neg Bool.false_ne_true]

/-- A file that cannot be read describes nothing. -/
theorem undescribed_of_unreadable {disk : Store} {path : Path} {cause : Fault}
    (hread : disk.readText path = .error cause) :
    sourceAt disk path = none ∧ documentAt disk path = none := by
  rw [sourceAt, documentAt, hread]
  constructor
  · split <;> rfl
  · split <;> rfl

theorem forestAt_source {disk : Store} {path : Path} {file : File Span}
    (h : sourceAt disk path = some file) : forestAt disk path = sourceForest file := by
  rw [forestAt, h]

theorem forestAt_document {disk : Store} {path : Path} {text : String} {ds : List Descriptor}
    (hjson : path.hasExtension "json" = true) (hread : disk.readText path = .ok text)
    (hparse : Descriptor.parse? text = some ds) :
    forestAt disk path = Descriptor.toNodes "" ds := by
  rw [forestAt, sourceAt_eq_none hjson, documentAt_of_read hjson hread, hparse]
  rfl

/-- The paths that the imports of a file stand for. -/
def importsAt (disk : Store) (includes : List Path) (importer : Path) : List Path :=
  match sourceAt disk importer with
  | some file => file.imports.filterMap fun i => findImport disk includes importer i.path
  | none => []

theorem mem_importsAt {disk : Store} {includes : List Path} {importer path : Path}
    {file : File Span} {i : Import Span} (hsource : sourceAt disk importer = some file)
    (hi : i ∈ file.imports) (hfind : findImport disk includes importer i.path = some path) :
    path ∈ importsAt disk includes importer := by
  rw [importsAt, hsource]
  exact List.mem_filterMap.mpr ⟨i, hi, hfind⟩

theorem isFile_of_mem_importsAt {disk : Store} {includes : List Path} {importer path : Path}
    (h : path ∈ importsAt disk includes importer) : disk.isFile path = true := by
  unfold importsAt at h
  split at h
  · obtain ⟨i, _, hfind⟩ := List.mem_filterMap.mp h
    exact List.find?_some hfind
  · cases h

/-- The paths that the entry file leads to, in the spellings that its imports give them. -/
inductive Reaches (disk : Store) (includes : List Path) (entry : Path) : Path → Prop
  | entry : Reaches disk includes entry entry
  | followed {importer path : Path} : Reaches disk includes entry importer →
      path ∈ importsAt disk includes importer → Reaches disk includes entry path

/-- Paths that hold the entry file and are closed under imports hold everything it leads
to. -/
theorem Reaches.mem_of_closed {disk : Store} {includes : List Path} {entry path : Path}
    {paths : List Path} (h : Reaches disk includes entry path) (hentry : entry ∈ paths)
    (hclosed : ∀ p ∈ paths, ∀ q ∈ importsAt disk includes p, q ∈ paths) : path ∈ paths := by
  induction h with
  | entry => exact hentry
  | followed _ himport ih => exact hclosed _ ih _ himport

/-- The file of an event that tells that a file was read. -/
def readFile? : Event → Option Path
  | .schemaRead file => some file
  | _ => none

/-- The files that were read, in order. -/
def reads (events : List Event) : List Path :=
  events.filterMap readFile?

theorem reads_concat_read (events : List Event) (path : Path) :
    reads (events ++ [.schemaRead path]) = reads events ++ [path] := by
  rw [reads, List.filterMap_append]
  rfl

theorem reads_concat_passed (events : List Event) (path : String) :
    reads (events ++ [.importPassedOver path]) = reads events := by
  rw [reads, List.filterMap_append]
  exact List.append_nil _

/-- The two paths have different components. -/
def Differ (p q : Path) : Prop := Path.sameComponents p q = false

instance : Std.Symm Differ where
  symm p q h := by
    rw [Differ, Path.sameComponents, Bool.eq_false_iff] at h ⊢
    intro he
    exact h (beq_iff_eq.mpr (eq_of_beq he).symm)

theorem Differ.ne {p q : Path} (h : Differ p q) : p ≠ q := by
  rintro rfl
  rw [Differ, Path.sameComponents, beq_self_eq_true] at h
  cases h

theorem hasFile_eq_false {r : Root} {path : Path} (h : r.hasFile path = false) :
    ∀ file ∈ r.files, Differ file path := by
  intro file hfile
  rw [Root.hasFile, List.any_eq_false] at h
  exact Bool.eq_false_iff.mpr (h file hfile)

/-! ## The invariant -/

section Sound
variable (disk : Store) (includes : List Path) (entry : Path)

/-- What holds of a schema that is being loaded while the files `opened` are open. -/
structure Sound (opened : List Path) (l : Loading) : Prop where
  reads_eq : reads l.events = l.root.files
  distinct : l.root.files.Pairwise Differ
  reached : ∀ p ∈ l.root.files, Reaches disk includes entry p
  opened_mem : ∀ p ∈ opened, p ∈ l.root.files
  placed : ∀ a ∈ placedAll l.root.nodes,
    ∃ p ∈ l.root.files, p ∉ opened ∧ a ∈ placedAll (forestAt disk p)

/-- The forest of a file clashes with itself or with what other files have put into the
schema. -/
def Collides (files : List Path) (path : Path) : Prop :=
  ∃ nodes, (∀ a ∈ placedAll nodes, ∃ p ∈ files, p ≠ path ∧ a ∈ placedAll (forestAt disk p)) ∧
    ¬ (Apart (forestAt disk path) nodes ∧ Consistent (forestAt disk path))

/-- What holds of a load that has failed. -/
structure Failed (e : LoadFailure) : Prop where
  distinct : (reads e.events).Pairwise Differ
  reached : ∀ p ∈ reads e.events, Reaches disk includes entry p
  duplicate : ∀ path name, e.problem = .duplicateName path name →
    path ∈ reads e.events ∧ Collides disk (reads e.events) path

end Sound

section Steps
variable {disk : Store} {includes : List Path} {entry : Path}
variable {opened : List Path} {l : Loading} {path : Path}

theorem sound_start : Sound disk includes entry [] {} where
  reads_eq := rfl
  distinct := List.Pairwise.nil
  reached := fun _ hp => absurd hp List.not_mem_nil
  opened_mem := fun _ hp => absurd hp List.not_mem_nil
  placed := fun _ ha => absurd ha List.not_mem_nil

/-- A problem that is no duplicate name leaves nothing to say about names. -/
theorem Sound.fail {P : Loading → Prop} (h : Sound disk includes entry opened l)
    {problem : Problem} (hproblem : ∀ path name, problem ≠ .duplicateName path name) :
    Ends P (Failed disk includes entry) (l.fail problem) :=
  .error
    { distinct := h.reads_eq ▸ h.distinct
      reached := h.reads_eq ▸ h.reached
      duplicate := fun path name he => absurd he (hproblem path name) }

/-- A file that is not in the schema is opened and read. -/
theorem Sound.opening (h : Sound disk includes entry opened l)
    (hreach : Reaches disk includes entry path) (hnew : l.root.hasFile path = false) :
    Sound disk includes entry (path :: opened) ((l.mark path).log (.schemaRead path)) where
  reads_eq := by
    rw [Loading.log, reads_concat_read]
    exact congrArg (· ++ [path]) h.reads_eq
  distinct := by
    refine List.pairwise_append.mpr ⟨h.distinct, List.pairwise_singleton _ _, ?_⟩
    intro p hp q hq
    rw [List.mem_singleton.mp hq]
    exact hasFile_eq_false hnew p hp
  reached := by
    intro p hp
    rcases List.mem_append.mp hp with hp | hp
    · exact h.reached p hp
    · rwa [List.mem_singleton.mp hp]
  opened_mem := by
    intro p hp
    rcases List.mem_cons.mp hp with rfl | hp
    · exact List.mem_append_right _ (List.mem_singleton.mpr rfl)
    · exact List.mem_append_left _ (h.opened_mem p hp)
  placed := by
    intro a ha
    obtain ⟨p, hp, hopen, hforest⟩ := h.placed a ha
    refine ⟨p, List.mem_append_left _ hp, ?_, hforest⟩
    intro hc
    rcases List.mem_cons.mp hc with rfl | hc
    · exact (hasFile_eq_false hnew p hp).ne rfl
    · exact hopen hc

theorem Sound.passedOver (h : Sound disk includes entry opened l) (name : String) :
    Sound disk includes entry opened (l.log (.importPassedOver name)) where
  reads_eq := by
    rw [Loading.log, reads_concat_passed]
    exact h.reads_eq
  distinct := h.distinct
  reached := h.reached
  opened_mem := h.opened_mem
  placed := h.placed

/-- A merge of an open file closes it, and fails only when its forest collides. -/
theorem Sound.merged (h : Sound disk includes entry (path :: opened) l) (hclosed : path ∉ opened)
    {result : Except DuplicateName Root}
    (hok : ∀ r, result = .ok r → r.files = l.root.files ∧ ∀ a ∈ placedAll r.nodes,
      a ∈ placedAll l.root.nodes ∨ a ∈ placedAll (forestAt disk path))
    (hapart : Apart (forestAt disk path) l.root.nodes → Consistent (forestAt disk path) →
      ∃ r, result = .ok r) :
    Ends (Sound disk includes entry opened) (Failed disk includes entry)
      (l.merged path result) := by
  have hmem : path ∈ l.root.files := h.opened_mem path (List.mem_cons_self ..)
  have hother : ∀ a ∈ placedAll l.root.nodes,
      ∃ p ∈ l.root.files, p ∉ path :: opened ∧ a ∈ placedAll (forestAt disk p) := h.placed
  cases hresult : result with
  | ok r =>
    obtain ⟨hfiles, hplaced⟩ := hok r hresult
    exact .ok
      { reads_eq := hfiles ▸ h.reads_eq
        distinct := hfiles ▸ h.distinct
        reached := hfiles ▸ h.reached
        opened_mem := fun p hp => hfiles ▸ h.opened_mem p (List.mem_cons_of_mem _ hp)
        placed := by
          intro a ha
          rw [hfiles]
          rcases hplaced a ha with ha | ha
          · obtain ⟨p, hp, hopen, hforest⟩ := hother a ha
            exact ⟨p, hp, fun hc => hopen (List.mem_cons_of_mem _ hc), hforest⟩
          · exact ⟨path, hmem, hclosed, ha⟩ }
  | error e =>
    -- the merge failed, so what is in the schema cannot have been apart from the file
    refine .error ⟨h.reads_eq ▸ h.distinct, h.reads_eq ▸ h.reached, ?_⟩
    rintro p name he
    cases he
    rw [show reads _ = l.root.files from h.reads_eq]
    refine ⟨hmem, l.root.nodes, ?_, ?_⟩
    · intro a ha
      obtain ⟨p, hp, hopen, hforest⟩ := hother a ha
      exact ⟨p, hp, fun hc => hopen (hc ▸ List.mem_cons_self ..), hforest⟩
    · rintro ⟨hforest, hself⟩
      obtain ⟨r, hr⟩ := hapart hforest hself
      rw [hresult] at hr
      cases hr

/-- An import preserves what a visit of the file it stands for preserves. -/
theorem Sound.imported {load : Loading → Path → Except LoadFailure Loading} {importer : Path}
    {i : Import Span} (h : Sound disk includes entry opened l)
    (hload : ∀ file, findImport disk includes importer i.path = some file →
      Ends (Sound disk includes entry opened) (Failed disk includes entry) (load l file)) :
    Ends (Sound disk includes entry opened) (Failed disk includes entry)
      (loadImport disk includes importer load l i) := by
  unfold loadImport
  split
  · next file hfile => exact hload file hfile
  · split
    · exact .ok (h.passedOver i.path)
    · exact h.fail fun _ _ he => nomatch he

/-- The merge of a JSON document that has been opened. -/
theorem Sound.document {text : String} (h : Sound disk includes entry (path :: opened) l)
    (hclosed : path ∉ opened) (hjson : path.hasExtension "json" = true)
    (hread : disk.readText path = .ok text) :
    Ends (Sound disk includes entry opened) (Failed disk includes entry)
      (loadDescriptor l path text) := by
  unfold loadDescriptor
  split
  · exact h.fail fun _ _ he => nomatch he
  · next ds hparse =>
    have hforest := forestAt_document hjson hread hparse
    refine h.merged hclosed ?_ ?_
    · intro r hr
      obtain ⟨hfiles, hnodes⟩ := Root.mergeDescriptors_ok hr
      rw [hforest]
      exact ⟨hfiles, placed_mergeNodes hnodes⟩
    · rw [hforest]
      exact Root.mergeDescriptors_of_apart

/-- The merge of a source that has been opened, once its imports are done. -/
theorem Sound.source {file : File Span} (h : Sound disk includes entry (path :: opened) l)
    (hclosed : path ∉ opened) (hsource : sourceAt disk path = some file) :
    Ends (Sound disk includes entry opened) (Failed disk includes entry)
      (l.merged path (l.root.mergeFile file)) := by
  have hforest := forestAt_source hsource
  refine h.merged hclosed ?_ ?_
  · intro r hr
    rw [hforest]
    exact ⟨Root.files_mergeFile hr, fun _ => Root.placed_mergeFile hr⟩
  · rw [hforest]
    exact Root.mergeFile_of_apart

/-- **A visit of a file preserves the invariant**, however deep its imports nest. -/
theorem sound_loadInto (bound : Nat) (h : Sound disk includes entry opened l)
    (hreach : Reaches disk includes entry path) :
    Ends (Sound disk includes entry opened) (Failed disk includes entry)
      (loadInto disk includes bound l path) := by
  induction bound generalizing opened l path with
  | zero => exact h.fail fun _ _ he => nomatch he
  | succ bound ih =>
    rw [loadInto]
    split
    · exact .ok h
    · next hnew =>
      have hnew : l.root.hasFile path = false := Bool.eq_false_iff.mpr hnew
      -- a new file is not open, since the open files are all in the schema
      have hclosed : path ∉ opened := fun hc =>
        (hasFile_eq_false hnew path (h.opened_mem path hc)).ne rfl
      split
      · exact h.fail fun _ _ he => nomatch he
      · next text hread =>
        have hopen := h.opening hreach hnew
        split
        · next hjson => exact hopen.document hclosed hjson hread
        · next hjson =>
          have hjson : path.hasExtension "json" = false := Bool.eq_false_iff.mpr hjson
          split
          · exact hopen.fail fun _ _ he => nomatch he
          · next file hparse =>
            have hsource := sourceAt_eq_some hjson hread hparse
            have himports : Ends (Sound disk includes entry (path :: opened))
                (Failed disk includes entry)
                (file.imports.foldlM (loadImport disk includes path (loadInto disk includes bound))
                  ((l.mark path).log (.schemaRead path))) := by
              -- the file stays open while its imports are visited with a smaller bound
              refine ends_foldlM ?_ hopen
              intro l hl i hi
              exact hl.imported fun q hq => ih hl (.followed hreach (mem_importsAt hsource hi hq))
            dsimp only
            split
            · next e he =>
              rw [he] at himports
              exact .error himports.of_error
            · next l' hl' =>
              rw [hl'] at himports
              exact himports.of_ok.source hclosed hsource

end Steps

/-- **Every load ends in a state or a failure of this kind.** -/
theorem sound_load (disk : Store) (includes : List Path) (entry : Path) :
    Ends (Sound disk includes entry []) (Failed disk includes entry)
      (load disk includes entry) := by
  rw [load]
  exact sound_loadInto _ sound_start .entry

/-- Every schema that `loadAll` gives is a load of one of the entry files, resolved. -/
theorem exists_load_of_mem {disk : Store} {includes : List Path} {entries : List Path}
    {roots : List Root} {events : List Event}
    (h : loadAll disk includes entries = .ok (roots, events)) {r : Root} (hr : r ∈ roots) :
    ∃ entry ∈ entries, ∃ l, load disk includes entry = .ok l ∧ l.root.resolve = r := by
  induction entries generalizing roots events with
  | nil =>
    cases h
    cases hr
  | cons entry rest ih =>
    unfold loadAll at h
    split at h
    · cases h
    · next l hload =>
      rw [l.root.resolveAll_eq] at h
      dsimp only at h
      split at h
      · cases h
      · next roots' later hrest =>
        cases h
        rcases List.mem_cons.mp hr with rfl | hr
        · exact ⟨entry, List.mem_cons_self .., l, hload, rfl⟩
        · obtain ⟨entry', hmem, hload'⟩ := ih hrest hr
          exact ⟨entry', List.mem_cons_of_mem _ hmem, hload'⟩

end RpcBindings.Schema

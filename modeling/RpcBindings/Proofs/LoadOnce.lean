import Mathlib.Data.List.Nodup
import Mathlib.Data.List.Pairwise
import RpcBindings.Proofs.LoadRuns

/-! # Loading a file once

A schema holds a file once when a file that is reached again is passed over.  What is
compared is the components of the paths, and these keep `..` and a leading `.` as they are
written; what is read is the file that the disk finds at the path.  The two agree exactly as
long as the imports spell every file alike, and then a load fails on a name only if the files
themselves declare it twice (`loadsOnce_iff`).  Two importers in different directories are
enough to break this: `rereads_shared_import`.
-/
namespace RpcBindings.Schema

open RpcBindings.Disk

/-- What was done, whether the load went through or not. -/
def outcomeEvents : Except LoadFailure Loading → List Event
  | .ok l => l.events
  | .error e => e.events

/-- Why the load failed, if it did. -/
def outcomeProblem? : Except LoadFailure Loading → Option Problem
  | .ok _ => none
  | .error e => some e.problem

/-- The files that a load reads, in order. -/
def filesRead (disk : Store) (includes : List Path) (entry : Path) : List Path :=
  reads (outcomeEvents (load disk includes entry))

section LoadOnce
variable (disk : Store) (includes : List Path) (entry : Path)

/-- No name is declared twice in the files that the entry file leads to: neither within a
file nor in two files that are different on disk.  Only a package can be named again, and
then as a package. -/
structure NamesOnce : Prop where
  within : ∀ p, Reaches disk includes entry p → Consistent (forestAt disk p)
  across : ∀ p q, Reaches disk includes entry p → Reaches disk includes entry q →
    disk.locate p ≠ disk.locate q → Apart (forestAt disk p) (forestAt disk q)

/-- No file on disk is read twice, and the load fails on a name only if the files declare it
twice. -/
structure LoadsOnce : Prop where
  nodup : ((filesRead disk includes entry).map disk.locate).Nodup
  names : NamesOnce disk includes entry → ∀ path name,
    outcomeProblem? (load disk includes entry) ≠ some (.duplicateName path name)

/-- The paths that are read spell each file with one list of components. -/
def SpelledAlike : Prop :=
  ∀ p ∈ filesRead disk includes entry, ∀ q ∈ filesRead disk includes entry,
    disk.locate p = disk.locate q → Path.sameComponents p q = true

theorem filesRead_sound :
    (filesRead disk includes entry).Pairwise Differ ∧
      ∀ p ∈ filesRead disk includes entry, Reaches disk includes entry p := by
  have hends := sound_load disk includes entry
  rw [filesRead]
  cases hload : load disk includes entry with
  | ok l =>
    rw [hload] at hends
    have hsound := hends.of_ok
    rw [outcomeEvents, hsound.reads_eq]
    exact ⟨hsound.distinct, hsound.reached⟩
  | error e =>
    rw [hload] at hends
    exact ⟨hends.of_error.distinct, hends.of_error.reached⟩

variable {disk includes entry}

/-- Two paths that are both read lead to different files, unless they are the same path. -/
theorem SpelledAlike.locate_ne (h : SpelledAlike disk includes entry) {p q : Path}
    (hp : p ∈ filesRead disk includes entry) (hq : q ∈ filesRead disk includes entry)
    (hdiffer : Differ p q) : disk.locate p ≠ disk.locate q := by
  intro hlocate
  rw [Differ, h p hp q hq hlocate] at hdiffer
  cases hdiffer

theorem SpelledAlike.nodup (h : SpelledAlike disk includes entry) :
    ((filesRead disk includes entry).map disk.locate).Nodup := by
  refine List.pairwise_map.mpr ?_
  exact (filesRead_sound disk includes entry).1.imp_of_mem fun hp hq => h.locate_ne hp hq

/-- A file that collides with the other files, each spelled once, declares a name twice. -/
theorem Collides.not_namesOnce {path : Path} (h : SpelledAlike disk includes entry)
    (hpath : path ∈ filesRead disk includes entry)
    (hcollides : Collides disk (filesRead disk includes entry) path) :
    ¬ NamesOnce disk includes entry := by
  intro hnames
  obtain ⟨hdistinct, hreached⟩ := filesRead_sound disk includes entry
  obtain ⟨nodes, hnodes, hclash⟩ := hcollides
  refine hclash ⟨?_, hnames.within path (hreached path hpath)⟩
  -- what the file meets comes from another path, hence from another file
  intro a ha b hb
  obtain ⟨p, hp, hne, hforest⟩ := hnodes b hb
  have hdiffer : Differ path p := hdistinct.forall hpath hp hne.symm
  have hlocate := h.locate_ne hpath hp hdiffer
  exact hnames.across path p (hreached path hpath) (hreached p hp) hlocate a ha b hforest

theorem SpelledAlike.names (h : SpelledAlike disk includes entry)
    (hnames : NamesOnce disk includes entry) (path : Path) (name : String) :
    outcomeProblem? (load disk includes entry) ≠ some (.duplicateName path name) := by
  intro hproblem
  have hends := sound_load disk includes entry
  cases hload : load disk includes entry with
  | ok l =>
    rw [hload] at hproblem
    cases hproblem
  | error e =>
    rw [hload] at hproblem hends
    have hread : filesRead disk includes entry = reads e.events := by
      rw [filesRead, hload, outcomeEvents]
    obtain ⟨hpath, hcollides⟩ := hends.of_error.duplicate path name (Option.some.inj hproblem)
    rw [← hread] at hpath hcollides
    exact hcollides.not_namesOnce h hpath hnames

end LoadOnce

/-- **A load reads every file once exactly when it spells every file alike**, on every disk,
with every list of include directories and from every entry file. -/
theorem loadsOnce_iff (disk : Store) (includes : List Path) (entry : Path) :
    LoadsOnce disk includes entry ↔ SpelledAlike disk includes entry := by
  constructor
  · intro h p hp q hq hlocate
    have heq : p = q := List.inj_on_of_nodup_map h.nodup hp hq hlocate
    rw [heq, Path.sameComponents, beq_self_eq_true]
  · intro h
    exact ⟨h.nodup, h.names⟩

/-! ## Two spellings of one file -/

/-- A file next to the entry file and a file in the directory `x` import the same file. -/
def sharedImport : Store :=
  { entries :=
      [(["main.proto"], .file (.text "import \"common.proto\"; import \"x/b.proto\";")),
       (["common.proto"], .file (.text "message M \x7b\x7d")),
       (["x"], .directory),
       (["x", "b.proto"], .file (.text "import \"../common.proto\";"))] }

/-- Its files declare one name, and declare it once. -/
theorem namesOnce_sharedImport : NamesOnce sharedImport [] "main.proto" := by
  let paths := ["main.proto", "common.proto", "x/b.proto", "x/../common.proto"]
  have hclosed : ∀ p ∈ paths, ∀ q ∈ importsAt sharedImport [] p, q ∈ paths := by
    decide +kernel
  have hmem : ∀ p, Reaches sharedImport [] "main.proto" p → p ∈ paths :=
    fun p hp => hp.mem_of_closed (List.mem_cons_self ..) hclosed
  have hwithin : ∀ p ∈ paths, Consistent (forestAt sharedImport p) := by
    decide +kernel
  have hacross : ∀ p ∈ paths, ∀ q ∈ paths, sharedImport.locate p ≠ sharedImport.locate q →
      Apart (forestAt sharedImport p) (forestAt sharedImport q) := by
    decide +kernel
  exact ⟨fun p hp => hwithin p (hmem p hp), fun p q hp hq => hacross p (hmem p hp) q (hmem q hq)⟩

/-- The file that both import is read under two paths, and its one message is refused as a
duplicate of itself. -/
theorem rereads_shared_import :
    filesRead sharedImport [] "main.proto" =
      ["main.proto", "common.proto", "x/b.proto", "x/../common.proto"] ∧
    sharedImport.locate "x/../common.proto" = sharedImport.locate "common.proto" ∧
    NamesOnce sharedImport [] "main.proto" ∧
    outcomeProblem? (load sharedImport [] "main.proto") =
      some (.duplicateName "x/../common.proto" ".M") ∧
    ¬ LoadsOnce sharedImport [] "main.proto" := by
  have hproblem : outcomeProblem? (load sharedImport [] "main.proto") =
      some (.duplicateName "x/../common.proto" ".M") := by
    decide +kernel
  refine ⟨by decide +kernel, by decide +kernel, namesOnce_sharedImport, hproblem, ?_⟩
  intro h
  exact h.names namesOnce_sharedImport _ _ hproblem

end RpcBindings.Schema

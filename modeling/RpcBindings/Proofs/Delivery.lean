import RpcBindings.Proofs.DiskEdits
import RpcBindings.Report.Generation

/-! # What a run delivers

A dry run shows what a real run writes, and a real run that succeeds leaves the disk in a state
that the next one has nothing to add to.  Both follow from what saving one text does: the text is
in its file afterwards, and nothing changes but that file and directories that were missing.  The
manifest is saved behind the bindings, so the bindings are kept as long as the two paths lead to
different files.
-/
namespace RpcBindings.Report

open RpcBindings.Disk
open RpcBindings.Generate (Output)
open RpcBindings.Schema (Root)
open RpcBindings.Settings (Effective)
open Store (ChangesOnly)

/-! ## One section -/

section Sections
variable {w w' : World} {path : Path} {text summary activity : String}

/-- A section that was written is in its file. -/
theorem writeSection_cases {file : WrittenFile}
    (h : writeSection w (.file path) text summary activity = (w', .ok file)) :
    w'.disk.readText path = .ok text ∧ w'.printed = w.printed ∧
      ChangesOnly [path] path.directories w.disk w'.disk := by
  unfold writeSection World.emit at h
  dsimp only at h
  cases hsave : w.disk.save path text with
  | mk disk saved =>
    rw [hsave] at h
    cases saved with
    | error fault => cases h
    | ok status =>
      cases h
      obtain ⟨hread, hchanges⟩ := Store.save_cases hsave
      exact ⟨hread, rfl, hchanges⟩

/-- A section that is there already is found unchanged. -/
theorem writeSection_of_readText (h : w.disk.readText path = .ok text) :
    writeSection w (.file path) text summary activity =
      (w, .ok { path, status := .unchanged, summary }) := by
  unfold writeSection World.emit
  dsimp only
  rw [Store.save_of_readText h]
  rfl

end Sections

/-! ## The files of a run -/

/-- The files that a run writes. -/
def targets (settings : Effective) : List Path :=
  settings.out.toList ++ settings.manifestOut.toList

/-- The files of a run hold what it generated. -/
structure UpToDate (settings : Effective) (o : Output) (disk : Store) : Prop where
  bindings : ∀ p, settings.out = some p → disk.readText p = .ok o.bindings
  manifest : ∀ q, settings.manifestOut = some q → disk.readText q = .ok o.manifest

section Files
variable {settings : Effective} {o : Output} {w w' : World} {p : Path}

/-- The bindings are written first, and the manifest behind them if it has a place to go. -/
theorem writeFiles_cases {files : List WrittenFile} (hout : settings.out = some p)
    (h : writeFiles settings o w = (w', .ok files)) :
    ∃ between file, writeSection w (.file p) o.bindings (bindingsSummary o.stats)
        "Failed to write bindings" = (between, .ok file) ∧
      ((settings.manifestOut = none ∧ w' = between) ∨
        ∃ q file', settings.manifestOut = some q ∧ writeSection between (.file q) o.manifest
          (manifestSummary o.stats) "Failed to write manifest" = (w', .ok file')) := by
  unfold writeFiles at h
  rw [hout] at h
  split at h
  · cases h
  next between file hfirst =>
  refine ⟨between, file, hfirst, ?_⟩
  split at h
  · next hnone =>
    cases h
    exact Or.inl ⟨hnone, rfl⟩
  · next q hsome =>
    split at h
    · cases h
    next file' hsecond =>
    cases h
    exact Or.inr ⟨q, file', hsome, hsecond⟩

/-- **Written files hold the texts, and nothing else has changed.** -/
theorem upToDate_of_writeFiles {files : List WrittenFile} (hout : settings.out = some p)
    (h : writeFiles settings o w = (w', .ok files))
    (hapart : ∀ q, settings.manifestOut = some q → w'.disk.locate q ≠ w'.disk.locate p) :
    UpToDate settings o w'.disk ∧ w'.printed = w.printed ∧
      ChangesOnly (targets settings) ((targets settings).flatMap Path.directories)
        w.disk w'.disk := by
  obtain ⟨between, _, hfirst, hrest⟩ := writeFiles_cases hout h
  obtain ⟨hread, hprinted, hchanges⟩ := writeSection_cases hfirst
  have hbindings : ∀ {disk : Store}, disk.readText p = .ok o.bindings →
      ∀ path, settings.out = some path → disk.readText path = .ok o.bindings := by
    intro disk hdisk path hpath
    rw [hout] at hpath
    cases hpath
    exact hdisk
  rcases hrest with ⟨hnone, rfl⟩ | ⟨q, _, hsome, hsecond⟩
  · refine ⟨⟨hbindings hread, fun q hq => ?_⟩, hprinted, ?_⟩
    · rw [hnone] at hq
      cases hq
    · simpa [targets, hout, hnone] using hchanges
  · obtain ⟨hread', hprinted', hchanges'⟩ := writeSection_cases hsecond
    have hkept : w'.disk.readText p = .ok o.bindings := by
      refine hchanges'.readText hread fun file hfile => ?_
      rw [List.mem_singleton.mp hfile]
      exact hapart q hsome
    refine ⟨⟨hbindings hkept, fun path hpath => ?_⟩, hprinted'.trans hprinted, ?_⟩
    · rw [hsome] at hpath
      cases hpath
      exact hread'
    · have htargets : targets settings = [p, q] := by simp [targets, hout, hsome]
      rw [htargets]
      exact (hchanges.mono (by simp) (by simp)).trans (hchanges'.mono (by simp) (by simp))

/-- **Files that are up to date are found unchanged, and the run leaves them alone.** -/
theorem writeFiles_of_upToDate (hout : settings.out = some p)
    (h : UpToDate settings o w.disk) :
    ∃ files, writeFiles settings o w = (w, .ok files) ∧
      files.map WrittenFile.path = targets settings ∧ ∀ file ∈ files, file.status = .unchanged := by
  unfold writeFiles targets
  rw [hout, Sink.ofPath, writeSection_of_readText (h.bindings p hout)]
  cases hmanifest : settings.manifestOut with
  | none => exact ⟨_, rfl, rfl, by simp⟩
  | some q =>
    dsimp only
    rw [writeSection_of_readText (h.manifest q hmanifest)]
    exact ⟨_, rfl, rfl, by simp⟩

/-- A real run reports the files it wrote. -/
theorem deliver_eq_ok {report : RunReport} (h : deliver settings o false w = (w', .ok report)) :
    ∃ files, writeFiles settings o w = (w', .ok files) := by
  unfold deliver at h
  split at h
  · next hdry => cases hdry
  split at h
  · next files hwritten =>
    cases h
    exact ⟨files, hwritten⟩
  · cases h

theorem deliver_of_writeFiles {files : List WrittenFile}
    (h : writeFiles settings o w = (w', .ok files)) :
    ∃ report, deliver settings o false w = (w', .ok report) ∧ report.files = .written files := by
  unfold deliver
  rw [if_neg Bool.false_ne_true, h]
  exact ⟨_, rfl, rfl⟩

end Files

/-! ## Delivery -/

/-- What is generated for schemas under some settings. -/
def outputOf (settings : Effective) (roots : List Root) : Output :=
  Generate.run settings.options settings.unresolved roots

/-- The run was a success: `w'` holds what was generated, differs from `w` in nothing else, and
is where the next run ends too. -/
structure Delivered (settings : Effective) (o : Output) (w w' : World) : Prop where
  upToDate : UpToDate settings o w'.disk
  printed : w'.printed = w.printed
  changes : ChangesOnly (targets settings) ((targets settings).flatMap Path.directories)
    w.disk w'.disk
  again : ∃ report files, deliver settings o false w' = (w', .ok report) ∧
    report.files = .written files ∧ files.map WrittenFile.path = targets settings ∧
      ∀ file ∈ files, file.status = .unchanged

/-- **A dry run changes nothing and shows the two texts that a real run writes; a real run that
succeeds leaves them in their files and changes nothing else, and the next run finds every file
unchanged.** -/
theorem deliver_previewed_and_settled (settings : Effective) (roots : List Root) (w : World)
    {p : Path} (hout : settings.out = some p) :
    (∃ report, deliver settings (outputOf settings roots) true w = (w, .ok report) ∧
      report.files = .preview
        [{ path := p, content := (outputOf settings roots).bindings },
         { path := settings.manifestOut.getD "manifest",
           content := (outputOf settings roots).manifest }]) ∧
      ∀ w' report, deliver settings (outputOf settings roots) false w = (w', .ok report) →
        (∀ q, settings.manifestOut = some q → w'.disk.locate q ≠ w'.disk.locate p) →
          Delivered settings (outputOf settings roots) w w' := by
  constructor
  · refine ⟨_, rfl, ?_⟩
    simp only [previews, hout]
    rfl
  · intro w' report h hapart
    obtain ⟨files, hwritten⟩ := deliver_eq_ok h
    obtain ⟨hupToDate, hprinted, hchanges⟩ := upToDate_of_writeFiles hout hwritten hapart
    obtain ⟨files', hagain, hpaths, hunchanged⟩ := writeFiles_of_upToDate hout hupToDate
    obtain ⟨report', hreport, hfiles⟩ := deliver_of_writeFiles hagain
    exact ⟨hupToDate, hprinted, hchanges, report', files', hreport, hfiles, hpaths, hunchanged⟩

/-- Bindings go over those of an earlier run, by a path from the root directory, and the manifest
goes out of the working directory to a directory that is missing. -/
def staleSettings : Effective :=
  { schemas := ["main.proto"]
    protoPaths := []
    out := some "/srv/gen/rpc.ts"
    manifestOut := some "../srv/meta/sub/rpc.meta.ts"
    unresolved := .comment
    options := {} }

def staleWorld : World :=
  { disk :=
      { entries :=
          [(["srv"], .directory), (["srv", "gen"], .directory),
           (["srv", "gen", "rpc.ts"], .file (.text "export \x7b\x7d;\n")),
           (["srv", "meta"], .directory)]
        workingDirectory := ["work"] } }

def echoRoot : Root :=
  { files := ["main.proto"]
    nodes :=
      [.scope .message "M" ".M" [],
       .service
        { name := "Echo"
          fullName := ".Echo"
          methods :=
            [{ name := "Say", fullName := ".Echo.Say", requestType := "M", responseType := "M",
               request := some ⟨".M"⟩, response := some ⟨".M"⟩ }] }] }

theorem delivered_staleWorld :
    ∃ w' report, deliver staleSettings (outputOf staleSettings [echoRoot]) false staleWorld =
        (w', .ok report) ∧
      w'.disk.locate "../srv/meta/sub/rpc.meta.ts" ≠ w'.disk.locate "/srv/gen/rpc.ts" ∧
      Delivered staleSettings (outputOf staleSettings [echoRoot]) staleWorld w' := by
  have hrun :
      (let result := deliver staleSettings (outputOf staleSettings [echoRoot]) false staleWorld
      result.2.toOption.isSome &&
        (result.1.disk.locate "../srv/meta/sub/rpc.meta.ts").toOption !=
          (result.1.disk.locate "/srv/gen/rpc.ts").toOption) = true := by
    decide +kernel
  generalize hdeliver : deliver staleSettings (outputOf staleSettings [echoRoot]) false
    staleWorld = result at hrun
  obtain ⟨w', problem | report⟩ := result
  · cases hrun
  · have hapart : w'.disk.locate "../srv/meta/sub/rpc.meta.ts" ≠
        w'.disk.locate "/srv/gen/rpc.ts" := by
      intro hsame
      dsimp only at hrun
      rw [hsame] at hrun
      simp at hrun
    refine ⟨w', report, rfl, hapart, ?_⟩
    refine (deliver_previewed_and_settled staleSettings [echoRoot] staleWorld rfl).2 w' report
      hdeliver fun q hq => ?_
    cases hq
    exact hapart

end RpcBindings.Report

import Mathlib.Data.List.Pairwise
import RpcBindings.Proofs.FlatLoads
import RpcBindings.Proofs.LexicalScoping
import RpcBindings.Proofs.LoadOnce
import RpcBindings.Proofs.Walks

/-! # The order of imports

An entry file that imports files without imports is written once more with its imports in another
order (`Reordered`).  The same files are merged then, perhaps under other spellings of their
paths, and every one of them adds what it added before (`Reordered.exists_alike`).

Fitting is symmetric but for one case: a package may run through a message that is there, but a
message may not be declared where a package has run before.  So of two orders that differ the
second one loads, when the first one does, exactly if no package runs through a message that comes
later (`Reordered.exists_load_iff`).  A load that goes through shows no more of its order than
that: the two schemas have the same nodes, and their methods find the same types
(`Reordered.placed_subset`, `placed_resolve_subset`).  Together this says when the order of
imports matters and when not (`orderFree_iff`).
-/
namespace RpcBindings.Schema

open RpcBindings.Disk
open RpcBindings.Proto (File Import Span)

/-! ## Packages that run through messages -/

/-- The file at `p` is a source, and its package runs through a message that the file at `q`
declares. -/
def RunsThrough (disk : Store) (p q : Path) : Prop :=
  ∃ file, sourceAt disk p = some file ∧ ∃ b ∈ placedAll (forestAt disk q),
    b.node.isMessage = true ∧ b.path <+: file.package

instance (disk : Store) (p q : Path) : Decidable (RunsThrough disk p q) :=
  decidable_of_iff
    ((sourceAt disk p).any fun file => (placedAll (forestAt disk q)).any fun b =>
      b.node.isMessage && b.path.isPrefixOf file.package) (by
    simp [RunsThrough, Option.any_eq_true, List.any_eq_true])

/-- No file that is merged has a package that runs through a message of a file that is merged
after it. -/
def MessagesFirst (disk : Store) (includes : List Path) (entry : Path) : Prop :=
  (mergeOrder disk includes entry).Pairwise fun p q => ¬ RunsThrough disk p q

instance (disk : Store) (includes : List Path) (entry : Path) :
    Decidable (MessagesFirst disk includes entry) :=
  inferInstanceAs (Decidable (List.Pairwise _ _))

section Packages
variable {disk : Store} {p q : Path}

theorem isPrefix_of_isPackage {scope : String} {inner : List Node} {path : List String}
    (hinner : ∀ b ∈ placedAll inner, b.node.isPackage = false) :
    ∀ a ∈ placedAll (nest scope inner path), a.node.isPackage = true → a.path <+: path := by
  induction path generalizing scope with
  | nil =>
    intro a ha hpackage
    rw [hinner a ha] at hpackage
    cases hpackage
  | cons name rest ih =>
    intro a ha hpackage
    rw [nest, placedAll_singleton] at ha
    rcases mem_placed_scope.mp ha with rfl | ⟨b, hb, rfl⟩
    · exact (List.prefix_cons_inj name).mpr List.nil_prefix
    · exact (List.prefix_cons_inj name).mpr (ih b hb hpackage)

theorem exists_package_of_isPrefix {scope : String} {inner : List Node} {path above : List String}
    (hne : above ≠ []) (h : above <+: path) :
    ∃ a ∈ placedAll (nest scope inner path), a.node.isPackage = true ∧ a.path = above := by
  induction path generalizing scope above with
  | nil => exact absurd (List.prefix_nil.mp h) hne
  | cons name rest ih =>
    rw [nest, placedAll_singleton]
    cases above with
    | nil => exact absurd rfl hne
    | cons first more =>
      obtain ⟨rfl, hmore⟩ := List.cons_prefix_cons.mp h
      by_cases hnil : more = []
      · subst hnil
        exact ⟨_, mem_placed_scope.mpr (Or.inl rfl), rfl, rfl⟩
      · obtain ⟨a, ha, hpackage, hpath⟩ := @ih (Name.member scope first) more hnil hmore
        exact ⟨a.below first, mem_placed_scope.mpr (Or.inr ⟨a, ha, rfl⟩), hpackage,
          congrArg (List.cons first) hpath⟩

theorem not_isPackage_of_isMessage {n : Node} (h : n.isMessage = true) : n.isPackage = false := by
  cases n with
  | scope kind =>
    cases kind with
    | package => cases h
    | message => rfl
  | enum => rfl
  | service => rfl

/-- A file that fits behind another declares no message that the package of the other runs
through. -/
theorem not_runsThrough_of_fits (h : Fits disk (forestAt disk p) q) : ¬ RunsThrough disk p q := by
  rintro ⟨file, hsource, b, hb, hmessage, hprefix⟩
  obtain ⟨a, ha, _, hpath⟩ : ∃ a ∈ placedAll (sourceForest file),
      a.node.isPackage = true ∧ a.path = b.path :=
    exists_package_of_isPrefix (path_ne_nil hb) hprefix
  rw [← forestAt_source hsource] at ha
  have hpackage := (h a ha b hb hpath).1
  rw [not_isPackage_of_isMessage hmessage] at hpackage
  cases hpackage

/-- **Two files fit in one order if they fit in the other** and the package of the one that comes
first now runs through no message of the second. -/
theorem fits_swap (h : Fits disk (forestAt disk q) p) (hruns : ¬ RunsThrough disk p q) :
    Fits disk (forestAt disk p) q := by
  intro a ha b hb hpath
  obtain ⟨hpackage, hpackage' | ⟨hthrough, hmessage⟩⟩ := h b hb a ha hpath.symm
  · exact ⟨hpackage', Or.inl hpackage⟩
  · -- `a` is a package that was led through the message `b`: the one case that has no mirror
    obtain ⟨file, hsource⟩ := Option.isSome_iff_exists.mp hthrough
    rw [forestAt_source hsource] at ha
    have hprefix := isPrefix_of_isPackage isPackage_declNodes a ha hpackage
    exact absurd ⟨file, hsource, b, hb, hmessage, hpath ▸ hprefix⟩ hruns

theorem Flat.messagesFirst_of_load {includes : List Path} {entry : Path} {file : File Span}
    (h : Flat disk includes entry file) (hload : ∃ l, load disk includes entry = .ok l) :
    MessagesFirst disk includes entry :=
  (h.exists_load_iff.mp hload).2.imp not_runsThrough_of_fits

end Packages

/-! ## Two orders -/

/-- The second disk is the first one with another text in the entry file: a text that names the
same package, declares the same and imports the same paths, in some order. -/
structure Reordered (disk disk' : Store) (entry : Path) (file file' : File Span) : Prop where
  elsewhere : ∃ route, disk.locate entry = .ok route ∧ Store.SameBut route disk disk'
  source : sourceAt disk' entry = some file'
  package : file'.package = file.package
  decls : file'.decls = file.decls
  imports : (file'.imports.map Import.path).Perm (file.imports.map Import.path)

/-- What the file at `p'` on the second disk adds to a schema is what the file at `p` adds on
the first one. -/
structure Alike (disk disk' : Store) (p p' : Path) : Prop where
  source : (sourceAt disk' p').map (fun file => (file.package, file.decls)) =
    (sourceAt disk p).map fun file => (file.package, file.decls)
  document : documentAt disk' p' = documentAt disk p

section Alike
variable {disk disk' : Store} {p p' q q' : Path}

theorem Alike.isSome_source (h : Alike disk disk' p p') :
    (sourceAt disk' p').isSome = (sourceAt disk p).isSome := by
  have hsome := congrArg Option.isSome h.source
  rwa [Option.isSome_map, Option.isSome_map] at hsome

theorem Alike.exists_source (h : Alike disk disk' p p') {file' : File Span}
    (hfile : sourceAt disk' p' = some file') :
    ∃ file, sourceAt disk p = some file ∧ file.package = file'.package ∧
      file.decls = file'.decls := by
  have hsource := h.source
  rw [hfile, Option.map_some] at hsource
  obtain ⟨file, hfile, heq⟩ := Option.map_eq_some_iff.mp hsource.symm
  exact ⟨file, hfile, congrArg Prod.fst heq, congrArg Prod.snd heq⟩

theorem Alike.forestAt_eq (h : Alike disk disk' p p') : forestAt disk' p' = forestAt disk p := by
  cases hsource : sourceAt disk' p' with
  | some file' =>
    obtain ⟨file, hfile, hpackage, hdecls⟩ := h.exists_source hsource
    rw [forestAt_source hsource, forestAt_source hfile, sourceForest, sourceForest, hpackage,
      hdecls]
  | none =>
    have hnone : sourceAt disk p = none := by
      rw [← Option.not_isSome_iff_eq_none, ← h.isSome_source, hsource]
      exact Bool.false_ne_true
    rw [forestAt, forestAt, hsource, hnone, h.document]

theorem Alike.fits (h : Alike disk disk' p p') (h' : Alike disk disk' q q')
    (hfits : Fits disk (forestAt disk p) q) : Fits disk' (forestAt disk' p') q' := by
  rw [Fits] at hfits ⊢
  rwa [h.forestAt_eq, h'.forestAt_eq, h'.isSome_source]

end Alike

section Reordered
variable {disk disk' : Store} {includes : List Path} {entry : Path} {file file' : File Span}

theorem sourceAt_congr {p q : Path} (hextension : p.hasExtension "json" = q.hasExtension "json")
    (hread : disk.readContent p = disk'.readContent q) :
    sourceAt disk p = sourceAt disk' q ∧ documentAt disk p = documentAt disk' q := by
  have htext : disk.readText p = disk'.readText q := by
    rw [Store.readText, Store.readText, hread]
  unfold sourceAt documentAt
  rw [hextension, htext]
  exact ⟨rfl, rfl⟩

/-- A source is no document. -/
theorem documentAt_of_source {p : Path} (h : sourceAt disk p = some file) :
    documentAt disk p = none := by
  refine documentAt_eq_none (Bool.eq_false_iff.mpr fun hjson => ?_) disk
  rw [sourceAt_eq_none hjson] at h
  cases h

/-- No import leads back to the entry file, for the entry file has imports. -/
theorem Flat.locate_ne (h : Flat disk includes entry file) {route : List String}
    (hentry : disk.locate entry = .ok route) {p : Path}
    (hp : p ∈ importsAt disk includes entry) : disk.locate p ≠ .ok route := by
  intro hlocate
  obtain ⟨_, content, hfound, hfile, hread⟩ :=
    Store.exists_route_of_isFile (isFile_of_mem_importsAt hp)
  rw [hlocate] at hfound
  cases hfound
  have hreads : disk.readContent p = disk.readContent entry := by
    rw [Store.readContent, Store.readContent, hlocate, hentry]
  -- the extension is the file's and not the path's, so the import would be read as a source too
  have hextension := Store.hasExtension_of_locate hlocate hentry hfile "json"
  have hsource : sourceAt disk p = some file :=
    (sourceAt_congr hextension hreads).1.trans h.source
  have hnone := h.leaves p hp file hsource
  rw [importsAt, h.source] at hp
  dsimp only at hp
  rw [hnone] at hp
  cases hp

theorem Reordered.findImport_eq (h : Reordered disk disk' entry file file') (path : String) :
    findImport disk' includes entry path = findImport disk includes entry path := by
  obtain ⟨route, _, hsame⟩ := h.elsewhere
  unfold findImport
  rw [funext hsame.isFile_eq]

variable (hflat : Flat disk includes entry file) (h : Reordered disk disk' entry file file')
include hflat h

theorem Reordered.mem_importsAt_iff {p : Path} :
    p ∈ importsAt disk' includes entry ↔ p ∈ importsAt disk includes entry := by
  have hmap : ∀ (file : File Span),
      (file.imports.filterMap fun i => findImport disk includes entry i.path) =
        (file.imports.map Import.path).filterMap (findImport disk includes entry) := fun file => by
    rw [List.filterMap_map]
    rfl
  rw [importsAt, importsAt, h.source, hflat.source]
  simp only [h.findImport_eq, hmap]
  exact (h.imports.filterMap _).mem_iff

/-- What is imported reads the same on both disks. -/
theorem Reordered.sourceAt_eq {p : Path} (hp : p ∈ importsAt disk includes entry) :
    sourceAt disk' p = sourceAt disk p ∧ documentAt disk' p = documentAt disk p := by
  obtain ⟨route, hentry, hsame⟩ := h.elsewhere
  exact sourceAt_congr rfl (hsame.readContent (hflat.locate_ne hentry hp))

theorem Reordered.flat : Flat disk' includes entry file' where
  source := h.source
  found := by
    intro i hi
    have hmem := h.imports.mem_iff.mp (List.mem_map.mpr ⟨i, hi, rfl⟩)
    obtain ⟨j, hj, hpath⟩ := List.mem_map.mp hmem
    rw [h.findImport_eq, ← hpath]
    exact hflat.found j hj
  leaves := by
    intro p hp imported himported
    have hp := (h.mem_importsAt_iff hflat).mp hp
    rw [(h.sourceAt_eq hflat hp).1] at himported
    exact hflat.leaves p hp imported himported

theorem Reordered.symm : Reordered disk' disk entry file' file where
  elsewhere := by
    obtain ⟨route, hentry, hsame⟩ := h.elsewhere
    exact ⟨route, (hsame.locate entry).trans hentry, hsame.symm⟩
  source := hflat.source
  package := h.package.symm
  decls := h.decls.symm
  imports := h.imports.symm

/-- Files that are merged on the two disks under the same components add the same. -/
theorem Reordered.alike {p p' : Path} (hp : p ∈ mergeOrder disk includes entry)
    (hp' : p' ∈ mergeOrder disk' includes entry) (hsame : Path.sameComponents p p' = true) :
    Alike disk disk' p p' := by
  rcases mem_mergeOrder hp with rfl | ⟨hp, hdiffer⟩
  · rcases mem_mergeOrder hp' with rfl | ⟨_, hdiffer'⟩
    · refine ⟨?_, (documentAt_of_source h.source).trans (documentAt_of_source hflat.source).symm⟩
      rw [h.source, hflat.source, Option.map_some, Option.map_some, h.package, h.decls]
    · rw [Differ, hsame] at hdiffer'
      cases hdiffer'
  · rcases mem_mergeOrder hp' with rfl | ⟨hp', _⟩
    · have hdiffer := Std.Symm.symm _ _ hdiffer
      rw [Differ, hsame] at hdiffer
      cases hdiffer
    · have hp' := (h.mem_importsAt_iff hflat).mp hp'
      obtain ⟨hsource', hdocument'⟩ := h.sourceAt_eq hflat hp'
      obtain ⟨hsource, hdocument⟩ := sourceAt_congr (hasExtension_of_sameComponents hsame "json")
        (Store.readContent_of_sameComponents hsame (isFile_of_mem_importsAt hp)
          (isFile_of_mem_importsAt hp'))
      rw [← hsource] at hsource'
      exact ⟨by rw [hsource'], hdocument'.trans hdocument.symm⟩

/-- Every file that is merged on the second disk is merged on the first. -/
theorem Reordered.exists_alike {p' : Path} (hp' : p' ∈ mergeOrder disk' includes entry) :
    ∃ p ∈ mergeOrder disk includes entry, Path.sameComponents p p' = true ∧
      Alike disk disk' p p' := by
  have hspelled : ∃ p ∈ mergeOrder disk includes entry, Path.sameComponents p p' = true := by
    rcases mem_mergeOrder hp' with rfl | ⟨himport, hdiffer⟩
    · exact ⟨p', List.mem_append_right _ (List.mem_singleton.mpr rfl), beq_self_eq_true _⟩
    · have himport := (h.mem_importsAt_iff hflat).mp himport
      obtain ⟨p, hp, hsame⟩ := @exists_opened [entry] _ p' himport
      rcases List.mem_append.mp hp with hp | hp
      · rw [Differ, ← List.mem_singleton.mp hp, hsame] at hdiffer
        cases hdiffer
      · exact ⟨p, List.mem_append_left _ hp, hsame⟩
  obtain ⟨p, hp, hsame⟩ := hspelled
  exact ⟨p, hp, hsame, h.alike hflat hp hp' hsame⟩

/-- **An order of imports loads, when another one does, exactly if no package runs through a
message that comes later.** -/
theorem Reordered.exists_load_iff (hload : ∃ l, load disk includes entry = .ok l) :
    (∃ l, load disk' includes entry = .ok l) ↔ MessagesFirst disk' includes entry := by
  have hflat' := h.flat hflat
  constructor
  · exact hflat'.messagesFirst_of_load
  · intro hfirst
    obtain ⟨hall, hpairs⟩ := hflat.exists_load_iff.mp hload
    refine hflat'.exists_load_iff.mpr ⟨fun p' hp' => ?_, ?_⟩
    · obtain ⟨p, hp, _, halike⟩ := h.exists_alike hflat hp'
      rw [halike.isSome_source, halike.document, halike.forestAt_eq]
      exact hall p hp
    · refine (distinct_mergeOrder.and hfirst).imp_of_mem ?_
      rintro p' q' hp' hq' ⟨hdiffer, hruns⟩
      obtain ⟨p, hp, hsameP, halikeP⟩ := h.exists_alike hflat hp'
      obtain ⟨q, hq, hsameQ, halikeQ⟩ := h.exists_alike hflat hq'
      have hne : p ≠ q := by
        rintro rfl
        have hsame : Path.sameComponents p' q' = true :=
          beq_iff_eq.mpr ((eq_of_beq hsameP).symm.trans (eq_of_beq hsameQ))
        rw [Differ, hsame] at hdiffer
        cases hdiffer
      -- the two files stand in some order on the first disk, and fit in that order
      let FitsEither : Path → Path → Prop := fun p q =>
        Fits disk (forestAt disk p) q ∨ Fits disk (forestAt disk q) p
      have hsymm : Std.Symm FitsEither := ⟨fun _ _ => Or.symm⟩
      have heither : (mergeOrder disk includes entry).Pairwise FitsEither := hpairs.imp Or.inl
      rcases heither.forall hp hq hne with hfits | hfits
      · exact halikeP.fits halikeQ hfits
      · exact fits_swap (halikeQ.fits halikeP hfits) hruns

/-- On both disks the same nodes are merged. -/
theorem Reordered.mem_forests {a : Placed}
    (ha : a ∈ placedAll ((mergeOrder disk' includes entry).flatMap (forestAt disk'))) :
    a ∈ placedAll ((mergeOrder disk includes entry).flatMap (forestAt disk)) := by
  obtain ⟨n, hn, han⟩ := mem_placedAll.mp ha
  obtain ⟨p', hp', hn⟩ := List.mem_flatMap.mp hn
  obtain ⟨p, hp, _, halike⟩ := h.exists_alike hflat hp'
  rw [halike.forestAt_eq] at hn
  exact mem_placedAll.mpr ⟨n, List.mem_flatMap.mpr ⟨p, hp, hn⟩, han⟩

theorem Reordered.placed_subset {l l' : Loading} (hload : load disk includes entry = .ok l)
    (hload' : load disk' includes entry = .ok l') {a : Placed}
    (ha : a ∈ placedAll l.root.nodes) : a ∈ placedAll l'.root.nodes := by
  have hflat' := h.flat hflat
  obtain ⟨hjoins, htidy⟩ := hflat.joins_load hload
  obtain ⟨hjoins', _⟩ := hflat'.joins_load hload'
  refine placed_of_joins (fun b => ?_) ?_ htidy hjoins hjoins' ha
  · exact ⟨(h.symm hflat).mem_forests hflat', h.mem_forests hflat⟩
  · intro b hb
    obtain ⟨n, hn, hbn⟩ := mem_placedAll.mp hb
    obtain ⟨p, _, hn⟩ := List.mem_flatMap.mp hn
    exact fullName_forestAt b (mem_placedAll.mpr ⟨n, hn, hbn⟩)

end Reordered

/-! ## What a schema tells -/

/-- A placed node is resolved alike with the same messages. -/
theorem resolve_congr {messages messages' : List String}
    (h : ∀ name, name ∈ messages ↔ name ∈ messages') {nodes : List Node} {a : Placed}
    (ha : a ∈ placedAll nodes) : a.resolve messages = a.resolve messages' := by
  have hbare := bare_of_placed ha
  unfold Placed.resolve
  congr 1
  cases hnode : a.node with
  | scope kind name full children =>
    rw [hnode] at hbare
    cases hbare
    rfl
  | enum => rfl
  | service s =>
    have hmethod : Method.resolve messages = Method.resolve messages' := by
      funext scope m
      unfold Method.resolve
      rw [lookupType_congr h, lookupType_congr h]
    rw [Node.resolve, Node.resolve, Service.resolve, Service.resolve, hmethod]

/-- Schemas with the same nodes have the same nodes after their types are looked up. -/
theorem placed_resolve_subset {r r' : Root}
    (h : ∀ a, a ∈ placedAll r.nodes ↔ a ∈ placedAll r'.nodes) {a : Placed}
    (ha : a ∈ placedAll r.resolve.nodes) : a ∈ placedAll r'.resolve.nodes := by
  have hmessages : ∀ name, name ∈ messageNamesAll r.nodes ↔ name ∈ messageNamesAll r'.nodes := by
    intro name
    rw [mem_messageNamesAll, mem_messageNamesAll]
    unfold Occurs
    simp only [h]
  rw [Root.resolve, placedAll_resolveNodes] at ha ⊢
  obtain ⟨b, hb, rfl⟩ := List.mem_map.mp ha
  rw [resolve_congr hmessages hb]
  exact List.mem_map.mpr ⟨b, (h b).mp hb, rfl⟩

/-! ## Order and outcome -/

/-- Whether the load goes through and what the schema tells does not depend on which of the two
disks it is loaded from: the kind and the full name of every node, and of a service its methods
with their names, their types as written and as found, and their flags. -/
structure OrderFree (disk disk' : Store) (includes : List Path) (entry : Path) : Prop where
  loads : (∃ l, load disk includes entry = .ok l) ↔ ∃ l, load disk' includes entry = .ok l
  same : ∀ l l', load disk includes entry = .ok l → load disk' includes entry = .ok l' →
    ∀ a, a ∈ placedAll l.root.resolve.nodes ↔ a ∈ placedAll l'.root.resolve.nodes

/-- **The order of imports does not matter exactly when messages come first**, in both orders, or
when neither of the two loads. -/
theorem orderFree_iff {disk disk' : Store} {includes : List Path} {entry : Path}
    {file file' : File Span} (hflat : Flat disk includes entry file)
    (h : Reordered disk disk' entry file file') :
    OrderFree disk disk' includes entry ↔
      ((∃ l, load disk includes entry = .ok l) ∨ (∃ l, load disk' includes entry = .ok l) →
        MessagesFirst disk includes entry ∧ MessagesFirst disk' includes entry) := by
  have hflat' := h.flat hflat
  have h' := h.symm hflat
  constructor
  · intro hfree hany
    have hload : ∃ l, load disk includes entry = .ok l := hany.elim id hfree.loads.mpr
    exact ⟨hflat.messagesFirst_of_load hload, hflat'.messagesFirst_of_load (hfree.loads.mp hload)⟩
  · intro hfirst
    refine ⟨⟨fun hload => ?_, fun hload' => ?_⟩, fun l l' hload hload' => ?_⟩
    · exact (h.exists_load_iff hflat hload).mpr (hfirst (Or.inl hload)).2
    · exact (h'.exists_load_iff hflat' hload').mpr (hfirst (Or.inr hload')).1
    · have hplaced : ∀ a, a ∈ placedAll l.root.nodes ↔ a ∈ placedAll l'.root.nodes := fun a =>
        ⟨h.placed_subset hflat hload hload', h'.placed_subset hflat' hload' hload⟩
      exact fun a => ⟨placed_resolve_subset hplaced,
        placed_resolve_subset fun b => (hplaced b).symm⟩

/-! ## Imports in two orders -/

/-- A disk with an entry file that imports some files, and with these files beside it. -/
def importing (imports : List String) (files : List (String × String)) : Store :=
  { entries := (["main.proto"], .file (.text
      (String.join (imports.map fun path => "import \"" ++ path ++ "\"; ")))) ::
      files.map fun file => ([file.1], .file (.text file.2)) }

theorem sameBut_importing (imports imports' : List String) (files : List (String × String)) :
    Store.SameBut ["main.proto"] (importing imports files) (importing imports' files) where
  workingDirectory := rfl
  isFile := ⟨_, _, rfl, rfl⟩
  same := by
    intro other hne
    have hbeq : (other == ["main.proto"]) = false := beq_eq_false_iff_ne.mpr hne
    unfold Store.entryAt importing
    simp only [List.lookup_cons, hbeq]

/-- Whether the two orders of imports make two entry files that differ in nothing else, and the
files beside them import nothing. -/
def reorders (imports imports' : List String) (files : List (String × String)) : Bool :=
  let disk := importing imports files
  (sourceAt disk "main.proto").any fun file =>
    (sourceAt (importing imports' files) "main.proto").any fun file' =>
      disk.locate "main.proto" == .ok ["main.proto"] &&
        file'.package == file.package && file.decls.isEmpty && file'.decls.isEmpty &&
        (file'.imports.map Import.path).isPerm (file.imports.map Import.path) &&
        (file.imports.all fun i => (findImport disk [] "main.proto" i.path).isSome) &&
        (importsAt disk [] "main.proto").all fun p =>
          (sourceAt disk p).all fun imported => imported.imports.isEmpty

theorem exists_reordered {imports imports' : List String} {files : List (String × String)}
    (h : reorders imports imports' files = true) :
    ∃ file file', Flat (importing imports files) [] "main.proto" file ∧
      Reordered (importing imports files) (importing imports' files) "main.proto" file file' := by
  obtain ⟨file, hfile, h⟩ := (Option.any_eq_true _ _).mp h
  obtain ⟨file', hfile', h⟩ := (Option.any_eq_true _ _).mp h
  simp only [Bool.and_eq_true, beq_iff_eq, List.isEmpty_iff, List.isPerm_iff, List.all_eq_true,
    Option.all_eq_true] at h
  obtain ⟨⟨⟨⟨⟨⟨hlocate, hpackage⟩, hdecls⟩, hdecls'⟩, himports⟩, hfound⟩, hleaves⟩ := h
  refine ⟨file, file', ⟨hfile, hfound, hleaves⟩, ?_⟩
  exact ⟨⟨_, hlocate, sameBut_importing imports imports' files⟩, hfile', hpackage,
    hdecls'.trans hdecls.symm, himports⟩

/-- A message, and a package that runs through it. -/
def messageAndPackage : List (String × String) :=
  [("p.proto", "package a.B; message X \x7b\x7d"), ("b.proto", "package a; message B \x7b\x7d")]

/-- The file with the message can be imported before the other one, but not after it. -/
theorem refuses_package_before_message :
    (∃ file file',
      Flat (importing ["p.proto", "b.proto"] messageAndPackage) [] "main.proto" file ∧
        Reordered (importing ["p.proto", "b.proto"] messageAndPackage)
          (importing ["b.proto", "p.proto"] messageAndPackage) "main.proto" file file') ∧
    outcomeProblem? (load (importing ["p.proto", "b.proto"] messageAndPackage) [] "main.proto") =
      some (.duplicateName "b.proto" ".a.B") ∧
    outcomeProblem? (load (importing ["b.proto", "p.proto"] messageAndPackage) [] "main.proto") =
      none ∧
    ¬ OrderFree (importing ["p.proto", "b.proto"] messageAndPackage)
      (importing ["b.proto", "p.proto"] messageAndPackage) [] "main.proto" := by
  have hrefused : outcomeProblem?
      (load (importing ["p.proto", "b.proto"] messageAndPackage) [] "main.proto") =
        some (.duplicateName "b.proto" ".a.B") := by
    decide +kernel
  have hloads : outcomeProblem?
      (load (importing ["b.proto", "p.proto"] messageAndPackage) [] "main.proto") = none := by
    decide +kernel
  refine ⟨exists_reordered (by decide +kernel), hrefused, hloads, fun hfree => ?_⟩
  cases hload : load (importing ["b.proto", "p.proto"] messageAndPackage) [] "main.proto" with
  | error e =>
    rw [hload] at hloads
    cases hloads
  | ok l =>
    obtain ⟨l', hload'⟩ := hfree.loads.mpr ⟨l, hload⟩
    rw [hload'] at hrefused
    cases hrefused

/-- Two files that share a package, of which one uses a message of the other. -/
def sharedPackage : List (String × String) :=
  [("x.proto", "package a; message M \x7b\x7d service S \x7b rpc Call (M) returns (b.N); \x7d"),
    ("y.proto", "package a.b; message N \x7b\x7d")]

/-- Files whose packages run through no message can be imported in both orders. -/
theorem orderFree_sharedPackage :
    ∃ file file', Flat (importing ["x.proto", "y.proto"] sharedPackage) [] "main.proto" file ∧
      Reordered (importing ["x.proto", "y.proto"] sharedPackage)
        (importing ["y.proto", "x.proto"] sharedPackage) "main.proto" file file' ∧
      OrderFree (importing ["x.proto", "y.proto"] sharedPackage)
        (importing ["y.proto", "x.proto"] sharedPackage) [] "main.proto" := by
  obtain ⟨file, file', hflat, h⟩ := @exists_reordered ["x.proto", "y.proto"]
    ["y.proto", "x.proto"] sharedPackage (by decide +kernel)
  exact ⟨file, file', hflat, h, (orderFree_iff hflat h).mpr fun _ =>
    ⟨by decide +kernel, by decide +kernel⟩⟩

end RpcBindings.Schema

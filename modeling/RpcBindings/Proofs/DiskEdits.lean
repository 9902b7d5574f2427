import Mathlib.Data.List.TakeWhile
import RpcBindings.Proofs.Walks

/-! # What writing does to the disk

A file is written after the directories it is in are made.  Each of these edits puts one entry at
a route where no directory stood, so a disk only grows: directories stay directories, files stay
files, and what a path led to it leads to still (`Extends.locate`).

`ChangesOnly` says what a series of edits may have changed: files that are named by given paths,
and directories that were missing.  Saving a text leaves it in its file and changes nothing else
but the directories of the file (`save_cases`), and the next time the text is found there
(`save_of_readText`).
-/
namespace RpcBindings.Disk

/-- The directories that a file is in, innermost first, as they are made for it. -/
def Path.directories (path : Path) : List Path :=
  match path.parent? with
  | some dir => dir.ancestors
  | none => []

namespace Store

/-! ## One entry put at a route -/

section Put
variable {s : Store} {route : Route} {entry : Entry}

theorem lookup_overwrite (entries : List (Route × Entry)) (route other : Route) (entry : Entry) :
    (entries.map fun e => if e.1 == route then (route, entry) else e).lookup other =
      if other = route then (entries.lookup route).map fun _ => entry
      else entries.lookup other := by
  induction entries with
  | nil => simp
  | cons e entries ih =>
    obtain ⟨place, old⟩ := e
    rw [List.map_cons, List.lookup_cons, List.lookup_cons, List.lookup_cons, ih]
    by_cases hplace : place = route
    · by_cases hother : other = route
      · simp [hplace, hother]
      · have hbeq : (other == route) = false := beq_eq_false_iff_ne.mpr hother
        simp [hplace, hother, hbeq]
    · have hbeq : (route == place) = false := beq_eq_false_iff_ne.mpr (Ne.symm hplace)
      by_cases hother : other = route
      · simp [hplace, hbeq, hother]
      · simp [hplace, hother]

theorem any_eq_isSome_lookup (entries : List (Route × Entry)) (route : Route) :
    (entries.any fun e => e.1 == route) = (entries.lookup route).isSome := by
  rw [Bool.eq_iff_iff, List.any_eq_true, List.lookup_isSome_iff]
  simp only [beq_iff_eq, eq_comm (a := route)]

theorem workingDirectory_put : (s.put route entry).workingDirectory = s.workingDirectory := by
  unfold put
  split <;> rfl

/-- **A put entry stands at its route, and everywhere else the disk is as before.** -/
theorem entryAt_put (hroute : ¬ route <+: s.workingDirectory) (other : Route) :
    (s.put route entry).entryAt other = if other = route then some entry else s.entryAt other := by
  have hlookup : (s.put route entry).entries.lookup other =
      if other = route then some entry else s.entries.lookup other := by
    unfold put
    split
    · next hany =>
      rw [any_eq_isSome_lookup] at hany
      obtain ⟨old, hold⟩ := Option.isSome_iff_exists.mp hany
      rw [lookup_overwrite, hold]
      rfl
    · next hany =>
      rw [any_eq_isSome_lookup, Option.not_isSome_iff_eq_none] at hany
      rw [List.lookup_append]
      by_cases hother : other = route
      · rw [if_pos hother, hother, hany]
        simp
      · have hbeq : (other == route) = false := beq_eq_false_iff_ne.mpr hother
        rw [if_neg hother, List.lookup_cons, hbeq, List.lookup_nil, Option.or_none]
  unfold entryAt
  rw [hlookup, workingDirectory_put]
  by_cases hother : other = route
  · rw [hother, if_neg (mt List.isPrefixOf_iff_prefix.mp hroute), if_pos rfl, if_pos rfl]
  · rw [if_neg hother, if_neg hother]

theorem entryAt_put_self (hroute : ¬ route <+: s.workingDirectory) :
    (s.put route entry).entryAt route = some entry := by
  rw [entryAt_put hroute, if_pos rfl]

theorem entryAt_put_of_ne (hroute : ¬ route <+: s.workingDirectory) {other : Route}
    (hne : other ≠ route) : (s.put route entry).entryAt other = s.entryAt other := by
  rw [entryAt_put hroute, if_neg hne]

/-- The working directory is not below a route where no directory stands. -/
theorem not_above_of_entryAt (h : s.entryAt route ≠ some .directory) :
    ¬ route <+: s.workingDirectory :=
  fun habove => h (entryAt_above habove)

end Put

/-! ## Disks that grow -/

/-- Directories and files of `s` are directories and files of `s'`, seen from the same directory;
what the files hold may differ. -/
structure Extends (s s' : Store) : Prop where
  workingDirectory : s'.workingDirectory = s.workingDirectory
  directory : ∀ route, s.entryAt route = some .directory → s'.entryAt route = some .directory
  file : ∀ route content, s.entryAt route = some (.file content) →
    ∃ content', s'.entryAt route = some (.file content')

section Extends
variable {s s' : Store}

theorem Extends.exists_entryAt (h : Extends s s') {route : Route} {entry : Entry}
    (hentry : s.entryAt route = some entry) : ∃ entry', s'.entryAt route = some entry' := by
  cases entry with
  | directory => exact ⟨_, h.directory route hentry⟩
  | file content =>
    obtain ⟨content', hentry'⟩ := h.file route content hentry
    exact ⟨_, hentry'⟩

theorem Extends.isWalkable (h : Extends s s') {route : Route} (hwalk : s.isWalkable route = true) :
    s'.isWalkable route = true :=
  beq_iff_eq.mpr (h.directory route (eq_of_beq hwalk))

theorem Extends.isSome_entryAt (h : Extends s s') {route : Route}
    (hentry : (s.entryAt route).isSome = true) : (s'.entryAt route).isSome = true := by
  obtain ⟨entry, hentry⟩ := Option.isSome_iff_exists.mp hentry
  exact Option.isSome_iff_exists.mpr (h.exists_entryAt hentry)

theorem Extends.step (h : Extends s s') {route route' : Route} {piece : String}
    (hstep : s.step route piece = .ok route') : s'.step route piece = .ok route' := by
  have hwalk := (step_cases hstep).1
  have hwalk' := h.isWalkable hwalk
  unfold Store.step at hstep ⊢
  rw [hwalk] at hstep
  rw [hwalk']
  -- whether a name is there is all that a step asks the disk
  split at hstep
  · cases hstep
  split at hstep
  · simp [*]
  split at hstep
  · simp [*]
  split at hstep
  · cases hstep
  split at hstep
  · next hentry =>
    have hentry' := h.isSome_entryAt hentry
    simp [*]
  · cases hstep

theorem Extends.foldlM_step (h : Extends s s') {names : List String} {route route' : Route}
    (hwalk : names.foldlM s.step route = .ok route') :
    names.foldlM s'.step route = .ok route' := by
  induction names generalizing route with
  | nil => exact hwalk
  | cons piece rest ih =>
    obtain ⟨between, hstep, hrest⟩ := foldlM_cons_eq_ok.mp hwalk
    exact foldlM_cons_eq_ok.mpr ⟨between, h.step hstep, ih hrest⟩

/-- **A path leads where it led before.** -/
theorem Extends.locate (h : Extends s s') {path : Path} {route : Route}
    (hlocate : s.locate path = .ok route) : s'.locate path = .ok route := by
  obtain ⟨_, hcheck, hwalk⟩ := bind_eq_ok.mp hlocate
  refine bind_eq_ok.mpr ⟨_, hcheck, ?_⟩
  rw [start_congr h.workingDirectory]
  exact h.foldlM_step hwalk

/-- Putting an entry where no directory stands lets the disk grow, unless a directory is put
over a file. -/
theorem extends_put {route : Route} {entry : Entry} (hroute : ¬ route <+: s.workingDirectory)
    (hold : s.entryAt route = none ∨
      ∃ content, entry = .file content ∧ s.entryAt route ≠ some .directory) :
    Extends s (s.put route entry) where
  workingDirectory := workingDirectory_put
  directory := by
    intro other hother
    by_cases heq : other = route
    · subst heq
      rcases hold with hnone | ⟨_, _, hne⟩
      · rw [hnone] at hother
        cases hother
      · exact absurd hother hne
    · rw [entryAt_put_of_ne hroute heq, hother]
  file := by
    intro other content hother
    by_cases heq : other = route
    · subst heq
      rcases hold with hnone | ⟨content', rfl, _⟩
      · rw [hnone] at hother
        cases hother
      · exact ⟨content', entryAt_put_self hroute⟩
    · exact ⟨content, by rw [entryAt_put_of_ne hroute heq, hother]⟩

end Extends

/-! ## Paths to new entries -/

section New
variable {s : Store} {path : Path} {route : Route}

/-- A path whose last piece is empty is empty or ends in a slash. -/
theorem endsInSlash_of_pieces {before : List String} (hne : path ≠ "")
    (h : Text.pieces '/' path = before ++ [""]) : endsInSlash path = true := by
  have hpieces : (Text.pieces '/' path).flatMap (fun piece => '/' :: piece.toList) =
      '/' :: path.toList := by
    rw [← Text.flatMap_splitOn '/' path.toList, Text.pieces, List.flatMap_map]
    simp only [String.toList_ofList]
  have hlast := congrArg List.getLast? hpieces
  rw [h, List.flatMap_append, List.flatMap_singleton, String.toList_empty, List.getLast?_concat,
    List.getLast?_cons] at hlast
  obtain ⟨c, hc⟩ := Option.ne_none_iff_exists'.mp
    (mt List.getLast?_eq_none_iff.mp (mt String.toList_eq_nil_iff.mp hne))
  rw [hc, Option.getD_some] at hlast
  rw [endsInSlash, hc, ← hlast]
  rfl

/-- Behind the last piece that counts all pieces are empty. -/
theorem exists_pieces_replicate (path : Path) : ∃ slashes, Text.pieces '/' path =
    (splitLast path).1 ++ (splitLast path).2 :: List.replicate slashes "" := by
  have hempty : (Text.pieces '/' path).reverse.takeWhile (· == "") =
      List.replicate ((Text.pieces '/' path).reverse.takeWhile (· == "")).length "" :=
    List.eq_replicate_of_mem fun piece hpiece => by
      simpa using List.mem_takeWhile_imp hpiece
  have hsplit := List.takeWhile_append_dropWhile
    (p := (· == "")) (l := (Text.pieces '/' path).reverse)
  rw [hempty] at hsplit
  have hpieces := congrArg List.reverse hsplit
  rw [List.reverse_append, List.reverse_replicate, List.reverse_reverse] at hpieces
  unfold splitLast
  split
  · next hnil =>
    -- all pieces are empty, and the first of them is the last that counts
    rw [hnil, List.reverse_nil, List.nil_append] at hpieces
    cases hlength : ((Text.pieces '/' path).reverse.takeWhile (· == "")).length with
    | zero =>
      rw [hlength] at hpieces
      exact absurd (List.map_eq_nil_iff.mp hpieces.symm) (Text.splitOn_ne_nil _ _)
    | succ n =>
      rw [hlength] at hpieces
      exact ⟨n, hpieces.symm⟩
  · next last before hcons =>
    rw [hcons, List.reverse_cons, List.append_assoc] at hpieces
    exact ⟨_, hpieces.symm⟩

/-- Behind the last piece that counts stand slashes at most. -/
theorem exists_pieces_eq (path : Path) : ∃ slashes,
    Text.pieces '/' path = (splitLast path).1 ++ (splitLast path).2 :: List.replicate slashes "" ∧
      (path ≠ "" → endsInSlash path = false → slashes = 0) := by
  obtain ⟨slashes, hpieces⟩ := exists_pieces_replicate path
  refine ⟨slashes, hpieces, fun hne hslash => ?_⟩
  cases slashes with
  | zero => rfl
  | succ n =>
    rw [List.replicate_succ', ← List.cons_append, ← List.append_assoc] at hpieces
    rw [endsInSlash_of_pieces hne hpieces] at hslash
    cases hslash

theorem ne_empty_of_checkPath (h : checkPath path = .ok ()) : path ≠ "" := by
  rintro rfl
  cases h

/-- What is known when a path leads to an entry or to a place for one: the directory of its last
piece is there, and that piece is there too or is a name that is free. -/
theorem locateNew_cases {spot : Spot} (h : s.locateNew path = .ok spot) :
    checkPath path = .ok () ∧ ∃ dir, (splitLast path).1.foldlM s.step (s.start path) = .ok dir ∧
      ((∃ there, spot = .taken there ∧ s.step dir (splitLast path).2 = .ok there) ∨
        spot = .free (dir ++ [(splitLast path).2]) ∧
          s.step dir (splitLast path).2 = .error .notFound) := by
  obtain ⟨⟨dir, last⟩, hparent, hspot⟩ := bind_eq_ok.mp h
  obtain ⟨_, hcheck, hdir⟩ := bind_eq_ok.mp hparent
  obtain ⟨dir', hwalk, hpair⟩ := bind_eq_ok.mp hdir
  split at hpair
  · obtain ⟨rfl, rfl⟩ := Prod.mk.inj (Except.ok.inj hpair)
    refine ⟨hcheck, dir', hwalk, ?_⟩
    dsimp only at hspot
    split at hspot
    · next there hstep => exact .inl ⟨there, (Except.ok.inj hspot).symm, hstep⟩
    · next hstep => exact .inr ⟨(Except.ok.inj hspot).symm, hstep⟩
    · cases hspot
  · cases hpair

/-- A name that is free leads to the entry that is put there later. -/
theorem step_of_notFound {piece : String} (h : s.step route piece = .error .notFound) :
    s.entryAt (route ++ [piece]) = none ∧
      ∀ {s' : Store} {entry : Entry}, Extends s s' → s'.entryAt (route ++ [piece]) = some entry →
        s'.step route piece = .ok (route ++ [piece]) := by
  unfold step at h
  split at h
  · cases h
  next hwalk =>
  split at h
  · cases h
  split at h
  · cases h
  split at h
  · cases h
  split at h
  · cases h
  next hfree =>
  refine ⟨Option.not_isSome_iff_eq_none.mp hfree, fun {s' entry} hextends hentry => ?_⟩
  have hwalk' : s'.isWalkable route = true := hextends.isWalkable (by simpa using hwalk)
  unfold step
  simp [*]

theorem foldlM_step_replicate (h : s.isWalkable route = true) (n : Nat) :
    (List.replicate n "").foldlM s.step route = .ok route := by
  induction n with
  | zero => rfl
  | succ n ih =>
    refine foldlM_cons_eq_ok.mpr ⟨route, ?_, ih⟩
    unfold step
    rw [h]
    rfl

/-- A path that does not end in a slash leads to what stands at its last piece. -/
theorem locate_of_locateNew {there : Route} (h : s.locateNew path = .ok (.taken there))
    (hslash : endsInSlash path = false) : s.locate path = .ok there := by
  obtain ⟨hcheck, dir, hbefore, ⟨_, hspot, hstep⟩ | ⟨hspot, _⟩⟩ := locateNew_cases h
  · cases hspot
    obtain ⟨slashes, hpieces, hnone⟩ := exists_pieces_eq path
    rw [hnone (ne_empty_of_checkPath hcheck) hslash] at hpieces
    refine bind_eq_ok.mpr ⟨_, hcheck, ?_⟩
    rw [hpieces, List.foldlM_append]
    exact bind_eq_ok.mpr ⟨dir, hbefore, foldlM_cons_eq_ok.mpr ⟨there, hstep, rfl⟩⟩
  · cases hspot

/-- **An entry put where a path has room for one is what the path leads to.** -/
theorem locate_put_of_locateNew (h : s.locateNew path = .ok (.free route)) :
    s.entryAt route = none ∧ ∀ entry,
      entry = .directory ∨ endsInSlash path = false →
        (s.put route entry).locate path = .ok route := by
  obtain ⟨hcheck, dir, hbefore, ⟨_, hspot, _⟩ | ⟨hspot, hstep⟩⟩ := locateNew_cases h
  · cases hspot
  · cases hspot
    obtain ⟨hfree, hdown⟩ := step_of_notFound hstep
    have hroute : ¬ dir ++ [(splitLast path).2] <+: s.workingDirectory :=
      not_above_of_entryAt (by rw [hfree]; simp)
    refine ⟨hfree, fun entry hentry => ?_⟩
    have hextends : Extends s (s.put _ entry) := extends_put hroute (.inl hfree)
    obtain ⟨slashes, hpieces, hnone⟩ := exists_pieces_eq path
    refine bind_eq_ok.mpr ⟨_, hcheck, ?_⟩
    rw [hpieces, List.foldlM_append, start_congr hextends.workingDirectory]
    refine bind_eq_ok.mpr ⟨_, hextends.foldlM_step hbefore, ?_⟩
    refine foldlM_cons_eq_ok.mpr ⟨_, hdown hextends (entryAt_put_self hroute), ?_⟩
    rcases hentry with rfl | hslash
    · -- slashes behind a directory stay at it
      have hwalk : (s.put _ .directory).isWalkable (dir ++ [(splitLast path).2]) = true :=
        beq_iff_eq.mpr (entryAt_put_self hroute)
      exact foldlM_step_replicate hwalk slashes
    · rw [hnone (ne_empty_of_checkPath hcheck) hslash]
      rfl

end New

/-! ## Edits -/

/-- What edits may have done at a route: nothing, or a file was written that one of `files` leads
to, or a directory was made that one of `dirs` leads to. -/
inductive Edited (files dirs : List Path) (s s' : Store) (route : Route) : Prop
  | same (kept : s'.entryAt route = s.entryAt route)
  | file {path : Path} {content : Content} (named : path ∈ files)
      (leads : s'.locate path = .ok route)
      (old : s.entryAt route ≠ some .directory)
      (new : s'.entryAt route = some (.file content))
  | made {path : Path} (named : path ∈ dirs) (leads : s'.locate path = .ok route)
      (old : s.entryAt route = none) (new : s'.entryAt route = some .directory)

/-- From `s` to `s'` only files that `files` name were written and only missing directories that
`dirs` name were made. -/
structure ChangesOnly (files dirs : List Path) (s s' : Store) : Prop where
  workingDirectory : s'.workingDirectory = s.workingDirectory
  edited : ∀ route, Edited files dirs s s' route

section Edits
variable {s s' s'' : Store} {files dirs : List Path} {path : Path}

theorem ChangesOnly.refl (files dirs : List Path) (s : Store) : ChangesOnly files dirs s s :=
  ⟨rfl, fun _ => .same rfl⟩

theorem ChangesOnly.mono {files' dirs' : List Path} (h : ChangesOnly files dirs s s')
    (hfiles : files ⊆ files') (hdirs : dirs ⊆ dirs') : ChangesOnly files' dirs' s s' := by
  refine ⟨h.workingDirectory, fun route => ?_⟩
  cases h.edited route with
  | same kept => exact .same kept
  | file named leads old new => exact .file (hfiles named) leads old new
  | made named leads old new => exact .made (hdirs named) leads old new

theorem ChangesOnly.extends (h : ChangesOnly files dirs s s') : Extends s s' where
  workingDirectory := h.workingDirectory
  directory := by
    intro route hentry
    cases h.edited route with
    | same kept => rw [kept, hentry]
    | file _ _ old _ => exact absurd hentry old
    | made _ _ _ new => exact new
  file := by
    intro route content hentry
    cases h.edited route with
    | same kept => exact ⟨content, by rw [kept, hentry]⟩
    | file _ _ _ new => exact ⟨_, new⟩
    | made _ _ old _ =>
      rw [old] at hentry
      cases hentry

theorem ChangesOnly.trans (h : ChangesOnly files dirs s s') (h' : ChangesOnly files dirs s' s'') :
    ChangesOnly files dirs s s'' := by
  refine ⟨h'.workingDirectory.trans h.workingDirectory, fun route => ?_⟩
  have hlocate : ∀ {path route}, s'.locate path = .ok route → s''.locate path = .ok route :=
    h'.extends.locate
  cases h'.edited route with
  | same kept =>
    cases h.edited route with
    | same kept' => exact .same (kept.trans kept')
    | file named leads old new => exact .file named (hlocate leads) old (kept.trans new)
    | made named leads old new => exact .made named (hlocate leads) old (kept.trans new)
  | file named leads old new =>
    refine .file named leads (fun hdirectory => old ?_) new
    exact h.extends.directory route hdirectory
  | made named leads old new =>
    refine .made named leads ?_ new
    -- an entry that was there would be there still
    by_contra hsome
    obtain ⟨entry, hentry⟩ := Option.ne_none_iff_exists'.mp hsome
    obtain ⟨entry', hentry'⟩ := h.extends.exists_entryAt hentry
    rw [hentry'] at old
    cases old

/-- A put entry is an edit at its route. -/
theorem changesOnly_put {route : Route} {entry : Entry} (h : s.entryAt route ≠ some .directory)
    (hedited : Edited files dirs s (s.put route entry) route) :
    ChangesOnly files dirs s (s.put route entry) := by
  refine ⟨workingDirectory_put, fun other => ?_⟩
  by_cases hother : other = route
  · rw [hother]
    exact hedited
  · exact .same (entryAt_put_of_ne (not_above_of_entryAt h) hother)

/-- Making a directory makes that directory. -/
theorem changesOnly_makeDirectory (h : s.makeDirectory path = .ok s') :
    ChangesOnly [] [path] s s' := by
  obtain ⟨spot, hspot, hmade⟩ := bind_eq_ok.mp h
  cases spot with
  | taken there => cases hmade
  | free route =>
    cases hmade
    obtain ⟨hfree, hleads⟩ := locate_put_of_locateNew hspot
    have hold : s.entryAt route ≠ some .directory := by
      rw [hfree]
      simp
    exact changesOnly_put hold (.made (List.mem_singleton_self path) (hleads .directory (.inl rfl))
      hfree (entryAt_put_self (not_above_of_entryAt hold)))

/-- **Making a chain of directories makes some of them, whether or not it gets to its end.** -/
theorem changesOnly_makeChain (s : Store) (paths : List Path) :
    ChangesOnly [] paths s (s.makeChain paths).1 := by
  induction paths with
  | nil => exact .refl _ _ _
  | cons path above ih =>
    have htail : ChangesOnly [] (path :: above) s (s.makeChain above).1 :=
      ih.mono (List.Subset.refl _) (List.subset_cons_self path above)
    have hhead : ∀ {t t' : Store}, t.makeDirectory path = .ok t' →
        ChangesOnly [] (path :: above) t t' := fun hmade =>
      (changesOnly_makeDirectory hmade).mono (List.Subset.refl _) (by simp)
    unfold makeChain
    split
    · next hmade => exact hhead hmade
    · split
      · next hchain =>
        rw [hchain] at htail
        exact htail
      · next hchain =>
        rw [hchain] at htail
        split
        · next hmade => exact htail.trans (hhead hmade)
        · exact htail
    · exact .refl _ _ _

/-- What is known of a disk after a file was put on it. -/
theorem changesOnly_putContent {content : Content} (h : s.putContent path content = .ok s') :
    ChangesOnly [path] [] s s' ∧ ∃ route, s'.locate path = .ok route ∧
      s'.entryAt route = some (.file content) := by
  obtain ⟨_, _, hput⟩ := bind_eq_ok.mp h
  split at hput
  · cases hput
  next hslash =>
  rw [Bool.not_eq_true] at hslash
  have hwritten : ∀ {route}, s.entryAt route ≠ some .directory →
      (s.put route (.file content)).locate path = .ok route →
      ChangesOnly [path] [] s (s.put route (.file content)) ∧
        ∃ route', (s.put route (.file content)).locate path = .ok route' ∧
          (s.put route (.file content)).entryAt route' = some (.file content) := by
    intro route hold hleads
    have hnew := @entryAt_put_self _ _ (.file content) (not_above_of_entryAt hold)
    exact ⟨changesOnly_put hold (.file (List.mem_singleton_self path) hleads hold hnew),
      route, hleads, hnew⟩
  obtain ⟨spot, hspot, hput⟩ := bind_eq_ok.mp hput
  cases spot with
  | taken route =>
    dsimp only at hput
    split at hput
    · cases hput
    next hdirectory =>
    cases hput
    have hold : s.entryAt route ≠ some .directory := by simpa [isWalkable] using hdirectory
    have hextends : Extends s (s.put route (.file content)) :=
      extends_put (not_above_of_entryAt hold) (.inr ⟨content, rfl, hold⟩)
    exact hwritten hold (hextends.locate (locate_of_locateNew hspot hslash))
  | free route =>
    cases hput
    obtain ⟨hfree, hleads⟩ := locate_put_of_locateNew hspot
    exact hwritten (by rw [hfree]; simp) (hleads _ (.inr hslash))

/-- A file is put where its directories have been made. -/
theorem putFile_cases {content : Content} (h : s.putFile path content = (s', .ok ())) :
    (s.makeChain path.directories).1.putContent path content = .ok s' := by
  unfold putFile at h
  split at h
  next t made hmade =>
  have hchain : s.makeChain path.directories = (t, made) := by
    unfold Path.directories
    cases hparent : path.parent? with
    | none =>
      rw [hparent] at hmade
      exact hmade
    | some dir =>
      rw [hparent] at hmade
      exact hmade
  rw [hchain]
  split at h
  · cases h
  · split at h
    · next hput =>
      cases h
      exact hput
    · cases h

end Edits

/-! ## Saving a text -/

section Save
variable {s s' : Store} {path : Path} {text : String}

/-- A text is read where a path leads to a file that holds it. -/
theorem readText_eq_ok : s.readText path = .ok text ↔
    ∃ route, s.locate path = .ok route ∧ s.entryAt route = some (.file (.text text)) := by
  constructor
  · intro h
    obtain ⟨content, hread, htext⟩ := bind_eq_ok.mp h
    have hcontent : content = .text text := by
      cases content with
      | text t =>
        cases htext
        rfl
      | binary bytes => cases htext
    have hisFile : s.isFile path = true := by
      unfold isFile
      rw [hread]
    obtain ⟨route, content', hlocate, hentry, hread'⟩ := exists_route_of_isFile hisFile
    rw [hread, hcontent] at hread'
    cases hread'
    exact ⟨route, hlocate, hentry⟩
  · rintro ⟨route, hlocate, hentry⟩
    unfold readText readContent
    simp [hlocate, hentry, bind, Except.bind, Content.text?]

/-- What a path leads to reads as before when no written file stands there. -/
theorem ChangesOnly.readText {files dirs : List Path} (h : ChangesOnly files dirs s s')
    (hread : s.readText path = .ok text)
    (hother : ∀ file ∈ files, s'.locate file ≠ s'.locate path) :
    s'.readText path = .ok text := by
  obtain ⟨route, hlocate, hentry⟩ := readText_eq_ok.mp hread
  have hlocate' := h.extends.locate hlocate
  refine readText_eq_ok.mpr ⟨route, hlocate', ?_⟩
  cases h.edited route with
  | same kept => rw [kept, hentry]
  | file named leads => exact absurd (leads.trans hlocate'.symm) (hother _ named)
  | made _ _ old _ =>
    rw [hentry] at old
    cases old

/-- **A text that is there already is left alone.** -/
theorem save_of_readText (h : s.readText path = .ok text) :
    s.save path text = (s, .ok .unchanged) :=
  if_pos (toOption_eq_some.mpr h)

/-- **A saved text can be read, and nothing changed but the file and missing directories.** -/
theorem save_cases {status : WriteStatus} (h : s.save path text = (s', .ok status)) :
    s'.readText path = .ok text ∧ ChangesOnly [path] path.directories s s' := by
  unfold save at h
  split at h
  · next hread =>
    cases h
    exact ⟨toOption_eq_some.mp hread, .refl _ _ _⟩
  · split at h
    · next hput =>
      cases h
      obtain ⟨hchanges, hholds⟩ := changesOnly_putContent (putFile_cases hput)
      have hchain := changesOnly_makeChain s path.directories
      refine ⟨readText_eq_ok.mpr hholds, ?_⟩
      exact (hchain.mono (List.nil_subset _) (List.Subset.refl _)).trans
        (hchanges.mono (List.Subset.refl _) (List.nil_subset _))
    · cases h

end Save

end Store

end RpcBindings.Disk

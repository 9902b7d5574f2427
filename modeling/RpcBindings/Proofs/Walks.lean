import RpcBindings.Disk.Store
import RpcBindings.Proofs.DottedNames
import RpcBindings.Proofs.Runs

/-! # Where paths lead

A path is walked piece by piece, from the root directory or from the working directory.  Pieces
that name nothing leave the walk where it is, so where a walk ends is told by the components of
the path: two spellings with the same components lead to one file
(`readContent_of_sameComponents`).  The other way round the place tells the name: a walk that ends
at a file ends with the name of the file, so all paths to a file have its extension
(`fileName?_of_locate`).

What a walk meets on its way are names and directories only.  Two disks that differ in what one
file holds are therefore walked alike (`SameBut.locate`), and all other files read alike
(`SameBut.readContent`).
-/
namespace RpcBindings.Disk

open RpcBindings.Text (pieces)

/-! ## Components -/

/-- The pieces of a path that move a walk. -/
def Path.moves (path : Path) : List String :=
  (pieces '/' path).filter fun piece => !isIdle piece

theorem ne_slash_of_mem_pieces {path : Path} {piece : String} (h : piece ∈ pieces '/' path) :
    piece ≠ "/" := by
  obtain ⟨cs, hcs, rfl⟩ := List.mem_map.mp h
  intro he
  have hslash : '/' ∈ cs := by
    rw [← String.toList_ofList (l := cs), he]
    decide
  exact Text.notMem_of_mem_splitOn hcs hslash

/-- A path has a first piece, and it is empty exactly when the path starts with a slash or is
empty itself. -/
theorem exists_pieces (path : Path) :
    ∃ first rest, pieces '/' path = first :: rest ∧
      ((first ≠ "" ∧ path.isAbsolute = false) ∨
        (first = "" ∧ path.isAbsolute = true) ∨
        (first = "" ∧ rest = [] ∧ path.isAbsolute = false)) := by
  unfold pieces Path.isAbsolute
  cases path.toList with
  | nil => exact ⟨"", [], rfl, Or.inr (Or.inr ⟨rfl, rfl, rfl⟩)⟩
  | cons c cs =>
    rw [Text.splitOn]
    split
    · next hc => exact ⟨_, _, rfl, Or.inr (Or.inl ⟨rfl, by simp [hc]⟩)⟩
    · next hc =>
      split
      · exact ⟨_, _, rfl, Or.inl ⟨by simp, by simpa using hc⟩⟩
      · exact ⟨_, _, rfl, Or.inl ⟨by simp, by simpa using hc⟩⟩

/-- What moves a walk is told by the components. -/
theorem moves_eq_filter (path : Path) :
    path.moves = path.components.filter fun c => c != "/" && !Path.isIdle c := by
  obtain ⟨first, rest, hpieces, hfirst⟩ := exists_pieces path
  have hslash : ∀ piece ∈ first :: rest, (piece != "/") = true := fun piece hpiece =>
    bne_iff_ne.mpr (ne_slash_of_mem_pieces (hpieces ▸ hpiece))
  have hrest : (rest.filter fun piece => !Path.isIdle piece).filter
      (fun c => c != "/" && !Path.isIdle c) = rest.filter fun piece => !Path.isIdle piece := by
    refine List.filter_eq_self.mpr fun piece hpiece => ?_
    rw [List.mem_filter] at hpiece
    rw [hslash piece (List.mem_cons_of_mem _ hpiece.1), hpiece.2]
    rfl
  have hhead := hslash first (List.mem_cons_self ..)
  rw [Path.moves, Path.components, hpieces]
  dsimp only
  rw [List.filter_append, hrest, List.filter_cons]
  rcases hfirst with ⟨hne, _⟩ | ⟨rfl, habsolute⟩ | ⟨rfl, rfl, habsolute⟩
  · rw [if_pos (bne_iff_ne.mpr hne), List.filter_cons, List.filter_nil, hhead,
      Bool.true_and]
    cases Path.isIdle first <;> rfl
  · rw [habsolute]
    rfl
  · rw [habsolute]
    rfl

theorem isAbsolute_iff (path : Path) :
    path.isAbsolute = true ↔ path.components.head? = some "/" := by
  obtain ⟨first, rest, hpieces, hfirst⟩ := exists_pieces path
  have hslash : first ≠ "/" := ne_slash_of_mem_pieces (hpieces ▸ List.mem_cons_self ..)
  rw [Path.components, hpieces]
  rcases hfirst with ⟨hne, habsolute⟩ | ⟨rfl, habsolute⟩ | ⟨rfl, rfl, habsolute⟩
  · simp [habsolute, hne, hslash]
  · simp [habsolute]
  · simp [habsolute]

theorem hasExtension_of_sameComponents {p q : Path} (h : Path.sameComponents p q = true)
    (extension : String) : p.hasExtension extension = q.hasExtension extension := by
  have hcomponents : p.components = q.components := eq_of_beq h
  unfold Path.hasExtension Path.extension? Path.fileName?
  rw [hcomponents]

namespace Store

/-! ## One step of a walk -/

section Steps
variable {s : Store} {route route' : Route} {piece : String}

/-- The working directory and the directories above it are always there. -/
theorem entryAt_above (h : route <+: s.workingDirectory) : s.entryAt route = some .directory :=
  if_pos (List.isPrefixOf_iff_prefix.mpr h)

theorem start_congr {s' : Store} (h : s'.workingDirectory = s.workingDirectory) (path : Path) :
    s'.start path = s.start path := by
  unfold start
  rw [h]

theorem entryAt_start (s : Store) (path : Path) : s.entryAt (s.start path) = some .directory := by
  unfold start
  split
  · exact entryAt_above List.nil_prefix
  · exact entryAt_above (List.prefix_refl _)

/-- What a step can do: stay, go up, or go down to something that is there. -/
theorem step_cases (h : s.step route piece = .ok route') :
    s.isWalkable route = true ∧
      ((Path.isIdle piece = true ∧ route' = route) ∨
        (Path.isIdle piece = false ∧ piece = ".." ∧ route' = route.dropLast) ∨
        (Path.isIdle piece = false ∧ piece ≠ ".." ∧ route' = route ++ [piece])) := by
  unfold step at h
  split at h
  · cases h
  next hwalk =>
  refine ⟨by simpa using hwalk, ?_⟩
  split at h
  · next hidle =>
    cases h
    exact .inl ⟨hidle, rfl⟩
  next hidle =>
  have hidle := Bool.eq_false_iff.mpr hidle
  split at h
  · next hup =>
    cases h
    exact .inr (.inl ⟨hidle, eq_of_beq hup, rfl⟩)
  next hup =>
  split at h
  · cases h
  split at h
  · cases h
    exact .inr (.inr ⟨hidle, by simpa using hup, rfl⟩)
  · cases h

end Steps

/-! ## Spellings -/

section Spellings
variable {s : Store}

/-- Pieces that name nothing can be left out of a walk. -/
theorem foldlM_step_filter {names : List String} {route route' : Route}
    (h : names.foldlM s.step route = .ok route') :
    (names.filter fun piece => !Path.isIdle piece).foldlM s.step route = .ok route' := by
  induction names generalizing route with
  | nil => exact h
  | cons piece rest ih =>
    obtain ⟨between, hstep, hrest⟩ := foldlM_cons_eq_ok.mp h
    rw [List.filter_cons]
    rcases (step_cases hstep).2 with ⟨hidle, rfl⟩ | ⟨hidle, _⟩ | ⟨hidle, _⟩
    · rw [hidle, if_neg (by simp)]
      exact ih hrest
    · rw [hidle, if_pos (by simp)]
      exact foldlM_cons_eq_ok.mpr ⟨between, hstep, ih hrest⟩
    · rw [hidle, if_pos (by simp)]
      exact foldlM_cons_eq_ok.mpr ⟨between, hstep, ih hrest⟩

/-- A path that leads somewhere leads there by the pieces that move. -/
theorem foldlM_moves {path : Path} {route : Route} (h : s.locate path = .ok route) :
    path.moves.foldlM s.step (s.start path) = .ok route := by
  obtain ⟨_, _, hwalk⟩ := bind_eq_ok.mp h
  exact foldlM_step_filter hwalk

/-- Spellings with the same components that lead somewhere lead to the same place. -/
theorem locate_of_sameComponents {p q : Path} (h : Path.sameComponents p q = true)
    {route route' : Route} (hp : s.locate p = .ok route) (hq : s.locate q = .ok route') :
    route = route' := by
  have hcomponents : p.components = q.components := eq_of_beq h
  have hmoves : p.moves = q.moves := by rw [moves_eq_filter, moves_eq_filter, hcomponents]
  have habsolute : p.isAbsolute = q.isAbsolute := by
    rw [Bool.eq_iff_iff, isAbsolute_iff, isAbsolute_iff, hcomponents]
  have hstart : s.start p = s.start q := by rw [start, start, habsolute]
  have hwalk := foldlM_moves hp
  rw [hmoves, hstart, foldlM_moves hq] at hwalk
  exact (Except.ok.inj hwalk).symm

theorem exists_route_of_isFile {path : Path} (h : s.isFile path = true) :
    ∃ route content, s.locate path = .ok route ∧
      s.entryAt route = some (.file content) ∧ s.readContent path = .ok content := by
  unfold isFile at h
  split at h
  · next content hread =>
    obtain ⟨route, hlocate, hentry⟩ := bind_eq_ok.mp hread
    refine ⟨route, content, hlocate, ?_, hread⟩
    split at hentry
    · next hfile =>
      cases hentry
      exact hfile
    · cases hentry
    · cases hentry
  · cases h

/-- **Spellings of a file with the same components read alike.** -/
theorem readContent_of_sameComponents {p q : Path} (h : Path.sameComponents p q = true)
    (hp : s.isFile p = true) (hq : s.isFile q = true) : s.readContent p = s.readContent q := by
  obtain ⟨route, content, hlocate, hentry, hread⟩ := exists_route_of_isFile hp
  obtain ⟨route', content', hlocate', hentry', hread'⟩ := exists_route_of_isFile hq
  cases locate_of_sameComponents h hlocate hlocate'
  rw [hentry] at hentry'
  cases hentry'
  rw [hread, hread']

end Spellings

/-! ## Names of files -/

/-- Everything above a route that a walk has reached is a directory. -/
def Grounded (s : Store) (route : Route) : Prop :=
  ∀ above, above <+: route → above ≠ route → s.entryAt above = some .directory

section Names
variable {s : Store}

theorem grounded_start (s : Store) (path : Path) : s.Grounded (s.start path) := by
  intro above habove _
  refine entryAt_above (habove.trans ?_)
  unfold start
  split
  · exact List.nil_prefix
  · exact List.prefix_refl _

theorem dropLast_ne_self {route : Route} (h : route ≠ []) : route.dropLast ≠ route := by
  intro heq
  have hlength := congrArg List.length heq
  have hpos := List.length_pos_iff.mpr h
  rw [List.length_dropLast] at hlength
  omega

theorem Grounded.dropLast {route : Route} (h : s.Grounded route) : s.Grounded route.dropLast := by
  intro above habove hne
  refine h above (habove.trans (List.dropLast_prefix route)) ?_
  rintro rfl
  -- only the root directory is not longer than what is above it
  have hlength := habove.length_le
  rw [List.length_dropLast] at hlength
  have hnil : above = [] := List.length_eq_zero_iff.mp (by omega)
  rw [hnil] at hne
  exact hne rfl

theorem Grounded.step {route route' : Route} {piece : String} (h : s.Grounded route)
    (hstep : s.step route piece = .ok route') : s.Grounded route' := by
  obtain ⟨hwalk, ⟨_, rfl⟩ | ⟨_, _, rfl⟩ | ⟨_, _, rfl⟩⟩ := step_cases hstep
  · exact h
  · exact h.dropLast
  · intro above habove hne
    rcases List.prefix_concat_iff.mp habove with heq | hprefix
    · exact absurd heq hne
    · by_cases heq : above = route
      · rw [heq]
        exact eq_of_beq hwalk
      · exact h above hprefix heq

theorem Grounded.foldlM {names : List String} {route route' : Route} (h : s.Grounded route)
    (hwalk : names.foldlM s.step route = .ok route') : s.Grounded route' := by
  induction names generalizing route with
  | nil =>
    cases hwalk
    exact h
  | cons piece rest ih =>
    obtain ⟨between, hstep, hrest⟩ := foldlM_cons_eq_ok.mp hwalk
    exact ih (h.step hstep) hrest

/-- A step that ends at a file goes down to its name. -/
theorem step_to_file {route route' : Route} {piece : String} {content : Content}
    (hground : s.Grounded route) (hstep : s.step route piece = .ok route')
    (hentry : s.entryAt route' = some (.file content)) :
    Path.isIdle piece = false ∧ piece ≠ ".." ∧ route'.getLast? = some piece := by
  obtain ⟨hwalk, ⟨_, rfl⟩ | ⟨_, _, rfl⟩ | ⟨hidle, hup, rfl⟩⟩ := step_cases hstep
  · -- what a step stays at is a directory
    have hdirectory : s.entryAt route' = some .directory := eq_of_beq hwalk
    rw [hentry] at hdirectory
    cases hdirectory
  · have hdirectory : s.entryAt route.dropLast = some .directory := by
      by_cases hnil : route = []
      · rw [hnil]
        exact entryAt_above List.nil_prefix
      · exact hground _ (List.dropLast_prefix route) (dropLast_ne_self hnil)
    rw [hentry] at hdirectory
    cases hdirectory
  · exact ⟨hidle, hup, List.getLast?_concat⟩

theorem getLast?_components {path : Path} {last : String}
    (h : path.moves.getLast? = some last) : path.components.getLast? = some last := by
  obtain ⟨first, rest, hpieces, _⟩ := exists_pieces path
  rw [Path.moves, hpieces, List.filter_cons] at h
  rw [Path.components, hpieces]
  dsimp only
  rw [List.getLast?_append]
  cases hrest : (rest.filter fun piece => !Path.isIdle piece).getLast? with
  | some x =>
    split at h
    · rw [List.getLast?_cons, hrest] at h
      exact h
    · rw [hrest] at h
      exact h
  | none =>
    rw [List.getLast?_eq_none_iff] at hrest
    rw [hrest] at h
    split at h
    · next hidle =>
      cases h
      have hne : first ≠ "" := by
        rintro rfl
        exact absurd hidle (by decide)
      rw [if_pos (bne_iff_ne.mpr hne)]
      rfl
    · cases h

/-- **A path that leads to a file ends with the name of the file.** -/
theorem fileName?_of_locate {path : Path} {route : Route} {content : Content}
    (h : s.locate path = .ok route) (hentry : s.entryAt route = some (.file content)) :
    path.fileName? = route.getLast? := by
  have hwalk := foldlM_moves h
  rcases List.eq_nil_or_concat path.moves with hnil | ⟨before, last, hmoves⟩
  · -- a walk that does not move ends in a directory
    rw [hnil] at hwalk
    cases hwalk
    rw [entryAt_start] at hentry
    cases hentry
  · rw [hmoves, List.concat_eq_append, List.foldlM_append] at hwalk
    obtain ⟨dir, hbefore, hlast⟩ := bind_eq_ok.mp hwalk
    have hstep : s.step dir last = .ok route := by
      simpa only [List.foldlM_cons, List.foldlM_nil, bind_pure] using hlast
    obtain ⟨hidle, hup, hroute⟩ :=
      step_to_file ((grounded_start s path).foldlM hbefore) hstep hentry
    have hmoved : last ∈ path.moves := by
      rw [hmoves, List.concat_eq_append]
      exact List.mem_concat_self
    have hslash : last ≠ "/" := ne_slash_of_mem_pieces (List.mem_filter.mp hmoved).1
    have hdot : last ≠ "." := by
      rintro rfl
      exact absurd hidle (by decide)
    have hcomponent : path.components.getLast? = some last := by
      refine getLast?_components ?_
      rw [hmoves, List.concat_eq_append, List.getLast?_concat]
    unfold Path.fileName?
    rw [hcomponent, hroute]
    simp [hslash, hdot, hup]

/-- Paths that lead to one file have the same extension. -/
theorem hasExtension_of_locate {p q : Path} {route : Route} {content : Content}
    (hp : s.locate p = .ok route) (hq : s.locate q = .ok route)
    (hentry : s.entryAt route = some (.file content)) (extension : String) :
    p.hasExtension extension = q.hasExtension extension := by
  unfold Path.hasExtension Path.extension?
  rw [fileName?_of_locate hp hentry, fileName?_of_locate hq hentry]

end Names

/-! ## Disks that differ in one file -/

/-- The two disks hold the same files and directories and are seen from the same directory, and
the files hold the same but for the one at `route`. -/
structure SameBut (route : Route) (s s' : Store) : Prop where
  workingDirectory : s'.workingDirectory = s.workingDirectory
  isFile : ∃ content content', s.entryAt route = some (.file content) ∧
    s'.entryAt route = some (.file content')
  same : ∀ other, other ≠ route → s'.entryAt other = s.entryAt other

section SameBut
variable {s s' : Store} {route : Route}

theorem SameBut.symm (h : SameBut route s s') : SameBut route s' s where
  workingDirectory := h.workingDirectory.symm
  isFile := by
    obtain ⟨content, content', hfile, hfile'⟩ := h.isFile
    exact ⟨content', content, hfile', hfile⟩
  same := fun other hne => (h.same other hne).symm

theorem SameBut.isWalkable (h : SameBut route s s') (other : Route) :
    s'.isWalkable other = s.isWalkable other := by
  unfold Store.isWalkable
  by_cases heq : other = route
  · obtain ⟨content, content', hfile, hfile'⟩ := h.isFile
    rw [heq, hfile, hfile']
    rfl
  · rw [h.same other heq]

theorem SameBut.isSome_entryAt (h : SameBut route s s') (other : Route) :
    (s'.entryAt other).isSome = (s.entryAt other).isSome := by
  by_cases heq : other = route
  · obtain ⟨content, content', hfile, hfile'⟩ := h.isFile
    rw [heq, hfile, hfile']
    rfl
  · rw [h.same other heq]

theorem SameBut.step (h : SameBut route s s') : s'.step = s.step := by
  funext other piece
  unfold Store.step
  rw [h.isWalkable, h.isSome_entryAt]

/-- **Both disks are walked alike.** -/
theorem SameBut.locate (h : SameBut route s s') (path : Path) : s'.locate path = s.locate path := by
  unfold Store.locate
  rw [h.step, start_congr h.workingDirectory]

theorem SameBut.readContent (h : SameBut route s s') {path : Path}
    (hpath : s.locate path ≠ .ok route) : s'.readContent path = s.readContent path := by
  unfold Store.readContent
  rw [h.locate]
  cases hlocate : s.locate path with
  | error e => rfl
  | ok other =>
    have hne : other ≠ route := by
      rintro rfl
      exact hpath hlocate
    simp only [bind, Except.bind, h.same other hne]

theorem SameBut.isFile_eq (h : SameBut route s s') (path : Path) :
    s'.isFile path = s.isFile path := by
  by_cases hpath : s.locate path = .ok route
  · obtain ⟨content, content', hfile, hfile'⟩ := h.isFile
    unfold Store.isFile Store.readContent
    simp only [h.locate, hpath, bind, Except.bind, hfile, hfile']
  · unfold Store.isFile
    rw [h.readContent hpath]

end SameBut

end Store

end RpcBindings.Disk

import RpcBindings.Proofs.ClassBodies
import RpcBindings.Proofs.ClassNames
import RpcBindings.Proofs.GeneratorAgreement

/-! # What the policy for open methods decides

A method with an open type is left out of all generated code, whatever the policy.  The policy
decides how much that matters and whether a comment marks the gap, and it decides nothing else
(`policy_decides`).

A run reports an omission once, although three passes meet it.  What has been reported after a
pass is known exactly: of the omissions that were met, the first of each full name, in the order
in which the names were first met (`Journal.Covers`).  The first pass meets every omission of the
run, so the later ones add nothing.
-/
namespace RpcBindings

namespace Generate

open RpcBindings.Binding
open RpcBindings.Emit
open RpcBindings.Schema
open RpcBindings.TypeScript (ClassDecl EndsInMember Member endsInMember_add)

/-! ## First omissions -/

/-- For every full name of the omissions, in the order of its first occurrence, the first of
the omissions that has it. -/
def firstOmissions (os : List Omission) : List Omission :=
  (Text.distinct (os.map Omission.fullName)).filterMap fun name =>
    os.find? fun o => o.fullName == name

theorem find?_isSome_of_mem {os : List Omission} {name : String}
    (h : name ∈ os.map Omission.fullName) : (os.find? fun o => o.fullName == name).isSome := by
  obtain ⟨o, ho, rfl⟩ := List.mem_map.mp h
  exact List.find?_isSome.mpr ⟨o, ho, beq_self_eq_true _⟩

/-- There is exactly one first omission of every full name. -/
theorem fullNames_firstOmissions (os : List Omission) :
    (firstOmissions os).map Omission.fullName = Text.distinct (os.map Omission.fullName) := by
  have hfound : ∀ name ∈ Text.distinct (os.map Omission.fullName),
      (os.find? fun o => o.fullName == name).map Omission.fullName = some name := by
    intro name hname
    obtain ⟨o, ho⟩ := Option.isSome_iff_exists.mp
      (find?_isSome_of_mem (Text.mem_distinct.mp hname))
    have hbeq := List.find?_some ho
    rw [ho, Option.map_some, eq_of_beq hbeq]
  rw [firstOmissions, List.map_filterMap, List.filterMap_congr hfound]
  exact List.filterMap_some

theorem mem_fullNames_firstOmissions {os : List Omission} {name : String} :
    name ∈ (firstOmissions os).map Omission.fullName ↔ name ∈ os.map Omission.fullName := by
  rw [fullNames_firstOmissions, Text.mem_distinct]

theorem firstOmissions_concat (os : List Omission) (o : Omission) :
    firstOmissions (os ++ [o]) =
      if o.fullName ∈ os.map Omission.fullName then firstOmissions os
      else firstOmissions os ++ [o] := by
  -- a name that occurs in `os` is found there
  have hold : (Text.distinct (os.map Omission.fullName)).filterMap
      (fun name => (os ++ [o]).find? fun o => o.fullName == name) = firstOmissions os := by
    refine List.filterMap_congr fun name hname => ?_
    obtain ⟨first, hfirst⟩ := Option.isSome_iff_exists.mp
      (find?_isSome_of_mem (Text.mem_distinct.mp hname))
    rw [List.find?_append, hfirst, Option.some_or]
  rw [firstOmissions, List.map_append, List.map_singleton, Text.distinct_concat]
  split
  · exact hold
  · next hnew =>
    have hnone : (os.find? fun o' => o'.fullName == o.fullName) = none := by
      rw [List.find?_eq_none]
      intro o' ho' hbeq
      exact hnew (List.mem_map.mpr ⟨o', ho', eq_of_beq hbeq⟩)
    rw [List.filterMap_append, hold, List.filterMap_cons, List.find?_append, hnone,
      Option.none_or, List.find?_singleton, if_pos (beq_self_eq_true _)]
    rfl

/-- Names that have occurred add nothing. -/
theorem firstOmissions_append {os os' : List Omission}
    (h : ∀ o ∈ os', o.fullName ∈ os.map Omission.fullName) :
    firstOmissions (os ++ os') = firstOmissions os := by
  induction os' generalizing os with
  | nil => rw [List.append_nil]
  | cons o os' ih =>
    have hlater : ∀ o' ∈ os', o'.fullName ∈ (os ++ [o]).map Omission.fullName := by
      intro o' ho'
      rw [List.map_append]
      exact List.mem_append_left _ (h o' (List.mem_cons_of_mem _ ho'))
    rw [List.append_cons, ih hlater, firstOmissions_concat, if_pos (h o (List.mem_cons_self ..))]

/-! ## What a run has reported -/

/-- The omissions of a run, in the order in which a pass meets them. -/
def omissionsMet (roots : List Root) : List Omission :=
  (Tour.ofRoots roots).services.flatMap fun s => s.methods.filterMap Omission.ofMethod?

/-- The journal after the omissions `os` have been met. -/
structure Journal.Covers (policy : Policy) (os : List Omission) (j : Journal) : Prop where
  reported : j.reported = (firstOmissions os).map Omission.fullName
  diagnostics : j.diagnostics = (firstOmissions os).map policy.diagnostic

namespace Journal.Covers

variable {policy : Policy} {os : List Omission} {j : Journal}

theorem start (policy : Policy) : Covers policy [] {} := ⟨rfl, rfl⟩

theorem report (h : Covers policy os j) (o : Omission) :
    Covers policy (os ++ [o]) (j.report policy o) := by
  have hmem : o.fullName ∈ j.reported ↔ o.fullName ∈ os.map Omission.fullName := by
    rw [h.reported, mem_fullNames_firstOmissions]
  unfold Journal.report
  split
  · next hknown =>
    have hold := hmem.mp (List.contains_iff_mem.mp hknown)
    constructor
    · rw [firstOmissions_concat, if_pos hold, h.reported]
    · rw [firstOmissions_concat, if_pos hold, h.diagnostics]
  · next hknown =>
    have hnew : o.fullName ∉ os.map Omission.fullName := fun hold =>
      hknown (List.contains_iff_mem.mpr (hmem.mpr hold))
    constructor
    · rw [firstOmissions_concat, if_neg hnew, h.reported, List.map_append, List.map_singleton]
    · rw [firstOmissions_concat, if_neg hnew, h.diagnostics, List.map_append,
        List.map_singleton]

theorem reportAll (h : Covers policy os j) (os' : List Omission) :
    Covers policy (os ++ os') (os'.foldl (Journal.report policy) j) := by
  induction os' generalizing os j with
  | nil => rwa [List.append_nil]
  | cons o os' ih =>
    rw [List.append_cons]
    exact ih (h.report o)

theorem noteService (h : Covers policy os j) (role : Role) (m : ServiceModel) :
    Covers policy (os ++ m.omissions) (j.noteService policy role m) := by
  -- the event of the service is no report
  have hnoted : Covers policy os
      { j with events := j.events ++ [.serviceEmitted role.text m.fullName] } :=
    ⟨h.reported, h.diagnostics⟩
  exact hnoted.reportAll m.omissions

theorem noteServices (h : Covers policy os j) (role : Role) (ms : List ServiceModel) :
    Covers policy (os ++ ms.flatMap ServiceModel.omissions)
      (ms.foldl (Journal.noteService policy role) j) := by
  induction ms generalizing os j with
  | nil => rwa [List.flatMap_nil, List.append_nil]
  | cons m ms ih =>
    rw [List.flatMap_cons, ← List.append_assoc]
    exact ih (h.noteService role m)

/-- **A pass meets every omission of the run.** -/
theorem pass (h : Covers policy os j) (role : Role) (roots : List Root) :
    Covers policy (os ++ omissionsMet roots) (pass policy role roots j).2 := by
  have homissions : (modelsFor role roots).flatMap ServiceModel.omissions = omissionsMet roots := by
    rw [modelsFor, List.flatMap_map]
    rfl
  rw [← homissions]
  exact h.noteServices role (modelsFor role roots)

/-- A further pass over the same schemas reports nothing. -/
theorem pass_again {roots : List Root} (h : Covers policy (omissionsMet roots) j) (role : Role) :
    Covers policy (omissionsMet roots) (Generate.pass policy role roots j).2 := by
  have hagain : firstOmissions (omissionsMet roots ++ omissionsMet roots) =
      firstOmissions (omissionsMet roots) :=
    firstOmissions_append fun o ho => List.mem_map_of_mem ho
  obtain ⟨hreported, hdiagnostics⟩ := h.pass role roots
  rw [hagain] at hreported hdiagnostics
  exact ⟨hreported, hdiagnostics⟩

end Journal.Covers

/-- The journal of a whole run. -/
theorem covers_run (policy : Policy) (roots : List Root) :
    Journal.Covers policy (omissionsMet roots)
      (pass policy .manifest roots
        (pass policy .server roots (pass policy .client roots {}).2).2).2 :=
  (((Journal.Covers.start policy).pass .client roots).pass_again .server).pass_again .manifest

theorem diagnostics_run (options : Options) (policy : Policy) (roots : List Root) :
    (run options policy roots).diagnostics =
      (firstOmissions (omissionsMet roots)).map policy.diagnostic :=
  (covers_run policy roots).diagnostics

theorem skippedMethods_run (options : Options) (policy : Policy) (roots : List Root) :
    (run options policy roots).stats.skippedMethods =
      (firstOmissions (omissionsMet roots)).length := by
  have hreported := congrArg List.length (covers_run policy roots).reported
  rwa [List.length_map] at hreported

/-! ## Omissions in classes -/

/-- The blank and the comment that stand for a method that is left out. -/
def omissionNote (o : Omission) : List Member := [.blank, .comment (omissionComment o)]

/-- The class with notes on methods that are left out behind its members. -/
def withNotes (c : ClassDecl) (os : List Omission) : ClassDecl :=
  { c with members := c.members ++ os.flatMap omissionNote }

theorem foldl_addComment {c : ClassDecl} (h : EndsInMember c) (os : List Omission) :
    os.foldl (fun c o => c.addBlank.addComment (omissionComment o)) c = withNotes c os ∧
      EndsInMember (withNotes c os) := by
  induction os generalizing c with
  | nil =>
    have hnil : withNotes c [] = c := by
      rw [withNotes, List.flatMap_nil, List.append_nil]
    rw [hnil]
    exact ⟨rfl, h⟩
  | cons o os ih =>
    have hnoted : EndsInMember (c.addBlank.addComment (omissionComment o)) :=
      endsInMember_add _ rfl
    have hcons : withNotes (c.addBlank.addComment (omissionComment o)) os =
        withNotes c (o :: os) := by
      rw [h.addBlank]
      simp [withNotes, omissionNote, ClassDecl.addComment, ClassDecl.add]
    rw [List.foldl_cons, ← hcons]
    exact ih hnoted

theorem endsInMember_foldl {α : Type} (method : α → TypeScript.Method) (xs : List α)
    {c : ClassDecl} (h : EndsInMember c) :
    EndsInMember (xs.foldl (fun c x => c.addBlank.addMethod (method x)) c) := by
  induction xs generalizing c with
  | nil => exact h
  | cons x xs ih => exact ih (endsInMember_add _ rfl)

theorem classOf_client (m : ServiceModel) :
    Client.classOf m = withNotes (Client.classOf { m with omissions := [] }) m.omissions ∧
      EndsInMember (Client.classOf m) := by
  have hbody : EndsInMember (Client.classOf { m with omissions := [] }) :=
    endsInMember_foldl (Client.method m) m.endpoints (endsInMember_add _ rfl)
  obtain ⟨heq, hends⟩ := foldl_addComment hbody m.omissions
  have hclass : Client.classOf m =
      withNotes (Client.classOf { m with omissions := [] }) m.omissions := heq
  exact ⟨hclass, hclass ▸ hends⟩

theorem classOf_server (m : ServiceModel) :
    Server.classOf m = withNotes (Server.classOf { m with omissions := [] }) m.omissions ∧
      EndsInMember (Server.classOf m) := by
  have hbody : EndsInMember (Server.classOf { m with omissions := [] }) :=
    endsInMember_foldl Server.abstractMethod m.endpoints (endsInMember_add _ rfl)
  obtain ⟨heq, hends⟩ := foldl_addComment hbody m.omissions
  have hclass : Server.classOf m =
      withNotes (Server.classOf { m with omissions := [] }) m.omissions := heq
  exact ⟨hclass, hclass ▸ hends⟩

/-! ## The policies compared -/

theorem exportedClasses_eq (policy : Policy) (roots : List Root) :
    exportedClasses policy roots =
      (shownModels policy .client roots).map Client.classOf ++
        (shownModels policy .server roots).map Server.classOf := by
  simp only [exportedClasses, pass_fst]

/-- Every class of a run ends in a member, so it is written as it was put together. -/
theorem endsInMember_exportedClasses (policy : Policy) (roots : List Root) :
    ∀ c ∈ exportedClasses policy roots, EndsInMember c := by
  intro c hc
  rw [exportedClasses_eq, List.mem_append, List.mem_map, List.mem_map] at hc
  rcases hc with ⟨m, _, rfl⟩ | ⟨m, _, rfl⟩
  · exact (classOf_client m).2
  · exact (classOf_server m).2

/-- The entry of a service in the manifest says nothing of omissions. -/
theorem serviceEntry_shown (policy : Policy) (m : ServiceModel) :
    Manifest.serviceEntry (policy.shown m) = Manifest.serviceEntry m := by
  unfold Policy.shown
  split <;> rfl

theorem manifest_shown (options : Options) (policy : Policy) (roots : List Root) :
    options.manifest (shownModels policy .manifest roots) =
      options.manifest (modelsFor .manifest roots) := by
  have hfragments : Manifest.fragments (shownModels policy .manifest roots) =
      Manifest.fragments (modelsFor .manifest roots) := by
    rw [Manifest.fragments, Manifest.fragments, shownModels, modelsFor, List.isEmpty_map,
      List.isEmpty_map, List.map_map, List.map_map]
    simp only [Function.comp_def, serviceEntry_shown]
  rw [Options.manifest, Options.manifest, Manifest.body, Manifest.body, hfragments]

/-- The full names of the methods with an open type that the services of a run have, in the
order in which a pass meets them. -/
def openMethodNames (roots : List Root) : List String :=
  (Tour.ofRoots roots).services.flatMap fun s =>
    (s.methods.filter fun m => m.resolved?.isNone).map Method.fullName

theorem fullNames_omissions (ms : List Method) :
    (ms.filterMap Omission.ofMethod?).map Omission.fullName =
      (ms.filter fun m => m.resolved?.isNone).map Method.fullName := by
  induction ms with
  | nil => rfl
  | cons m ms ih =>
    rw [List.filterMap_cons, List.filter_cons, Omission.ofMethod?]
    cases m.resolved? with
    | none => exact congrArg (m.fullName :: ·) ih
    | some types => exact ih

theorem fullNames_omissionsMet (roots : List Root) :
    (omissionsMet roots).map Omission.fullName = openMethodNames roots := by
  rw [omissionsMet, List.map_flatMap]
  simp only [fullNames_omissions]
  rfl

/-- What the policy decides in a run over schemas, and what it leaves alone. -/
structure PolicyDecides (options : Options) (roots : List Root) : Prop where
  /-- The manifest is the same under every policy. -/
  manifest : ∀ policy policy',
    (run options policy roots).manifest = (run options policy' roots).manifest
  /-- The counts are the same under every policy. -/
  stats : ∀ policy policy', (run options policy roots).stats = (run options policy' roots).stats
  /-- A warning changes nothing in the bindings. -/
  bindings : (run options .skip roots).bindings = (run options .warn roots).bindings
  /-- The diagnostics say the same of the same methods in the same order. -/
  remarks : ∀ policy policy',
    (run options policy roots).diagnostics.map (fun d => (d.message, d.location)) =
      (run options policy' roots).diagnostics.map fun d => (d.message, d.location)
  /-- Of the methods that are left out, the first of each full name has a diagnostic. -/
  diagnostics : ∀ policy, (run options policy roots).diagnostics =
    (firstOmissions (omissionsMet roots)).map policy.diagnostic
  /-- These names are those of the methods with an open type, in the order in which they are
  first met. -/
  once : (firstOmissions (omissionsMet roots)).map Omission.fullName =
    Text.distinct (openMethodNames roots)
  /-- The methods left out are counted by the diagnostics. -/
  count : ∀ policy, (run options policy roots).diagnostics.length =
    (run options policy roots).stats.skippedMethods
  /-- The policy decides how much an omission matters. -/
  severity :
    (∀ d ∈ (run options .skip roots).diagnostics, d.severity = .info) ∧
    (∀ d ∈ (run options .warn roots).diagnostics, d.severity = .warning) ∧
    ∀ d ∈ (run options .comment roots).diagnostics, d.severity = .warning
  /-- Comments stand behind the members that a class has without them, each behind a blank, one
  for each method of the service that is left out. -/
  classes : exportedClasses .comment roots =
    List.zipWith (fun c s => withNotes c (s.methods.filterMap Omission.ofMethod?))
      (exportedClasses .skip roots)
      ((Tour.ofRoots roots).services ++ (Tour.ofRoots roots).services)
  /-- Every class of a run is written with all members that it has. -/
  written : ∀ policy, ∀ c ∈ exportedClasses policy roots, c.writtenMembers = c.members

theorem withNotes_classes {classOf : ServiceModel → ClassDecl} {role : Role} {roots : List Root}
    (hclass : ∀ m, classOf m = withNotes (classOf { m with omissions := [] }) m.omissions) :
    (shownModels .comment role roots).map classOf =
      List.zipWith (fun c s => withNotes c (s.methods.filterMap Omission.ofMethod?))
        ((shownModels .skip role roots).map classOf) (Tour.ofRoots roots).services := by
  rw [shownModels, shownModels, List.map_map, List.map_map, List.zipWith_map_left,
    List.zipWith_self]
  refine List.map_congr_left fun s _ => ?_
  exact hclass (.ofService role s)

/-- **The policy decides how much an omission matters and whether a comment marks it, and
nothing else.** -/
theorem policy_decides (options : Options) (roots : List Root) : PolicyDecides options roots where
  manifest policy policy' := by
    rw [manifest_run, manifest_run, manifest_shown, manifest_shown]
  stats policy policy' := by
    obtain ⟨hclients, hservers, hlisted⟩ := counts_run options policy roots
    obtain ⟨hclients', hservers', hlisted'⟩ := counts_run options policy' roots
    have hskipped := skippedMethods_run options policy roots
    rw [← skippedMethods_run options policy' roots] at hskipped
    rw [Stats.mk.injEq]
    exact ⟨hclients.trans hclients'.symm, hservers.trans hservers'.symm,
      hlisted.trans hlisted'.symm, hskipped⟩
  bindings := by
    rw [bindings_run, bindings_run]
    rfl
  remarks policy policy' := by
    rw [diagnostics_run, diagnostics_run, List.map_map, List.map_map]
    rfl
  diagnostics policy := diagnostics_run options policy roots
  once := by rw [fullNames_firstOmissions, fullNames_omissionsMet]
  count policy := by rw [diagnostics_run, skippedMethods_run, List.length_map]
  severity := by
    have hall : ∀ policy, ∀ d ∈ (run options policy roots).diagnostics,
        d.severity = policy.severity := by
      intro policy d hd
      rw [diagnostics_run] at hd
      obtain ⟨o, _, rfl⟩ := List.mem_map.mp hd
      rfl
    exact ⟨hall .skip, hall .warn, hall .comment⟩
  classes := by
    have hlength : ((shownModels .skip .client roots).map Client.classOf).length =
        (Tour.ofRoots roots).services.length := by
      rw [List.length_map, length_shownModels]
    rw [exportedClasses_eq, exportedClasses_eq, List.zipWith_append hlength,
      withNotes_classes fun m => (classOf_client m).1,
      withNotes_classes fun m => (classOf_server m).1]
  written policy c hc := (endsInMember_exportedClasses policy roots c hc).writtenMembers

end Generate

end RpcBindings

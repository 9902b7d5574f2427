import Mathlib.Data.List.Nodup
import Mathlib.Data.List.Perm.Basic
import RpcBindings.Proofs.ImportClosure

/-! # The names in an import

The import of the message types is put together from three lists: the outermost scopes that hold
something, the messages outside every scope that methods use, and the interfaces of these messages.
Each list is free of repetitions, and a message that is an outermost scope as well is named once.
That is all the manifest needs, whose import has no interfaces.

Interfaces are not checked against the other names.  The interface of `Foo` is called `IFoo`, and a
message or a scope can be called so, too.  The import of the bindings therefore has no repetition if
and only if nothing that it names has the name of an interface in it (`distinctImports_iff`).
-/
namespace RpcBindings.Generate

open RpcBindings.Disk (Store)
open RpcBindings.Emit (Options)
open RpcBindings.Schema
open RpcBindings.TypeScript (Import)

/-! ## Where the names come from -/

/-- Some method of the schemas uses a message of that name outside every scope. -/
def UsesGlobal (roots : List Root) (name : String) : Prop :=
  ∃ r ∈ roots, ∃ s ∈ servicesAll r.nodes, ∃ m ∈ s.methods, ∃ request response,
    m.resolved? = some (request, response) ∧
      ∃ t ∈ [request, response], t.isRootLevel = true ∧ t.name = name

/-- A node outside every scope holds something, and is imported under that name. -/
def HoldsUnder (roots : List Root) (name : String) : Prop :=
  ∃ r ∈ roots, ∃ n ∈ r.nodes, n.children ≠ [] ∧ Name.first n.name = name

theorem mem_globals {roots : List Root} {name : String} :
    name ∈ (Registry.ofRoots roots).globals ↔ UsesGlobal roots name := by
  simp only [Registry.ofRoots, Text.mem_distinct, List.mem_flatMap, rootLevelTypes,
    List.mem_filterMap, List.mem_map, List.mem_filter]
  constructor
  · rintro ⟨r, hr, s, hs, ⟨request, response⟩, ⟨m, hm, hresolved⟩, t, ⟨ht, hroot⟩, hname⟩
    exact ⟨r, hr, s, hs, m, hm, request, response, hresolved, t, ht, hroot, hname⟩
  · rintro ⟨r, hr, s, hs, m, hm, request, response, hresolved, t, ht, hroot, hname⟩
    exact ⟨r, hr, s, hs, (request, response), ⟨m, hm, hresolved⟩, t, ⟨ht, hroot⟩, hname⟩

/-- A joined path starts like its first name. -/
theorem first_intercalate (name : String) (rest : List String) :
    Name.first (".".intercalate (name :: rest)) = Name.first name := by
  cases rest with
  | nil => rw [String.intercalate_singleton]
  | cons next rest =>
    have hlist : (".".intercalate (name :: next :: rest)).toList =
        name.toList ++ '.' :: (".".intercalate (next :: rest)).toList := by
      simp [String.intercalate_cons_cons]
    rw [Name.first, Name.first, hlist, List.takeWhile_append]
    -- the dot behind the first name ends the first segment, if no dot in it does
    split
    · next hall =>
      have hwhole := (List.takeWhile_prefix (· ≠ '.')).eq_of_length hall
      rw [hwhole, List.takeWhile_cons_of_neg (by simp), List.append_nil]
    · rfl

/-- A container lies at or below a node that holds something. -/
theorem exists_of_mem_containersIn {path : List String} {nodes : List Node} {container : String}
    (h : container ∈ containersIn path nodes) :
    ∃ n ∈ nodes, n.children ≠ [] ∧
      ∃ rest, container = ".".intercalate (path ++ n.name :: rest) := by
  induction nodes using forest_induction generalizing path with
  | nil => cases h
  | scope kind name full children rest ihChildren ih =>
    rw [containersIn, containersOf, List.mem_append, List.mem_append] at h
    rcases h with (h | h) | h
    · cases children with
      | nil => cases h
      | cons first others =>
        refine ⟨_, List.mem_cons_self .., List.cons_ne_nil first others, [], ?_⟩
        exact List.mem_singleton.mp h
    · obtain ⟨n, hn, -, inner, hinner⟩ := ihChildren h
      refine ⟨_, List.mem_cons_self .., List.ne_nil_of_mem hn, n.name :: inner, ?_⟩
      rw [hinner, List.append_assoc]
      rfl
    · obtain ⟨n, hn, hholds⟩ := ih h
      exact ⟨n, List.mem_cons_of_mem _ hn, hholds⟩
  | enum name full rest ih =>
    obtain ⟨n, hn, hholds⟩ := ih h
    exact ⟨n, List.mem_cons_of_mem _ hn, hholds⟩
  | service s rest ih =>
    obtain ⟨n, hn, hholds⟩ := ih h
    exact ⟨n, List.mem_cons_of_mem _ hn, hholds⟩

theorem mem_containersOf_self {n : Node} (h : n.children ≠ []) : n.name ∈ containersOf [] n := by
  cases n with
  | scope kind name full children =>
    have hne : children.isEmpty = false := List.isEmpty_eq_false_iff.mpr h
    rw [containersOf, hne]
    exact List.mem_append_left _ (List.mem_singleton.mpr rfl)
  | enum => exact absurd rfl h
  | service => exact absurd rfl h

theorem mem_topLevel {roots : List Root} {name : String} :
    name ∈ (Registry.ofRoots roots).topLevel ↔ HoldsUnder roots name := by
  rw [Registry.topLevel, Text.mem_distinct, List.mem_map]
  simp only [Registry.ofRoots, Text.mem_distinct, List.mem_flatMap]
  constructor
  · rintro ⟨container, ⟨r, hr, hcontainer⟩, rfl⟩
    obtain ⟨n, hn, hholds, rest, rfl⟩ := exists_of_mem_containersIn hcontainer
    exact ⟨r, hr, n, hn, hholds, (first_intercalate n.name rest).symm⟩
  · rintro ⟨r, hr, n, hn, hholds, hname⟩
    exact ⟨n.name, ⟨r, hr, Registry.mem_containersIn hn (mem_containersOf_self hholds)⟩, hname⟩

/-! ## Repetitions -/

namespace Registry

/-- The names that are imported for messages, without those of interfaces. -/
def plainNames (r : Registry) : List String :=
  r.topLevel ++ r.globals.filter fun name => !r.topLevel.contains name

theorem mem_plainNames {r : Registry} {name : String} :
    name ∈ r.plainNames ↔ name ∈ r.topLevel ∨ name ∈ r.globals := by
  rw [plainNames, List.mem_append, List.mem_filter]
  by_cases htop : name ∈ r.topLevel <;> simp [htop]

/-- A message that is an outermost scope as well adds no name of its own. -/
theorem flatMap_globals (r : Registry) :
    (r.globals.flatMap fun name => if r.topLevel.contains name then [] else [name]) =
      r.globals.filter fun name => !r.topLevel.contains name := by
  induction r.globals with
  | nil => rfl
  | cons name names ih =>
    rw [List.flatMap_cons, ih, List.filter_cons]
    cases r.topLevel.contains name <;> rfl

theorem importNames_false (r : Registry) : r.importNames false = r.plainNames := by
  rw [plainNames, ← flatMap_globals, importNames]
  simp only [Bool.false_eq_true, if_false, List.append_nil]

/-- The interfaces stand behind their messages, so only the order tells the import from its two
parts. -/
theorem importNames_perm (r : Registry) :
    (r.importNames true).Perm (r.plainNames ++ r.globals.map ("I" ++ ·)) := by
  have hinterfaces : (r.globals.flatMap fun name => ["I" ++ name]) =
      r.globals.map ("I" ++ ·) := List.map_eq_flatMap.symm
  have hsplit := List.flatMap_append_perm r.globals
    (fun name => if r.topLevel.contains name then [] else [name]) (fun name => ["I" ++ name])
  rw [flatMap_globals, hinterfaces] at hsplit
  rw [importNames, plainNames, List.append_assoc]
  exact hsplit.symm.append_left r.topLevel

theorem nodup_plainNames {r : Registry} (h : r.globals.Nodup) : r.plainNames.Nodup := by
  refine List.nodup_append.mpr ⟨Text.nodup_distinct _, h.filter _, ?_⟩
  rintro name htop _ hglobal rfl
  have hnot := (List.mem_filter.mp hglobal).2
  rw [List.contains_iff_mem.mpr htop] at hnot
  cases hnot

theorem nodup_importNames_iff {r : Registry} (h : r.globals.Nodup) :
    (r.importNames true).Nodup ↔
      ∀ name ∈ r.globals, "I" ++ name ∉ r.globals ∧ "I" ++ name ∉ r.topLevel := by
  have hinterfaces : (r.globals.map ("I" ++ ·)).Nodup :=
    h.map fun a b he => (String.append_right_inj _).mp he
  rw [r.importNames_perm.nodup_iff, List.nodup_append]
  constructor
  · rintro ⟨-, -, hdisjoint⟩ name hname
    have hmem : "I" ++ name ∈ r.globals.map ("I" ++ ·) := List.mem_map.mpr ⟨name, hname, rfl⟩
    exact ⟨fun hglobal => hdisjoint _ (mem_plainNames.mpr (Or.inr hglobal)) _ hmem rfl,
      fun htop => hdisjoint _ (mem_plainNames.mpr (Or.inl htop)) _ hmem rfl⟩
  · intro hfree
    refine ⟨nodup_plainNames h, hinterfaces, ?_⟩
    rintro _ hplain _ hmem rfl
    obtain ⟨name, hname, rfl⟩ := List.mem_map.mp hmem
    rcases mem_plainNames.mp hplain with htop | hglobal
    · exact (hfree name hname).2 htop
    · exact (hfree name hname).1 hglobal

theorem importNames_of_isEmpty {r : Registry} (h : r.isEmpty = true) (interfaces : Bool) :
    r.importNames interfaces = [] := by
  refine List.eq_nil_iff_forall_not_mem.mpr fun name hname => ?_
  rw [isEmpty_of_mem_importNames hname] at h
  cases h

end Registry

/-- The names in the import of the message types, or no names without that import. -/
def importedTypes (options : Options) (roots : List Root) (interfaces : Bool) : List String :=
  (options.typesImport (Registry.ofRoots roots) interfaces).flatMap Import.names

/-- The import is left out only when it has no names. -/
theorem importedTypes_eq (options : Options) (roots : List Root) (interfaces : Bool) :
    importedTypes options roots interfaces = (Registry.ofRoots roots).importNames interfaces := by
  rw [importedTypes, Options.typesImport]
  split
  · next hempty => rw [Registry.importNames_of_isEmpty hempty, List.flatMap_nil]
  · rw [List.flatMap_singleton]

theorem nodup_globals (roots : List Root) : (Registry.ofRoots roots).globals.Nodup :=
  Text.nodup_distinct _

/-- **The import of the bindings repeats a name exactly when an interface has the name of something
else in it**: of a message outside every scope that methods use, or of an outermost scope that
holds something.  The import of the manifest, which names no interfaces, never repeats a name. -/
theorem distinctImports_iff (options : Options) (roots : List Root) :
    ((importedTypes options roots true).Nodup ↔
      ∀ name, UsesGlobal roots name →
        ¬ UsesGlobal roots ("I" ++ name) ∧ ¬ HoldsUnder roots ("I" ++ name)) ∧
    (importedTypes options roots false).Nodup := by
  rw [importedTypes_eq, importedTypes_eq]
  constructor
  · rw [Registry.nodup_importNames_iff (nodup_globals roots)]
    simp only [mem_globals, mem_topLevel]
  · rw [Registry.importNames_false]
    exact Registry.nodup_plainNames (nodup_globals roots)

/-- A message that is called like the interface of another one, and a method that uses both. -/
def interfaceTwins : Store :=
  { entries :=
      [(["main.proto"],
        .file (.text ("message Foo \x7b\x7d message IFoo \x7b\x7d " ++
          "service S \x7b rpc Call (Foo) returns (IFoo); \x7d")))] }

/-- The import of the bindings names `IFoo` as a message and as an interface. -/
theorem repeats_import_of_interfaceTwins :
    ∃ roots events, loadAll interfaceTwins [] ["main.proto"] = .ok (roots, events) ∧
      ∀ options,
        importedTypes options roots true = ["Foo", "IFoo", "IFoo", "IIFoo"] ∧
        ¬ (importedTypes options roots true).Nodup := by
  have hrun : ((loadAll interfaceTwins [] ["main.proto"]).toOption.any fun (roots, _) =>
      (Registry.ofRoots roots).importNames true == ["Foo", "IFoo", "IFoo", "IIFoo"]) = true := by
    decide +kernel
  obtain ⟨⟨roots, events⟩, hload, hnames⟩ := exists_ok_of_any hrun
  refine ⟨roots, events, hload, fun options => ?_⟩
  rw [importedTypes_eq, eq_of_beq hnames]
  exact ⟨rfl, by decide⟩

end RpcBindings.Generate

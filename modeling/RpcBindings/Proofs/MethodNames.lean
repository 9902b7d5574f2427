import Mathlib.Data.List.Nodup
import RpcBindings.Proofs.DescriptorAgreement
import RpcBindings.Proofs.MergeOrder
import RpcBindings.Proofs.SchemaTree

/-! # Names of methods

Every node of a scope has a name of its own, but nobody looks at the methods of a service: a
source that declares a method twice is loaded with both.  A document cannot do that, since of two
entries of one name only the later counts.  So the methods of every service have different names
if and only if every source that is read declares them so (`names_load_iff`).

Different names in every service make all methods of a schema different, by full name and by the
path that is used on the wire, as long as no name holds the dots and slashes that these forms put
between names (`Root.methodsDistinct`).  Names from sources never do.
-/
namespace RpcBindings

/-! ## Names of members -/

namespace Name

theorem toList_member (scope leaf : String) :
    (member scope leaf).toList = scope.toList ++ '.' :: leaf.toList := by
  simp [member]

/-- A member tells its scope and its own name. -/
theorem member_inj {scope scope' leaf leaf' : String} (hleaf : DotFree leaf)
    (hleaf' : DotFree leaf') (h : member scope leaf = member scope' leaf') :
    scope = scope' ∧ leaf = leaf' := by
  have hcut := congrArg (Text.cutLast '.') (congrArg String.toList h)
  rw [toList_member, toList_member, Text.cutLast_append hleaf, Text.cutLast_append hleaf'] at hcut
  obtain ⟨hscope, hname⟩ := Prod.mk.inj (Option.some.inj hcut)
  exact ⟨String.toList_inj.mp hscope, String.toList_inj.mp hname⟩

/-- The path on the wire has the service and the method between slashes. -/
theorem toList_rpcPath {scope leaf : String} {rest : List Char}
    (hscope : scope.toList = '.' :: rest) (hleaf : DotFree leaf) :
    (rpcPath (member scope leaf)).toList = '/' :: (rest ++ '/' :: leaf.toList) := by
  have hqualified : (qualified (member scope leaf)).toList = rest ++ '.' :: leaf.toList := by
    rw [qualified, toList_member, hscope]
    exact String.toList_ofList
  rw [rpcPath, split?, hqualified, Text.cutLast_append hleaf]
  simp

/-- The path on the wire tells the service and the method. -/
theorem rpcPath_member_inj {scope scope' leaf leaf' : String} (habsolute : isAbsolute scope = true)
    (habsolute' : isAbsolute scope' = true) (hleaf : DotFree leaf) (hleaf' : DotFree leaf')
    (hslash : '/' ∉ leaf.toList) (hslash' : '/' ∉ leaf'.toList)
    (h : rpcPath (member scope leaf) = rpcPath (member scope' leaf')) :
    scope = scope' ∧ leaf = leaf' := by
  obtain ⟨rest, hscope⟩ := List.head?_eq_some_iff.mp (eq_of_beq habsolute)
  obtain ⟨rest', hscope'⟩ := List.head?_eq_some_iff.mp (eq_of_beq habsolute')
  have hpath := congrArg String.toList h
  rw [toList_rpcPath hscope hleaf, toList_rpcPath hscope' hleaf'] at hpath
  have hcut := congrArg (Text.cutLast '/') (List.cons.inj hpath).2
  rw [Text.cutLast_append hslash, Text.cutLast_append hslash'] at hcut
  obtain ⟨hbefore, hname⟩ := Prod.mk.inj (Option.some.inj hcut)
  refine ⟨String.toList_inj.mp ?_, String.toList_inj.mp hname⟩
  rw [hscope, hscope', hbefore]

end Name

namespace Schema

open RpcBindings.Disk
open RpcBindings.Proto (Decl File Rpc Span declNames)

/-! ## The methods of a declared service -/

section Declared
variable (parent name : String) (rpcs : List Rpc)

theorem names_ofDecl :
    (Service.ofDecl parent name rpcs).methods.map Method.name = rpcs.map Rpc.name := by
  rw [Service.ofDecl, List.map_map]
  rfl

theorem namesMethods_ofDecl : (Service.ofDecl parent name rpcs).NamesMethods := by
  intro m hm
  obtain ⟨rpc, _, rfl⟩ := List.mem_map.mp hm
  rfl

end Declared

theorem servicesAll_eq_flatMap (nodes : List Node) :
    servicesAll nodes = nodes.flatMap Node.services := by
  induction nodes with
  | nil => rfl
  | cons n ns ih => rw [servicesAll, ih, List.flatMap_cons]

/-- In a source the services have methods of different names exactly when it declares them so. -/
theorem names_declNodes_iff {parent : String} {ds : List Decl} :
    (∀ s ∈ servicesAll (declNodes parent ds), (s.methods.map Method.name).Nodup) ↔
      MethodsDiffer ds := by
  induction ds using decl_induction generalizing parent with
  | nil => exact iff_of_true (fun s hs => nomatch hs) trivial
  | message name members rest ihMembers ih =>
    rw [MethodsDiffer, Decl.MethodsDiffer, ← @ihMembers (Name.member parent name), ← @ih parent,
      declNodes, servicesAll, List.forall_mem_append]
    rfl
  | enum name rest ih =>
    rw [MethodsDiffer, Decl.MethodsDiffer, ← @ih parent, true_and]
    rfl
  | service name methods rest ih =>
    rw [MethodsDiffer, Decl.MethodsDiffer, ← @ih parent, declNodes, servicesAll,
      List.forall_mem_append, ← names_ofDecl parent name methods]
    exact and_congr_left fun _ => List.forall_mem_singleton

/-- The methods of a source are among the names that it declares. -/
theorem mem_declNames {parent : String} {ds : List Decl} :
    ∀ s ∈ servicesAll (declNodes parent ds), ∀ m ∈ s.methods, m.name ∈ declNames ds := by
  induction ds using decl_induction generalizing parent with
  | nil => exact fun s hs => nomatch hs
  | message name members rest ihMembers ih =>
    intro s hs m hm
    rcases List.mem_append.mp hs with hs | hs
    · exact List.mem_append_left _ (List.mem_cons_of_mem _ (ihMembers s hs m hm))
    · exact List.mem_append_right _ (ih s hs m hm)
  | enum name rest ih =>
    intro s hs m hm
    exact List.mem_append_right _ (ih s hs m hm)
  | service name methods rest ih =>
    intro s hs m hm
    rcases List.mem_append.mp hs with hs | hs
    · rw [List.mem_singleton.mp hs] at hm
      have hname : m.name ∈ methods.map Rpc.name := by
        rw [← names_ofDecl parent name methods]
        exact List.mem_map_of_mem hm
      exact List.mem_append_left _ (List.mem_cons_of_mem _ hname)
    · exact List.mem_append_right _ (ih s hs m hm)

namespace Descriptor

theorem exists_givenMethods? {depth : Nat} {v : Json.Value} {k : Keys}
    (h : keys? depth v = some k) :
    ∃ below methods, givenMethods? below methods = some k.methods := by
  cases depth with
  | zero => cases h
  | succ depth =>
    rw [keys?_succ] at h
    obtain ⟨slots, _, h⟩ := Option.bind_eq_some_iff.mp h
    split at h
    · next nested fields values methods _ =>
      obtain ⟨_, _, h⟩ := Option.bind_eq_some_iff.mp h
      obtain ⟨given, hgiven, h⟩ := Option.bind_eq_some_iff.mp h
      obtain ⟨_, _, h⟩ := Option.bind_eq_some_iff.mp h
      obtain ⟨_, _, h⟩ := Option.bind_eq_some_iff.mp h
      cases h
      exact ⟨depth, methods, hgiven⟩
    · cases h

/-- Methods that are given have different names: of two entries of one name the later counts. -/
theorem nodup_givenMethods? {depth : Nat} {methods : Option Json.Value} {rpcs : List Rpc}
    (h : givenMethods? depth methods = some (some rpcs)) : (rpcs.map Rpc.name).Nodup := by
  unfold givenMethods? at h
  split at h
  · cases h
  · obtain ⟨_, hentries, hsame⟩ := Option.map_eq_some_iff.mp h
    cases hsame
    unfold entries? at hentries
    split at hentries
    · split at hentries
      · cases hentries
      · obtain ⟨_, _, hentries⟩ := Option.bind_eq_some_iff.mp hentries
        obtain ⟨_, _, hentries⟩ := Option.bind_eq_some_iff.mp hentries
        cases hentries
        exact nodup_foldl_putBy List.nodup_nil
    · cases hentries

/-- The services at a node that is described by keys. -/
theorem mem_services_toNode_ofKeys {parent name : String} {k : Keys} {s : Service}
    (h : s ∈ (toNode parent (ofKeys name k)).services) :
    (∃ rpcs, k.methods = some rpcs ∧ s = Service.ofDecl parent name rpcs) ∨
      s ∈ servicesAll (toNodes (Name.member parent name) k.nested) := by
  unfold ofKeys at h
  split at h
  · next rpcs hrpcs => exact Or.inl ⟨rpcs, hrpcs, List.mem_singleton.mp h⟩
  · split at h
    · exact Or.inr h
    · split at h
      · cases h
      · exact Or.inr h

/-- **The services of a document name their methods, and no two of one service alike.** -/
theorem services_toNodes {depth : Nat} {v : Json.Value} {k : Keys} (h : keys? depth v = some k)
    (parent : String) : ∀ s ∈ servicesAll (toNodes parent k.nested),
      s.NamesMethods ∧ (s.methods.map Method.name).Nodup := by
  induction depth using Nat.strongRecOn generalizing v k parent with
  | ind depth ih =>
    cases depth with
    | zero => cases h
    | succ depth =>
      obtain ⟨nested, hnested⟩ := exists_nestedNodes? h
      obtain ⟨_, hread⟩ := nestedNodes?_eq_some hnested
      intro s hs
      rw [toNodes_eq_map, servicesAll_eq_flatMap, List.flatMap_map] at hs
      obtain ⟨d, hd, hs⟩ := List.mem_flatMap.mp hs
      obtain ⟨below, name, w, k', hlt, hk, rfl⟩ := hread d hd
      rcases mem_services_toNode_ofKeys hs with ⟨rpcs, hrpcs, rfl⟩ | hs
      · obtain ⟨_, methods, hgiven⟩ := exists_givenMethods? hk
        rw [hrpcs] at hgiven
        refine ⟨namesMethods_ofDecl parent name rpcs, ?_⟩
        rw [names_ofDecl]
        exact nodup_givenMethods? hgiven
      · exact ih below (by omega) hk (Name.member parent name) s hs

end Descriptor

/-! ## The services of a load -/

section Load
variable {disk : Store} {includes : List Path} {entry : Path} {l : Loading}

/-- What a load leaves behind are the forests of its files, joined. -/
theorem exists_joins_load (h : load disk includes entry = .ok l) :
    ∃ paths : List Path, (∀ p, p ∈ paths ↔ p ∈ l.root.files) ∧
      Joins [] (paths.flatMap (forestAt disk)) l.root.nodes ∧ Tidy l.root.nodes := by
  obtain ⟨paths, merged, hpaths, hmerge, hnodes⟩ := exists_merge_of_load h
  rw [hnodes]
  exact ⟨paths, hpaths, joins_foldlM_mergeAt .nil hmerge⟩

/-- **The services of a load are the services of its files.** -/
theorem mem_servicesAll_load (h : load disk includes entry = .ok l) {s : Service} :
    s ∈ servicesAll l.root.nodes ↔ ∃ p ∈ l.root.files, s ∈ servicesAll (forestAt disk p) := by
  obtain ⟨paths, hpaths, hjoins, _⟩ := exists_joins_load h
  have hforests : ∀ {a : Placed}, a ∈ placedAll (paths.flatMap (forestAt disk)) ↔
      ∃ p ∈ l.root.files, a ∈ placedAll (forestAt disk p) := by
    intro a
    simp only [placedAll_eq_flatMap, List.flatMap_assoc, List.mem_flatMap, hpaths]
  constructor
  · intro hs
    obtain ⟨a, ha, hnode⟩ := mem_servicesAll.mp hs
    obtain ⟨p, hp, hforest⟩ :=
      hforests.mp ((hjoins.origin a ha).resolve_left List.not_mem_nil)
    exact ⟨p, hp, mem_servicesAll.mpr ⟨a, hforest, hnode⟩⟩
  · rintro ⟨p, hp, hs⟩
    obtain ⟨a, ha, hnode⟩ := mem_servicesAll.mp hs
    rcases hjoins.covered a (hforests.mpr ⟨p, hp, ha⟩) with hkept | ⟨hpackage, _⟩
    · exact mem_servicesAll.mpr ⟨a, hkept, hnode⟩
    · -- only a package can give way to what is there already
      rw [hnode] at hpackage
      cases hpackage

/-- Every source among the files declares the methods of a service under different names. -/
def RpcsOnce (disk : Store) (files : List Path) : Prop :=
  ∀ p ∈ files, ∀ file, sourceAt disk p = some file → MethodsDiffer file.decls

theorem services_documentAt {p : Path} {ds : List Descriptor} (h : documentAt disk p = some ds) :
    ∀ s ∈ servicesAll (Descriptor.toNodes "" ds),
      s.NamesMethods ∧ (s.methods.map Method.name).Nodup := by
  unfold documentAt at h
  split at h
  · obtain ⟨text, _, hparse⟩ := Option.bind_eq_some_iff.mp h
    obtain ⟨v, _, hkeys⟩ := Option.bind_eq_some_iff.mp hparse
    obtain ⟨k, hk, hnested⟩ := Option.bind_eq_some_iff.mp hkeys
    cases hnested
    exact Descriptor.services_toNodes hk ""
  · cases h

/-- What is known of the services of one file. -/
theorem services_forestAt {p : Path} :
    (∀ s ∈ servicesAll (forestAt disk p), s.NamesMethods) ∧
      ((∀ s ∈ servicesAll (forestAt disk p), (s.methods.map Method.name).Nodup) ↔
        ∀ file, sourceAt disk p = some file → MethodsDiffer file.decls) := by
  cases hsource : sourceAt disk p with
  | some file =>
    rw [forestAt_source hsource, sourceForest, servicesAll_nest, names_declNodes_iff]
    refine ⟨namesMethods_declNodes, fun h file' hfile => ?_, fun h => h file rfl⟩
    cases hfile
    exact h
  | none =>
    have hservices : ∀ s ∈ servicesAll (forestAt disk p),
        s.NamesMethods ∧ (s.methods.map Method.name).Nodup := by
      cases hdocument : documentAt disk p with
      | none =>
        rw [forestAt, hsource, hdocument]
        exact List.forall_mem_nil _
      | some ds =>
        rw [forestAt_of_documentAt hsource hdocument]
        exact services_documentAt hdocument
    refine ⟨fun s hs => (hservices s hs).1, iff_of_true (fun s hs => (hservices s hs).2) ?_⟩
    intro file hfile
    cases hfile

theorem namesMethods_load (h : load disk includes entry = .ok l) :
    ∀ s ∈ servicesAll l.root.nodes, s.NamesMethods := by
  intro s hs
  obtain ⟨p, _, hforest⟩ := (mem_servicesAll_load h).mp hs
  exact services_forestAt.1 s hforest

/-- **The methods of every service have different names exactly when every source that is read
declares them so.** -/
theorem names_load_iff (h : load disk includes entry = .ok l) :
    (∀ s ∈ servicesAll l.root.nodes, (s.methods.map Method.name).Nodup) ↔
      RpcsOnce disk l.root.files := by
  constructor
  · intro hnames p hp
    refine services_forestAt.2.mp fun s hs => ?_
    exact hnames s ((mem_servicesAll_load h).mpr ⟨p, hp, hs⟩)
  · intro honce s hs
    obtain ⟨p, hp, hforest⟩ := (mem_servicesAll_load h).mp hs
    exact services_forestAt.2.mpr (honce p hp) s hforest

end Load

/-! ## All methods of a schema -/

/-- The names hold nothing that full names and paths on the wire put between names. -/
structure Root.PlainNames (r : Root) : Prop where
  nodes : ∀ n ∈ preorderAll r.nodes, Name.DotFree n.name
  methods : ∀ s ∈ servicesAll r.nodes, ∀ m ∈ s.methods,
    Name.DotFree m.name ∧ '/' ∉ m.name.toList

/-- No two methods of a service have one name, and no two methods of the schema have one full
name or one path on the wire. -/
structure Root.MethodsDistinct (r : Root) : Prop where
  names : ∀ s ∈ servicesAll r.nodes, (s.methods.map Method.name).Nodup
  fullNames : (((servicesAll r.nodes).flatMap Service.methods).map Method.fullName).Nodup
  paths : (((servicesAll r.nodes).flatMap Service.methods).map fun m =>
    Name.rpcPath m.fullName).Nodup

/-- Methods that differ by service or by name differ by any key that tells both. -/
theorem nodup_keys {services : List Service} {key : Method → String}
    (hservices : (services.map Service.fullName).Nodup)
    (hnames : ∀ s ∈ services, (s.methods.map Method.name).Nodup)
    (hkey : ∀ s ∈ services, ∀ s' ∈ services, ∀ m ∈ s.methods, ∀ m' ∈ s'.methods,
      key m = key m' → s.fullName = s'.fullName ∧ m.name = m'.name) :
    ((services.flatMap Service.methods).map key).Nodup := by
  rw [List.map_flatMap, List.nodup_flatMap]
  constructor
  · intro s hs
    refine (List.Nodup.of_map _ (hnames s hs)).map_on fun m hm m' hm' heq => ?_
    exact List.inj_on_of_nodup_map (hnames s hs) hm hm' (hkey s hs s hs m hm m' hm' heq).2
  · refine (List.pairwise_map.mp hservices).imp_of_mem fun {s s'} hs hs' hne => ?_
    refine List.disjoint_left.mpr fun k hk hk' => ?_
    obtain ⟨m, hm, rfl⟩ := List.mem_map.mp hk
    obtain ⟨m', hm', heq⟩ := List.mem_map.mp hk'
    exact hne (hkey s hs s' hs' m hm m' hm' heq.symm).1

theorem services_sublist (nodes : List Node) :
    ((servicesAll nodes).map Service.fullName).Sublist ((preorderAll nodes).map Node.fullName) := by
  induction nodes using forest_induction with
  | nil => exact .slnil
  | scope kind name fullName children rest ihChildren ih =>
    rw [servicesAll, preorderAll, List.map_append, List.map_append]
    exact (ihChildren.cons fullName).append ih
  | enum name fullName rest ih => exact ih.cons fullName
  | service s rest ih => exact ih.cons_cons s.fullName

namespace Root
variable {r : Root}

/-- The full name of a service starts at the root. -/
theorem Orderly.isAbsolute (h : r.Orderly) :
    ∀ s ∈ servicesAll r.nodes, Name.isAbsolute s.fullName = true := by
  intro s hs
  obtain ⟨a, ha, hnode⟩ := mem_servicesAll.mp hs
  have hname := (h.named a ha).fullName_eq
  obtain ⟨first, rest, hpath⟩ := List.exists_cons_of_ne_nil (path_ne_nil ha)
  have hlist := Name.toList_scopeName a.path
  rw [hnode] at hname
  rw [Name.isAbsolute, show s.fullName = scopeName a.path from hname, hlist, hpath]
  rfl

/-- **Where names are plain, methods of different names in every service are different
everywhere.** -/
theorem methodsDistinct (h : r.Orderly) (hplain : r.PlainNames)
    (hnamed : ∀ s ∈ servicesAll r.nodes, s.NamesMethods)
    (hnames : ∀ s ∈ servicesAll r.nodes, (s.methods.map Method.name).Nodup) :
    r.MethodsDistinct := by
  have hservices := (services_sublist r.nodes).nodup h.nodup_fullNames
  refine ⟨hnames, nodup_keys hservices hnames ?_, nodup_keys hservices hnames ?_⟩
  · intro s hs s' hs' m hm m' hm' heq
    rw [hnamed s hs m hm, hnamed s' hs' m' hm'] at heq
    exact Name.member_inj (hplain.methods s hs m hm).1 (hplain.methods s' hs' m' hm').1 heq
  · intro s hs s' hs' m hm m' hm' heq
    obtain ⟨hdot, hslash⟩ := hplain.methods s hs m hm
    obtain ⟨hdot', hslash'⟩ := hplain.methods s' hs' m' hm'
    rw [hnamed s hs m hm, hnamed s' hs' m' hm'] at heq
    exact Name.rpcPath_member_inj (h.isAbsolute s hs) (h.isAbsolute s' hs') hdot hdot' hslash
      hslash' heq

end Root

section Load
variable {disk : Store} {includes : List Path} {entry : Path} {l : Loading}

theorem orderly_of_plainNames (h : load disk includes entry = .ok l) (hplain : l.root.PlainNames) :
    l.root.Orderly := by
  obtain ⟨paths, _, hjoins, htidy⟩ := exists_joins_load h
  refine Root.orderly_of_dotFree htidy (fun a ha => ?_) hplain.nodes
  have hadded := (hjoins.origin a ha).resolve_left List.not_mem_nil
  rw [placedAll_eq_flatMap, List.flatMap_assoc] at hadded
  obtain ⟨p, _, hforest⟩ := List.mem_flatMap.mp hadded
  rw [← placedAll_eq_flatMap] at hforest
  exact fullName_forestAt a hforest

theorem exists_parse_of_sourceAt {p : Path} {file : File Span} (h : sourceAt disk p = some file) :
    ∃ source, Proto.parse source = .ok file := by
  unfold sourceAt at h
  split at h
  · cases h
  · obtain ⟨source, _, hparse⟩ := Option.bind_eq_some_iff.mp h
    exact ⟨source, toOption_eq_some.mp hparse⟩

/-- A service that is loaded from sources alone is declared in one of them. -/
theorem exists_source_of_service (h : load disk includes entry = .ok l)
    (hsources : ∀ p ∈ l.root.files, Path.hasExtension p "json" = false) {s : Service}
    (hs : s ∈ servicesAll l.root.nodes) :
    ∃ source file, Proto.parse source = .ok file ∧
      s ∈ servicesAll (declNodes (scopeName file.package) file.decls) := by
  obtain ⟨p, hp, hforest⟩ := (mem_servicesAll_load h).mp hs
  cases hsource : sourceAt disk p with
  | none =>
    rw [forestAt, hsource, documentAt_eq_none (hsources p hp)] at hforest
    cases hforest
  | some file =>
    rw [forestAt_source hsource, sourceForest, servicesAll_nest] at hforest
    obtain ⟨source, hparse⟩ := exists_parse_of_sourceAt hsource
    exact ⟨source, file, hparse, hforest⟩

/-- Sources give plain names: what they declare are identifiers. -/
theorem plainNames_of_sources (h : load disk includes entry = .ok l)
    (hsources : ∀ p ∈ l.root.files, Path.hasExtension p "json" = false) :
    l.root.PlainNames := by
  constructor
  · intro n hn
    obtain ⟨path, hstands⟩ := mem_preorderAll.mp hn
    exact (orderly_load h hsources).dotFree hstands n.name hstands.name_mem
  · intro s hs m hm
    obtain ⟨_, _, hparse, hdeclared⟩ := exists_source_of_service h hsources hs
    have hname := (Proto.names_of_parse hparse).1 m.name (mem_declNames s hdeclared m hm)
    refine ⟨hname.dotFree, fun hslash => ?_⟩
    exact absurd (hname.isWordPart '/' hslash) (by decide)

/-- **When the methods of a schema are told apart.**  In every load the methods of all services
have different names exactly when no source that is read declares a method of a service twice.
Where names are plain, the same condition decides whether all methods of the schema differ by
full name and by path on the wire; and names from sources are plain. -/
theorem methodsDistinct_load_iff (h : load disk includes entry = .ok l) :
    ((∀ s ∈ servicesAll l.root.nodes, (s.methods.map Method.name).Nodup) ↔
      RpcsOnce disk l.root.files) ∧
    (l.root.PlainNames → (l.root.MethodsDistinct ↔ RpcsOnce disk l.root.files)) ∧
    ((∀ p ∈ l.root.files, Path.hasExtension p "json" = false) → l.root.PlainNames) := by
  refine ⟨names_load_iff h, fun hplain => ⟨fun hdistinct => ?_, fun honce => ?_⟩,
    plainNames_of_sources h⟩
  · exact (names_load_iff h).mp hdistinct.names
  · exact Root.methodsDistinct (orderly_of_plainNames h hplain) hplain (namesMethods_load h)
      ((names_load_iff h).mpr honce)

end Load

/-- A source and a document with services of one name in different packages. -/
def serviceInDocument : Store :=
  { entries :=
      [(["main.proto"],
        .file (.text ("import \"q.json\"; package p; message M \x7b\x7d service S \x7b " ++
          "rpc A (M) returns (M); rpc B (M) returns (M); \x7d"))),
       (["q.json"],
        .file (.text ("\x7b\"nested\": \x7b\"q\": \x7b\"nested\": \x7b\"S\": \x7b\"methods\": " ++
          "\x7b\"A\": \x7b\"requestType\": \"M\", \"responseType\": \"M\"\x7d\x7d\x7d\x7d" ++
          "\x7d\x7d\x7d")))] }

theorem methodsDistinct_serviceInDocument :
    ∃ l, load serviceInDocument [] "main.proto" = .ok l ∧
      ((servicesAll l.root.nodes).flatMap Service.methods).map Method.fullName =
        [".q.S.A", ".p.S.A", ".p.S.B"] ∧ l.root.MethodsDistinct := by
  have hrun : ((load serviceInDocument [] "main.proto").toOption.any fun l =>
      ((servicesAll l.root.nodes).flatMap Service.methods).map Method.fullName ==
        [".q.S.A", ".p.S.A", ".p.S.B"] &&
      ((preorderAll l.root.nodes).all fun n => !n.name.toList.contains '.') &&
      (servicesAll l.root.nodes).all fun s => decide (s.methods.map Method.name).Nodup &&
        s.methods.all fun m => !m.name.toList.contains '.' && !m.name.toList.contains '/') =
      true := by
    decide +kernel
  obtain ⟨l, hload, hl⟩ := exists_ok_of_any hrun
  simp only [Bool.and_eq_true, beq_iff_eq, List.all_eq_true, Bool.not_eq_true', decide_eq_true_eq,
    List.contains_eq_mem, decide_eq_false_iff_not] at hl
  obtain ⟨⟨hfullNames, hnodes⟩, hservices⟩ := hl
  obtain ⟨hnames, hdistinct, -⟩ := methodsDistinct_load_iff hload
  refine ⟨l, hload, hfullNames, (hdistinct ⟨hnodes, fun s hs => (hservices s hs).2⟩).mpr ?_⟩
  exact hnames.mp fun s hs => (hservices s hs).1

/-- A source that declares a method twice. -/
def methodTwice : Store :=
  { entries :=
      [(["main.proto"],
        .file (.text ("message M \x7b\x7d service S \x7b " ++
          "rpc A (M) returns (M); rpc A (M) returns (M); \x7d")))] }

theorem loads_methodTwice :
    ∃ l, load methodTwice [] "main.proto" = .ok l ∧
      ((servicesAll l.root.nodes).flatMap Service.methods).map Method.fullName =
        [".S.A", ".S.A"] ∧ ¬ l.root.MethodsDistinct := by
  have hrun : ((load methodTwice [] "main.proto").toOption.any fun l =>
      ((servicesAll l.root.nodes).flatMap Service.methods).map Method.fullName ==
        [".S.A", ".S.A"]) = true := by
    decide +kernel
  obtain ⟨l, hload, hl⟩ := exists_ok_of_any hrun
  have hfullNames := eq_of_beq hl
  refine ⟨l, hload, hfullNames, fun hdistinct => ?_⟩
  have htwice := hdistinct.fullNames
  rw [hfullNames] at htwice
  exact absurd htwice (by decide)

end Schema

end RpcBindings

import RpcBindings.Proofs.LoadOrder
import RpcBindings.Proofs.Naming
import RpcBindings.Proofs.NodePlaces

/-! # The tree of a schema

A schema that is loaded from sources alone is a tree of names: the nodes of a scope have
different names, and the full name of a node is the path that leads to it (`Root.Orderly`).
Both together make full names as good as the nodes themselves: no two nodes share one, and the
look-up by full name finds the node that has it (`Root.Orderly.get?_eq_some`).  A load merges
sources one after the other, and every merge keeps the order, whichever packages the sources
name and whichever messages these packages run through (`orderly_load`).
-/
namespace RpcBindings.Schema

open RpcBindings.Disk
open RpcBindings.Proto (Decl File Span)

/-! ## Orderly schemas -/

/-- The nodes of every scope have different names, and every node is named by its path. -/
structure Root.Orderly (r : Root) : Prop where
  tidy : Tidy r.nodes
  named : r.Named

/-- Without dots in the names of the nodes it is enough that full names spell the paths. -/
theorem Root.orderly_of_dotFree {r : Root} (htidy : Tidy r.nodes)
    (hnames : ∀ a ∈ placedAll r.nodes, a.node.fullName = scopeName a.path)
    (hdotFree : ∀ n ∈ preorderAll r.nodes, Name.DotFree n.name) : r.Orderly := by
  refine ⟨htidy, fun a ha => ⟨hnames a ha, fun segment hsegment => ?_⟩⟩
  obtain ⟨n, hstands, _⟩ := exists_standsAt_of_placed ha
  obtain ⟨m, hm, rfl⟩ := hstands.exists_of_mem hsegment
  exact hdotFree m hm

namespace Root.Orderly

variable {r : Root} {path : List String} {n : Node}

theorem fullName_eq (h : r.Orderly) (hn : StandsAt r.nodes path n) :
    n.fullName = scopeName path :=
  (fullName_bare n).symm.trans (h.named _ hn.placed).fullName_eq

theorem dotFree (h : r.Orderly) (hn : StandsAt r.nodes path n) :
    ∀ segment ∈ path, Name.DotFree segment :=
  (h.named _ hn.placed).dotFree

/-- The path of a node can be read off its full name. -/
theorem path?_fullName (h : r.Orderly) (hn : StandsAt r.nodes path n) :
    Name.path? n.fullName = some path := by
  rw [h.fullName_eq hn]
  exact Name.path?_scopeName hn.path_ne_nil (h.dotFree hn)

/-- **The look-up by full name finds the node that has it, wherever it stands.** -/
theorem get?_eq_some (h : r.Orderly) {name : String} :
    r.get? name = some n ↔ n ∈ preorderAll r.nodes ∧ n.fullName = name := by
  rw [mem_preorderAll]
  constructor
  · intro hget
    unfold Root.get? at hget
    split at hget
    · next path hpath =>
      have hn := standsAt_of_descend? hget
      rw [h.fullName_eq hn, ← (Name.eq_scopeName_of_path? hpath).1]
      exact ⟨⟨path, hn⟩, rfl⟩
    · cases hget
  · rintro ⟨⟨path, hn⟩, rfl⟩
    rw [Root.get?, h.path?_fullName hn]
    exact (standsAt_iff_descend? h.tidy).mp hn

/-- **No two nodes have one full name.** -/
theorem nodup_fullNames (h : r.Orderly) : ((preorderAll r.nodes).map Node.fullName).Nodup := by
  have hname : ∀ a ∈ placedAll r.nodes, a.node.fullName = scopeName a.path := fun a ha =>
    (h.named a ha).fullName_eq
  rw [fullNames_preorderAll, List.map_congr_left hname, ← Function.comp_def, ← List.map_map]
  refine h.tidy.nodup_paths.map_on ?_
  intro path hpath path' hpath' heq
  obtain ⟨a, ha, rfl⟩ := List.mem_map.mp hpath
  obtain ⟨b, hb, rfl⟩ := List.mem_map.mp hpath'
  exact Name.scopeName_inj (path_ne_nil ha) (path_ne_nil hb) (h.named a ha).dotFree
    (h.named b hb).dotFree heq

end Root.Orderly

/-! ## Loads from sources -/

section Load
variable {disk : Store} {includes : List Path} {entry : Path} {l : Loading}

/-- What a load leaves behind comes from merging its files in some order. -/
theorem exists_merge_of_load (h : load disk includes entry = .ok l) :
    ∃ (paths : List Path) (merged : Root), (∀ p, p ∈ paths ↔ p ∈ l.root.files) ∧
      paths.foldlM (Root.mergeAt disk) {} = .ok merged ∧ l.root.nodes = merged.nodes := by
  obtain ⟨preorder, postorder, htraversal⟩ := exists_depthFirst
    (fun _ => exists_text_of_importsAt) (room_start disk) [entry]
  have hroot : outcomeRoot? (load disk includes entry) = some l.root := by rw [h]; rfl
  obtain ⟨_, hfiles, merged, hmerge, hnodes⟩ :=
    (outcomeRoot?_load_eq_some htraversal).mp hroot
  refine ⟨postorder, merged, fun p => ?_, hmerge, hnodes⟩
  rw [hfiles]
  exact htraversal.perm.mem_iff.symm

theorem Tidy.mergeAt {r : Root} {path : Path} (h : Tidy r.nodes)
    (hsource : path.hasExtension "json" = false) :
    Ends (fun r' : Root => Tidy r'.nodes) (fun _ => True) (r.mergeAt disk path) := by
  cases hresult : r.mergeAt disk path with
  | error e => exact .error trivial
  | ok r' =>
    refine .ok ?_
    cases hfile : sourceAt disk path with
    | some file =>
      rw [mergeAt_source hfile] at hresult
      exact h.mergeFile hresult
    | none =>
      unfold Root.mergeAt at hresult
      rw [hfile, documentAt_eq_none hsource] at hresult
      cases hresult
      exact h

/-- **A load from sources alone gives an orderly schema.** -/
theorem orderly_load (h : load disk includes entry = .ok l)
    (hsources : ∀ p ∈ l.root.files, Path.hasExtension p "json" = false) : l.root.Orderly where
  tidy := by
    obtain ⟨paths, merged, hpaths, hmerge, hnodes⟩ := exists_merge_of_load h
    have hends : Ends (fun r' : Root => Tidy r'.nodes) (fun _ => True)
        (paths.foldlM (Root.mergeAt disk) {}) :=
      ends_foldlM (fun _ hr p hp => Tidy.mergeAt hr (hsources p ((hpaths p).mp hp))) Tidy.nil
    rw [hmerge] at hends
    rw [hnodes]
    exact hends.of_ok
  named := by
    have hends := sound_load disk includes entry
    rw [h] at hends
    exact hends.of_ok.named hsources

end Load

/-! ## Methods -/

/-- Every method of the service is named as a member of it. -/
def Service.NamesMethods (s : Service) : Prop :=
  ∀ m ∈ s.methods, m.fullName = Name.member s.fullName m.name

theorem namesMethods_declNodes {parent : String} {ds : List Decl} :
    ∀ s ∈ servicesAll (declNodes parent ds), s.NamesMethods := by
  induction ds using decl_induction generalizing parent with
  | nil => exact fun s hs => nomatch hs
  | message name members rest ihMembers ih =>
    intro s hs
    exact (List.mem_append.mp hs).elim (ihMembers s) (ih s)
  | enum name rest ih => exact ih
  | service name methods rest ih =>
    intro s hs
    rcases List.mem_append.mp hs with hs | hs
    · rw [List.mem_singleton.mp hs]
      intro m hm
      obtain ⟨rpc, _, rfl⟩ := List.mem_map.mp hm
      rfl
    · exact ih s hs

theorem servicesAll_nest {scope : String} {inner : List Node} {path : List String} :
    servicesAll (nest scope inner path) = servicesAll inner := by
  induction path generalizing scope with
  | nil => rfl
  | cons name rest ih => exact (List.append_nil _).trans ih

theorem Sound.namesMethods {disk : Store} {includes : List Path} {entry : Path}
    {opened : List Path} {l : Loading} (h : Sound disk includes entry opened l)
    (hsources : ∀ p ∈ l.root.files, Path.hasExtension p "json" = false) :
    ∀ s ∈ servicesAll l.root.nodes, s.NamesMethods := by
  intro s hs
  obtain ⟨a, ha, hnode⟩ := mem_servicesAll.mp hs
  obtain ⟨p, hp, _, hforest⟩ := h.placed a ha
  have hmem : s ∈ servicesAll (forestAt disk p) := mem_servicesAll.mpr ⟨a, hforest, hnode⟩
  unfold forestAt at hmem
  split at hmem
  · rw [sourceForest, servicesAll_nest] at hmem
    exact namesMethods_declNodes s hmem
  · rw [documentAt_eq_none (hsources p hp)] at hmem
    cases hmem

/-! ## The tree invariant -/

/-- Names and nodes of the schema determine each other. -/
structure Root.Indexed (r : Root) : Prop where
  /-- Every node of a scope is the one that is found there under its name. -/
  keyed : ∀ siblings ∈ r.nodes :: (preorderAll r.nodes).map Node.children,
    ∀ n ∈ siblings, find? siblings n.name = some n
  /-- No name of a node holds a dot. -/
  dotFree : ∀ n ∈ preorderAll r.nodes, Name.DotFree n.name
  /-- The full name of a node is the names on the path to it, each behind a dot. -/
  fullName_eq : ∀ path n, StandsAt r.nodes path n → n.fullName = scopeName path
  /-- The full name of a method is that of its service, a dot and its name. -/
  method_fullName : ∀ s, .service s ∈ preorderAll r.nodes → ∀ m ∈ s.methods,
    m.fullName = Name.member s.fullName m.name
  /-- No two nodes have one full name. -/
  distinct : ((preorderAll r.nodes).map Node.fullName).Nodup
  /-- The look-up by full name finds the node that has it, and nothing else. -/
  get?_iff : ∀ name n, r.get? name = some n ↔ n ∈ preorderAll r.nodes ∧ n.fullName = name

theorem mem_servicesAll_of_preorderAll {nodes : List Node} {s : Service}
    (h : .service s ∈ preorderAll nodes) : s ∈ servicesAll nodes := by
  obtain ⟨path, hs⟩ := mem_preorderAll.mp h
  exact mem_servicesAll.mpr ⟨_, hs.placed, rfl⟩

/-- **In every schema that is loaded from sources alone names and nodes determine each
other**, whatever packages the sources name, however deep messages nest, and however the files
lead to each other. -/
theorem indexed_load {disk : Store} {includes : List Path} {entry : Path} {l : Loading}
    (hload : load disk includes entry = .ok l)
    (hsources : ∀ p ∈ l.root.files, Path.hasExtension p "json" = false) : l.root.Indexed where
  keyed := by
    have htidy := (orderly_load hload hsources).tidy
    intro siblings hsiblings n hn
    rcases List.mem_cons.mp hsiblings with rfl | hsiblings
    · exact htidy.find?_of_mem hn
    · obtain ⟨m, hm, rfl⟩ := List.mem_map.mp hsiblings
      obtain ⟨path, hstands⟩ := mem_preorderAll.mp hm
      exact (htidy.of_standsAt hstands).find?_of_mem hn
  dotFree := by
    intro n hn
    obtain ⟨path, hstands⟩ := mem_preorderAll.mp hn
    exact (orderly_load hload hsources).dotFree hstands n.name hstands.name_mem
  fullName_eq := fun _ _ => (orderly_load hload hsources).fullName_eq
  method_fullName := by
    have hends := sound_load disk includes entry
    rw [hload] at hends
    intro s hs
    exact hends.of_ok.namesMethods hsources s (mem_servicesAll_of_preorderAll hs)
  distinct := (orderly_load hload hsources).nodup_fullNames
  get?_iff := fun _ _ => (orderly_load hload hsources).get?_eq_some

/-- A package that runs through a message of another file. -/
def packageThroughMessage : Store :=
  { entries :=
      [(["a.proto"],
        .file (.text ("import \"b.proto\"; package p.M; enum E \x7b\x7d " ++
          "service S \x7b rpc Call (Inner) returns (.p.M); \x7d"))),
       (["b.proto"],
        .file (.text "package p; message M \x7b message Inner \x7b\x7d \x7d"))] }

theorem indexed_packageThroughMessage :
    ∃ l, load packageThroughMessage [] "a.proto" = .ok l ∧
      (preorderAll l.root.nodes).map Node.fullName =
        [".p", ".p.M", ".p.M.Inner", ".p.M.E", ".p.M.S"] ∧ l.root.Indexed := by
  have hrun : ((load packageThroughMessage [] "a.proto").toOption.any fun l =>
      (l.root.files.all fun p => !Path.hasExtension p "json") &&
        (preorderAll l.root.nodes).map Node.fullName ==
          [".p", ".p.M", ".p.M.Inner", ".p.M.E", ".p.M.S"]) = true := by
    decide +kernel
  obtain ⟨l, hload, hl⟩ := exists_ok_of_any hrun
  simp only [Bool.and_eq_true, List.all_eq_true, Bool.not_eq_true', beq_iff_eq] at hl
  obtain ⟨hsources, hnames⟩ := hl
  exact ⟨l, hload, hnames, indexed_load hload hsources⟩

end RpcBindings.Schema

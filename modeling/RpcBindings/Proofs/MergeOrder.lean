import RpcBindings.Proofs.Joins
import RpcBindings.Proofs.LoadOrder
import RpcBindings.Proofs.Naming
import RpcBindings.Proofs.Runs

/-! # Merging one file after the other

When a merge goes through is said node by node.  Every node that is there has to *admit* the
node of the file at its path: a package admits a package, and a message admits a package that a
source names on the way to its scope (`exists_mergeAt_iff`).  Since a merge drops packages only,
a later file sees what it would see if each of the earlier ones stood alone.  So files are merged
one after the other exactly when each of them can be merged alone and every earlier one admits
every later one (`exists_foldlM_mergeAt_iff`).

Admitting is no symmetric relation: a message admits a package that runs through it, but a
package does not admit a message.
-/
namespace RpcBindings.Schema

open RpcBindings.Disk
open RpcBindings.Proto (Decl File)

/-! ## Admitting -/

/-- The node `b` can be merged where `a` stands, if they stand at one path: both are packages,
or `b` is a package that leads through the message `a`, where packages may do so. -/
def Placed.Admits (through : Bool) (a b : Placed) : Prop :=
  a.path = b.path → b.node.isPackage = true ∧
    (a.node.isPackage = true ∨ (through = true ∧ a.node.isMessage = true))

/-- Every node admits every node of `added`. -/
def Receives (through : Bool) (nodes added : List Node) : Prop :=
  ∀ a ∈ placedAll nodes, ∀ b ∈ placedAll added, a.Admits through b

section Receives
variable {through : Bool} {nodes added : List Node}

theorem receives_nil_left (through : Bool) (added : List Node) : Receives through [] added := by
  intro a ha
  cases ha

theorem receives_nil_right (through : Bool) (nodes : List Node) : Receives through nodes [] := by
  intro a _ b hb
  cases hb

theorem receives_cons_right {n : Node} :
    Receives through nodes (n :: added) ↔
      Receives through nodes [n] ∧ Receives through nodes added := by
  constructor
  · intro h
    refine ⟨fun a ha b hb => h a ha b ?_, fun a ha b hb => h a ha b ?_⟩
    · rw [placedAll_singleton] at hb
      exact List.mem_append_left _ hb
    · exact List.mem_append_right _ hb
  · rintro ⟨hn, hadded⟩ a ha b hb
    rcases List.mem_append.mp hb with hb | hb
    · exact hn a ha b (by rwa [placedAll_singleton])
    · exact hadded a ha b hb

/-- The first name of the path of a node is that of a node of the outermost scope. -/
theorem exists_head_of_placed {a : Placed} (ha : a ∈ placedAll nodes) :
    ∃ n ∈ nodes, a ∈ n.placed ∧ a.path.head? = some n.name := by
  obtain ⟨n, hn, han⟩ := mem_placedAll.mp ha
  refine ⟨n, hn, han, ?_⟩
  rw [n.placed_eq] at han
  rcases List.mem_cons.mp han with rfl | hbelow
  · rfl
  · obtain ⟨b, _, rfl⟩ := List.mem_map.mp hbelow
    rfl

/-- Under a name that is free nothing is in the way. -/
theorem receives_of_new {n : Node} (h : find? nodes n.name = none) :
    Receives through nodes [n] := by
  intro a ha b hb hpath
  obtain ⟨m, hm, _, hname⟩ := exists_head_of_placed ha
  obtain ⟨m', hm', _, hname'⟩ := exists_head_of_placed hb
  rw [hpath, hname', List.mem_singleton.mp hm'] at hname
  exact absurd (Option.some.inj hname).symm (find?_eq_none.mp h m hm)

/-- In a tidy forest, what stands below a name stands in the node that is found. -/
theorem placed_of_find? {n : Node} {a : Placed} (htidy : Tidy nodes)
    (hfind : find? nodes n.name = some n) (ha : a ∈ placedAll nodes)
    (hname : a.path.head? = some n.name) : a ∈ n.placed := by
  obtain ⟨m, hm, ham, hhead⟩ := exists_head_of_placed ha
  have hsame : m.name = n.name := Option.some.inj (hhead.symm.trans hname)
  have hfound := htidy.find?_of_mem hm
  rw [hsame, hfind] at hfound
  cases hfound
  exact ham

/-- A package is admitted where a scope of its name stands when the scope admits packages and
what it holds admits what is in the package. -/
theorem receives_inside {kind : ScopeKind} {name full full' : String} {children : List Node}
    (htidy : Tidy nodes) (hfind : find? nodes name = some (.scope kind name full children)) :
    Receives through nodes [.scope .package name full' added] ↔
      (kind = .package ∨ through = true) ∧ Receives through children added := by
  have hmem := (find?_eq_some hfind).1
  constructor
  · intro h
    refine ⟨?_, fun a ha b hb hpath => ?_⟩
    · have hhead := h ⟨[name], .scope kind name full []⟩
        (mem_placedAll.mpr ⟨_, hmem, mem_placed_self _⟩) ⟨[name], .scope .package name full' []⟩
        (mem_placedAll.mpr ⟨_, List.mem_singleton.mpr rfl, mem_placed_self _⟩) rfl
      cases kind with
      | package => exact Or.inl rfl
      | message => exact Or.inr (hhead.2.resolve_left Bool.false_ne_true).1
    · refine h (a.below name) (mem_placed_children hmem ha) (b.below name) ?_
        (congrArg (List.cons name) hpath)
      exact mem_placed_children (List.mem_singleton.mpr rfl) hb
  · rintro ⟨hkind, hinside⟩ a ha b hb hpath
    rw [placedAll_singleton, mem_placed_scope] at hb
    have hname : a.path.head? = some name := by
      rw [hpath]
      rcases hb with rfl | ⟨c, _, rfl⟩
      · rfl
      · rfl
    -- the only node of that name is the scope, so `a` stands at it or in it
    have hplaced : a ∈ (Node.scope kind name full children).placed :=
      placed_of_find? htidy hfind ha hname
    rcases mem_placed_scope.mp hplaced with rfl | ⟨c, hc, rfl⟩
    · rcases hb with rfl | ⟨d, hd, rfl⟩
      · refine ⟨rfl, ?_⟩
        cases kind with
        | package => exact Or.inl rfl
        | message => exact Or.inr ⟨hkind.resolve_left (by simp), rfl⟩
      · exact absurd (List.cons.inj hpath).2.symm (path_ne_nil hd)
    · rcases hb with rfl | ⟨d, hd, rfl⟩
      · exact absurd (List.cons.inj hpath).2 (path_ne_nil hc)
      · exact hinside c hc d hd (List.cons.inj hpath).2

/-- An enum or a service admits no package of its name. -/
theorem not_receives_leaf {n : Node} {name full : String} (hfind : find? nodes name = some n)
    (hpackage : n.isPackage = false) (hmessage : n.isMessage = false) :
    ¬ Receives through nodes [.scope .package name full added] := by
  intro h
  obtain ⟨hmem, rfl⟩ := find?_eq_some hfind
  have hhead := h ⟨[n.name], n.bare⟩ (mem_placedAll.mpr ⟨n, hmem, mem_placed_self n⟩)
    ⟨[n.name], .scope .package n.name full []⟩
    (mem_placedAll.mpr ⟨_, List.mem_singleton.mpr rfl, mem_placed_self _⟩) rfl
  rw [isPackage_bare, isMessage_bare, hpackage, hmessage] at hhead
  exact hhead.2.elim Bool.false_ne_true fun h => Bool.false_ne_true h.2

/-- What is left by a merge receives what both sides receive. -/
theorem Joins.receives_iff {nodes' more : List Node} (h : Joins nodes added nodes') :
    Receives through nodes' more ↔ Receives through nodes more ∧ Receives through added more := by
  constructor
  · intro hreceives
    refine ⟨fun a ha => hreceives a (h.kept a ha), fun a ha b hb hpath => ?_⟩
    rcases h.covered a ha with ha | ⟨hpackage, c, hc, hcovers⟩
    · exact hreceives a ha b hb hpath
    · -- the package is not there itself, but what stands at its path admits `b`
      exact ⟨(hreceives c hc b hb (hcovers.trans hpath)).1, Or.inl hpackage⟩
  · rintro ⟨hnodes, hadded⟩ a ha
    exact (h.origin a ha).elim (hnodes a) (hadded a)

theorem receives_iff_apart : Receives false nodes added ↔ Apart added nodes := by
  constructor
  · intro h b hb a ha hclash
    obtain ⟨hpackage, hadmits⟩ := h a ha b hb hclash.1.symm
    exact hclash.2 ⟨hpackage, hadmits.resolve_right fun h => Bool.false_ne_true h.1⟩
  · intro h a ha b hb hpath
    have hboth : b.node.isPackage = true ∧ a.node.isPackage = true :=
      Classical.byContradiction fun hnot => h b hb a ha ⟨hpath.symm, hnot⟩
    exact ⟨hboth.1, Or.inl hboth.2⟩

end Receives

/-! ## When a merge goes through -/

/-- A document is merged exactly when the schema receives its nodes. -/
theorem exists_mergeNodes_iff {nodes ns : List Node} (h : Tidy nodes) (hns : Tidy ns) :
    (∃ nodes', mergeNodes nodes ns = .ok nodes') ↔ Receives false nodes ns := by
  constructor
  · rintro ⟨nodes', hok⟩
    induction ns using nodes_induction generalizing nodes nodes' with
    | nil => exact receives_nil_right false nodes
    | cons n rest ihChildren ih =>
      obtain ⟨_, hchildren, hrest⟩ := tidy_cons.mp hns
      obtain ⟨between, hnode, hmore⟩ := mergeNodes_cons_ok hok
      have hsingle : mergeNodes nodes [n] = .ok between := by
        rw [mergeNodes, hnode]
        rfl
      have hjoins := joins_mergeNodes hsingle
      have hbetween := h.mergeNodes (tidy_cons.mpr ⟨List.not_mem_nil, hchildren, .nil⟩) hsingle
      refine receives_cons_right.mpr ⟨?_, (hjoins.receives_iff.mp (ih hbetween hrest _ hmore)).1⟩
      rcases mergeNode_cases hnode with ⟨hfind, _⟩ |
        ⟨name, full, children, full', existing, merged, rfl, hfind, hmerged, _⟩
      · exact receives_of_new hfind
      · have htidy := h.children (find?_eq_some hfind).1
        exact (receives_inside h hfind).mpr ⟨Or.inl rfl, ihChildren htidy hchildren _ hmerged⟩
  · intro hreceives
    exact mergeNodes_of_apart (receives_iff_apart.mp hreceives) hns.consistent

theorem Tidy.of_append {xs ys : List Node} (h : Tidy (xs ++ ys)) : Tidy ys := by
  refine .intro ?_ fun n hn => h.children (List.mem_append_right _ hn)
  have hnames := h.names
  rw [List.map_append] at hnames
  exact hnames.of_append_right

/-- Nothing that a source declares is a package. -/
theorem isPackage_declNodes {parent : String} {ds : List Decl} :
    ∀ b ∈ placedAll (declNodes parent ds), b.node.isPackage = false := by
  induction ds using decl_induction generalizing parent with
  | nil =>
    intro b hb
    cases hb
  | message name members rest ihMembers ih =>
    intro b hb
    rcases List.mem_append.mp hb with hb | hb
    · rcases mem_placed_scope.mp hb with rfl | ⟨c, hc, rfl⟩
      · rfl
      · exact ihMembers c hc
    · exact ih b hb
  | enum name rest ih =>
    intro b hb
    rcases List.mem_append.mp hb with hb | hb
    · rw [List.mem_singleton.mp hb]
      rfl
    · exact ih b hb
  | service name methods rest ih =>
    intro b hb
    rcases List.mem_append.mp hb with hb | hb
    · rw [List.mem_singleton.mp hb]
      rfl
    · exact ih b hb

/-- Declarations are inserted exactly when their names differ and are free. -/
theorem exists_insertDecls_iff {parent : String} {nodes : List Node} {ds : List Decl}
    (h : Tidy nodes) :
    (∃ nodes', insertDecls parent nodes ds = .ok nodes') ↔
      Tidy (declNodes parent ds) ∧ Receives true nodes (declNodes parent ds) := by
  constructor
  · rintro ⟨nodes', hok⟩
    have htidy := h.insertDecls hok
    rw [insertDecls_eq_append hok] at htidy
    -- a tidy forest has one node at a path, so nothing of `nodes` is where a declaration went
    have hpaths := htidy.nodup_paths
    rw [placedAll_append, List.map_append, List.nodup_append] at hpaths
    refine ⟨htidy.of_append, fun a ha b hb hpath => ?_⟩
    exact absurd hpath
      (hpaths.2.2 _ (List.mem_map.mpr ⟨a, ha, rfl⟩) _ (List.mem_map.mpr ⟨b, hb, rfl⟩))
  · rintro ⟨htidy, hreceives⟩
    refine ⟨_, insertDecls_of_apart (fun b hb a ha hclash => ?_) htidy.consistent⟩
    have hpackage := (hreceives a ha b hb hclash.1.symm).1
    rw [isPackage_declNodes b hb] at hpackage
    cases hpackage

theorem tidy_nest {scope : String} {inner : List Node} {path : List String} :
    Tidy (nest scope inner path) ↔ Tidy inner := by
  induction path generalizing scope with
  | nil => exact Iff.rfl
  | cons name rest ih =>
    rw [nest, tidy_cons, Node.children, ih]
    exact ⟨fun h => h.2.1, fun h => ⟨List.not_mem_nil, h, .nil⟩⟩

/-- An edit that goes through exactly when `inner` is tidy and received goes through inside the
packages of a path under the same condition on what is around them. -/
theorem exists_updateScope_iff {edit : String → List Node → Except DuplicateName (List Node)}
    {inner : List Node} {path : List String} {scope : String} {nodes : List Node}
    (h : Tidy nodes)
    (hedit : ∀ {ns : List Node}, Tidy ns →
      ((∃ ns', edit (path.foldl Name.member scope) ns = .ok ns') ↔
        Tidy inner ∧ Receives true ns inner)) :
    (∃ nodes', updateScope edit scope nodes path = .ok nodes') ↔
      Tidy inner ∧ Receives true nodes (nest scope inner path) := by
  induction path generalizing scope nodes with
  | nil => exact hedit h
  | cons name rest ih =>
    rw [nest]
    cases hfind : find? nodes name with
    | none =>
      rw [updateScope_new hfind, exists_ok_map, ih .nil hedit]
      refine and_congr_right fun _ => iff_of_true (receives_nil_left _ _) ?_
      exact receives_of_new hfind
    | some found =>
      cases found with
      | scope kind n full children =>
        obtain rfl : n = name := (find?_eq_some hfind).2
        have hchildren : Tidy children := h.children (find?_eq_some hfind).1
        rw [updateScope_into hfind, exists_ok_map, ih hchildren hedit, receives_inside h hfind,
          and_iff_right (Or.inr rfl)]
      | enum n full =>
        rw [updateScope, hfind]
        refine iff_of_false not_exists_error_eq_ok fun hreceives => ?_
        exact not_receives_leaf hfind rfl rfl hreceives.2
      | service found =>
        rw [updateScope, hfind]
        refine iff_of_false not_exists_error_eq_ok fun hreceives => ?_
        exact not_receives_leaf hfind rfl rfl hreceives.2

/-- A source is merged exactly when its scopes declare every name once and the schema receives
its forest. -/
theorem exists_mergeFile_iff {Pos : Type} {r : Root} {file : File Pos} (h : Tidy r.nodes) :
    (∃ r', r.mergeFile file = .ok r') ↔
      Tidy (sourceForest file) ∧ Receives true r.nodes (sourceForest file) := by
  have hupdate : (∃ nodes', updateScope (fun scope nodes => insertDecls scope nodes file.decls) ""
      r.nodes file.package = .ok nodes') ↔
        Tidy (declNodes (scopeName file.package) file.decls) ∧
          Receives true r.nodes (sourceForest file) :=
    exists_updateScope_iff h exists_insertDecls_iff
  rw [sourceForest, tidy_nest, ← sourceForest, ← hupdate]
  unfold Root.mergeFile Root.update
  cases updateScope (fun scope nodes => insertDecls scope nodes file.decls) "" r.nodes
      file.package with
  | error e => exact iff_of_false not_exists_error_eq_ok not_exists_error_eq_ok
  | ok nodes => exact iff_of_true ⟨_, rfl⟩ ⟨_, rfl⟩

/-! ## One file after the other -/

section Files
variable {disk : Store} {r : Root} {path : Path}

/-- What stands in the forest `nodes` admits the file at a path. -/
def Fits (disk : Store) (nodes : List Node) (path : Path) : Prop :=
  Receives (sourceAt disk path).isSome nodes (forestAt disk path)

theorem mergeAt_document {ds : List Descriptor} (hsource : sourceAt disk path = none)
    (hdocument : documentAt disk path = some ds) (r : Root) :
    r.mergeAt disk path = r.mergeDescriptors ds := by
  rw [Root.mergeAt, hsource, hdocument]

theorem forestAt_of_documentAt {ds : List Descriptor} (hsource : sourceAt disk path = none)
    (hdocument : documentAt disk path = some ds) :
    forestAt disk path = Descriptor.toNodes "" ds := by
  rw [forestAt, hsource, hdocument]
  rfl

theorem tidy_documentAt {ds : List Descriptor} (h : documentAt disk path = some ds) :
    Tidy (Descriptor.toNodes "" ds) := by
  unfold documentAt at h
  split at h
  · obtain ⟨text, _, hparse⟩ := Option.bind_eq_some_iff.mp h
    exact Descriptor.tidy_of_parse? hparse
  · cases h

/-- **A file is merged exactly when its forest is tidy and fits what is there.** -/
theorem exists_mergeAt_iff (h : Tidy r.nodes) :
    (∃ r', r.mergeAt disk path = .ok r') ↔
      Tidy (forestAt disk path) ∧ Fits disk r.nodes path := by
  unfold Fits
  cases hsource : sourceAt disk path with
  | some file =>
    rw [mergeAt_source hsource, forestAt_source hsource]
    exact exists_mergeFile_iff h
  | none =>
    cases hdocument : documentAt disk path with
    | some ds =>
      have htidy := tidy_documentAt hdocument
      rw [mergeAt_document hsource hdocument, forestAt_of_documentAt hsource hdocument,
        and_iff_right htidy, Option.isSome_none, ← exists_mergeNodes_iff h htidy]
      unfold Root.mergeDescriptors
      cases mergeNodes r.nodes (Descriptor.toNodes "" ds) with
      | error e => exact iff_of_false not_exists_error_eq_ok not_exists_error_eq_ok
      | ok nodes => exact iff_of_true ⟨_, rfl⟩ ⟨_, rfl⟩
    | none =>
      rw [Root.mergeAt, hsource, hdocument, forestAt, hsource, hdocument]
      exact iff_of_true ⟨r, rfl⟩ ⟨.nil, receives_nil_right false r.nodes⟩

theorem joins_mergeAt {r' : Root} (h : Tidy r.nodes) (hok : r.mergeAt disk path = .ok r') :
    Joins r.nodes (forestAt disk path) r'.nodes ∧ Tidy r'.nodes := by
  cases hsource : sourceAt disk path with
  | some file =>
    rw [mergeAt_source hsource] at hok
    rw [forestAt_source hsource]
    exact ⟨joins_mergeFile hok, h.mergeFile hok⟩
  | none =>
    cases hdocument : documentAt disk path with
    | some ds =>
      rw [mergeAt_document hsource hdocument] at hok
      obtain ⟨_, hnodes⟩ := Root.mergeDescriptors_ok hok
      rw [forestAt_of_documentAt hsource hdocument]
      exact ⟨joins_mergeNodes hnodes, h.mergeNodes (tidy_documentAt hdocument) hnodes⟩
    | none =>
      rw [Root.mergeAt, hsource, hdocument] at hok
      cases hok
      rw [forestAt, hsource, hdocument]
      exact ⟨.nil _, h⟩

/-- What files leave behind when they are merged one after the other. -/
theorem joins_foldlM_mergeAt {paths : List Path} {r' : Root} (h : Tidy r.nodes)
    (hok : paths.foldlM (Root.mergeAt disk) r = .ok r') :
    Joins r.nodes (paths.flatMap (forestAt disk)) r'.nodes ∧ Tidy r'.nodes := by
  induction paths generalizing r with
  | nil =>
    cases hok
    exact ⟨.nil _, h⟩
  | cons path rest ih =>
    obtain ⟨between, hpath, hrest⟩ := foldlM_cons_eq_ok.mp hok
    obtain ⟨hjoins, htidy⟩ := joins_mergeAt h hpath
    obtain ⟨hjoinsRest, htidyRest⟩ := ih htidy hrest
    rw [List.flatMap_cons]
    exact ⟨hjoins.trans hjoinsRest, htidyRest⟩

/-- **Files are merged one after the other exactly when each of them is tidy and fits what was
there before, and every later file fits every earlier one.** -/
theorem exists_foldlM_mergeAt_iff {paths : List Path} (h : Tidy r.nodes) :
    (∃ r', paths.foldlM (Root.mergeAt disk) r = .ok r') ↔
      (∀ p ∈ paths, Tidy (forestAt disk p) ∧ Fits disk r.nodes p) ∧
        paths.Pairwise fun p q => Fits disk (forestAt disk p) q := by
  induction paths generalizing r with
  | nil => exact iff_of_true ⟨r, rfl⟩ ⟨List.forall_mem_nil _, List.Pairwise.nil⟩
  | cons path rest ih =>
    rw [List.forall_mem_cons, List.pairwise_cons, ← exists_mergeAt_iff h]
    constructor
    · rintro ⟨r', hok⟩
      obtain ⟨between, hpath, hrest⟩ := foldlM_cons_eq_ok.mp hok
      obtain ⟨hjoins, htidy⟩ := joins_mergeAt h hpath
      obtain ⟨hall, hpairs⟩ := (ih htidy).mp ⟨r', hrest⟩
      refine ⟨⟨⟨between, hpath⟩, fun p hp => ⟨(hall p hp).1, ?_⟩⟩, fun p hp => ?_, hpairs⟩
      · exact (hjoins.receives_iff.mp (hall p hp).2).1
      · exact (hjoins.receives_iff.mp (hall p hp).2).2
    · rintro ⟨⟨⟨between, hpath⟩, hall⟩, hhead, hpairs⟩
      obtain ⟨hjoins, htidy⟩ := joins_mergeAt h hpath
      have hrest : ∀ p ∈ rest, Tidy (forestAt disk p) ∧ Fits disk between.nodes p := fun p hp =>
        ⟨(hall p hp).1, hjoins.receives_iff.mpr ⟨(hall p hp).2, hhead p hp⟩⟩
      obtain ⟨r', hok⟩ := (ih htidy).mpr ⟨hrest, hpairs⟩
      exact ⟨r', foldlM_cons_eq_ok.mpr ⟨between, hpath, hok⟩⟩

end Files

/-- Every node that a file describes is named by its path. -/
theorem fullName_forestAt {disk : Store} {path : Path} :
    ∀ a ∈ placedAll (forestAt disk path), a.node.fullName = scopeName a.path := by
  intro a ha
  by_cases hjson : path.hasExtension "json" = true
  · unfold forestAt at ha
    rw [sourceAt_eq_none hjson] at ha
    cases hdocument : documentAt disk path with
    | none =>
      rw [hdocument] at ha
      cases ha
    | some ds =>
      rw [hdocument] at ha
      exact Descriptor.fullName_toNodes "" ds a ha
  · exact (named_forestAt (Bool.eq_false_iff.mpr hjson) a ha).fullName_eq

end RpcBindings.Schema

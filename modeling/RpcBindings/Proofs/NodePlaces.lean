import Mathlib.Data.List.Nodup
import RpcBindings.Proofs.Merge

/-! # Where nodes stand

A node stands at the path of names that leads to it from the outermost scope (`StandsAt`).
Looking a path up and standing at it are two things: a look-up goes into the first node of each
name, and a second one of that name would never be found.  In a *tidy* forest no scope holds two
nodes of one name, and there a look-up finds at every path what stands at it
(`standsAt_iff_descend?`).  Everything that edits a schema checks whether a name is taken before
it adds a node, so edits keep forests tidy (`Tidy.insertDecls`, `Tidy.updateScope`).
-/
namespace RpcBindings.Schema

open RpcBindings.Proto (Decl File)

/-- Induction along a forest for what does not depend on the kinds of its nodes. -/
@[elab_as_elim]
theorem nodes_induction {motive : List Node → Prop} (nil : motive [])
    (cons : ∀ n rest, motive n.children → motive rest → motive (n :: rest)) :
    ∀ nodes, motive nodes := by
  intro nodes
  induction nodes using forest_induction with
  | nil => exact nil
  | scope kind name full children rest ihChildren ih => exact cons _ rest ihChildren ih
  | enum name full rest ih => exact cons _ rest nil ih
  | service s rest ih => exact cons _ rest nil ih

theorem Node.preorder_eq (n : Node) : n.preorder = n :: preorderAll n.children := by
  cases n <;> rfl

theorem preorderAll_eq_flatMap (nodes : List Node) :
    preorderAll nodes = nodes.flatMap Node.preorder := by
  induction nodes with
  | nil => rfl
  | cons n ns ih => rw [preorderAll, ih, List.flatMap_cons]

theorem Node.placed_eq (n : Node) :
    n.placed = ⟨[n.name], n.bare⟩ :: (placedAll n.children).map (Placed.below n.name) := by
  cases n <;> rfl

/-! ## Standing at a path -/

/-- The node, with all that it holds, stands at the path. -/
inductive StandsAt : List Node → List String → Node → Prop
  | here {nodes : List Node} {n : Node} : n ∈ nodes → StandsAt nodes [n.name] n
  | inside {nodes : List Node} {path : List String} {n m : Node} : n ∈ nodes →
      StandsAt n.children path m → StandsAt nodes (n.name :: path) m

section StandsAt
variable {nodes : List Node} {path : List String} {n : Node}

theorem StandsAt.path_ne_nil (h : StandsAt nodes path n) : path ≠ [] := by
  cases h with
  | here => exact List.cons_ne_nil _ _
  | inside => exact List.cons_ne_nil _ _

/-- The first name of a path is that of a node of the outermost scope. -/
theorem StandsAt.exists_head (h : StandsAt nodes path n) :
    ∃ m ∈ nodes, path.head? = some m.name := by
  cases h with
  | here hn => exact ⟨_, hn, rfl⟩
  | inside hm _ => exact ⟨_, hm, rfl⟩

theorem StandsAt.name_mem (h : StandsAt nodes path n) : n.name ∈ path := by
  induction h with
  | here => exact List.mem_cons_self ..
  | inside _ _ ih => exact List.mem_cons_of_mem _ ih

theorem StandsAt.mono {nodes' : List Node} (h : StandsAt nodes path n)
    (hsub : ∀ m ∈ nodes, m ∈ nodes') : StandsAt nodes' path n := by
  cases h with
  | here hn => exact .here (hsub _ hn)
  | inside hm hn => exact .inside (hsub _ hm) hn

/-- A node that stands somewhere is placed there. -/
theorem StandsAt.placed (h : StandsAt nodes path n) : ⟨path, n.bare⟩ ∈ placedAll nodes := by
  induction h with
  | @here nodes n hn => exact mem_placedAll.mpr ⟨n, hn, mem_placed_self n⟩
  | @inside nodes path n m hn _ ih =>
    refine mem_placedAll.mpr ⟨n, hn, ?_⟩
    rw [n.placed_eq]
    exact List.mem_cons_of_mem _ (List.mem_map.mpr ⟨_, ih, rfl⟩)

theorem exists_standsAt_of_placed {a : Placed} (h : a ∈ placedAll nodes) :
    ∃ n, StandsAt nodes a.path n ∧ n.bare = a.node := by
  induction nodes using nodes_induction generalizing a with
  | nil => cases h
  | cons n rest ihChildren ih =>
    rw [placedAll, n.placed_eq] at h
    rcases List.mem_append.mp h with h | h
    · rcases List.mem_cons.mp h with rfl | h
      · exact ⟨n, .here (List.mem_cons_self ..), rfl⟩
      · obtain ⟨b, hb, rfl⟩ := List.mem_map.mp h
        obtain ⟨m, hm, hbare⟩ := ihChildren hb
        exact ⟨m, .inside (List.mem_cons_self ..) hm, hbare⟩
    · obtain ⟨m, hm, hbare⟩ := ih h
      exact ⟨m, hm.mono fun _ => List.mem_cons_of_mem _, hbare⟩

/-- The nodes of a forest are those that stand somewhere in it. -/
theorem mem_preorderAll : n ∈ preorderAll nodes ↔ ∃ path, StandsAt nodes path n := by
  constructor
  · intro h
    induction nodes using nodes_induction with
    | nil => cases h
    | cons x rest ihChildren ih =>
      rw [preorderAll, x.preorder_eq] at h
      rcases List.mem_append.mp h with h | h
      · rcases List.mem_cons.mp h with rfl | h
        · exact ⟨_, .here (List.mem_cons_self ..)⟩
        · obtain ⟨path, hpath⟩ := ihChildren h
          exact ⟨_, .inside (List.mem_cons_self ..) hpath⟩
      · obtain ⟨path, hpath⟩ := ih h
        exact ⟨path, hpath.mono fun _ => List.mem_cons_of_mem _⟩
  · rintro ⟨path, h⟩
    induction h with
    | here hn =>
      rw [preorderAll_eq_flatMap, List.mem_flatMap]
      exact ⟨_, hn, by rw [Node.preorder_eq]; exact List.mem_cons_self ..⟩
    | inside hm _ ih =>
      rw [preorderAll_eq_flatMap, List.mem_flatMap]
      exact ⟨_, hm, by rw [Node.preorder_eq]; exact List.mem_cons_of_mem _ ih⟩

/-- Every name on the path to a node is the name of a node. -/
theorem StandsAt.exists_of_mem (h : StandsAt nodes path n) {segment : String}
    (hsegment : segment ∈ path) : ∃ m ∈ preorderAll nodes, m.name = segment := by
  induction h with
  | here hn =>
    rw [List.mem_singleton.mp hsegment]
    exact ⟨_, mem_preorderAll.mpr ⟨_, .here hn⟩, rfl⟩
  | inside hm _ ih =>
    rcases List.mem_cons.mp hsegment with rfl | hsegment
    · exact ⟨_, mem_preorderAll.mpr ⟨_, .here hm⟩, rfl⟩
    · obtain ⟨k, hk, hname⟩ := ih hsegment
      obtain ⟨path, hstands⟩ := mem_preorderAll.mp hk
      exact ⟨k, mem_preorderAll.mpr ⟨_, .inside hm hstands⟩, hname⟩

theorem fullNames_preorderAll (nodes : List Node) :
    (preorderAll nodes).map Node.fullName = (placedAll nodes).map (·.node.fullName) := by
  induction nodes using nodes_induction with
  | nil => rfl
  | cons n rest ihChildren ih =>
    rw [preorderAll, placedAll, n.preorder_eq, n.placed_eq, List.map_append, List.map_append,
      List.map_cons, List.map_cons, List.map_map, ih, ihChildren, fullName_bare]
    rfl

/-! ## Looking a path up -/

theorem descend?_cons {name : String} (hne : path ≠ []) :
    descend? nodes (name :: path) =
      (find? nodes name).bind fun n => descend? n.children path := by
  cases path with
  | nil => exact absurd rfl hne
  | cons next path =>
    rw [descend?]
    · cases find? nodes name <;> rfl
    · exact fun h => nomatch h

/-- What is found at a path stands there. -/
theorem standsAt_of_descend? (h : descend? nodes path = some n) : StandsAt nodes path n := by
  induction path generalizing nodes with
  | nil => cases h
  | cons name rest ih =>
    by_cases hrest : rest = []
    · subst hrest
      obtain ⟨hmem, rfl⟩ := find?_eq_some h
      exact .here hmem
    · rw [descend?_cons hrest] at h
      obtain ⟨m, hfind, hdescend⟩ := Option.bind_eq_some_iff.mp h
      obtain ⟨hmem, rfl⟩ := find?_eq_some hfind
      exact .inside hmem (ih hdescend)

end StandsAt

/-! ## Tidy forests -/

/-- No scope of the forest holds two nodes of one name. -/
inductive Tidy : List Node → Prop
  | intro {nodes : List Node} (names : (nodes.map Node.name).Nodup)
      (inside : ∀ n ∈ nodes, Tidy n.children) : Tidy nodes

section Tidy
variable {nodes : List Node} {path : List String} {n : Node}

theorem Tidy.names (h : Tidy nodes) : (nodes.map Node.name).Nodup := by
  cases h
  assumption

theorem Tidy.children (h : Tidy nodes) (hn : n ∈ nodes) : Tidy n.children := by
  cases h with
  | intro _ inside => exact inside n hn

theorem Tidy.nil : Tidy [] :=
  .intro List.nodup_nil fun _ hn => nomatch hn

theorem tidy_cons {n : Node} {ns : List Node} :
    Tidy (n :: ns) ↔ n.name ∉ ns.map Node.name ∧ Tidy n.children ∧ Tidy ns := by
  constructor
  · intro h
    obtain ⟨hnew, hnames⟩ := List.nodup_cons.mp h.names
    exact ⟨hnew, h.children (List.mem_cons_self ..),
      .intro hnames fun m hm => h.children (List.mem_cons_of_mem _ hm)⟩
  · rintro ⟨hnew, hn, hns⟩
    refine .intro (List.nodup_cons.mpr ⟨hnew, hns.names⟩) fun m hm => ?_
    rcases List.mem_cons.mp hm with rfl | hm
    · exact hn
    · exact hns.children hm

/-- Every node of a scope is found under its name. -/
theorem Tidy.find?_of_mem (h : Tidy nodes) (hn : n ∈ nodes) : find? nodes n.name = some n := by
  cases hfind : find? nodes n.name with
  | none => exact absurd rfl (find?_eq_none.mp hfind n hn)
  | some m =>
    obtain ⟨hm, hname⟩ := find?_eq_some hfind
    rw [List.inj_on_of_nodup_map h.names hm hn hname]

/-- **In a tidy forest a look-up finds what stands at a path.** -/
theorem standsAt_iff_descend? (h : Tidy nodes) :
    StandsAt nodes path n ↔ descend? nodes path = some n := by
  refine ⟨fun hstands => ?_, standsAt_of_descend?⟩
  induction hstands with
  | here hn => exact h.find?_of_mem hn
  | inside hm hstands ih =>
    rw [descend?_cons hstands.path_ne_nil, h.find?_of_mem hm]
    exact ih (h.children hm)

/-- What stands in a tidy forest holds a tidy forest. -/
theorem Tidy.of_standsAt (h : Tidy nodes) (hn : StandsAt nodes path n) : Tidy n.children := by
  induction hn with
  | here hn => exact h.children hn
  | inside hm _ ih => exact ih (h.children hm)

/-- **No two nodes of a tidy forest are placed at one path.** -/
theorem Tidy.nodup_paths (h : Tidy nodes) : ((placedAll nodes).map Placed.path).Nodup := by
  induction nodes using nodes_induction with
  | nil => exact List.nodup_nil
  | cons n rest ihChildren ih =>
    obtain ⟨hfresh, hnames⟩ := List.nodup_cons.mp h.names
    have hrest : Tidy rest := .intro hnames fun m hm => h.children (List.mem_cons_of_mem _ hm)
    have hbelow : (n.placed.map Placed.path) =
        [n.name] :: ((placedAll n.children).map Placed.path).map (n.name :: ·) := by
      rw [n.placed_eq, List.map_cons, List.map_map, List.map_map]
      rfl
    rw [placedAll, List.map_append, hbelow, List.nodup_append]
    refine ⟨List.nodup_cons.mpr ⟨?_, ?_⟩, ih hrest, ?_⟩
    · -- what stands inside has a longer path
      intro hmem
      obtain ⟨path, hpath, heq⟩ := List.mem_map.mp hmem
      obtain ⟨a, ha, rfl⟩ := List.mem_map.mp hpath
      exact path_ne_nil ha (List.cons.inj heq).2
    · exact (ihChildren (h.children (List.mem_cons_self ..))).map List.cons_injective
    · -- what stands beside has a path that starts with another name
      rintro path hpath other hother rfl
      obtain ⟨b, hb, rfl⟩ := List.mem_map.mp hother
      obtain ⟨_, hstands, _⟩ := exists_standsAt_of_placed hb
      obtain ⟨m, hm, hhead⟩ := hstands.exists_head
      have hname : b.path.head? = some n.name := by
        rcases List.mem_cons.mp hpath with heq | hpath
        · rw [heq]; rfl
        · obtain ⟨inner, _, heq⟩ := List.mem_map.mp hpath
          rw [← heq]; rfl
      rw [hname] at hhead
      exact hfresh (List.mem_map.mpr ⟨m, hm, (Option.some.inj hhead).symm⟩)

/-- Nodes that stand at different paths do not clash. -/
theorem Tidy.consistent {nodes : List Node} (h : Tidy nodes) : Consistent nodes :=
  (List.pairwise_map.mp h.nodup_paths).imp fun hne hclash => hne hclash.1

end Tidy

/-! ## Edits -/

section Edits
variable {nodes nodes' : List Node} {n : Node}

theorem Tidy.concat (h : Tidy nodes) (hnew : find? nodes n.name = none)
    (hn : Tidy n.children) : Tidy (nodes ++ [n]) := by
  refine .intro ?_ ?_
  · rw [List.map_append, List.map_singleton, ← List.concat_eq_append]
    exact h.names.concat (find?_eq_none_iff_notMem.mp hnew)
  · intro m hm
    rcases List.mem_append.mp hm with hm | hm
    · exact h.children hm
    · rwa [List.mem_singleton.mp hm]

theorem map_name_put (h : n.name ∈ nodes.map Node.name) :
    (put n nodes).map Node.name = nodes.map Node.name := by
  induction nodes with
  | nil => cases h
  | cons x xs ih =>
    rw [put]
    split
    · next hx => rw [List.map_cons, List.map_cons, hx]
    · next hx =>
      rw [List.map_cons, List.map_cons, ih ((List.mem_cons.mp h).resolve_left (Ne.symm hx))]

theorem Tidy.put (h : Tidy nodes) (hmem : n.name ∈ nodes.map Node.name) (hn : Tidy n.children) :
    Tidy (put n nodes) := by
  refine .intro ?_ ?_
  · rw [map_name_put hmem]
    exact h.names
  · intro m hm
    rcases mem_put hm with rfl | hm
    · exact hn
    · exact h.children hm

/-- **Declarations are inserted under names that are free.** -/
theorem Tidy.insertDecls {parent : String} {ds : List Decl} (h : Tidy nodes)
    (hok : insertDecls parent nodes ds = .ok nodes') : Tidy nodes' := by
  induction ds using decl_induction generalizing parent nodes nodes' with
  | nil =>
    rw [Schema.insertDecls] at hok
    cases hok
    exact h
  | message name members rest ihMembers ih =>
    obtain ⟨node, hnode, hnew, hrest⟩ := insertDecls_cons_ok hok
    rw [nodeOfDecl] at hnode
    split at hnode
    · next children hchildren =>
      cases hnode
      exact ih (h.concat hnew (ihMembers .nil hchildren)) hrest
    · cases hnode
  | enum name rest ih =>
    obtain ⟨node, hnode, hnew, hrest⟩ := insertDecls_cons_ok hok
    cases hnode
    exact ih (h.concat hnew .nil) hrest
  | service name methods rest ih =>
    obtain ⟨node, hnode, hnew, hrest⟩ := insertDecls_cons_ok hok
    cases hnode
    exact ih (h.concat hnew .nil) hrest

/-- **An edit of one scope that keeps it tidy keeps the whole forest tidy.** -/
theorem Tidy.updateScope {edit : String → List Node → Except DuplicateName (List Node)}
    {path : List String} {scope : String}
    (hedit : ∀ {scope : String} {ns ns' : List Node}, Tidy ns → edit scope ns = .ok ns' → Tidy ns')
    (h : Tidy nodes) (hok : updateScope edit scope nodes path = .ok nodes') : Tidy nodes' := by
  induction path generalizing scope nodes nodes' with
  | nil => exact hedit h hok
  | cons name rest ih =>
    rw [Schema.updateScope] at hok
    split at hok
    · next hfind =>
      split at hok
      · next children hchildren =>
        cases hok
        exact h.concat hfind (ih .nil hchildren)
      · cases hok
    · next kind m full children hfind =>
      obtain ⟨hmem, rfl⟩ := find?_eq_some hfind
      split at hok
      · next children' hchildren =>
        cases hok
        exact h.put (List.mem_map.mpr ⟨_, hmem, rfl⟩) (ih (h.children hmem) hchildren)
      · cases hok
    · cases hok

theorem Tidy.mergeFile {Pos : Type} {r r' : Root} {file : File Pos} (h : Tidy r.nodes)
    (hok : r.mergeFile file = .ok r') : Tidy r'.nodes := by
  unfold Root.mergeFile Root.update at hok
  split at hok
  · next nodes hnodes =>
    cases hok
    exact h.updateScope Tidy.insertDecls hnodes
  · cases hok

end Edits

end RpcBindings.Schema

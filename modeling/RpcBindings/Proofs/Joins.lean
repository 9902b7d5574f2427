import RpcBindings.Proofs.DocumentForests
import RpcBindings.Proofs.ScopePaths

/-! # What a merge leaves behind

Merging a forest into a schema keeps every node that is there and adds nodes of the forest only.
Not all of them are added: where the path of a package is taken, what stands there takes its
place.  `Joins` says this of any forest; it holds of sources (`joins_mergeFile`) and of documents
(`joins_mergeNodes`), and it composes, so it holds of files that are merged one after the other.

It is all that is needed to see that the order does not show: two sequences of merges of the same
nodes that both go through leave the same nodes behind (`placed_of_joins`).
-/
namespace RpcBindings.Schema

open RpcBindings.Proto (File)

/-- What is left when the forest `added` is merged into `nodes`: every node that was there, and
nodes of `added`.  A node of `added` is missing only when it is a package, and then something
else stands at its path. -/
structure Joins (nodes added nodes' : List Node) : Prop where
  origin : ∀ a ∈ placedAll nodes', a ∈ placedAll nodes ∨ a ∈ placedAll added
  kept : ∀ a ∈ placedAll nodes, a ∈ placedAll nodes'
  covered : ∀ b ∈ placedAll added, b ∈ placedAll nodes' ∨
    b.node.isPackage = true ∧ ∃ a ∈ placedAll nodes', a.path = b.path

theorem mem_put_self (n : Node) (nodes : List Node) : n ∈ put n nodes := by
  induction nodes with
  | nil => exact List.mem_singleton.mpr rfl
  | cons x xs ih =>
    rw [put]
    split
    · exact List.mem_cons_self ..
    · exact List.mem_cons_of_mem _ ih

/-- A node is replaced only when it is the one that is found. -/
theorem mem_put_or_found {n m : Node} {nodes : List Node} (h : m ∈ nodes) :
    m ∈ put n nodes ∨ find? nodes n.name = some m := by
  induction nodes with
  | nil => cases h
  | cons x xs ih =>
    rw [put]
    split
    · next hx =>
      rcases List.mem_cons.mp h with rfl | h
      · exact Or.inr (List.find?_cons_of_pos (beq_iff_eq.mpr hx))
      · exact Or.inl (List.mem_cons_of_mem _ h)
    · next hx =>
      rcases List.mem_cons.mp h with rfl | h
      · exact Or.inl (List.mem_cons_self ..)
      · refine (ih h).imp (List.mem_cons_of_mem _) fun hfound => ?_
        rw [find?, List.find?_cons_of_neg (by simpa using hx)]
        exact hfound

namespace Joins

variable {nodes added nodes' : List Node}

theorem nil (nodes : List Node) : Joins nodes [] nodes where
  origin := fun _ ha => Or.inl ha
  kept := fun _ ha => ha
  covered := List.forall_mem_nil _

theorem append (nodes added : List Node) : Joins nodes added (nodes ++ added) where
  origin := by
    intro a ha
    rwa [placedAll_append, List.mem_append] at ha
  kept := by
    intro a ha
    rw [placedAll_append]
    exact List.mem_append_left _ ha
  covered := by
    intro b hb
    rw [placedAll_append]
    exact Or.inl (List.mem_append_right _ hb)

theorem trans {between more : List Node} (h : Joins nodes added between)
    (h' : Joins between more nodes') : Joins nodes (added ++ more) nodes' where
  origin := by
    intro a ha
    rw [placedAll_append, List.mem_append, ← or_assoc]
    exact (h'.origin a ha).imp_left (h.origin a)
  kept := fun a ha => h'.kept a (h.kept a ha)
  covered := by
    intro b hb
    rw [placedAll_append] at hb
    rcases List.mem_append.mp hb with hb | hb
    · rcases h.covered b hb with hb | ⟨hpackage, a, ha, hpath⟩
      · exact Or.inl (h'.kept b hb)
      · exact Or.inr ⟨hpackage, a, h'.kept a ha, hpath⟩
    · exact h'.covered b hb

section Scopes
variable {kind : ScopeKind} {name full full' : String} {children children' : List Node}

/-- What is merged into an empty scope can be merged with the scope. -/
theorem new (nodes : List Node) (h : Joins [] added children) :
    Joins nodes [.scope .package name full added]
      (nodes ++ [.scope .package name full children]) where
  origin := by
    intro a ha
    rw [placedAll_append, placedAll_singleton, List.mem_append, mem_placed_scope] at ha
    rw [placedAll_singleton, mem_placed_scope]
    refine ha.imp_right (Or.imp_right ?_)
    rintro ⟨b, hb, rfl⟩
    exact ⟨b, (h.origin b hb).resolve_left List.not_mem_nil, rfl⟩
  kept := (append nodes _).kept
  covered := by
    intro b hb
    simp only [placedAll_append, placedAll_singleton, List.mem_append, mem_placed_scope] at hb ⊢
    rcases hb with rfl | ⟨c, hc, rfl⟩
    · exact Or.inl (Or.inr (Or.inl rfl))
    · rcases h.covered c hc with hc | ⟨hpackage, a, ha, hpath⟩
      · exact Or.inl (Or.inr (Or.inr ⟨c, hc, rfl⟩))
      · exact Or.inr ⟨hpackage, a.below name, Or.inr (Or.inr ⟨a, ha, rfl⟩),
          congrArg (List.cons name) hpath⟩

/-- What is merged into a scope that is there can be merged with a package of its name. -/
theorem inside (hfind : find? nodes name = some (.scope kind name full children))
    (h : Joins children added children') :
    Joins nodes [.scope .package name full' added]
      (put (.scope kind name full children') nodes) where
  origin := by
    intro a ha
    rw [placedAll_singleton, mem_placed_scope]
    have hmem := (find?_eq_some hfind).1
    rcases placed_put_scope hmem ha with ha | ⟨b, hb, rfl⟩
    · exact Or.inl ha
    · rcases h.origin b hb with hb | hb
      · exact Or.inl (mem_placed_children hmem hb)
      · exact Or.inr (Or.inr ⟨b, hb, rfl⟩)
  kept := by
    intro a ha
    obtain ⟨n, hn, han⟩ := mem_placedAll.mp ha
    rcases mem_put_or_found (n := .scope kind name full children') hn with hn | hfound
    · exact mem_placedAll.mpr ⟨n, hn, han⟩
    · -- the node that is replaced is the scope, with what it held before
      cases hfind.symm.trans hfound
      refine mem_placedAll.mpr ⟨_, mem_put_self _ nodes, mem_placed_scope.mpr ?_⟩
      refine (mem_placed_scope.mp han).imp_right ?_
      rintro ⟨b, hb, rfl⟩
      exact ⟨b, h.kept b hb, rfl⟩
  covered := by
    intro b hb
    have hself := mem_put_self (.scope kind name full children') nodes
    rw [placedAll_singleton, mem_placed_scope] at hb
    rcases hb with rfl | ⟨c, hc, rfl⟩
    · exact Or.inr ⟨rfl, _, mem_placedAll.mpr ⟨_, hself, mem_placed_self _⟩, rfl⟩
    · rcases h.covered c hc with hc | ⟨hpackage, a, ha, hpath⟩
      · exact Or.inl (mem_placed_children hself hc)
      · exact Or.inr ⟨hpackage, a.below name, mem_placed_children hself ha,
          congrArg (List.cons name) hpath⟩

end Scopes

end Joins

/-! ## Sources -/

/-- An edit that joins `inner` to the scope at a path joins it to the forest inside the packages
of the path. -/
theorem joins_updateScope {edit : String → List Node → Except DuplicateName (List Node)}
    {inner : List Node} {path : List String} {scope : String} {nodes nodes' : List Node}
    (hedit : ∀ {ns ns' : List Node}, edit (path.foldl Name.member scope) ns = .ok ns' →
      Joins ns inner ns')
    (h : updateScope edit scope nodes path = .ok nodes') :
    Joins nodes (nest scope inner path) nodes' := by
  induction path generalizing scope nodes nodes' with
  | nil => exact hedit h
  | cons name rest ih =>
    rw [nest]
    rw [updateScope] at h
    split at h
    · split at h
      · next children hchildren =>
        cases h
        exact (ih hedit hchildren).new nodes
      · cases h
    · next kind n full children hfind =>
      obtain rfl : n = name := (find?_eq_some hfind).2
      split at h
      · next children' hchildren =>
        cases h
        exact (ih hedit hchildren).inside hfind
      · cases h
    · cases h

theorem joins_mergeFile {Pos : Type} {r r' : Root} {file : File Pos}
    (h : r.mergeFile file = .ok r') : Joins r.nodes (sourceForest file) r'.nodes := by
  unfold Root.mergeFile Root.update at h
  split at h
  · next nodes hnodes =>
    cases h
    refine joins_updateScope (fun {ns ns'} hedit => ?_) hnodes
    rw [insertDecls_eq_append hedit]
    exact .append ns _
  · cases h

/-! ## Documents -/

/-- What merging a node into a forest does. -/
inductive MergeStep (nodes : List Node) (n : Node) : Prop
  /-- The name is free, and the node is added as it is. -/
  | adds : find? nodes n.name = none → mergeNode nodes n = .ok (put n nodes) → MergeStep nodes n
  /-- It is a package like the node of that name, and what it holds is merged into that one. -/
  | opens {taken : Node} : find? nodes n.name = some taken →
      taken.isPackage = true → n.isPackage = true →
      mergeNode nodes n =
        (fun merged => put (.scope .package n.name taken.fullName merged) nodes) <$>
          mergeNodes (inside nodes n.name) n.children →
      MergeStep nodes n
  /-- The name is taken, and the node is refused. -/
  | refuses {taken : Node} : find? nodes n.name = some taken →
      (taken.isPackage && n.isPackage) = false →
      mergeNode nodes n = .error ⟨taken.fullName⟩ → MergeStep nodes n

section MergeSteps
variable {nodes : List Node} {n taken : Node} {name : String}

theorem insertNew_of_taken (h : find? nodes n.name = some taken) :
    insertNew nodes n = .error ⟨taken.fullName⟩ := by
  rw [insertNew, h]

/-- Only a package goes into a package. -/
theorem mergeNode_of_taken (h : find? nodes n.name = some taken)
    (hkinds : (taken.isPackage && n.isPackage) = false) :
    mergeNode nodes n = .error ⟨taken.fullName⟩ := by
  cases n with
  | scope kind name full children =>
    cases kind with
    | message => exact insertNew_of_taken h
    | package =>
      have hfind : find? nodes name = some taken := h
      rw [mergeNode, hfind]
      cases taken with
      | scope kind name full existing =>
        cases kind with
        | message => rfl
        | package => cases hkinds
      | enum => rfl
      | service => rfl
  | enum => exact insertNew_of_taken h
  | service => exact insertNew_of_taken h

theorem eq_package (h : n.isPackage = true) :
    n = .scope .package n.name n.fullName n.children := by
  cases n with
  | scope kind name full children =>
    cases kind with
    | package => rfl
    | message => cases h
  | enum => cases h
  | service => cases h

theorem find?_package (h : find? nodes name = some taken) (htaken : taken.isPackage = true) :
    find? nodes name = some (.scope .package name taken.fullName (inside nodes name)) := by
  rw [inside_of_found h, h, ← (find?_eq_some h).2]
  exact congrArg some (eq_package htaken)

theorem mergeNode_into (h : find? nodes n.name = some taken) (htaken : taken.isPackage = true)
    (hn : n.isPackage = true) :
    mergeNode nodes n =
      (fun merged => put (.scope .package n.name taken.fullName merged) nodes) <$>
        mergeNodes (inside nodes n.name) n.children := by
  have hfound := find?_package h htaken
  cases n with
  | scope kind name full children =>
    cases kind with
    | message => cases hn
    | package =>
      dsimp only [Node.name, Node.children] at hfound ⊢
      rw [mergeNode, hfound]
      dsimp only
      cases mergeNodes (inside nodes name) children <;> rfl
  | enum => cases hn
  | service => cases hn

end MergeSteps

theorem mergeStep (nodes : List Node) (n : Node) : MergeStep nodes n := by
  cases hfind : find? nodes n.name with
  | none =>
    exact .adds hfind (by rw [mergeNode_of_new hfind, put_of_new hfind])
  | some taken =>
    cases hkinds : taken.isPackage && n.isPackage with
    | false => exact .refuses hfind hkinds (mergeNode_of_taken hfind hkinds)
    | true =>
      obtain ⟨htaken, hn⟩ := Bool.and_eq_true_iff.mp hkinds
      exact .opens hfind htaken hn (mergeNode_into hfind htaken hn)

/-- A node is added under a name that is free, or what stands in a package is merged into the
package of its name. -/
theorem mergeNode_cases {nodes nodes' : List Node} {n : Node}
    (h : mergeNode nodes n = .ok nodes') :
    (find? nodes n.name = none ∧ nodes' = nodes ++ [n]) ∨
      ∃ name full children full' existing merged, n = .scope .package name full children ∧
        find? nodes name = some (.scope .package name full' existing) ∧
        mergeNodes existing children = .ok merged ∧
        nodes' = put (.scope .package name full' merged) nodes := by
  cases mergeStep nodes n with
  | adds hfind hmerge =>
    cases hmerge.symm.trans h
    exact Or.inl ⟨hfind, put_of_new hfind⟩
  | @opens taken hfind htaken hn hmerge =>
    refine Or.inr ⟨n.name, n.fullName, n.children, taken.fullName, inside nodes n.name, ?_⟩
    rw [hmerge] at h
    cases hmerged : mergeNodes (inside nodes n.name) n.children with
    | error e =>
      rw [hmerged] at h
      cases h
    | ok merged =>
      rw [hmerged] at h
      cases h
      exact ⟨merged, eq_package hn, find?_package hfind htaken, rfl, rfl⟩
  | refuses _ _ hmerge => cases hmerge.symm.trans h

theorem joins_mergeNodes {ns nodes nodes' : List Node} (h : mergeNodes nodes ns = .ok nodes') :
    Joins nodes ns nodes' := by
  induction ns using nodes_induction generalizing nodes nodes' with
  | nil =>
    cases h
    exact .nil nodes
  | cons n rest ihChildren ih =>
    obtain ⟨between, hnode, hrest⟩ := mergeNodes_cons_ok h
    have hhead : Joins nodes [n] between := by
      rcases mergeNode_cases hnode with ⟨_, rfl⟩ |
        ⟨name, full, children, full', existing, merged, rfl, hfind, hmerged, rfl⟩
      · exact .append nodes [n]
      · exact (ihChildren hmerged).inside hfind
    exact hhead.trans (ih hrest)

theorem Tidy.mergeNodes {ns nodes nodes' : List Node} (h : Tidy nodes) (hns : Tidy ns)
    (hok : mergeNodes nodes ns = .ok nodes') : Tidy nodes' := by
  induction ns using nodes_induction generalizing nodes nodes' with
  | nil =>
    cases hok
    exact h
  | cons n rest ihChildren ih =>
    obtain ⟨_, hchildren, hrest⟩ := tidy_cons.mp hns
    obtain ⟨between, hnode, hmore⟩ := mergeNodes_cons_ok hok
    refine ih ?_ hrest hmore
    rcases mergeNode_cases hnode with ⟨hfind, rfl⟩ |
      ⟨name, full, children, full', existing, merged, rfl, hfind, hmerged, rfl⟩
    · exact h.concat hfind hchildren
    · have hmem := (find?_eq_some hfind).1
      exact h.put (List.mem_map.mpr ⟨_, hmem, rfl⟩)
        (ihChildren (h.children hmem) hchildren hmerged)

/-! ## What does not depend on the order -/

section Names
variable {nodes nodes' : List Node}

theorem bare_of_placed {a : Placed} (ha : a ∈ placedAll nodes) : a.node.bare = a.node := by
  obtain ⟨n, _, hbare⟩ := exists_standsAt_of_placed ha
  rw [← hbare]
  cases n <;> rfl

/-- The path of a node ends with its name. -/
theorem getLast?_path {a : Placed} (ha : a ∈ placedAll nodes) :
    a.path.getLast? = some a.node.name := by
  induction nodes using nodes_induction generalizing a with
  | nil => cases ha
  | cons n rest ihChildren ih =>
    rw [placedAll, n.placed_eq] at ha
    rcases List.mem_append.mp ha with ha | ha
    · rcases List.mem_cons.mp ha with rfl | ha
      · cases n <;> rfl
      · obtain ⟨b, hb, rfl⟩ := List.mem_map.mp ha
        rw [Placed.below, List.getLast?_cons, ihChildren hb]
        rfl
    · exact ih ha

/-- Two packages at one path are the same when they have the same full name. -/
theorem eq_of_isPackage {a b : Placed} (ha : a ∈ placedAll nodes) (hb : b ∈ placedAll nodes')
    (hpackage : a.node.isPackage = true) (hpackage' : b.node.isPackage = true)
    (hpath : a.path = b.path) (hfull : a.node.fullName = b.node.fullName) : a = b := by
  have hname : a.node.name = b.node.name := by
    have hlast := getLast?_path ha
    rw [hpath, getLast?_path hb] at hlast
    exact (Option.some.inj hlast).symm
  have hpackages : ∀ n : Node, n.isPackage = true → n.bare = n →
      n = .scope .package n.name n.fullName [] := by
    intro n hn hbare
    cases n with
    | scope kind name full children =>
      cases kind with
      | package => exact hbare.symm
      | message => cases hn
    | enum => cases hn
    | service => cases hn
  have hnode : a.node = b.node := by
    rw [hpackages a.node hpackage (bare_of_placed ha),
      hpackages b.node hpackage' (bare_of_placed hb), hname, hfull]
  cases a
  cases b
  cases hpath
  cases hnode
  rfl

theorem Tidy.eq_of_path {a b : Placed} (h : Tidy nodes) (ha : a ∈ placedAll nodes)
    (hb : b ∈ placedAll nodes) (hpath : a.path = b.path) : a = b :=
  List.inj_on_of_nodup_map h.nodup_paths ha hb hpath

/-- A node that one sequence of merges leaves behind is left behind by every other sequence that
merges the same nodes. -/
theorem placed_of_joins {xs ys : List Node}
    (hsame : ∀ a, a ∈ placedAll xs ↔ a ∈ placedAll ys)
    (hnamed : ∀ a ∈ placedAll xs, a.node.fullName = scopeName a.path)
    (htidy : Tidy nodes) (h : Joins [] xs nodes) (h' : Joins [] ys nodes') {a : Placed}
    (ha : a ∈ placedAll nodes) : a ∈ placedAll nodes' := by
  have hx : a ∈ placedAll xs := (h.origin a ha).resolve_left List.not_mem_nil
  rcases h'.covered a ((hsame a).mp hx) with ha' | ⟨hpackage, c, hc, hpath⟩
  · exact ha'
  · -- `c` covers the package `a` in the second sequence, and the first one merges `c` as well:
    -- there it is left behind at the path of `a`, or it is a package that is covered like `a`
    have hcx : c ∈ placedAll xs :=
      (hsame c).mpr ((h'.origin c hc).resolve_left List.not_mem_nil)
    have heq : c = a := by
      rcases h.covered c hcx with hcn | ⟨hpackage', _⟩
      · exact htidy.eq_of_path hcn ha hpath
      · refine eq_of_isPackage hcx hx hpackage' hpackage hpath ?_
        rw [hnamed c hcx, hnamed a hx, hpath]
    rwa [← heq]

end Names

end RpcBindings.Schema

import RpcBindings.Proofs.Joins
import RpcBindings.Proofs.ScopePaths
import RpcBindings.Schema.Load

/-! # The union of two documents

Documents that are read one after the other share their packages and nothing else.  A node of the
second document that comes to a name which is free is added as it is, one that comes to a package
and is a package itself has its nodes merged into it, and any other is refused (`MergeStep`).

So the second document is refused when one of its paths leads to a node of the first as well and not
both are packages.  Its nodes are merged depth-first, and a node that has been merged never stands
in the way of one that follows, since nodes of one scope have different names.  Hence the node that
is named in the error is known beforehand: it is the first of the clashes with the first document,
in the depth-first order of the second (`ends_mergeNodes`).  When there is none, what is left behind
is the union of the two, in which every scope has its nodes of the first document in front
(`OrderedUnion`).
-/
namespace RpcBindings.Schema

open RpcBindings.Disk (Path)

/-! ## Clashes -/

/-- The node that stands where `b` stands, unless both are packages. -/
def clash? (nodes : List Node) (b : Placed) : Option Node :=
  (descend? nodes b.path).filter fun a => !(a.isPackage && b.node.isPackage)

section Clash
variable {nodes nodes' : List Node} {m : Node}

theorem clash?_eq_none_iff {b : Placed} : clash? nodes b = none ↔
    ∀ a, descend? nodes b.path = some a → a.isPackage = true ∧ b.node.isPackage = true := by
  simp [clash?, Option.filter_eq_none_iff]

theorem clash?_eq_some_iff {b : Placed} {taken : Node} : clash? nodes b = some taken ↔
    descend? nodes b.path = some taken ∧ (taken.isPackage && b.node.isPackage) = false := by
  rw [clash?, Option.filter_eq_some_iff, Bool.not_eq_true']

theorem clash?_congr {b b' : Placed} (hpath : descend? nodes b.path = descend? nodes' b'.path)
    (hnode : b.node = b'.node) : clash? nodes b = clash? nodes' b' := by
  rw [clash?, clash?, hpath, hnode]

theorem clash?_below {name : String} {b : Placed} (hb : b.path ≠ []) :
    clash? nodes (b.below name) = clash? (inside nodes name) b :=
  clash?_congr (descend?_inside hb) rfl

/-- Nodes with another first name on their paths do not notice what is put in place. -/
theorem clash?_put {b : Placed} (h : b.path.head? ≠ some m.name) :
    clash? (put m nodes) b = clash? nodes b := by
  refine clash?_congr ?_ rfl
  obtain ⟨path, b⟩ := b
  cases path with
  | nil => rfl
  | cons first rest =>
    have hne : m.name ≠ first := fun he => h (congrArg some he.symm)
    by_cases hrest : rest = []
    · subst hrest
      exact find?_put_of_ne hne
    · rw [descend?_inside hrest, descend?_inside hrest, inside_put_of_ne hne]

end Clash

/-- The nodes that stand in the way of a forest, in its depth-first order. -/
def clashes (nodes ns : List Node) : List Node := (placedAll ns).filterMap (clash? nodes)

section Clashes
variable {nodes : List Node} {m : Node}

theorem clashes_cons (nodes : List Node) (n : Node) (rest : List Node) :
    clashes nodes (n :: rest) =
      (clash? nodes ⟨[n.name], n.bare⟩).toList ++ clashes (inside nodes n.name) n.children ++
        clashes nodes rest := by
  have hbelow : (placedAll n.children).filterMap (clash? nodes ∘ Placed.below n.name) =
      clashes (inside nodes n.name) n.children :=
    List.filterMap_congr fun b hb => clash?_below (path_ne_nil hb)
  rw [clashes, placedAll, n.placed_eq, List.filterMap_append, List.filterMap_cons,
    List.filterMap_map, hbelow]
  cases clash? nodes ⟨[n.name], n.bare⟩ <;> rfl

/-- Nothing stands in an empty forest. -/
theorem clashes_empty (ns : List Node) : clashes [] ns = [] := by
  refine List.filterMap_eq_nil_iff.mpr fun b _ => clash?_eq_none_iff.mpr fun a ha => ?_
  obtain ⟨x, hx, -⟩ := (standsAt_of_descend? ha).exists_head
  cases hx

/-- What is put in place does not stand in the way of nodes beside it. -/
theorem clashes_put {rest : List Node} (h : m.name ∉ rest.map Node.name) :
    clashes (put m nodes) rest = clashes nodes rest := by
  refine List.filterMap_congr fun b hb => clash?_put fun hhead => ?_
  obtain ⟨_, hstands, _⟩ := exists_standsAt_of_placed hb
  obtain ⟨x, hx, hname⟩ := hstands.exists_head
  rw [hhead] at hname
  exact h (List.mem_map.mpr ⟨x, hx, (Option.some.inj hname).symm⟩)

end Clashes

/-- **A forest is merged when nothing stands in its way, and otherwise the first node that does is
named.** -/
theorem ends_mergeNodes {ns : List Node} (hns : Tidy ns) (nodes : List Node) :
    Ends
      (fun _ => clashes nodes ns = [])
      (fun e => ∃ taken later, clashes nodes ns = taken :: later ∧ e.fullName = taken.fullName)
      (mergeNodes nodes ns) := by
  induction ns using nodes_induction generalizing nodes with
  | nil => exact .ok rfl
  | cons n rest ihChildren ih =>
    obtain ⟨hnew, hchildren, hrest⟩ := tidy_cons.mp hns
    rw [mergeNodes, clashes_cons]
    cases mergeStep nodes n with
    | adds hfind hmerge =>
      have hfree : clash? nodes ⟨[n.name], n.bare⟩ = none := by
        refine clash?_eq_none_iff.mpr fun a ha => ?_
        cases hfind.symm.trans ha
      rw [hmerge, hfree, inside_of_new hfind, clashes_empty, ← clashes_put hnew]
      exact ih hrest (put n nodes)
    | @opens taken hfind htaken hn hmerge =>
      have hfree : clash? nodes ⟨[n.name], n.bare⟩ = none := by
        refine clash?_eq_none_iff.mpr fun a ha => ?_
        cases hfind.symm.trans ha
        exact ⟨htaken, (isPackage_bare n).trans hn⟩
      have hbelow := ihChildren hchildren (inside nodes n.name)
      rw [hmerge, hfree]
      cases hmerged : mergeNodes (inside nodes n.name) n.children with
      | error e =>
        rw [hmerged] at hbelow
        obtain ⟨clash, later, hclashes, hname⟩ := hbelow.of_error
        rw [hclashes]
        exact .error ⟨clash, later ++ clashes nodes rest, rfl, hname⟩
      | ok merged =>
        -- the package that is put back is invisible to the nodes beside it
        rw [hmerged] at hbelow
        rw [hbelow.of_ok,
          ← clashes_put (m := .scope .package n.name taken.fullName merged) hnew]
        exact ih hrest _
    | @refuses taken hfind hkinds hmerge =>
      have hclash : clash? nodes ⟨[n.name], n.bare⟩ = some taken :=
        clash?_eq_some_iff.mpr ⟨hfind, by rwa [isPackage_bare]⟩
      rw [hmerge, hclash]
      exact .error ⟨taken, _, rfl, rfl⟩

/-! ## The order of nodes -/

/-- Names, and behind them those of `more` that are new. -/
def withNew (names more : List String) : List String :=
  names ++ more.filter fun name => name ∉ names

section Names
variable {names more : List String} {name : String}

theorem withNew_nil (names : List String) : withNew names [] = names := List.append_nil names

theorem nil_withNew (more : List String) : withNew [] more = more := by
  simp [withNew]

theorem withNew_singleton (names : List String) (name : String) :
    withNew names [name] = if name ∈ names then names else names ++ [name] := by
  by_cases hmem : name ∈ names <;> simp [withNew, hmem]

theorem withNew_cons (h : name ∉ more) :
    withNew names (name :: more) = withNew (withNew names [name]) more := by
  have hsame : (more.filter fun x => x ∉ names ++ [name]) = more.filter fun x => x ∉ names := by
    refine List.filter_congr fun x hx => ?_
    have hne : x ≠ name := fun he => h (he ▸ hx)
    simp [hne]
  rw [withNew_singleton]
  split
  · next hmem => simp [withNew, hmem]
  · next hmem =>
    rw [withNew, withNew, hsame, List.filter_cons_of_pos (by simpa using hmem), List.append_cons]

theorem map_name_put_eq (m : Node) (nodes : List Node) :
    (put m nodes).map Node.name = withNew (nodes.map Node.name) [m.name] := by
  rw [withNew_singleton]
  split
  · next hmem => exact map_name_put hmem
  · next hmem =>
    rw [put_of_new (find?_eq_none_iff_notMem.mpr hmem), List.map_append]
    rfl

end Names

/-- **In every scope the nodes of the forest that is merged stand behind those that are there.** -/
theorem names_mergeNodes {ns nodes nodes' : List Node} (hns : Tidy ns)
    (h : mergeNodes nodes ns = .ok nodes') (path : List String) :
    (insideAll nodes' path).map Node.name =
      withNew ((insideAll nodes path).map Node.name) ((insideAll ns path).map Node.name) := by
  induction ns using nodes_induction generalizing nodes nodes' path with
  | nil =>
    cases h
    rw [insideAll_nil, List.map_nil, withNew_nil]
  | cons n rest ihChildren ih =>
    obtain ⟨hnew, hchildren, hrest⟩ := tidy_cons.mp hns
    obtain ⟨between, hnode, hmore⟩ := mergeNodes_cons_ok h
    -- one node of the name of `n` is put in place, with the names inside it joined already
    have hplaced : ∃ m, m.name = n.name ∧ between = put m nodes ∧ ∀ path,
        (insideAll m.children path).map Node.name =
          withNew ((insideAll (inside nodes n.name) path).map Node.name)
            ((insideAll n.children path).map Node.name) := by
      rcases mergeNode_cases hnode with ⟨hfind, rfl⟩ |
        ⟨name, full, children, full', existing, merged, rfl, hfind, hmerged, rfl⟩
      · refine ⟨n, rfl, (put_of_new hfind).symm, fun path => ?_⟩
        rw [inside_of_new hfind, insideAll_nil, List.map_nil, nil_withNew]
      · refine ⟨.scope .package name full' merged, rfl, rfl, fun path => ?_⟩
        rw [Node.name, inside_of_found hfind]
        exact ihChildren hchildren hmerged path
    obtain ⟨m, hname, rfl, hinner⟩ := hplaced
    rw [ih hrest hmore path]
    cases path with
    | nil =>
      have hhere : (put m nodes).map Node.name = withNew (nodes.map Node.name) [n.name] :=
        hname ▸ map_name_put_eq m nodes
      exact (congrArg (withNew · _) hhere).trans (withNew_cons hnew).symm
    | cons first below =>
      rw [insideAll_cons, insideAll_cons, insideAll_cons, insideAll_cons]
      by_cases hfirst : n.name = first
      · subst hfirst
        rw [inside_of_new (find?_eq_none_iff_notMem.mpr hnew), insideAll_nil, List.map_nil, withNew_nil,
          inside_of_found (find?_cons_self rfl), inside_of_found (hname ▸ find?_put nodes m)]
        exact hinner below
      · have hbeside : inside (n :: rest) first = inside rest first := by
          rw [inside, inside, find?_cons_of_ne hfirst]
        rw [hbeside, inside_put_of_ne (hname ▸ hfirst)]

/-! ## Two documents -/

/-- A schema has what two others have, each node at its path and as it is there, and the nodes of
the first in front. -/
structure OrderedUnion (first second merged : Root) : Prop where
  /-- The nodes are those of both, with their kinds, names, full names and methods. -/
  placed : ∀ a, a ∈ placedAll merged.nodes ↔ a ∈ placedAll first.nodes ∨ a ∈ placedAll second.nodes
  /-- No path has two nodes. -/
  paths_nodup : ((placedAll merged.nodes).map Placed.path).Nodup
  /-- In every scope, the nodes of the first schema keep their order, and the new nodes of the
  second follow in theirs. -/
  order : ∀ path, (merged.nodesAt path).map Node.name =
    withNew ((first.nodesAt path).map Node.name) ((second.nodesAt path).map Node.name)

section Unions
variable {nodes ns nodes' : List Node}

/-- Two forests that are named by their paths have one union, if nothing clashes. -/
theorem placed_mergeNodes_iff (h : Tidy nodes) (hns : Tidy ns)
    (hnamed : ∀ a ∈ placedAll nodes, a.node.fullName = scopeName a.path)
    (hnamed' : ∀ a ∈ placedAll ns, a.node.fullName = scopeName a.path)
    (hfree : clashes nodes ns = []) (hok : mergeNodes nodes ns = .ok nodes') (a : Placed) :
    a ∈ placedAll nodes' ↔ a ∈ placedAll nodes ∨ a ∈ placedAll ns := by
  have hjoins := joins_mergeNodes hok
  refine ⟨hjoins.origin a, ?_⟩
  rintro (ha | ha)
  · exact hjoins.kept a ha
  · rcases hjoins.covered a ha with ha' | ⟨_, b, hb, hpath⟩
    · exact ha'
    · -- whatever stands in the place of `a` is `a`
      have hsame : b = a := by
        rcases hjoins.origin b hb with hold | hnew
        · obtain ⟨n, hstands, hbare⟩ := exists_standsAt_of_placed hold
          have hfound := (standsAt_iff_descend? h).mp hstands
          rw [hpath] at hfound
          have hclash := List.filterMap_eq_nil_iff.mp hfree a ha
          obtain ⟨hn, hpackage⟩ := clash?_eq_none_iff.mp hclash n hfound
          refine eq_of_isPackage hold ha ?_ hpackage hpath ?_
          · rw [← hbare, isPackage_bare, hn]
          · rw [hnamed b hold, hnamed' a ha, hpath]
        · exact hns.eq_of_path hnew ha hpath
      exact hsame ▸ hb

/-- No node clashes exactly when both are packages wherever two stand at one path. -/
theorem clashes_eq_nil_iff (hns : Tidy ns) : clashes nodes ns = [] ↔
    ∀ path a b, descend? nodes path = some a → descend? ns path = some b →
      a.isPackage = true ∧ b.isPackage = true := by
  rw [clashes, List.filterMap_eq_nil_iff]
  constructor
  · intro hfree path a b ha hb
    have hplaced := (standsAt_of_descend? hb).placed
    rw [← isPackage_bare b]
    exact clash?_eq_none_iff.mp (hfree _ hplaced) a ha
  · intro hpackages b hb
    obtain ⟨n, hstands, hbare⟩ := exists_standsAt_of_placed hb
    refine clash?_eq_none_iff.mpr fun a ha => ?_
    rw [← hbare, isPackage_bare]
    exact hpackages b.path a n ha ((standsAt_iff_descend? hns).mp hstands)

end Unions

theorem loadDescriptor_of_parse? {l : Loading} {path : Path} {text : String}
    {ds : List Descriptor} (h : Descriptor.parse? text = some ds) :
    loadDescriptor l path text = l.merged path (l.root.mergeDescriptors ds) := by
  rw [loadDescriptor, h]

/-- A document that is read into an empty schema is left as it is. -/
theorem loadDescriptor_fresh {text : String} {ds : List Descriptor}
    (h : Descriptor.parse? text = some ds) (path : Path) :
    loadDescriptor {} path text = .ok { root := { nodes := Descriptor.toNodes "" ds } } := by
  have hmerge : mergeNodes [] (Descriptor.toNodes "" ds) = .ok (Descriptor.toNodes "" ds) :=
    mergeNodes_of_nodup (Descriptor.tidy_of_parse? h).names
  rw [loadDescriptor_of_parse? h, Root.mergeDescriptors, hmerge]
  rfl

/-- **Documents are united package by package.**  A document that can be read goes into an empty
schema.  A second one goes into the same schema exactly when, wherever both have a node at one path,
both nodes are packages; the outcome is then the union of the two, in order.  Otherwise the name of
a node of the first is reported as taken: of the one that stands where, going through the second
depth-first, a node first stands in the place of another and not both are packages. -/
theorem documents_united {text text' : String} (h : (Descriptor.parse? text).isSome = true)
    (h' : (Descriptor.parse? text').isSome = true) (path path' : Path) :
    ∃ first second, loadDescriptor {} path text = .ok first ∧
      loadDescriptor {} path' text' = .ok second ∧
      ((∃ l, loadDescriptor first path' text' = .ok l) ↔
        ∀ p a b, descend? first.root.nodes p = some a → descend? second.root.nodes p = some b →
          a.isPackage = true ∧ b.isPackage = true) ∧
      Ends
        (fun l => OrderedUnion first.root second.root l.root)
        (fun failure => ∃ before b after taken,
          placedAll second.root.nodes = before ++ b :: after ∧
          (∀ c ∈ before, clash? first.root.nodes c = none) ∧
          clash? first.root.nodes b = some taken ∧
          failure.problem = .duplicateName path' taken.fullName)
        (loadDescriptor first path' text') := by
  obtain ⟨ds, hparse⟩ := Option.isSome_iff_exists.mp h
  obtain ⟨ds', hparse'⟩ := Option.isSome_iff_exists.mp h'
  refine ⟨_, _, loadDescriptor_fresh hparse path, loadDescriptor_fresh hparse' path', ?_⟩
  have htidy := Descriptor.tidy_of_parse? hparse
  have htidy' := Descriptor.tidy_of_parse? hparse'
  have hends := ends_mergeNodes htidy' (Descriptor.toNodes "" ds)
  rw [loadDescriptor_of_parse? hparse', ← clashes_eq_nil_iff htidy', Root.mergeDescriptors]
  dsimp only
  cases hmerged : mergeNodes (Descriptor.toNodes "" ds) (Descriptor.toNodes "" ds') with
  | ok merged =>
    rw [hmerged] at hends
    refine ⟨iff_of_true ⟨_, rfl⟩ hends.of_ok, .ok ⟨?_, ?_, fun path => ?_⟩⟩
    · exact placed_mergeNodes_iff htidy htidy' (Descriptor.fullName_toNodes "" ds)
        (Descriptor.fullName_toNodes "" ds') hends.of_ok hmerged
    · exact (htidy.mergeNodes htidy' hmerged).nodup_paths
    · rw [Root.nodesAt_eq, Root.nodesAt_eq, Root.nodesAt_eq]
      exact names_mergeNodes htidy' hmerged path
  | error e =>
    rw [hmerged] at hends
    obtain ⟨taken, later, hclashes, hname⟩ := hends.of_error
    constructor
    · refine iff_of_false not_exists_error_eq_ok ?_
      rw [hclashes]
      exact List.cons_ne_nil taken later
    · obtain ⟨before, b, after, hplaced, hbefore, hclash, -⟩ :=
        List.filterMap_eq_cons_iff.mp hclashes
      exact .error ⟨before, b, after, taken, hplaced, hbefore, hclash,
        congrArg (Problem.duplicateName path') hname⟩

/-- A package that holds two messages. -/
def twoMessages : String :=
  "\x7b\"nested\": \x7b\"p\": \x7b\"nested\": \x7b" ++
    "\"B\": \x7b\"fields\": \x7b\x7d\x7d, \"A\": \x7b\"fields\": \x7b\x7d\x7d\x7d\x7d\x7d\x7d"

/-- An enum, and the same package with a service and a package in it. -/
def moreInPackage : String :=
  "\x7b\"nested\": \x7b\"E\": \x7b\"values\": \x7b\x7d\x7d, \"p\": \x7b\"nested\": \x7b" ++
    "\"S\": \x7b\"methods\": \x7b\x7d\x7d, \"q\": \x7b\x7d\x7d\x7d\x7d\x7d"

theorem documents_united_sharedPackage :
    ∃ first second l, loadDescriptor {} "a.json" twoMessages = .ok first ∧
      loadDescriptor {} "b.json" moreInPackage = .ok second ∧
      loadDescriptor first "b.json" moreInPackage = .ok l ∧
      (preorderAll l.root.nodes).map Node.fullName = [".p", ".p.B", ".p.A", ".p.S", ".p.q", ".E"] ∧
      OrderedUnion first.root second.root l.root := by
  have hrun : (((loadDescriptor {} "a.json" twoMessages).bind
      (loadDescriptor · "b.json" moreInPackage)).toOption.any fun l =>
        (preorderAll l.root.nodes).map Node.fullName ==
          [".p", ".p.B", ".p.A", ".p.S", ".p.q", ".E"]) = true := by
    decide +kernel
  obtain ⟨l, hload, hnames⟩ := exists_ok_of_any hrun
  obtain ⟨first, second, hfirst, hsecond, -, hends⟩ :=
    @documents_united twoMessages moreInPackage (by decide +kernel) (by decide +kernel)
      "a.json" "b.json"
  obtain ⟨first', hfirst', hload⟩ := bind_eq_ok.mp hload
  cases hfirst.symm.trans hfirst'
  rw [hload] at hends
  exact ⟨first, second, l, hfirst, hsecond, hload, eq_of_beq hnames, hends.of_ok⟩

end RpcBindings.Schema

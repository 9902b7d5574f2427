import RpcBindings.Proofs.Forest
import RpcBindings.Schema.Descriptor

/-! # What a merge adds, and when it goes through

Every file describes a forest of its own: a source its declarations inside the packages it
names (`sourceForest`), a JSON document the nodes it lists (`Descriptor.toNodes`).  Merging
a file adds nodes of that forest to the schema and nothing else, and it goes through whenever
the forest *clashes* neither with the schema nor with itself.  Two nodes clash when they
have the same path, unless both are packages: a package can be named by many files.
-/
namespace RpcBindings.Schema

open RpcBindings.Proto (Decl File Rpc)

/-! ## The forest of a source -/

mutual

/-- The node that a declaration in the scope `parent` describes, whatever else is declared
there. -/
def declNode (parent : String) : Decl → Node
  | .message name members =>
    .scope .message name (Name.member parent name) (declNodes (Name.member parent name) members)
  | .enum name => .enum name (Name.member parent name)
  | .service name methods => .service (Service.ofDecl parent name methods)

/-- The nodes that declarations in the scope `parent` describe. -/
def declNodes (parent : String) : List Decl → List Node
  | [] => []
  | d :: ds => declNode parent d :: declNodes parent ds

end

/-- Induction along declarations: into a message and on behind it. -/
@[elab_as_elim]
theorem decl_induction {motive : List Decl → Prop} (nil : motive [])
    (message : ∀ name members rest, motive members → motive rest →
      motive (.message name members :: rest))
    (enum : ∀ name rest, motive rest → motive (.enum name :: rest))
    (service : ∀ name methods rest, motive rest → motive (.service name methods :: rest)) :
    ∀ ds, motive ds
  | [] => nil
  | .message name members :: rest =>
    message name members rest (decl_induction nil message enum service members)
      (decl_induction nil message enum service rest)
  | .enum name :: rest => enum name rest (decl_induction nil message enum service rest)
  | .service name methods :: rest =>
    service name methods rest (decl_induction nil message enum service rest)

/-- Nodes inside packages, one in the other; `scope` is the full name of the scope around
them. -/
def nest (scope : String) (inner : List Node) : List String → List Node
  | [] => inner
  | name :: rest =>
    [.scope .package name (Name.member scope name) (nest (Name.member scope name) inner rest)]

/-- The forest that a source describes. -/
def sourceForest {Pos : Type} (file : File Pos) : List Node :=
  nest "" (declNodes (scopeName file.package) file.decls) file.package

/-! ## Clashes -/

/-- The two nodes have one path and are not both packages. -/
def Placed.Clashes (a b : Placed) : Prop :=
  a.path = b.path ∧ ¬ (a.node.isPackage = true ∧ b.node.isPackage = true)

theorem Placed.Clashes.symm {a b : Placed} (h : a.Clashes b) : b.Clashes a :=
  ⟨h.1.symm, fun hp => h.2 hp.symm⟩

theorem Placed.Clashes.below {a b : Placed} (name : String) (h : a.Clashes b) :
    (a.below name).Clashes (b.below name) :=
  ⟨congrArg (List.cons name) h.1, h.2⟩

instance (a b : Placed) : Decidable (a.Clashes b) :=
  inferInstanceAs (Decidable (_ ∧ _))

/-- No node of one forest clashes with a node of the other. -/
def Apart (xs ys : List Node) : Prop :=
  ∀ a ∈ placedAll xs, ∀ b ∈ placedAll ys, ¬ a.Clashes b

instance (xs ys : List Node) : Decidable (Apart xs ys) :=
  inferInstanceAs (Decidable (∀ a ∈ placedAll xs, ∀ b ∈ placedAll ys, ¬ a.Clashes b))

/-- No two nodes of the forest clash. -/
def Consistent (xs : List Node) : Prop :=
  (placedAll xs).Pairwise fun a b => ¬ a.Clashes b

instance (xs : List Node) : Decidable (Consistent xs) :=
  inferInstanceAs (Decidable ((placedAll xs).Pairwise fun a b => ¬ a.Clashes b))

theorem Apart.nil_right (xs : List Node) : Apart xs [] := by
  intro a _ b hb
  cases hb

theorem apart_append_right {xs ys zs : List Node} :
    Apart xs (ys ++ zs) ↔ Apart xs ys ∧ Apart xs zs := by
  constructor
  · intro h
    refine ⟨fun a ha b hb => h a ha b ?_, fun a ha b hb => h a ha b ?_⟩
    · rw [placedAll_append]
      exact List.mem_append_left _ hb
    · rw [placedAll_append]
      exact List.mem_append_right _ hb
  · rintro ⟨hy, hz⟩ a ha b hb
    rw [placedAll_append] at hb
    exact (List.mem_append.mp hb).elim (hy a ha b) (hz a ha b)

theorem apart_cons_left {x : Node} {xs ys : List Node} :
    Apart (x :: xs) ys ↔ Apart [x] ys ∧ Apart xs ys := by
  constructor
  · intro h
    refine ⟨fun a ha => h a ?_, fun a ha => h a ?_⟩
    · rw [placedAll_singleton] at ha
      exact List.mem_append_left _ ha
    · exact List.mem_append_right _ ha
  · rintro ⟨hx, hxs⟩ a ha
    rw [placedAll] at ha
    refine (List.mem_append.mp ha).elim (fun h => hx a ?_) (hxs a)
    rwa [placedAll_singleton]

theorem Apart.of_subset {xs ys zs : List Node} (h : Apart xs ys)
    (hsub : ∀ b ∈ placedAll zs, b ∈ placedAll ys) : Apart xs zs :=
  fun a ha b hb => h a ha b (hsub b hb)

/-- What stands in two scopes of one name is apart when the scopes are. -/
theorem Apart.children {kind kind' : ScopeKind} {name full full' : String}
    {xs children ys : List Node} (h : Apart (.scope kind name full xs :: []) ys)
    (hmem : .scope kind' name full' children ∈ ys) : Apart xs children := by
  intro a ha b hb hclash
  refine h (a.below name) ?_ (b.below name) ?_ (hclash.below name)
  · rw [placedAll_singleton]
    exact mem_placed_scope.mpr (Or.inr ⟨a, ha, rfl⟩)
  · exact mem_placedAll.mpr ⟨_, hmem, mem_placed_scope.mpr (Or.inr ⟨b, hb, rfl⟩)⟩

/-- Two nodes of one name that are apart are both packages. -/
theorem Apart.isPackage {x y : Node} {ys : List Node} (h : Apart [x] ys) (hy : y ∈ ys)
    (hname : y.name = x.name) : x.isPackage = true ∧ y.isPackage = true := by
  apply Classical.byContradiction
  intro hnot
  refine h ⟨[x.name], x.bare⟩ ?_ ⟨[y.name], y.bare⟩ ?_ ⟨by rw [hname], ?_⟩
  · rw [placedAll_singleton]
    exact mem_placed_self x
  · exact mem_placedAll.mpr ⟨y, hy, mem_placed_self y⟩
  · rwa [isPackage_bare, isPackage_bare]

theorem Consistent.cons {x : Node} {xs : List Node} (h : Consistent (x :: xs)) :
    Consistent [x] ∧ Consistent xs ∧ Apart xs [x] := by
  rw [Consistent, placedAll] at h
  obtain ⟨hx, hxs, hcross⟩ := List.pairwise_append.mp h
  refine ⟨by rwa [Consistent, placedAll_singleton], hxs, ?_⟩
  intro a ha b hb hclash
  rw [placedAll_singleton] at hb
  exact hcross b hb a ha hclash.symm

theorem Consistent.children {kind : ScopeKind} {name full : String} {children : List Node}
    (h : Consistent [.scope kind name full children]) : Consistent children := by
  rw [Consistent, placedAll_singleton, Node.placed] at h
  have hmap := List.pairwise_map.mp (List.pairwise_cons.mp h).2
  exact hmap.imp fun hne hclash => hne (hclash.below name)

theorem Consistent.of_nest {scope : String} {inner : List Node} {path : List String}
    (h : Consistent (nest scope inner path)) : Consistent inner := by
  induction path generalizing scope with
  | nil => exact h
  | cons name rest ih => exact ih h.children

/-! ## Inserting declarations -/

theorem insertNew_eq_append {nodes nodes' : List Node} {node : Node}
    (h : insertNew nodes node = .ok nodes') : nodes' = nodes ++ [node] := by
  unfold insertNew at h
  split at h
  · cases h
  · cases h
    rfl

theorem find?_of_insertNew {nodes nodes' : List Node} {node : Node}
    (h : insertNew nodes node = .ok nodes') : find? nodes node.name = none := by
  unfold insertNew at h
  split at h
  · cases h
  · assumption

theorem placed_insertNew {nodes nodes' : List Node} {node : Node}
    (h : insertNew nodes node = .ok nodes') {a : Placed} (ha : a ∈ placedAll nodes') :
    a ∈ placedAll nodes ∨ a ∈ node.placed := by
  rwa [insertNew_eq_append h, placedAll_append, placedAll_singleton, List.mem_append] at ha

theorem insertNew_of_apart {nodes : List Node} {node : Node} (h : Apart [node] nodes)
    (hpackage : node.isPackage = false) : insertNew nodes node = .ok (nodes ++ [node]) := by
  unfold insertNew
  cases hfind : find? nodes node.name with
  | none => rfl
  | some taken =>
    obtain ⟨hmem, hname⟩ := find?_eq_some hfind
    have hboth := (h.isPackage hmem hname).1
    rw [hpackage] at hboth
    cases hboth

theorem insertDecls_cons_ok {parent : String} {nodes nodes' : List Node} {d : Decl}
    {ds : List Decl} (h : insertDecls parent nodes (d :: ds) = .ok nodes') :
    ∃ node, nodeOfDecl parent d = .ok node ∧ find? nodes node.name = none ∧
      insertDecls parent (nodes ++ [node]) ds = .ok nodes' := by
  rw [insertDecls] at h
  split at h
  · cases h
  · next node hnode =>
    split at h
    · cases h
    · next inserted hnew =>
      rw [insertNew_eq_append hnew] at h
      exact ⟨node, hnode, find?_of_insertNew hnew, h⟩

/-- Declarations go to the end of their scope, one behind the other. -/
theorem insertDecls_eq_append {parent : String} {nodes nodes' : List Node} {ds : List Decl}
    (h : insertDecls parent nodes ds = .ok nodes') : nodes' = nodes ++ declNodes parent ds := by
  induction ds using decl_induction generalizing parent nodes nodes' with
  | nil =>
    rw [insertDecls] at h
    cases h
    exact (List.append_nil _).symm
  | message name members rest ihMembers ih =>
    obtain ⟨node, hnode, _, hrest⟩ := insertDecls_cons_ok h
    rw [nodeOfDecl] at hnode
    split at hnode
    · next children hchildren =>
      cases hnode
      rw [ih hrest, ihMembers hchildren, List.append_assoc]
      rfl
    · cases hnode
  | enum name rest ih =>
    obtain ⟨node, hnode, _, hrest⟩ := insertDecls_cons_ok h
    cases hnode
    rw [ih hrest, List.append_assoc]
    rfl
  | service name methods rest ih =>
    obtain ⟨node, hnode, _, hrest⟩ := insertDecls_cons_ok h
    cases hnode
    rw [ih hrest, List.append_assoc]
    rfl

/-- One declaration is inserted, and the rest is inserted behind it. -/
theorem insertDecls_cons_of_apart {parent : String} {nodes : List Node} {d : Decl}
    {ds : List Decl} (hnode : nodeOfDecl parent d = .ok (declNode parent d))
    (hpackage : (declNode parent d).isPackage = false)
    (h : Apart (declNodes parent (d :: ds)) nodes)
    (hself : Consistent (declNodes parent (d :: ds)))
    (ih : ∀ {ns : List Node}, Apart (declNodes parent ds) ns →
      Consistent (declNodes parent ds) →
        insertDecls parent ns ds = .ok (ns ++ declNodes parent ds)) :
    insertDecls parent nodes (d :: ds) = .ok (nodes ++ declNodes parent (d :: ds)) := by
  rw [declNodes] at h hself ⊢
  obtain ⟨hhead, htail⟩ := apart_cons_left.mp h
  obtain ⟨_, hselfTail, hcross⟩ := hself.cons
  have happart := apart_append_right.mpr ⟨htail, hcross⟩
  rw [insertDecls, hnode]
  simp only [insertNew_of_apart hhead hpackage]
  rw [ih happart hselfTail, List.append_assoc, List.singleton_append]

/-- **Declarations that clash with nothing are inserted.** -/
theorem insertDecls_of_apart {parent : String} {nodes : List Node} {ds : List Decl}
    (h : Apart (declNodes parent ds) nodes) (hself : Consistent (declNodes parent ds)) :
    insertDecls parent nodes ds = .ok (nodes ++ declNodes parent ds) := by
  induction ds using decl_induction generalizing parent nodes with
  | nil => rw [insertDecls, declNodes, List.append_nil]
  | message name members rest ihMembers ih =>
    -- the members go into an empty scope, where only they can clash
    have hmembers : Consistent (declNodes (Name.member parent name) members) :=
      hself.cons.1.children
    refine insertDecls_cons_of_apart ?_ rfl h hself ih
    rw [nodeOfDecl, ihMembers (Apart.nil_right _) hmembers]
    rfl
  | enum name rest ih => exact insertDecls_cons_of_apart rfl rfl h hself ih
  | service name methods rest ih => exact insertDecls_cons_of_apart rfl rfl h hself ih

/-! ## Editing the scope at a path -/

/-- Replacing a scope by itself with other children changes what stands in it only. -/
theorem placed_put_scope {kind : ScopeKind} {name full : String} {children children' : List Node}
    {nodes : List Node} (hmem : .scope kind name full children ∈ nodes) {a : Placed}
    (ha : a ∈ placedAll (put (.scope kind name full children') nodes)) :
    a ∈ placedAll nodes ∨ ∃ b ∈ placedAll children', b.below name = a := by
  obtain ⟨n, hn, han⟩ := mem_placedAll.mp ha
  rcases mem_put hn with rfl | hn
  · rcases mem_placed_scope.mp han with rfl | hb
    · exact Or.inl (mem_placedAll.mpr ⟨_, hmem, mem_placed_scope.mpr (Or.inl rfl)⟩)
    · exact Or.inr hb
  · exact Or.inl (mem_placedAll.mpr ⟨n, hn, han⟩)

theorem mem_placed_children {kind : ScopeKind} {name full : String} {children nodes : List Node}
    (hmem : .scope kind name full children ∈ nodes) {b : Placed} (hb : b ∈ placedAll children) :
    b.below name ∈ placedAll nodes :=
  mem_placedAll.mpr ⟨_, hmem, mem_placed_scope.mpr (Or.inr ⟨b, hb, rfl⟩)⟩

section UpdateScope
variable {edit : String → List Node → Except DuplicateName (List Node)} {inner : List Node}

/-- **An edit that adds nodes of `inner` adds nodes of `inner` inside the packages of the
path, and nothing else.** -/
theorem placed_updateScope {path : List String} {scope : String} {nodes nodes' : List Node}
    (hedit : ∀ {ns ns' : List Node}, edit (path.foldl Name.member scope) ns = .ok ns' →
      ∀ a ∈ placedAll ns', a ∈ placedAll ns ∨ a ∈ placedAll inner)
    (h : updateScope edit scope nodes path = .ok nodes') {a : Placed}
    (ha : a ∈ placedAll nodes') :
    a ∈ placedAll nodes ∨ a ∈ placedAll (nest scope inner path) := by
  induction path generalizing scope nodes nodes' a with
  | nil => exact hedit h a ha
  | cons name rest ih =>
    rw [nest, placedAll_singleton, mem_placed_scope]
    rw [updateScope] at h
    split at h
    · -- no scope of that name: a package is added, and everything in it is new
      split at h
      · next children hchildren =>
        cases h
        rw [placedAll_append, placedAll_singleton] at ha
        rcases List.mem_append.mp ha with ha | ha
        · exact Or.inl ha
        · rcases mem_placed_scope.mp ha with rfl | ⟨b, hb, rfl⟩
          · exact Or.inr (Or.inl rfl)
          · rcases ih hedit hchildren hb with hb | hb
            · cases hb
            · exact Or.inr (Or.inr ⟨b, hb, rfl⟩)
      · cases h
    · -- the scope is there, and only what stands in it changes
      next kind n full children hfind =>
      obtain ⟨hmem, rfl⟩ := find?_eq_some hfind
      split at h
      · next children' hchildren =>
        cases h
        rcases placed_put_scope hmem ha with ha | ⟨b, hb, rfl⟩
        · exact Or.inl ha
        · rcases ih hedit hchildren hb with hb | hb
          · exact Or.inl (mem_placed_children hmem hb)
          · exact Or.inr (Or.inr ⟨b, hb, rfl⟩)
      · cases h
    · cases h

/-- An edit that goes through wherever `inner` clashes with nothing goes through inside the
packages of a path, when these clash with nothing either. -/
theorem updateScope_of_apart {path : List String} {scope : String} {nodes : List Node}
    (hedit : ∀ {ns : List Node}, Apart inner ns →
      ∃ ns', edit (path.foldl Name.member scope) ns = .ok ns')
    (h : Apart (nest scope inner path) nodes) :
    ∃ nodes', updateScope edit scope nodes path = .ok nodes' := by
  induction path generalizing scope nodes with
  | nil => exact hedit h
  | cons name rest ih =>
    rw [nest] at h
    rw [updateScope]
    split
    · have hinside : Apart (nest (Name.member scope name) inner rest) [] := Apart.nil_right _
      obtain ⟨children, hchildren⟩ := ih hedit hinside
      exact ⟨_, by rw [hchildren]⟩
    · next kind n full children hfind =>
      obtain ⟨hmem, rfl⟩ := find?_eq_some hfind
      obtain ⟨children', hchildren⟩ := ih hedit (h.children hmem)
      exact ⟨_, by rw [hchildren]⟩
    · -- what blocks the path is no scope, but what is apart from a package is a package
      next other hnot hfind =>
      obtain ⟨hmem, hname⟩ := find?_eq_some hfind
      have hpackage := (h.isPackage hmem hname).2
      cases other with
      | scope kind n full children => exact absurd rfl (hnot kind n full children)
      | enum => cases hpackage
      | service => cases hpackage

end UpdateScope

section Steps
variable {edit : String → List Node → Except DuplicateName (List Node)} {name scope : String}
variable {nodes : List Node} {rest : List String}

theorem updateScope_new (h : find? nodes name = none) :
    updateScope edit scope nodes (name :: rest) =
      (fun children => nodes ++ [.scope .package name (Name.member scope name) children]) <$>
        updateScope edit (Name.member scope name) [] rest := by
  rw [updateScope, h]
  cases updateScope edit (Name.member scope name) [] rest <;> rfl

theorem updateScope_into {kind : ScopeKind} {n full : String} {children : List Node}
    (h : find? nodes name = some (.scope kind n full children)) :
    updateScope edit scope nodes (name :: rest) =
      (fun children => put (.scope kind n full children) nodes) <$>
        updateScope edit (Name.member scope name) children rest := by
  rw [updateScope, h]
  dsimp only
  cases updateScope edit (Name.member scope name) children rest <;> rfl

end Steps

/-- An edit of the scope at a path finds the scope as it is defined first. -/
theorem updateScope_defined (edit : String → List Node → Except DuplicateName (List Node))
    (path : List String) (scope : String) (nodes : List Node) :
    (do
      let defined ← updateScope (fun _ nodes => .ok nodes) scope nodes path
      updateScope edit scope defined path) = updateScope edit scope nodes path := by
  induction path generalizing scope nodes with
  | nil => rfl
  | cons name rest ih =>
    cases hfind : find? nodes name with
    | none =>
      rw [updateScope_new hfind, updateScope_new hfind, ← ih]
      cases updateScope (fun _ nodes => .ok nodes) (Name.member scope name) [] rest with
      | error e => rfl
      | ok children =>
        let added : Node := .scope .package name (Name.member scope name) children
        have hfound : find? (nodes ++ [added]) name = some added := find?_concat hfind
        refine (updateScope_into hfound).trans ?_
        have hput : ∀ inside, put (.scope .package name (Name.member scope name) inside)
            (nodes ++ [added]) = nodes ++ [.scope .package name (Name.member scope name) inside] :=
          fun inside => put_concat rfl hfind
        simp only [hput]
        rfl
    | some found =>
      cases found with
      | scope kind n full children =>
        obtain rfl : n = name := (find?_eq_some hfind).2
        rw [updateScope_into hfind, updateScope_into hfind, ← ih]
        cases updateScope (fun _ nodes => .ok nodes) (Name.member scope n) children rest with
        | error e => rfl
        | ok children' =>
          refine (updateScope_into (find?_put nodes (.scope kind n full children'))).trans ?_
          have hput : ∀ inside, put (.scope kind n full inside)
              (put (.scope kind n full children') nodes) = put (.scope kind n full inside) nodes :=
            fun inside => put_put rfl
          simp only [hput]
          rfl
      | enum =>
        rw [updateScope, updateScope, hfind]
        rfl
      | service =>
        rw [updateScope, updateScope, hfind]
        rfl

namespace Root

/-! ## Merging a source -/

section MergeFile
variable {Pos : Type} {r r' : Root} {file : File Pos}

/-- A merge makes sure that the package is there and then inserts the declarations into it. -/
theorem mergeFile_eq (r : Root) (file : File Pos) :
    r.mergeFile file = (do
      let defined ← r.define file.package
      defined.update file.package fun scope nodes => insertDecls scope nodes file.decls) := by
  rw [mergeFile, define, update, ← updateScope_defined]
  unfold update
  cases updateScope (fun _ nodes => .ok nodes) "" r.nodes file.package <;> rfl

theorem files_mergeFile (h : r.mergeFile file = .ok r') : r'.files = r.files := by
  unfold mergeFile update at h
  split at h
  · cases h
    rfl
  · cases h

/-- **Merging a source adds nodes of its forest and nothing else.** -/
theorem placed_mergeFile (h : r.mergeFile file = .ok r') {a : Placed}
    (ha : a ∈ placedAll r'.nodes) : a ∈ placedAll r.nodes ∨ a ∈ placedAll (sourceForest file) := by
  unfold mergeFile update at h
  split at h
  · next nodes hnodes =>
    cases h
    refine placed_updateScope ?_ hnodes ha
    intro ns ns' hedit b hb
    rw [insertDecls_eq_append hedit, placedAll_append] at hb
    exact List.mem_append.mp hb
  · cases h

/-- **A source whose forest clashes with nothing is merged.** -/
theorem mergeFile_of_apart (h : Apart (sourceForest file) r.nodes)
    (hself : Consistent (sourceForest file)) : ∃ r', r.mergeFile file = .ok r' := by
  have hdecls : Consistent (declNodes (scopeName file.package) file.decls) :=
    Consistent.of_nest hself
  obtain ⟨nodes, hnodes⟩ : ∃ nodes,
      updateScope (fun scope nodes => insertDecls scope nodes file.decls) "" r.nodes file.package
        = .ok nodes :=
    updateScope_of_apart (fun hns => ⟨_, insertDecls_of_apart hns hdecls⟩) h
  unfold mergeFile update
  rw [hnodes]
  exact ⟨_, rfl⟩

end MergeFile

end Root

/-! ## Merging a document -/

theorem mergeNodes_cons_ok {nodes nodes' : List Node} {n : Node} {ns : List Node}
    (h : mergeNodes nodes (n :: ns) = .ok nodes') :
    ∃ between, mergeNode nodes n = .ok between ∧ mergeNodes between ns = .ok nodes' := by
  rw [mergeNodes] at h
  split at h
  · next between hnode => exact ⟨between, hnode, h⟩
  · cases h

theorem mergeNode_of_new {nodes : List Node} {n : Node} (h : find? nodes n.name = none) :
    mergeNode nodes n = .ok (nodes ++ [n]) := by
  cases n with
  | scope kind name full children =>
    rw [Node.name] at h
    cases kind with
    | package => rw [mergeNode, h]
    | message => rw [mergeNode, insertNew, Node.name, h]
  | enum name full => rw [mergeNode, insertNew, h]
  | service s => rw [mergeNode, insertNew, h]

/-- Nodes of new and different names are merged as they are. -/
theorem mergeNodes_of_nodup {nodes ns : List Node} (h : ((nodes ++ ns).map Node.name).Nodup) :
    mergeNodes nodes ns = .ok (nodes ++ ns) := by
  induction ns generalizing nodes with
  | nil => rw [mergeNodes, List.append_nil]
  | cons n ns ih =>
    have hnew : n.name ∉ nodes.map Node.name := by
      rw [List.map_append, List.map_cons, List.nodup_append] at h
      exact fun hmem => h.2.2 _ hmem _ (List.mem_cons_self ..) rfl
    rw [List.append_cons] at h
    rw [mergeNodes, mergeNode_of_new (find?_eq_none_iff_notMem.mpr hnew)]
    dsimp only
    rw [ih h, ← List.append_cons]

/-- A scope is added as it is, or what stands in it is merged into the package of its
name. -/
theorem mergeNode_scope_cases {kind : ScopeKind} {name full : String}
    {children nodes nodes' : List Node}
    (h : mergeNode nodes (.scope kind name full children) = .ok nodes') :
    nodes' = nodes ++ [.scope kind name full children] ∨
      ∃ full' existing merged, .scope .package name full' existing ∈ nodes ∧
        mergeNodes existing children = .ok merged ∧
        nodes' = put (.scope .package name full' merged) nodes := by
  cases kind with
  | message =>
    rw [mergeNode] at h
    exact Or.inl (insertNew_eq_append h)
  | package =>
    rw [mergeNode] at h
    split at h
    · cases h
      exact Or.inl rfl
    · next n full' existing hfind =>
      obtain ⟨hmem, rfl⟩ := find?_eq_some hfind
      split at h
      · next merged hmerged =>
        cases h
        exact Or.inr ⟨full', existing, merged, hmem, hmerged, rfl⟩
      · cases h
    · cases h

/-- A node that adds itself only, in front of nodes that do. -/
theorem placed_mergeNodes_cons {nodes nodes' : List Node} {n : Node} {ns : List Node}
    (hhead : ∀ {between : List Node}, mergeNode nodes n = .ok between →
      ∀ a ∈ placedAll between, a ∈ placedAll nodes ∨ a ∈ n.placed)
    (htail : ∀ {between nodes' : List Node}, mergeNodes between ns = .ok nodes' →
      ∀ a ∈ placedAll nodes', a ∈ placedAll between ∨ a ∈ placedAll ns)
    (h : mergeNodes nodes (n :: ns) = .ok nodes') :
    ∀ a ∈ placedAll nodes', a ∈ placedAll nodes ∨ a ∈ placedAll (n :: ns) := by
  intro a ha
  obtain ⟨between, hnode, hrest⟩ := mergeNodes_cons_ok h
  rw [placedAll, List.mem_append, ← or_assoc]
  exact (htail hrest a ha).imp_left (hhead hnode a)

/-- **Merging nodes adds these nodes and nothing else.** -/
theorem placed_mergeNodes {ns nodes nodes' : List Node}
    (h : mergeNodes nodes ns = .ok nodes') :
    ∀ a ∈ placedAll nodes', a ∈ placedAll nodes ∨ a ∈ placedAll ns := by
  induction ns using forest_induction generalizing nodes nodes' with
  | nil =>
    cases h
    exact fun a ha => Or.inl ha
  | scope kind name full children rest ihChildren ih =>
    refine placed_mergeNodes_cons ?_ ih h
    intro between hnode a ha
    rcases mergeNode_scope_cases hnode with rfl | ⟨full', existing, merged, hmem, hmerged, rfl⟩
    · rwa [placedAll_append, placedAll_singleton, List.mem_append] at ha
    · -- the package was there already, and what is new stands in it
      rcases placed_put_scope hmem ha with ha | ⟨b, hb, rfl⟩
      · exact Or.inl ha
      · rcases ihChildren hmerged b hb with hb | hb
        · exact Or.inl (mem_placed_children hmem hb)
        · exact Or.inr (mem_placed_scope.mpr (Or.inr ⟨b, hb, rfl⟩))
  | enum name full rest ih =>
    exact placed_mergeNodes_cons (fun hnode _ ha => placed_insertNew hnode ha) ih h
  | service s rest ih =>
    exact placed_mergeNodes_cons (fun hnode _ ha => placed_insertNew hnode ha) ih h

/-- One node is merged, and the rest is merged behind it. -/
theorem mergeNodes_cons_of_apart {nodes : List Node} {n : Node} {ns : List Node}
    (hnode : ∃ between, mergeNode nodes n = .ok between)
    (h : Apart (n :: ns) nodes) (hself : Consistent (n :: ns))
    (ih : ∀ {between : List Node}, Apart ns between → Consistent ns →
      ∃ nodes', mergeNodes between ns = .ok nodes') :
    ∃ nodes', mergeNodes nodes (n :: ns) = .ok nodes' := by
  obtain ⟨between, hbetween⟩ := hnode
  obtain ⟨_, hselfTail, hcross⟩ := hself.cons
  have hsingle : mergeNodes nodes [n] = .ok between := by
    rw [mergeNodes, hbetween]
    rfl
  -- the merge has added nothing but `n`, so the rest is still apart
  have happart : Apart ns between := by
    refine (apart_append_right.mpr ⟨(apart_cons_left.mp h).2, hcross⟩).of_subset ?_
    intro a ha
    rw [placedAll_append]
    exact List.mem_append.mpr (placed_mergeNodes hsingle a ha)
  obtain ⟨nodes', hrest⟩ := ih happart hselfTail
  exact ⟨nodes', by rw [mergeNodes, hbetween]; exact hrest⟩

/-- **Nodes that clash with nothing are merged.** -/
theorem mergeNodes_of_apart {ns nodes : List Node} (h : Apart ns nodes)
    (hself : Consistent ns) : ∃ nodes', mergeNodes nodes ns = .ok nodes' := by
  induction ns using forest_induction generalizing nodes with
  | nil => exact ⟨nodes, rfl⟩
  | scope kind name full children rest ihChildren ih =>
    refine mergeNodes_cons_of_apart ?_ h hself ih
    have hhead := (apart_cons_left.mp h).1
    cases kind with
    | message =>
      rw [mergeNode]
      exact ⟨_, insertNew_of_apart hhead rfl⟩
    | package =>
      rw [mergeNode]
      split
      · exact ⟨_, rfl⟩
      · next n full' existing hfind =>
        obtain ⟨hmem, rfl⟩ := find?_eq_some hfind
        obtain ⟨merged, hmerged⟩ := ihChildren (hhead.children hmem) hself.cons.1.children
        exact ⟨_, by rw [hmerged]⟩
      · next taken hnot hfind =>
        -- what has the name is apart from a package, so it is one
        obtain ⟨hmem, hname⟩ := find?_eq_some hfind
        have hpackage := (hhead.isPackage hmem hname).2
        cases taken with
        | scope kind' n full' existing =>
          cases kind' with
          | package => exact absurd rfl (hnot n full' existing)
          | message => cases hpackage
        | enum => cases hpackage
        | service => cases hpackage
  | enum name full rest ih =>
    refine mergeNodes_cons_of_apart ?_ h hself ih
    rw [mergeNode]
    exact ⟨_, insertNew_of_apart (apart_cons_left.mp h).1 rfl⟩
  | service s rest ih =>
    refine mergeNodes_cons_of_apart ?_ h hself ih
    rw [mergeNode]
    exact ⟨_, insertNew_of_apart (apart_cons_left.mp h).1 rfl⟩

namespace Root

section MergeDescriptors
variable {r r' : Root} {ds : List Descriptor}

theorem mergeDescriptors_ok (h : r.mergeDescriptors ds = .ok r') :
    r'.files = r.files ∧ mergeNodes r.nodes (Descriptor.toNodes "" ds) = .ok r'.nodes := by
  unfold mergeDescriptors at h
  split at h
  · next nodes hnodes =>
    cases h
    exact ⟨rfl, hnodes⟩
  · cases h

theorem mergeDescriptors_of_apart (h : Apart (Descriptor.toNodes "" ds) r.nodes)
    (hself : Consistent (Descriptor.toNodes "" ds)) : ∃ r', r.mergeDescriptors ds = .ok r' := by
  obtain ⟨nodes, hnodes⟩ := mergeNodes_of_apart h hself
  unfold mergeDescriptors
  rw [hnodes]
  exact ⟨_, rfl⟩

end MergeDescriptors

end Root

end RpcBindings.Schema

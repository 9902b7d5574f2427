import RpcBindings.Schema.Resolve

/-! # Forests of schema nodes

The functions on a schema walk its forest: first what stands in a scope, then what stands
beside it.  `forest_induction` is the induction they share.  The one complete view of a
forest is the list of its nodes, each without what it holds and at the path of names that
leads to it (`placedAll`).  The services and the message names of a schema are read off this
list, so what a change does to the placed nodes says what it does to both.
-/
namespace RpcBindings.Schema

/-- Induction along a forest: into a scope and on behind it. -/
@[elab_as_elim]
theorem forest_induction {motive : List Node → Prop} (nil : motive [])
    (scope : ∀ kind name fullName children rest, motive children → motive rest →
      motive (.scope kind name fullName children :: rest))
    (enum : ∀ name fullName rest, motive rest → motive (.enum name fullName :: rest))
    (service : ∀ s rest, motive rest → motive (.service s :: rest)) :
    ∀ nodes, motive nodes
  | [] => nil
  | .scope kind name fullName children :: rest =>
    scope kind name fullName children rest
      (forest_induction nil scope enum service children)
      (forest_induction nil scope enum service rest)
  | .enum name fullName :: rest =>
    enum name fullName rest (forest_induction nil scope enum service rest)
  | .service s :: rest => service s rest (forest_induction nil scope enum service rest)

/-! ## Placed nodes -/

/-- A node without what it holds, at the path that leads to it. -/
structure Placed where
  path : List String
  node : Node

/-- The node seen from around the scope `name`. -/
def Placed.below (name : String) (a : Placed) : Placed := ⟨name :: a.path, a.node⟩

mutual

/-- A node and all nodes below it, each at its path. -/
def Node.placed : Node → List Placed
  | .scope kind name fullName children =>
    ⟨[name], .scope kind name fullName []⟩ :: (placedAll children).map (Placed.below name)
  | .enum name fullName => [⟨[name], .enum name fullName⟩]
  | .service s => [⟨[s.name], .service s⟩]

/-- All nodes of a forest, each at its path. -/
def placedAll : List Node → List Placed
  | [] => []
  | n :: ns => n.placed ++ placedAll ns

end

theorem placedAll_eq_flatMap (nodes : List Node) : placedAll nodes = nodes.flatMap Node.placed := by
  induction nodes with
  | nil => rfl
  | cons n ns ih => rw [placedAll, ih, List.flatMap_cons]

theorem mem_placedAll {nodes : List Node} {a : Placed} :
    a ∈ placedAll nodes ↔ ∃ n ∈ nodes, a ∈ n.placed := by
  rw [placedAll_eq_flatMap, List.mem_flatMap]

theorem placedAll_append (xs ys : List Node) :
    placedAll (xs ++ ys) = placedAll xs ++ placedAll ys := by
  rw [placedAll_eq_flatMap, List.flatMap_append, ← placedAll_eq_flatMap, ← placedAll_eq_flatMap]

theorem placedAll_singleton (n : Node) : placedAll [n] = n.placed := by
  rw [placedAll_eq_flatMap, List.flatMap_singleton]

theorem mem_placed_scope {kind : ScopeKind} {name fullName : String} {children : List Node}
    {a : Placed} :
    a ∈ (Node.scope kind name fullName children).placed ↔
      a = ⟨[name], .scope kind name fullName []⟩ ∨
        ∃ b ∈ placedAll children, b.below name = a := by
  rw [Node.placed, List.mem_cons, List.mem_map]

/-- The node without what it holds. -/
def Node.bare : Node → Node
  | .scope kind name fullName _ => .scope kind name fullName []
  | .enum name fullName => .enum name fullName
  | .service s => .service s

theorem fullName_bare (n : Node) : n.bare.fullName = n.fullName := by
  cases n <;> rfl

theorem isPackage_bare (n : Node) : n.bare.isPackage = n.isPackage := by
  cases n with
  | scope kind name fullName children => cases kind <;> rfl
  | enum => rfl
  | service => rfl

theorem isMessage_bare (n : Node) : n.bare.isMessage = n.isMessage := by
  cases n with
  | scope kind name fullName children => cases kind <;> rfl
  | enum => rfl
  | service => rfl

/-- A node stands first among those at and below it. -/
theorem mem_placed_self (n : Node) : ⟨[n.name], n.bare⟩ ∈ n.placed := by
  cases n with
  | scope => exact mem_placed_scope.mpr (Or.inl rfl)
  | enum => exact List.mem_singleton.mpr rfl
  | service => exact List.mem_singleton.mpr rfl

theorem path_ne_nil {nodes : List Node} {a : Placed} (h : a ∈ placedAll nodes) :
    a.path ≠ [] := by
  obtain ⟨n, _, hn⟩ := mem_placedAll.mp h
  cases n with
  | scope =>
    rcases mem_placed_scope.mp hn with rfl | ⟨b, _, rfl⟩
    · exact List.cons_ne_nil _ _
    · exact List.cons_ne_nil _ _
  | enum => rw [List.mem_singleton.mp hn]; exact List.cons_ne_nil _ _
  | service => rw [List.mem_singleton.mp hn]; exact List.cons_ne_nil _ _

/-! ## Finding and replacing -/

theorem find?_eq_some {nodes : List Node} {name : String} {n : Node}
    (h : find? nodes name = some n) : n ∈ nodes ∧ n.name = name := by
  rw [find?] at h
  have hbeq := List.find?_some h
  exact ⟨List.mem_of_find?_eq_some h, eq_of_beq hbeq⟩

theorem mem_put {node m : Node} {nodes : List Node} (h : m ∈ put node nodes) :
    m = node ∨ m ∈ nodes := by
  induction nodes with
  | nil => exact Or.inl (List.mem_singleton.mp h)
  | cons n ns ih =>
    unfold put at h
    split at h
    · rcases List.mem_cons.mp h with rfl | h
      · exact Or.inl rfl
      · exact Or.inr (List.mem_cons_of_mem _ h)
    · rcases List.mem_cons.mp h with rfl | h
      · exact Or.inr (List.mem_cons_self ..)
      · exact (ih h).imp_right (List.mem_cons_of_mem _)

theorem find?_eq_none {nodes : List Node} {name : String} :
    find? nodes name = none ↔ ∀ n ∈ nodes, n.name ≠ name := by
  rw [find?, List.find?_eq_none]
  simp only [beq_iff_eq, ne_eq]

theorem find?_eq_none_iff_notMem {nodes : List Node} {name : String} :
    find? nodes name = none ↔ name ∉ nodes.map Node.name := by
  rw [find?_eq_none, List.mem_map]
  simp only [ne_eq, not_exists, not_and]

/-- A node that is added under a new name is found under it. -/
theorem find?_concat {nodes : List Node} {n : Node} (h : find? nodes n.name = none) :
    find? (nodes ++ [n]) n.name = some n := by
  rw [find?] at h ⊢
  rw [List.find?_append, h, Option.none_or, List.find?_singleton, if_pos (beq_self_eq_true _)]

theorem put_concat {nodes : List Node} {n m : Node} (hname : m.name = n.name)
    (h : find? nodes n.name = none) : put m (nodes ++ [n]) = nodes ++ [m] := by
  rw [find?_eq_none] at h
  induction nodes with
  | nil => rw [List.nil_append, put, if_pos hname.symm, List.nil_append]
  | cons x xs ih =>
    have hx : x.name ≠ m.name := fun he => h x (List.mem_cons_self ..) (he.trans hname)
    rw [List.cons_append, put, if_neg hx, ih fun y hy => h y (List.mem_cons_of_mem _ hy)]
    rfl

theorem find?_put (nodes : List Node) (n : Node) : find? (put n nodes) n.name = some n := by
  induction nodes with
  | nil => exact List.find?_cons_of_pos (beq_self_eq_true n.name)
  | cons x xs ih =>
    rw [put]
    split
    · exact List.find?_cons_of_pos (beq_self_eq_true n.name)
    · next hx =>
      rw [find?, List.find?_cons_of_neg (by simpa using hx)]
      exact ih

theorem put_put {nodes : List Node} {n m : Node} (hname : m.name = n.name) :
    put m (put n nodes) = put m nodes := by
  induction nodes with
  | nil => simp only [put, hname, if_pos]
  | cons x xs ih =>
    by_cases hx : x.name = n.name
    · simp only [put, hx, hname, if_pos]
    · have hxm : x.name ≠ m.name := fun he => hx (he.trans hname)
      simp only [put, hx, hxm, if_neg, not_false_eq_true, ih]

/-! ## What is read off the placed nodes -/

/-- Some node of the forest, wherever it is placed and without what it holds, has `P`. -/
def Occurs (P : Node → Prop) (nodes : List Node) : Prop :=
  ∃ a ∈ placedAll nodes, P a.node

section Occurs
variable {P : Node → Prop} {rest : List Node}

theorem occurs_nil : ¬ Occurs P [] := by
  rintro ⟨a, ha, _⟩
  cases ha

theorem occurs_cons {n : Node} :
    Occurs P (n :: rest) ↔ (∃ a ∈ n.placed, P a.node) ∨ Occurs P rest := by
  simp only [Occurs, placedAll, List.mem_append, or_and_right, exists_or]

theorem occurs_scope {kind : ScopeKind} {name fullName : String} {children : List Node} :
    Occurs P (.scope kind name fullName children :: rest) ↔
      P (.scope kind name fullName []) ∨ Occurs P children ∨ Occurs P rest := by
  rw [occurs_cons, ← or_assoc]
  refine or_congr_left ?_
  constructor
  · rintro ⟨a, ha, hp⟩
    rcases mem_placed_scope.mp ha with rfl | ⟨b, hb, rfl⟩
    · exact Or.inl hp
    · exact Or.inr ⟨b, hb, hp⟩
  · rintro (hp | ⟨b, hb, hp⟩)
    · exact ⟨_, mem_placed_scope.mpr (Or.inl rfl), hp⟩
    · exact ⟨_, mem_placed_scope.mpr (Or.inr ⟨b, hb, rfl⟩), hp⟩

theorem occurs_enum {name fullName : String} :
    Occurs P (.enum name fullName :: rest) ↔ P (.enum name fullName) ∨ Occurs P rest := by
  simp [occurs_cons, Node.placed]

theorem occurs_service {s : Service} :
    Occurs P (.service s :: rest) ↔ P (.service s) ∨ Occurs P rest := by
  simp [occurs_cons, Node.placed]

end Occurs

theorem mem_messageNamesAll {nodes : List Node} {fullName : String} :
    fullName ∈ messageNamesAll nodes ↔
      Occurs (fun n => n.isMessage = true ∧ n.fullName = fullName) nodes := by
  induction nodes using forest_induction with
  | nil => exact iff_of_false List.not_mem_nil occurs_nil
  | scope kind name full children rest ihChildren ih =>
    rw [occurs_scope, ← ihChildren, ← ih, messageNamesAll, List.mem_append, ← or_assoc]
    refine or_congr_left ?_
    cases kind with
    | package => simp [Node.messageNames, Node.isMessage]
    | message => simp [Node.messageNames, Node.isMessage, Node.fullName, eq_comm]
  | enum name full rest ih =>
    rw [occurs_enum, ← ih, messageNamesAll, List.mem_append]
    simp [Node.messageNames, Node.isMessage]
  | service s rest ih =>
    rw [occurs_service, ← ih, messageNamesAll, List.mem_append]
    simp [Node.messageNames, Node.isMessage]

theorem mem_servicesAll {nodes : List Node} {s : Service} :
    s ∈ servicesAll nodes ↔ Occurs (fun n => n = .service s) nodes := by
  induction nodes using forest_induction with
  | nil => exact iff_of_false List.not_mem_nil occurs_nil
  | scope kind name full children rest ihChildren ih =>
    rw [occurs_scope, ← ihChildren, ← ih, servicesAll, List.mem_append]
    simp [Node.services]
  | enum name full rest ih =>
    rw [occurs_enum, ← ih, servicesAll, List.mem_append]
    simp [Node.services]
  | service t rest ih =>
    rw [occurs_service, ← ih, servicesAll, List.mem_append]
    simp [Node.services, eq_comm]

end RpcBindings.Schema

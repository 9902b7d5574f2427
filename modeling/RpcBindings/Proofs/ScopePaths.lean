import RpcBindings.Proofs.NodePlaces
import RpcBindings.Proofs.Runs

/-! # Going down a path

A path leads through the packages and messages of a schema, and where there are none it leads
through new packages.  The walk adds them on its way, before it knows that it will come to its
end.  Nevertheless it leaves no trace when it fails (`enter_exact`): what stops it is an enum or a
service that was there before, and in a package that the walk has just added there is nothing to
stop it.

One step of the walk either stops or puts one scope into its place among the nodes around it
(`WalkStep`), and all else is read off these two cases, by induction along the path.
-/
namespace RpcBindings.Schema

/-! ## Nodes at a path -/

/-- The nodes in the scope of that name; there are none without such a scope. -/
def inside (nodes : List Node) (name : String) : List Node :=
  ((find? nodes name).map Node.children).getD []

theorem inside_of_found {nodes : List Node} {name : String} {n : Node}
    (h : find? nodes name = some n) : inside nodes name = n.children := by
  rw [inside, h]
  rfl

theorem inside_of_new {nodes : List Node} {name : String} (h : find? nodes name = none) :
    inside nodes name = [] := by
  rw [inside, h]
  rfl

/-- The nodes in the scope at a path. -/
def insideAll (nodes : List Node) (path : List String) : List Node := path.foldl inside nodes

theorem insideAll_cons (nodes : List Node) (name : String) (rest : List String) :
    insideAll nodes (name :: rest) = insideAll (inside nodes name) rest := rfl

theorem insideAll_concat (nodes : List Node) (path : List String) (name : String) :
    insideAll nodes (path ++ [name]) = inside (insideAll nodes path) name :=
  List.foldl_append

theorem insideAll_nil (path : List String) : insideAll [] path = [] := by
  induction path with
  | nil => rfl
  | cons name rest ih => exact ih

theorem descend?_concat (nodes : List Node) (path : List String) (name : String) :
    descend? nodes (path ++ [name]) = find? (insideAll nodes path) name := by
  induction path generalizing nodes with
  | nil => rfl
  | cons first rest ih =>
    rw [List.cons_append, descend?_cons (List.append_ne_nil_of_right_ne_nil rest (by simp))]
    rw [insideAll_cons]
    cases hfind : find? nodes first with
    | none =>
      rw [inside_of_new hfind, insideAll_nil]
      rfl
    | some n =>
      rw [inside_of_found hfind]
      exact ih n.children

theorem Root.nodesAt_eq (r : Root) (path : List String) : r.nodesAt path = insideAll r.nodes path := by
  rcases List.eq_nil_or_concat path with rfl | ⟨init, last, rfl⟩
  · rfl
  · rw [List.concat_eq_append]
    have hat : r.nodesAt (init ++ [last]) =
        ((descend? r.nodes (init ++ [last])).map Node.children).getD [] := by
      unfold Root.nodesAt
      split
      · next hnil => simp at hnil
      · rfl
    rw [hat, descend?_concat, insideAll_concat, inside]

/-- Behind the first part of a path the rest is looked up in the scope that it leads to. -/
theorem descend?_append {nodes : List Node} {path rest : List String} (hne : rest ≠ []) :
    descend? nodes (path ++ rest) = descend? (insideAll nodes path) rest := by
  rw [← List.dropLast_append_getLast hne, ← List.append_assoc, descend?_concat, descend?_concat,
    insideAll, List.foldl_append]
  rfl

theorem descend?_inside {nodes : List Node} {name : String} {rest : List String}
    (hne : rest ≠ []) : descend? nodes (name :: rest) = descend? (inside nodes name) rest :=
  @descend?_append nodes [name] rest hne

section Put
variable {nodes : List Node} {n m : Node} {name : String}

theorem find?_cons_self (h : n.name = name) : find? (n :: nodes) name = some n :=
  List.find?_cons_of_pos (p := fun n : Node => n.name == name) (beq_iff_eq.mpr h)

theorem find?_cons_of_ne (h : n.name ≠ name) : find? (n :: nodes) name = find? nodes name :=
  List.find?_cons_of_neg (p := fun n : Node => n.name == name) (mt beq_iff_eq.mp h)

theorem find?_put_of_ne (h : m.name ≠ name) : find? (put m nodes) name = find? nodes name := by
  induction nodes with
  | nil => exact find?_cons_of_ne h
  | cons x xs ih =>
    unfold put
    split
    · next hx => rw [find?_cons_of_ne h, find?_cons_of_ne (hx ▸ h)]
    · by_cases hname : x.name = name
      · rw [find?_cons_self hname, find?_cons_self hname]
      · rw [find?_cons_of_ne hname, find?_cons_of_ne hname, ih]

theorem put_of_new (h : find? nodes m.name = none) : put m nodes = nodes ++ [m] := by
  rw [find?_eq_none] at h
  induction nodes with
  | nil => rfl
  | cons x xs ih =>
    obtain ⟨hx, hxs⟩ := List.forall_mem_cons.mp h
    rw [put, if_neg hx, ih hxs, List.cons_append]

/-- A node takes the place of the one that is found under its name. -/
theorem exists_put_eq (h : find? nodes name = some n) :
    ∃ before after, nodes = before ++ n :: after ∧
      ∀ m : Node, m.name = name → put m nodes = before ++ m :: after := by
  induction nodes with
  | nil => cases h
  | cons x xs ih =>
    by_cases hx : x.name = name
    · rw [find?_cons_self hx] at h
      cases h
      refine ⟨[], xs, rfl, fun m hm => ?_⟩
      rw [put, if_pos (hx.trans hm.symm), List.nil_append]
    · rw [find?_cons_of_ne hx] at h
      obtain ⟨before, after, rfl, hput⟩ := ih h
      refine ⟨x :: before, after, rfl, fun m hm => ?_⟩
      rw [put, if_neg fun hxm => hx (hxm.trans hm), hput m hm, List.cons_append]

theorem put_of_found (h : find? nodes name = some n) : put n nodes = nodes := by
  obtain ⟨before, after, hnodes, hput⟩ := exists_put_eq h
  rw [hput n (find?_eq_some h).2, ← hnodes]

theorem inside_put_scope {kind : ScopeKind} {full : String} {children : List Node} :
    inside (put (.scope kind name full children) nodes) name = children :=
  inside_of_found (find?_put nodes (.scope kind name full children))

theorem inside_put_of_ne (h : m.name ≠ name) : inside (put m nodes) name = inside nodes name := by
  rw [inside, inside, find?_put_of_ne h]

end Put

/-! ## One step -/

/-- The node that a walk comes to under a name: the one that is there, or a new package. -/
def nextNode (scope : String) (nodes : List Node) (name : String) : Node :=
  (find? nodes name).getD (.emptyScope .package scope name)

/-- What a step of the walk does with the node that it comes to. -/
inductive WalkStep (scope : String) (nodes : List Node) (name : String) (rest : List String) : Prop
  /-- It stops at an enum or a service. -/
  | stops {n : Node} : find? nodes name = some n → n.isScope = false →
      enterScope scope nodes (name :: rest) = (nodes, .error ⟨Name.member scope name⟩) →
      WalkStep scope nodes name rest
  /-- It puts a scope into place with all that the rest of the walk leaves in it. -/
  | goesOn {kind : ScopeKind} {full : String} :
      nextNode scope nodes name = .scope kind name full (inside nodes name) →
      enterScope scope nodes (name :: rest) =
        (put (.scope kind name full
            (enterScope (Name.member scope name) (inside nodes name) rest).1) nodes,
          (enterScope (Name.member scope name) (inside nodes name) rest).2) →
      WalkStep scope nodes name rest

section Steps
variable {scope name : String} {nodes : List Node} {rest : List String}

theorem enterScope_new (h : find? nodes name = none) :
    enterScope scope nodes (name :: rest) =
      (nodes ++ [.scope .package name (Name.member scope name)
          (enterScope (Name.member scope name) [] rest).1],
        (enterScope (Name.member scope name) [] rest).2) := by
  let added : Node := .emptyScope .package scope name
  have hadded : (if (find? nodes name).isSome then nodes else nodes ++ [added]) =
      nodes ++ [added] := by
    rw [h]
    rfl
  have hfound : find? (nodes ++ [added]) name = some added := find?_concat (n := added) h
  have hput : ∀ children, put (.scope .package name (Name.member scope name) children)
      (nodes ++ [added]) = nodes ++ [.scope .package name (Name.member scope name) children] :=
    fun _ => put_concat (n := added) rfl h
  rw [enterScope, hadded, hfound]
  exact congrArg (·, _) (hput _)

theorem enterScope_into {kind : ScopeKind} {n full : String} {children : List Node}
    (h : find? nodes name = some (.scope kind n full children)) :
    enterScope scope nodes (name :: rest) =
      (put (.scope kind n full (enterScope (Name.member scope name) children rest).1) nodes,
        (enterScope (Name.member scope name) children rest).2) := by
  simp only [enterScope, h, Option.isSome_some, if_true]

theorem enterScope_leaf {n : Node} (h : find? nodes name = some n) (hleaf : n.isScope = false) :
    enterScope scope nodes (name :: rest) = (nodes, .error ⟨Name.member scope name⟩) := by
  cases n with
  | scope => cases hleaf
  | enum => simp only [enterScope, h, Option.isSome_some, if_true]
  | service => simp only [enterScope, h, Option.isSome_some, if_true]

end Steps

theorem walkStep (scope : String) (nodes : List Node) (name : String) (rest : List String) :
    WalkStep scope nodes name rest := by
  cases hfind : find? nodes name with
  | none =>
    have hinside := inside_of_new hfind
    refine @WalkStep.goesOn scope nodes name rest .package (Name.member scope name) ?_ ?_
    · rw [nextNode, hfind, hinside]
      rfl
    · rw [enterScope_new hfind, hinside, put_of_new (by exact hfind)]
  | some n =>
    have hname : n.name = name := (find?_eq_some hfind).2
    cases n with
    | scope kind n full children =>
      obtain rfl : n = name := hname
      have hinside : inside nodes n = children := inside_of_found hfind
      refine @WalkStep.goesOn scope nodes n rest kind full ?_ ?_
      · rw [nextNode, hfind, hinside]
        rfl
      · rw [enterScope_into hfind, hinside]
    | enum => exact .stops hfind rfl (enterScope_leaf hfind rfl)
    | service => exact .stops hfind rfl (enterScope_leaf hfind rfl)

/-! ## Where the walk fails -/

/-- An enum or a service stands at the path. -/
def BlockedAt (nodes : List Node) (path : List String) : Prop :=
  ∃ n, descend? nodes path = some n ∧ n.isScope = false

section Blocked
variable {nodes : List Node} {path : List String}

theorem BlockedAt.ne_nil (h : BlockedAt nodes path) : path ≠ [] := by
  rintro rfl
  obtain ⟨n, hn, -⟩ := h
  cases hn

theorem blockedAt_cons {name : String} (hne : path ≠ []) :
    BlockedAt nodes (name :: path) ↔ BlockedAt (inside nodes name) path := by
  rw [BlockedAt, BlockedAt, descend?_inside hne]

theorem not_blockedAt_nil (path : List String) : ¬ BlockedAt [] path := by
  rintro ⟨n, hn, -⟩
  obtain ⟨m, hm, -⟩ := (standsAt_of_descend? hn).exists_head
  cases hm

/-- An enum or a service holds nothing. -/
theorem BlockedAt.insideAll_eq (h : BlockedAt nodes path) : insideAll nodes path = [] := by
  have hpath := h.ne_nil
  obtain ⟨n, hn, hleaf⟩ := h
  rw [← List.dropLast_append_getLast hpath] at hn ⊢
  rw [descend?_concat] at hn
  rw [insideAll_concat, inside_of_found hn]
  cases n with
  | scope => cases hleaf
  | enum => rfl
  | service => rfl

/-- Of two paths to enums or services, none goes on where the other ends. -/
theorem BlockedAt.eq_of_extends {other : List String} (h : BlockedAt nodes path)
    (hother : BlockedAt nodes other) (hextends : path <+: other) : path = other := by
  obtain ⟨rest, rfl⟩ := hextends
  by_cases hrest : rest = []
  · rw [hrest, List.append_nil]
  · rw [BlockedAt, descend?_append hrest, h.insideAll_eq] at hother
    exact absurd hother (not_blockedAt_nil rest)

end Blocked

/-- **A walk fails at an enum or a service on its path, and comes to the end without one.** -/
theorem ends_enterScope (scope : String) (nodes : List Node) (path : List String) :
    Ends
      (fun full => full = path.foldl Name.member scope ∧ ∀ p, p <+: path → ¬ BlockedAt nodes p)
      (fun e => ∃ p, p <+: path ∧ BlockedAt nodes p ∧ e.fullName = p.foldl Name.member scope)
      (enterScope scope nodes path).2 := by
  induction path generalizing scope nodes with
  | nil =>
    refine .ok ⟨rfl, fun p hp hblocked => ?_⟩
    exact hblocked.ne_nil (List.prefix_nil.mp hp)
  | cons name rest ih =>
    cases walkStep scope nodes name rest with
    | stops hfind hleaf hwalk =>
      rw [hwalk]
      exact .error ⟨[name], ⟨rest, rfl⟩, ⟨_, hfind, hleaf⟩, rfl⟩
    | goesOn hnext hwalk =>
      rw [hwalk]
      refine (ih (Name.member scope name) (inside nodes name)).imp ?_ ?_
      · rintro full ⟨hfull, hfree⟩
        refine ⟨hfull, fun p hp hblocked => ?_⟩
        obtain ⟨first, p, rfl⟩ := List.exists_cons_of_ne_nil hblocked.ne_nil
        obtain ⟨rfl, hrest⟩ := List.cons_prefix_cons.mp hp
        by_cases hnil : p = []
        · subst hnil
          obtain ⟨n, hn, hleaf⟩ := hblocked
          have hn : find? nodes first = some n := hn
          rw [nextNode, hn] at hnext
          obtain rfl : n = _ := hnext
          cases hleaf
        · exact hfree p hrest ((blockedAt_cons hnil).mp hblocked)
      · rintro e ⟨p, hp, hblocked, hfull⟩
        exact ⟨name :: p, List.cons_prefix_cons.mpr ⟨rfl, hp⟩,
          (blockedAt_cons hblocked.ne_nil).mpr hblocked, hfull⟩

/-- **A walk that fails leaves everything as it was.** -/
theorem enterScope_of_error {scope : String} {nodes : List Node} {path : List String}
    {e : DuplicateName} (h : (enterScope scope nodes path).2 = .error e) :
    (enterScope scope nodes path).1 = nodes := by
  induction path generalizing scope nodes with
  | nil => cases h
  | cons name rest ih =>
    cases walkStep scope nodes name rest with
    | stops _ _ hwalk => rw [hwalk]
    | goesOn hnext hwalk =>
      rw [hwalk] at h ⊢
      have hends := ends_enterScope (Name.member scope name) (inside nodes name) rest
      rw [h] at hends
      obtain ⟨p, -, hblocked, -⟩ := hends.of_error
      cases hfind : find? nodes name with
      | none =>
        -- in a new package nothing can stand in the way
        rw [inside_of_new hfind] at hblocked
        exact absurd hblocked (not_blockedAt_nil p)
      | some n =>
        rw [nextNode, hfind] at hnext
        rw [ih h, ← hnext]
        exact put_of_found hfind

/-! ## What the walk leaves behind -/

/-- Off the path nothing changes. -/
theorem descend?_enterScope (scope : String) {nodes : List Node} {path other : List String}
    (h : ¬ other <+: path) :
    descend? (enterScope scope nodes path).1 other = descend? nodes other := by
  induction path generalizing scope nodes other with
  | nil => rfl
  | cons name rest ih =>
    cases walkStep scope nodes name rest with
    | stops _ _ hwalk => rw [hwalk]
    | goesOn _ hwalk =>
      rw [hwalk]
      obtain ⟨first, other, rfl⟩ : ∃ first rest, other = first :: rest :=
        List.exists_cons_of_ne_nil fun hnil => h (hnil ▸ List.nil_prefix)
      by_cases hfirst : name = first
      · subst hfirst
        have hrest : ¬ other <+: rest := fun hother => h (List.cons_prefix_cons.mpr ⟨rfl, hother⟩)
        have hne : other ≠ [] := fun hnil => hrest (hnil ▸ List.nil_prefix)
        rw [descend?_inside hne, descend?_inside hne, inside_put_scope]
        exact ih _ hrest
      · by_cases hne : other = []
        · subst hne
          exact find?_put_of_ne hfirst
        · rw [descend?_inside hne, descend?_inside hne, inside_put_of_ne (by exact hfirst)]

/-- Nothing is put into the scope at the end of the path. -/
theorem insideAll_enterScope (scope : String) (nodes : List Node) (path : List String) :
    insideAll (enterScope scope nodes path).1 path = insideAll nodes path := by
  induction path generalizing scope nodes with
  | nil => rfl
  | cons name rest ih =>
    cases walkStep scope nodes name rest with
    | stops _ _ hwalk => rw [hwalk]
    | goesOn _ hwalk =>
      rw [hwalk, insideAll_cons, insideAll_cons, inside_put_scope]
      exact ih _ _

/-- On the path a scope is put into its place: the one that was there, or a new package. -/
theorem exists_scope_enterScope {scope full : String} {nodes : List Node}
    {path p : List String} {name : String} (h : (enterScope scope nodes path).2 = .ok full)
    (hp : p ++ [name] <+: path) :
    ∃ m, m.isScope = true ∧ m.name = name ∧
      m.bare = (nextNode (p.foldl Name.member scope) (insideAll nodes p) name).bare ∧
      insideAll (enterScope scope nodes path).1 p = put m (insideAll nodes p) := by
  induction path generalizing scope nodes p with
  | nil => exact absurd (List.prefix_nil.mp hp) (List.append_ne_nil_of_right_ne_nil p (by simp))
  | cons first rest ih =>
    cases walkStep scope nodes first rest with
    | stops _ _ hwalk =>
      rw [hwalk] at h
      cases h
    | goesOn hnext hwalk =>
      rw [hwalk] at h ⊢
      cases p with
      | nil =>
        obtain ⟨rfl, -⟩ := List.cons_prefix_cons.mp hp
        refine ⟨_, rfl, rfl, ?_, rfl⟩
        exact (congrArg Node.bare hnext).symm
      | cons second p =>
        obtain ⟨rfl, hrest⟩ := List.cons_prefix_cons.mp hp
        obtain ⟨m, hscope, hname, hbare, hplace⟩ := ih h hrest
        refine ⟨m, hscope, hname, hbare, ?_⟩
        rw [insideAll_cons, insideAll_cons, inside_put_scope]
        exact hplace

/-- A second walk finds everything in place. -/
theorem enterScope_again (scope : String) (nodes : List Node) (path : List String) :
    enterScope scope (enterScope scope nodes path).1 path = enterScope scope nodes path := by
  induction path generalizing scope nodes with
  | nil => rfl
  | cons name rest ih =>
    cases walkStep scope nodes name rest with
    | stops _ _ hwalk => rw [hwalk, hwalk]
    | @goesOn kind full _ hwalk =>
      rw [hwalk]
      refine (enterScope_into (find?_put nodes (.scope kind name full _))).trans ?_
      rw [put_put (by rfl)]
      exact congrArg (fun walk => (put (.scope kind name full walk.1) nodes, walk.2)) (ih _ _)

/-! ## Making sure that there is a scope -/

theorem updateScope_next {edit : String → List Node → Except DuplicateName (List Node)}
    {scope : String} {nodes : List Node} {name full : String} {kind : ScopeKind}
    {rest : List String}
    (h : nextNode scope nodes name = .scope kind name full (inside nodes name)) :
    updateScope edit scope nodes (name :: rest) =
      (fun children => put (.scope kind name full children) nodes) <$>
        updateScope edit (Name.member scope name) (inside nodes name) rest := by
  cases hfind : find? nodes name with
  | none =>
    have hinside := inside_of_new hfind
    rw [nextNode, hfind, hinside] at h
    obtain ⟨rfl, -, rfl, -⟩ := Node.scope.inj h
    rw [updateScope_new hfind, hinside]
    exact congrArg (· <$> _) (funext fun children => (put_of_new (by exact hfind)).symm)
  | some n =>
    rw [nextNode, hfind] at h
    obtain rfl : n = _ := h
    exact updateScope_into hfind

theorem updateScope_eq_enterScope (scope : String) (nodes : List Node) (path : List String) :
    updateScope (fun _ nodes => .ok nodes) scope nodes path =
      (fun _ => (enterScope scope nodes path).1) <$> (enterScope scope nodes path).2 := by
  induction path generalizing scope nodes with
  | nil => rfl
  | cons name rest ih =>
    cases walkStep scope nodes name rest with
    | @stops n hfind hleaf hwalk =>
      rw [hwalk, updateScope, hfind]
      cases n with
      | scope => cases hleaf
      | enum => rfl
      | service => rfl
    | goesOn hnext hwalk =>
      rw [hwalk, updateScope_next hnext, ih, Functor.map_map]

/-- Making sure that a path names a scope is the walk without the changes of a failure. -/
theorem Root.define_eq_enter (r : Root) (path : List String) :
    r.define path = (fun _ => (r.enter path).1) <$> (r.enter path).2 := by
  have hnodes := updateScope_eq_enterScope "" r.nodes path
  rw [define, update, hnodes, enter]
  cases (enterScope "" r.nodes path).2 <;> rfl

/-! ## The whole walk -/

/-- How a schema differs from what it was when a walk has come to the end of its path. -/
structure Root.OpenedAlong (r : Root) (path : List String) (r' : Root) : Prop where
  files : r'.files = r.files
  /-- The whole path goes through packages and messages. -/
  scopes : ∀ p, p ≠ [] → p <+: path → ∃ n, descend? r'.nodes p = some n ∧ n.isScope = true
  /-- What was not there is a new package, behind everything else in its scope. -/
  added : ∀ p name, p ++ [name] <+: path → descend? r.nodes (p ++ [name]) = none →
    ∃ n, descend? r'.nodes (p ++ [name]) = some n ∧
      n.bare = .emptyScope .package (scopeName p) name ∧ r'.nodesAt p = r.nodesAt p ++ [n]
  /-- What was there keeps its place, and everything around it. -/
  kept : ∀ p name n, p ++ [name] <+: path → descend? r.nodes (p ++ [name]) = some n →
    ∃ n' before after, descend? r'.nodes (p ++ [name]) = some n' ∧ n'.bare = n.bare ∧
      r.nodesAt p = before ++ n :: after ∧ r'.nodesAt p = before ++ n' :: after
  /-- The scope at the end of the path holds what it held; a new one is empty. -/
  innermost : r'.nodesAt path = r.nodesAt path
  /-- All that does not lie on the path is as it was. -/
  elsewhere : ∀ q, ¬ q <+: path → descend? r'.nodes q = descend? r.nodes q

section Enter
variable {r : Root} {path p : List String} {name full : String}

theorem Root.exists_enter (h : (r.enter path).2 = .ok full) (hp : p ++ [name] <+: path) :
    ∃ m, descend? (r.enter path).1.nodes (p ++ [name]) = some m ∧ m.isScope = true ∧
      m.name = name ∧ m.bare = (nextNode (scopeName p) (r.nodesAt p) name).bare ∧
      (r.enter path).1.nodesAt p = put m (r.nodesAt p) := by
  obtain ⟨m, hscope, hname, hbare, hplace⟩ := exists_scope_enterScope h hp
  rw [← r.nodesAt_eq] at hbare hplace
  refine ⟨m, ?_, hscope, hname, hbare, ?_⟩
  · have hfound : find? (put m (r.nodesAt p)) name = some m := hname ▸ find?_put _ m
    rw [descend?_concat, ← hfound, ← hplace]
    rfl
  · rw [nodesAt_eq, ← hplace]
    rfl

theorem Root.openedAlong_enter (h : (r.enter path).2 = .ok full) :
    r.OpenedAlong path (r.enter path).1 where
  files := rfl
  scopes p hne hp := by
    rw [← List.dropLast_append_getLast hne] at hp ⊢
    obtain ⟨m, hfound, hscope, -⟩ := exists_enter h hp
    exact ⟨m, hfound, hscope⟩
  added p name hp hnone := by
    obtain ⟨m, hfound, -, hname, hbare, hplace⟩ := exists_enter h hp
    rw [descend?_concat, ← r.nodesAt_eq] at hnone
    rw [nextNode, hnone] at hbare
    refine ⟨m, hfound, hbare, ?_⟩
    rw [hplace, put_of_new (hname ▸ hnone)]
  kept p name n hp hsome := by
    obtain ⟨m, hfound, -, hname, hbare, hplace⟩ := exists_enter h hp
    rw [descend?_concat, ← r.nodesAt_eq] at hsome
    rw [nextNode, hsome] at hbare
    obtain ⟨before, after, hnodes, hput⟩ := exists_put_eq hsome
    exact ⟨m, before, after, hfound, hbare, hnodes, hplace.trans (hput m hname)⟩
  innermost := by
    rw [nodesAt_eq, nodesAt_eq]
    exact insideAll_enterScope "" r.nodes path
  elsewhere q hq := descend?_enterScope "" hq

end Enter

/-- **Going down a path is exact, and leaves no trace when it fails.**  It fails just when an enum
or a service stands somewhere on the path; the error names the first one, and the schema is as it
was.  Otherwise it comes to the scope of that path through scopes that were there and through new
packages, changes nothing else, and a second walk changes nothing at all.  Making sure that a path
names a scope is to go down it. -/
theorem enter_exact (r : Root) (path : List String) :
    ((∃ e, (r.enter path).2 = .error e) ↔ ∃ p, p <+: path ∧ BlockedAt r.nodes p) ∧
    Ends
      (fun full => full = scopeName path ∧ r.OpenedAlong path (r.enter path).1 ∧
        (r.enter path).1.enter path = r.enter path)
      (fun e => (r.enter path).1 = r ∧
        ∃ p, p <+: path ∧ BlockedAt r.nodes p ∧ e.fullName = scopeName p ∧
          ∀ q, q <+: path → BlockedAt r.nodes q → p <+: q)
      (r.enter path).2 ∧
    r.define path = (fun _ => (r.enter path).1) <$> (r.enter path).2 := by
  have hends : Ends _ _ (r.enter path).2 := ends_enterScope "" r.nodes path
  refine ⟨?_, ?_, r.define_eq_enter path⟩
  · constructor
    · rintro ⟨e, he⟩
      rw [he] at hends
      obtain ⟨p, hp, hblocked, -⟩ := hends.of_error
      exact ⟨p, hp, hblocked⟩
    · rintro ⟨p, hp, hblocked⟩
      cases hresult : (r.enter path).2 with
      | error e => exact ⟨e, rfl⟩
      | ok full =>
        rw [hresult] at hends
        exact absurd hblocked (hends.of_ok.2 p hp)
  · cases hresult : (r.enter path).2 with
    | ok full =>
      rw [hresult] at hends
      refine .ok ⟨hends.of_ok.1, Root.openedAlong_enter hresult, ?_⟩
      have hagain := enterScope_again "" r.nodes path
      rw [Root.enter, Root.enter]
      exact congrArg (fun walk => ({ r with nodes := walk.1 }, walk.2)) hagain
    | error e =>
      rw [hresult] at hends
      obtain ⟨p, hp, hblocked, hname⟩ := hends.of_error
      refine .error ⟨?_, p, hp, hblocked, hname, fun q hq hother => ?_⟩
      · have hnodes : (enterScope "" r.nodes path).1 = r.nodes := enterScope_of_error hresult
        exact congrArg (fun nodes => { r with nodes }) hnodes
      · -- of two places on one path the one lies behind the other, and nothing lies behind a leaf
        rcases List.prefix_or_prefix_of_prefix hp hq with hpq | hqp
        · exact hpq
        · exact (hother.eq_of_extends hblocked hqp) ▸ List.prefix_rfl

end RpcBindings.Schema

import RpcBindings.Proofs.Forest

/-! # Looking up types changes nothing else

Resolving a schema goes through its forest and changes the methods of services only: every
node stays at its path with its kind and its names (`placedAll_resolveNodes`).  What a method
finds is the full name of a message of the same schema (`Root.message_of_resolved`).

Loading resolves a schema in one walk, which counts the methods that keep an open type on its way.
The count is carried from method to method through the whole forest, so what the walk gives is
known for every count that it starts with (`resolveCountingAll_eq`).
-/
namespace RpcBindings.Schema

section Nodes
variable (messages : List String)

/-- The placed node with the messages of its methods looked up. -/
def Placed.resolve (a : Placed) : Placed := ⟨a.path, a.node.resolve messages⟩

theorem fullName_resolve (n : Node) : (n.resolve messages).fullName = n.fullName := by
  cases n <;> rfl

theorem name_resolve (n : Node) : (n.resolve messages).name = n.name := by
  cases n <;> rfl

theorem children_resolve (n : Node) :
    (n.resolve messages).children = resolveNodes messages n.children := by
  cases n <;> rfl

theorem resolveNodes_eq_map (nodes : List Node) :
    resolveNodes messages nodes = nodes.map (Node.resolve messages) := by
  induction nodes with
  | nil => rfl
  | cons n ns ih => rw [resolveNodes, ih, List.map_cons]

theorem isMessage_resolve (n : Node) : (n.resolve messages).isMessage = n.isMessage := by
  cases n with
  | scope kind => cases kind <;> rfl
  | enum => rfl
  | service => rfl

/-- **Resolving keeps every node at its path.** -/
theorem placedAll_resolveNodes (nodes : List Node) :
    placedAll (resolveNodes messages nodes) = (placedAll nodes).map (Placed.resolve messages) := by
  induction nodes using forest_induction with
  | nil => rfl
  | scope kind name full children rest ihChildren ih =>
    rw [resolveNodes, placedAll, placedAll, ih, Node.resolve, Node.placed, Node.placed,
      ihChildren, List.map_append, List.map_cons, List.map_map, List.map_map]
    rfl
  | enum name full rest ih =>
    rw [resolveNodes, placedAll, placedAll, ih, List.map_append]
    rfl
  | service s rest ih =>
    rw [resolveNodes, placedAll, placedAll, ih, List.map_append]
    rfl

theorem occurs_resolveNodes {P : Node → Prop} {nodes : List Node} :
    Occurs P (resolveNodes messages nodes) ↔
      Occurs (fun n => P (n.resolve messages)) nodes := by
  simp only [Occurs, placedAll_resolveNodes, List.mem_map]
  constructor
  · rintro ⟨_, ⟨a, ha, rfl⟩, hp⟩
    exact ⟨a, ha, hp⟩
  · rintro ⟨a, ha, hp⟩
    exact ⟨_, ⟨a, ha, rfl⟩, hp⟩

theorem mem_messageNamesAll_resolveNodes {nodes : List Node} {fullName : String} :
    fullName ∈ messageNamesAll (resolveNodes messages nodes) ↔
      fullName ∈ messageNamesAll nodes := by
  rw [mem_messageNamesAll, mem_messageNamesAll, occurs_resolveNodes]
  simp only [isMessage_resolve, fullName_resolve]

variable {messages}

/-- The services of a resolved forest are the resolved services of the forest. -/
theorem exists_of_mem_servicesAll {nodes : List Node} {s : Service}
    (h : s ∈ servicesAll (resolveNodes messages nodes)) :
    ∃ written ∈ servicesAll nodes, written.resolve messages = s := by
  obtain ⟨a, ha, hs⟩ := (occurs_resolveNodes messages).mp (mem_servicesAll.mp h)
  cases hnode : a.node with
  | scope =>
    rw [hnode] at hs
    cases hs
  | enum =>
    rw [hnode] at hs
    cases hs
  | service written =>
    rw [hnode] at hs
    exact ⟨written, mem_servicesAll.mpr ⟨a, ha, hnode⟩, Node.service.inj hs⟩

end Nodes

/-! ## Resolving in one walk -/

/-- The number of methods of a forest that keep an open type. -/
def openMethods (nodes : List Node) : Nat :=
  ((servicesAll nodes).flatMap Service.methods).countP fun m => m.resolved?.isNone

theorem openMethods_cons (n : Node) (ns : List Node) :
    openMethods (n :: ns) = openMethods [n] + openMethods ns := by
  simp only [openMethods, servicesAll, List.append_nil, List.flatMap_append, List.countP_append]

theorem resolveMethods_eq (messages : List String) (scope : String) (count : Nat)
    (ms : List Method) :
    resolveMethods messages scope count ms =
      (ms.map (Method.resolve messages scope),
        count + (ms.map (Method.resolve messages scope)).countP fun m => m.resolved?.isNone) := by
  induction ms generalizing count with
  | nil => rfl
  | cons m ms ih =>
    rw [resolveMethods, ih, List.map_cons, List.countP_cons]
    refine Prod.ext rfl ?_
    dsimp only
    split <;> omega

/-- **The walk resolves the forest, and counts on for every method that keeps an open type.** -/
theorem resolveCountingAll_eq (messages : List String) (count : Nat) (nodes : List Node) :
    resolveCountingAll messages count nodes =
      (resolveNodes messages nodes, count + openMethods (resolveNodes messages nodes)) := by
  induction nodes using forest_induction generalizing count with
  | nil => rfl
  | scope kind name full children rest ihChildren ih =>
    have hscope : openMethods [.scope kind name full (resolveNodes messages children)] =
        openMethods (resolveNodes messages children) := by
      simp only [openMethods, servicesAll, Node.services, List.append_nil]
    simp only [resolveCountingAll, Node.resolveCounting, ihChildren, ih, resolveNodes, Node.resolve]
    rw [openMethods_cons, hscope, Nat.add_assoc]
  | enum name full rest ih =>
    simp only [resolveCountingAll, Node.resolveCounting, ih]
    rfl
  | service s rest ih =>
    have hservice : openMethods [.service (s.resolve messages)] =
        (s.methods.map (Method.resolve messages s.scope)).countP fun m => m.resolved?.isNone := by
      simp only [openMethods, servicesAll, Node.services, List.append_nil, List.flatMap_singleton,
        Service.resolve]
    simp only [resolveCountingAll, Node.resolveCounting, resolveMethods_eq, ih, resolveNodes,
      Node.resolve]
    rw [openMethods_cons, hservice, Nat.add_assoc]
    rfl

/-- The walk gives the resolved schema and the number of methods that are open in it. -/
theorem Root.resolveAll_eq (r : Root) : r.resolveAll = (r.resolve, r.resolve.unresolvedCount) := by
  rw [resolveAll, resolveCountingAll_eq, Nat.zero_add]
  rfl

/-! ## What is found is a message -/

theorem mem_of_lookupType {messages : List String} {scope name : String} {t : TypeRef}
    (h : lookupType messages scope name = some t) : t.fullName ∈ messages := by
  unfold lookupType at h
  split at h
  · split at h
    · next hmem =>
      cases h
      exact List.contains_iff_mem.mp hmem
    · cases h
  · obtain ⟨fullName, hfind, rfl⟩ := Option.map_eq_some_iff.mp h
    exact List.contains_iff_mem.mp (List.find?_some hfind)

theorem mem_of_resolved {messages : List String} {scope : String} {m : Method}
    {request response : TypeRef}
    (h : (m.resolve messages scope).resolved? = some (request, response)) :
    request.fullName ∈ messages ∧ response.fullName ∈ messages := by
  unfold Method.resolved? at h
  split at h
  · next request' response' hrequest hresponse =>
    cases h
    exact ⟨mem_of_lookupType hrequest, mem_of_lookupType hresponse⟩
  · cases h

/-- **The two messages of a method in a resolved schema are messages of that schema.** -/
theorem Root.message_of_resolved {r : Root} {s : Service} {m : Method}
    {request response : TypeRef} (hs : s ∈ servicesAll r.resolve.nodes) (hm : m ∈ s.methods)
    (hresolved : m.resolved? = some (request, response)) :
    request.fullName ∈ messageNamesAll r.resolve.nodes ∧
      response.fullName ∈ messageNamesAll r.resolve.nodes := by
  obtain ⟨written, _, rfl⟩ := exists_of_mem_servicesAll hs
  obtain ⟨m', _, rfl⟩ := List.mem_map.mp hm
  rw [Root.resolve, mem_messageNamesAll_resolveNodes, mem_messageNamesAll_resolveNodes]
  exact mem_of_resolved hresolved

end RpcBindings.Schema

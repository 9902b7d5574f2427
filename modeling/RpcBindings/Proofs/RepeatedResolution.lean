import RpcBindings.Proofs.Resolution

/-! # Resolving again

Resolving a schema writes two fields of every method and reads neither of them.  What the fields
hold before is therefore lost, whoever has put it there: the outcome depends only on the schema as
it is written (`Root.asWritten`), with nothing looked up.  Resolving does not change what is
written, so a second time has the outcome of the first (`resolveAll_again`).

Both facts are one induction along the forest each, and reach every service, in packages as well as
in messages.
-/
namespace RpcBindings.Schema

/-! ## Schemas as they are written -/

/-- The method with nothing looked up. -/
def Method.asWritten (m : Method) : Method := { m with request := none, response := none }

/-- The service with nothing looked up. -/
def Service.asWritten (s : Service) : Service :=
  { s with methods := s.methods.map Method.asWritten }

mutual

/-- The node with nothing looked up at or below it. -/
def Node.asWritten : Node → Node
  | .scope kind name fullName children => .scope kind name fullName (asWrittenAll children)
  | .enum name fullName => .enum name fullName
  | .service s => .service s.asWritten

/-- The forest with nothing looked up. -/
def asWrittenAll : List Node → List Node
  | [] => []
  | n :: ns => n.asWritten :: asWrittenAll ns

end

/-- The schema with nothing looked up. -/
def Root.asWritten (r : Root) : Root := { r with nodes := asWrittenAll r.nodes }

/-! ## What is written and what is found -/

section Written
variable (messages : List String)

theorem Service.asWritten_resolve (s : Service) : (s.resolve messages).asWritten = s.asWritten := by
  rw [Service.asWritten, Service.resolve, List.map_map]
  rfl

theorem Service.resolve_asWritten (s : Service) :
    s.asWritten.resolve messages = s.resolve messages := by
  rw [Service.resolve, Service.asWritten, List.map_map]
  rfl

/-- **Resolving changes nothing that is written.** -/
theorem asWrittenAll_resolveNodes (nodes : List Node) :
    asWrittenAll (resolveNodes messages nodes) = asWrittenAll nodes := by
  induction nodes using forest_induction with
  | nil => rfl
  | scope kind name full children rest ihChildren ih =>
    rw [resolveNodes, Node.resolve, asWrittenAll, Node.asWritten, ihChildren, ih]
    rfl
  | enum name full rest ih =>
    rw [resolveNodes, asWrittenAll, ih]
    rfl
  | service s rest ih =>
    rw [resolveNodes, Node.resolve, asWrittenAll, Node.asWritten, s.asWritten_resolve, ih]
    rfl

/-- **What was looked up before has no effect.** -/
theorem resolveNodes_asWrittenAll (nodes : List Node) :
    resolveNodes messages (asWrittenAll nodes) = resolveNodes messages nodes := by
  induction nodes using forest_induction with
  | nil => rfl
  | scope kind name full children rest ihChildren ih =>
    rw [asWrittenAll, Node.asWritten, resolveNodes, Node.resolve, ihChildren, ih]
    rfl
  | enum name full rest ih =>
    rw [asWrittenAll, resolveNodes, ih]
    rfl
  | service s rest ih =>
    rw [asWrittenAll, Node.asWritten, resolveNodes, Node.resolve, s.resolve_asWritten, ih]
    rfl

theorem messageNamesAll_asWrittenAll (nodes : List Node) :
    messageNamesAll (asWrittenAll nodes) = messageNamesAll nodes := by
  induction nodes using forest_induction with
  | nil => rfl
  | scope kind name full children rest ihChildren ih =>
    rw [asWrittenAll, Node.asWritten, messageNamesAll, messageNamesAll, ih]
    cases kind with
    | package => rw [Node.messageNames, Node.messageNames, ihChildren]
    | message => rw [Node.messageNames, Node.messageNames, ihChildren]
  | enum name full rest ih =>
    rw [asWrittenAll, messageNamesAll, messageNamesAll, ih]
    rfl
  | service s rest ih =>
    rw [asWrittenAll, messageNamesAll, messageNamesAll, ih]
    rfl

end Written

namespace Root

theorem asWritten_resolve (r : Root) : r.resolve.asWritten = r.asWritten := by
  rw [asWritten, resolve, asWrittenAll_resolveNodes]
  rfl

theorem resolve_asWritten (r : Root) : r.asWritten.resolve = r.resolve := by
  rw [resolve, asWritten, messageNamesAll_asWrittenAll, resolveNodes_asWrittenAll]
  rfl

/-- Schemas that are written alike are resolved alike. -/
theorem resolveAll_congr {r r' : Root} (h : r'.asWritten = r.asWritten) :
    r'.resolveAll = r.resolveAll := by
  have hresolve : r'.resolve = r.resolve := by
    rw [← r'.resolve_asWritten, h, r.resolve_asWritten]
  rw [resolveAll_eq, resolveAll_eq, hresolve]

/-- Every method gets what its type names stand for in the scope of its service. -/
theorem found_of_resolve {r : Root} {s : Service} (hs : s ∈ servicesAll r.resolve.nodes)
    {m : Method} (hm : m ∈ s.methods) :
    m.request = lookupType (messageNamesAll r.nodes) s.scope m.requestType ∧
      m.response = lookupType (messageNamesAll r.nodes) s.scope m.responseType := by
  obtain ⟨written, -, rfl⟩ := exists_of_mem_servicesAll hs
  obtain ⟨m', -, rfl⟩ := List.mem_map.mp hm
  exact ⟨rfl, rfl⟩

/-- **Resolving fills in what is found and does nothing else, once and for all.**  Nothing that is
written changes; the outcome does not depend on what was looked up before; every method of every
service gets what its type names stand for; the number that is given is that of the methods that
are open afterwards; and a second time gives the same number and changes nothing. -/
theorem resolveAll_again (r : Root) :
    r.resolveAll.1.asWritten = r.asWritten ∧
    (∀ r' : Root, r'.asWritten = r.asWritten → r'.resolveAll = r.resolveAll) ∧
    (∀ s ∈ servicesAll r.resolveAll.1.nodes, ∀ m ∈ s.methods,
      m.request = lookupType (messageNamesAll r.nodes) s.scope m.requestType ∧
        m.response = lookupType (messageNamesAll r.nodes) s.scope m.responseType) ∧
    r.resolveAll.2 = r.resolveAll.1.unresolvedCount ∧
    r.resolveAll.1.resolveAll = r.resolveAll := by
  have hwritten : r.resolveAll.1.asWritten = r.asWritten := by
    rw [resolveAll_eq]
    exact r.asWritten_resolve
  refine ⟨hwritten, fun r' h => resolveAll_congr h, ?_, ?_, resolveAll_congr hwritten⟩
  · rw [resolveAll_eq]
    exact fun s hs m hm => found_of_resolve hs hm
  · rw [resolveAll_eq]

end Root

end RpcBindings.Schema

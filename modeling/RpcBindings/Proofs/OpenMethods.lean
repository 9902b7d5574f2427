import RpcBindings.Proofs.GeneratorAgreement

/-! # Methods with open types leave no trace

A method with an open type is left out.  More than that: without comments the generated code is
the code for schemas that never declared it (`erase_openMethods`).  Everything that generated
code depends on looks at methods through `Method.resolved?`: the names to import, the endpoints
of a service and, through these, the codec fields and the identifiers they get.  The tour looks
at no method at all.
-/
namespace RpcBindings

namespace Schema

/-- The service without its methods with open types. -/
def Service.eraseOpen (s : Service) : Service :=
  { s with methods := s.methods.filter fun m => m.resolved?.isSome }

mutual

/-- The node without the methods with open types below it. -/
def Node.eraseOpen : Node → Node
  | .scope kind name fullName children => .scope kind name fullName (eraseOpenAll children)
  | .enum name fullName => .enum name fullName
  | .service s => .service s.eraseOpen

/-- The forest without the methods with open types. -/
def eraseOpenAll : List Node → List Node
  | [] => []
  | n :: ns => n.eraseOpen :: eraseOpenAll ns

end

/-- The schema without the methods with open types. -/
def Root.eraseOpen (r : Root) : Root := { r with nodes := eraseOpenAll r.nodes }

theorem fullName_eraseOpen (n : Node) : n.eraseOpen.fullName = n.fullName := by
  cases n <;> rfl

theorem service?_eraseOpen (n : Node) :
    n.eraseOpen.service? = n.service?.map Service.eraseOpen := by
  cases n <;> rfl

theorem isEmpty_eraseOpenAll (nodes : List Node) :
    (eraseOpenAll nodes).isEmpty = nodes.isEmpty := by
  cases nodes <;> rfl

theorem servicesAll_eraseOpen (nodes : List Node) :
    servicesAll (eraseOpenAll nodes) = (servicesAll nodes).map Service.eraseOpen := by
  induction nodes using forest_induction with
  | nil => rfl
  | scope kind name fullName children rest ihChildren ih =>
    rw [eraseOpenAll, Node.eraseOpen, servicesAll, servicesAll, Node.services, Node.services,
      ihChildren, ih, List.map_append]
  | enum name fullName rest ih => exact ih
  | service s rest ih => exact congrArg (s.eraseOpen :: ·) ih

/-- Nothing that looks at methods through their types sees the difference. -/
theorem filterMap_eraseOpen {α : Type} {f : Method → Option α}
    (hf : ∀ m, m.resolved? = none → f m = none) (s : Service) :
    s.eraseOpen.methods.filterMap f = s.methods.filterMap f := by
  rw [Service.eraseOpen, List.filterMap_filter]
  refine List.filterMap_congr fun m _ => ?_
  cases hm : m.resolved? with
  | none => exact (hf m hm).symm
  | some types => rfl

end Schema

namespace Generate

open RpcBindings.Binding
open RpcBindings.Schema

/-! ## Names to import -/

theorem containersIn_eraseOpen (path : List String) (nodes : List Node) :
    containersIn path (eraseOpenAll nodes) = containersIn path nodes := by
  induction nodes using forest_induction generalizing path with
  | nil => rfl
  | scope kind name fullName children rest ihChildren ih =>
    rw [eraseOpenAll, Node.eraseOpen, containersIn, containersIn, containersOf, containersOf,
      ihChildren, ih, isEmpty_eraseOpenAll]
  | enum name fullName rest ih => exact ih path
  | service s rest ih => exact ih path

theorem rootLevelTypes_eraseOpen (s : Service) :
    rootLevelTypes s.eraseOpen = rootLevelTypes s := by
  rw [rootLevelTypes, rootLevelTypes, filterMap_eraseOpen fun _ hm => hm]

theorem registry_eraseOpen (roots : List Root) :
    Registry.ofRoots (roots.map Root.eraseOpen) = Registry.ofRoots roots := by
  simp only [Registry.ofRoots, List.flatMap_map, Root.eraseOpen, containersIn_eraseOpen,
    servicesAll_eraseOpen, rootLevelTypes_eraseOpen]

/-! ## The tour -/

theorem postorderAll_eraseOpen (nodes : List Node) :
    postorderAll (eraseOpenAll nodes) = (postorderAll nodes).map Node.eraseOpen := by
  induction nodes using forest_induction with
  | nil => rfl
  | scope kind name fullName children rest ihChildren ih =>
    rw [eraseOpenAll, Node.eraseOpen, postorderAll, postorderAll, postorder, postorder,
      ihChildren, ih, List.map_append, List.map_append]
    rfl
  | enum name fullName rest ih => exact congrArg (.enum name fullName :: ·) ih
  | service s rest ih => exact congrArg (.service s.eraseOpen :: ·) ih

/-- The tour with the methods with open types erased from the services it has visited. -/
def Tour.eraseOpen (t : Tour) : Tour := ⟨t.seen, t.services.map Service.eraseOpen⟩

theorem Tour.meet_eraseOpen (t : Tour) (n : Node) :
    t.eraseOpen.meet n.eraseOpen = (t.meet n).eraseOpen := by
  by_cases hn : n.fullName ∈ t.seen
  · have hn' : n.eraseOpen.fullName ∈ t.eraseOpen.seen := by rwa [fullName_eraseOpen]
    rw [meet_of_seen hn, meet_of_seen hn']
  · have hn' : n.eraseOpen.fullName ∉ t.eraseOpen.seen := by rwa [fullName_eraseOpen]
    rw [meet_of_unseen hn, meet_of_unseen hn', fullName_eraseOpen, service?_eraseOpen]
    simp only [Tour.eraseOpen, List.map_append]
    cases n.service? <;> rfl

theorem Tour.foldl_meet_eraseOpen (t : Tour) (ns : List Node) :
    (ns.map Node.eraseOpen).foldl meet t.eraseOpen = (ns.foldl meet t).eraseOpen := by
  induction ns generalizing t with
  | nil => rfl
  | cons n ns ih => rw [List.map_cons, List.foldl_cons, List.foldl_cons, meet_eraseOpen, ih]

/-- **The tour visits the same services.** -/
theorem Tour.ofRoots_eraseOpen (roots : List Root) :
    (ofRoots (roots.map Root.eraseOpen)).services =
      (ofRoots roots).services.map Service.eraseOpen := by
  have hmet : met (roots.map Root.eraseOpen) = (met roots).map Node.eraseOpen := by
    rw [met, met, List.flatMap_map, List.map_flatMap]
    simp only [Root.eraseOpen, postorderAll_eraseOpen]
  rw [ofRoots_eq_foldl, ofRoots_eq_foldl, hmet]
  exact congrArg Tour.services (foldl_meet_eraseOpen {} (met roots))

/-! ## The models -/

theorem endpoint_eq_none {m : Method} (h : m.resolved? = none) : Endpoint.ofMethod? m = none := by
  rw [Endpoint.ofMethod?, h]
  rfl

/-- The model of a service keeps all but its omissions. -/
theorem ofService_eraseOpen (role : Role) (s : Service) :
    { ServiceModel.ofService role s.eraseOpen with omissions := [] } =
      { ServiceModel.ofService role s with omissions := [] } := by
  simp only [ServiceModel.ofService, filterMap_eraseOpen fun _ => endpoint_eq_none]
  rfl

theorem shownModels_eraseOpen {policy : Policy} (h : policy ≠ .comment) (role : Role)
    (roots : List Root) :
    shownModels policy role (roots.map Root.eraseOpen) = shownModels policy role roots := by
  rw [shownModels, shownModels, Tour.ofRoots_eraseOpen, List.map_map]
  refine List.map_congr_left fun s _ => ?_
  simp only [Function.comp_apply, Policy.shown, if_neg h, ofService_eraseOpen]

/-- **Unless comments are asked for, methods with open types leave no trace**: a run gives the
code and the counts of services that it gives for schemas without them. -/
theorem erase_openMethods (options : Emit.Options) {policy : Policy}
    (h : policy = .skip ∨ policy = .warn) (roots : List Root) :
    (run options policy (roots.map Root.eraseOpen)).bindings =
      (run options policy roots).bindings ∧
    (run options policy (roots.map Root.eraseOpen)).manifest =
      (run options policy roots).manifest ∧
    (run options policy (roots.map Root.eraseOpen)).stats.clients =
      (run options policy roots).stats.clients ∧
    (run options policy (roots.map Root.eraseOpen)).stats.servers =
      (run options policy roots).stats.servers ∧
    (run options policy (roots.map Root.eraseOpen)).stats.manifestEntries =
      (run options policy roots).stats.manifestEntries := by
  have hpolicy : policy ≠ .comment := by
    rcases h with rfl | rfl
    · exact fun he => nomatch he
    · exact fun he => nomatch he
  have hlength : (Tour.ofRoots (roots.map Root.eraseOpen)).services.length =
      (Tour.ofRoots roots).services.length := by
    rw [Tour.ofRoots_eraseOpen, List.length_map]
  obtain ⟨hclients, hservers, hlisted⟩ := counts_run options policy (roots.map Root.eraseOpen)
  obtain ⟨hclients', hservers', hlisted'⟩ := counts_run options policy roots
  rw [hlength] at hclients hservers hlisted
  refine ⟨?_, ?_, hclients.trans hclients'.symm, hservers.trans hservers'.symm,
    hlisted.trans hlisted'.symm⟩
  · rw [bindings_run, bindings_run, registry_eraseOpen, shownModels_eraseOpen hpolicy,
      shownModels_eraseOpen hpolicy]
  · rw [manifest_run, manifest_run, registry_eraseOpen, shownModels_eraseOpen hpolicy]

/-- A service whose first method has found its request only.  The request would take the
identifier `M` from the message of the second method. -/
def halfResolved : Root :=
  { nodes :=
      [.scope .message "M" ".M" [],
       .scope .package "a" ".a"
        [.scope .message "M" ".a.M" [],
         .service
          { name := "S"
            fullName := ".a.S"
            methods :=
              [{ name := "Lost", fullName := ".a.S.Lost", requestType := ".M",
                 responseType := "Gone", request := some ⟨".M"⟩ },
               { name := "Call", fullName := ".a.S.Call", requestType := "M",
                 responseType := "M", request := some ⟨".a.M"⟩, response := some ⟨".a.M"⟩ }] }]] }

theorem erase_openMethods_halfResolved :
    (servicesAll halfResolved.nodes).flatMap (·.methods.map Method.name) = ["Lost", "Call"] ∧
    (servicesAll halfResolved.eraseOpen.nodes).flatMap (·.methods.map Method.name) = ["Call"] ∧
    (run {} .warn [halfResolved.eraseOpen]).bindings = (run {} .warn [halfResolved]).bindings ∧
    (run {} .warn [halfResolved.eraseOpen]).manifest = (run {} .warn [halfResolved]).manifest := by
  obtain ⟨hbindings, hmanifest, -⟩ := erase_openMethods {} (Or.inr rfl) [halfResolved]
  exact ⟨by decide, by decide, hbindings, hmanifest⟩

end Generate

end RpcBindings

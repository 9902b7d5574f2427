import RpcBindings.Proofs.LexicalScoping
import RpcBindings.Proofs.TourCoverage

/-! # The three generators of a run

Clients, servers and manifest are generated in three passes, and each pass tours the schemas
anew.  What a pass gives does not depend on what earlier passes have reported
(`pass_fst`), so the three differ in nothing but the codec fields of their models, and the
counts of a run are one number.

In general a tour may pass over a service whose name another node has taken.  Where no two
nodes share a full name it passes over none: it visits all services, in the order in which it
meets them (`Tour.services_of_nodup`).  Every schema that is loaded from sources alone is of this
kind.
-/
namespace RpcBindings.Generate

open RpcBindings.Binding
open RpcBindings.Disk (Store Path)
open RpcBindings.Schema

/-! ## One pass -/

/-- The models of the services on the tour, as a generator sees them. -/
def shownModels (policy : Policy) (role : Role) (roots : List Root) : List ServiceModel :=
  (Tour.ofRoots roots).services.map fun s => policy.shown (.ofService role s)

/-- What a pass gives does not depend on what has been reported. -/
theorem pass_fst (policy : Policy) (role : Role) (roots : List Root) (j : Journal) :
    (pass policy role roots j).1 = shownModels policy role roots := by
  simp only [pass, modelsFor, List.map_map]
  rfl

theorem length_shownModels (policy : Policy) (role : Role) (roots : List Root) :
    (shownModels policy role roots).length = (Tour.ofRoots roots).services.length :=
  List.length_map ..

theorem nodup_pass (policy : Policy) (role : Role) (roots : List Root) (j : Journal) :
    ((pass policy role roots j).1.map ServiceModel.fullName).Nodup := by
  have hnames : (pass policy role roots j).1.map ServiceModel.fullName =
      (Tour.ofRoots roots).services.map Service.fullName := by
    rw [pass_fst, shownModels, List.map_map]
    exact List.map_congr_left fun s _ => fullName_shown policy (.ofService role s)
  rw [hnames]
  exact Tour.nodup_services roots

/-- What a model says of its service: all but the codec fields, which a generator picks for
itself. -/
def servicePart (m : ServiceModel) : ServiceModel := { m with codecs := {} }

theorem servicePart_shown (policy : Policy) (role role' : Role) (s : Service) :
    servicePart (policy.shown (.ofService role s)) =
      servicePart (policy.shown (.ofService role' s)) := by
  unfold Policy.shown
  split <;> rfl

theorem servicePart_pass (policy : Policy) (role role' : Role) (roots : List Root)
    (j j' : Journal) :
    (pass policy role roots j).1.map servicePart =
      (pass policy role' roots j').1.map servicePart := by
  rw [pass_fst, pass_fst, shownModels, shownModels, List.map_map, List.map_map]
  exact List.map_congr_left fun s _ => servicePart_shown policy role role' s

/-! ## One run -/

theorem bindings_run (options : Emit.Options) (policy : Policy) (roots : List Root) :
    (run options policy roots).bindings =
      ((shownModels policy .client roots).map options.client ++
        (shownModels policy .server roots).map options.server).foldl appendSection
          (options.bindingsHeader (Registry.ofRoots roots)) := by
  simp only [run, pass_fst]

theorem manifest_run (options : Emit.Options) (policy : Policy) (roots : List Root) :
    (run options policy roots).manifest =
      appendSection (options.manifestHeader (Registry.ofRoots roots))
        (options.manifest (shownModels policy .manifest roots)) := by
  simp only [run, pass_fst]

theorem counts_run (options : Emit.Options) (policy : Policy) (roots : List Root) :
    (run options policy roots).stats.clients = (Tour.ofRoots roots).services.length ∧
    (run options policy roots).stats.servers = (Tour.ofRoots roots).services.length ∧
    (run options policy roots).stats.manifestEntries = (Tour.ofRoots roots).services.length := by
  simp only [run, pass_fst, length_shownModels, and_self]

/-! ## Tours on which no name is taken -/

/-- The services of a forest, in the order in which a tour meets them. -/
theorem filterMap_postorderAll (nodes : List Node) :
    (postorderAll nodes).filterMap Node.service? = servicesAll nodes := by
  induction nodes using forest_induction with
  | nil => rfl
  | scope kind name fullName children rest ihChildren ih =>
    rw [postorderAll, postorder, List.filterMap_append, List.filterMap_append, ihChildren, ih,
      servicesAll, Node.services]
    exact congrArg (· ++ servicesAll rest) (List.append_nil _)
  | enum name fullName rest ih =>
    rw [postorderAll, postorder, List.filterMap_append, ih, servicesAll, Node.services]
    rfl
  | service s rest ih =>
    rw [postorderAll, postorder, List.filterMap_append, ih, servicesAll, Node.services]
    rfl

/-- A tour meets the nodes that a listing from the outside in has, in another order. -/
theorem perm_postorderAll (nodes : List Node) : (postorderAll nodes).Perm (preorderAll nodes) := by
  induction nodes using forest_induction with
  | nil => exact .nil
  | scope kind name fullName children rest ihChildren ih =>
    refine List.Perm.append ?_ ih
    exact List.perm_append_comm.trans (ihChildren.cons _)
  | enum name fullName rest ih => exact ih.cons _
  | service s rest ih => exact ih.cons _

namespace Tour

theorem services_foldl_meet {xs : List Node} {t : Tour} (hnodup : (xs.map Node.fullName).Nodup)
    (hunseen : ∀ n ∈ xs, n.fullName ∉ t.seen) :
    (xs.foldl meet t).services = t.services ++ xs.filterMap Node.service? := by
  induction xs generalizing t with
  | nil => exact (List.append_nil _).symm
  | cons n xs ih =>
    obtain ⟨hn, hxs⟩ := List.nodup_cons.mp hnodup
    have hmeet := meet_of_unseen (hunseen n (List.mem_cons_self ..))
    -- the rest stays unseen, since only the name of `n` is noted
    have hrest : ∀ m ∈ xs, m.fullName ∉ (t.meet n).seen := by
      intro m hm hseen
      rw [hmeet] at hseen
      rcases List.mem_cons.mp hseen with heq | hseen
      · exact hn (heq ▸ List.mem_map_of_mem hm)
      · exact hunseen m (List.mem_cons_of_mem _ hm) hseen
    rw [List.foldl_cons, ih hxs hrest, hmeet, List.filterMap_cons, List.append_assoc]
    cases n.service? <;> rfl

/-- **Where no two nodes have one full name, a tour visits every service.** -/
theorem services_of_nodup {r : Root} (h : ((preorderAll r.nodes).map Node.fullName).Nodup) :
    (ofRoots [r]).services = servicesAll r.nodes := by
  have hnodup : ((postorderAll r.nodes).map Node.fullName).Nodup :=
    ((perm_postorderAll r.nodes).map Node.fullName).nodup_iff.mpr h
  have hmet : met [r] = postorderAll r.nodes := List.append_nil _
  rw [ofRoots_eq_foldl, hmet, services_foldl_meet hnodup fun _ _ => List.not_mem_nil,
    filterMap_postorderAll]
  rfl

end Tour

/-! ## Agreement -/

/-- **The three generators agree, and none emits a service twice.**  Whatever the passes before
have reported, every pass has the same services in the same order, with the same names, methods
and omissions, and no full name occurs twice among them.  The counts of a run are their number.
When the run is over one schema that is loaded from sources alone, they are all services of the
schema, in the order of a depth-first listing that puts a scope behind what it holds. -/
theorem generators_agree (options : Emit.Options) (policy : Policy) (roots : List Root) :
    (∀ role role' j j',
      (pass policy role roots j).1.map servicePart =
        (pass policy role' roots j').1.map servicePart) ∧
    (∀ role j, ((pass policy role roots j).1.map ServiceModel.fullName).Nodup) ∧
    (∀ role j,
      (run options policy roots).stats.clients = (pass policy role roots j).1.length ∧
      (run options policy roots).stats.servers = (pass policy role roots j).1.length ∧
      (run options policy roots).stats.manifestEntries = (pass policy role roots j).1.length) ∧
    ∀ (disk : Store) (includes : List Path) (entry : Path) (l : Loading),
      load disk includes entry = .ok l →
      (∀ p ∈ l.root.files, Path.hasExtension p "json" = false) →
      ∀ r ∈ [l.root, l.root.resolve], roots = [r] →
        servicesAll r.nodes = (postorderAll r.nodes).filterMap Node.service? ∧
        (servicesAll r.nodes).Nodup ∧
        ∀ role j, (pass policy role roots j).1 =
          (servicesAll r.nodes).map fun s => policy.shown (.ofService role s) := by
  refine ⟨?_, ?_, ?_, ?_⟩
  · intro role role' j j'
    exact servicePart_pass policy role role' roots j j'
  · intro role j
    exact nodup_pass policy role roots j
  · intro role j
    rw [pass_fst, length_shownModels]
    exact counts_run options policy roots
  · rintro disk includes entry l hload hsources r hr rfl
    have horderly : r.Orderly := by
      rcases List.mem_cons.mp hr with rfl | hr
      · exact orderly_load hload hsources
      · rw [List.mem_singleton.mp hr]
        exact (orderly_load hload hsources).resolve
    have hservices := Tour.services_of_nodup horderly.nodup_fullNames
    refine ⟨(filterMap_postorderAll r.nodes).symm, ?_, fun role j => ?_⟩
    · have hnames := Tour.nodup_services [r]
      rw [hservices] at hnames
      exact hnames.of_map
    · rw [pass_fst, shownModels, hservices]

/-- A service in a package, and one in a package inside of it that another file declares. -/
def packageInPackage : Store :=
  { entries :=
      [(["a.proto"],
        .file (.text ("import \"b.proto\"; package p; " ++
          "service Outer \x7b rpc Call (q.M) returns (Missing); \x7d"))),
       (["b.proto"],
        .file (.text ("package p.q; message M \x7b\x7d " ++
          "service Inner \x7b rpc Call (M) returns (M); \x7d")))] }

theorem generators_agree_packageInPackage :
    ∃ l, load packageInPackage [] "a.proto" = .ok l ∧
      (∀ p ∈ l.root.files, Path.hasExtension p "json" = false) ∧
      (servicesAll l.root.resolve.nodes).map Service.fullName = [".p.q.Inner", ".p.Outer"] ∧
      ∀ role j, (pass .warn role [l.root.resolve] j).1 =
        (servicesAll l.root.resolve.nodes).map fun s =>
          Policy.shown .warn (.ofService role s) := by
  have hrun : ((load packageInPackage [] "a.proto").toOption.any fun l =>
      (l.root.files.all fun p => !Path.hasExtension p "json") &&
        (servicesAll l.root.resolve.nodes).map Service.fullName ==
          [".p.q.Inner", ".p.Outer"]) = true := by
    decide +kernel
  obtain ⟨l, hload, hl⟩ := exists_ok_of_any hrun
  simp only [Bool.and_eq_true, List.all_eq_true, Bool.not_eq_true', beq_iff_eq] at hl
  obtain ⟨hsources, hnames⟩ := hl
  obtain ⟨-, -, -, hsingle⟩ := generators_agree {} .warn [l.root.resolve]
  have hr : l.root.resolve ∈ [l.root, l.root.resolve] :=
    List.mem_cons_of_mem _ (List.mem_singleton.mpr rfl)
  obtain ⟨-, -, hpass⟩ := hsingle packageInPackage [] "a.proto" l hload hsources _ hr rfl
  exact ⟨l, hload, hsources, hnames, hpass⟩

end RpcBindings.Generate

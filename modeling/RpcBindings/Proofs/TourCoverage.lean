import RpcBindings.Generate.Run
import RpcBindings.Proofs.Forest
import RpcBindings.Schema.Load

/-! # Which services a tour visits

A tour notes the full name of every node it meets, whatever the node is, and visits a
service only if its name has not been noted.  So it is the *first* node of a name that
decides whether the name is generated: when that node is a service, the service is visited,
and when it is not, every service of that name is passed over.  `mem_services_iff` says so
for the tour and `keepsServices_iff` for the models of a generator.

Within one schema the nodes of a name can be told apart by what they are, but schemas loaded
from different entry files share nothing: one may declare a message where another declares a
service.  `loses_service_behind_message` is such a pair of files.
-/
namespace RpcBindings.Generate

open RpcBindings.Binding
open RpcBindings.Disk (Store)
open RpcBindings.Schema

mutual

/-- The nodes below a node and then the node, in the order in which a tour meets them. -/
def postorder : Node → List Node
  | .scope kind name fullName children =>
    postorderAll children ++ [.scope kind name fullName children]
  | .enum name fullName => [.enum name fullName]
  | .service s => [.service s]

/-- The nodes of a forest in the order in which a tour meets them. -/
def postorderAll : List Node → List Node
  | [] => []
  | n :: ns => postorder n ++ postorderAll ns

end

/-- The nodes of schemas in the order in which a tour meets them. -/
def met (roots : List Root) : List Node :=
  roots.flatMap fun r => postorderAll r.nodes

theorem mem_servicesAll_of_met {roots : List Root} {s : Service} (h : .service s ∈ met roots) :
    ∃ r ∈ roots, s ∈ servicesAll r.nodes := by
  obtain ⟨r, hr, hmem⟩ := List.mem_flatMap.mp h
  refine ⟨r, hr, ?_⟩
  generalize r.nodes = nodes at hmem
  induction nodes using forest_induction with
  | nil => cases hmem
  | scope kind name fullName children rest ihChildren ih =>
    rw [servicesAll, List.mem_append]
    simp only [postorderAll, postorder, List.mem_append, List.mem_singleton, reduceCtorEq,
      or_false] at hmem
    exact hmem.imp ihChildren ih
  | enum name fullName rest ih =>
    rw [servicesAll, List.mem_append]
    simp only [postorderAll, postorder, List.mem_append, List.mem_singleton, reduceCtorEq,
      false_or] at hmem
    exact Or.inr (ih hmem)
  | service s' rest ih =>
    rw [servicesAll, List.mem_append]
    simp only [postorderAll, postorder, List.mem_append, List.mem_singleton,
      Node.service.injEq] at hmem
    exact hmem.imp (fun he => List.mem_singleton.mpr he) ih

namespace Tour

/-- A tour of a forest meets its nodes one after the other. -/
theorem nodes_eq_foldl (t : Tour) (ns : List Node) :
    t.nodes ns = (postorderAll ns).foldl meet t := by
  induction ns using forest_induction generalizing t with
  | nil => rfl
  | scope kind name fullName children rest ihChildren ih =>
    rw [nodes, node, ih, ihChildren, postorderAll, postorder, List.foldl_append,
      List.foldl_append, List.foldl_cons, List.foldl_nil]
  | enum name fullName rest ih => rw [nodes, node, ih]; rfl
  | service s rest ih => rw [nodes, node, ih]; rfl

theorem ofRoots_eq_foldl (roots : List Root) : ofRoots roots = (met roots).foldl meet {} := by
  have general : ∀ t : Tour, roots.foldl root t = (met roots).foldl meet t := by
    induction roots with
    | nil => exact fun _ => rfl
    | cons r roots ih =>
      intro t
      rw [List.foldl_cons, ih, root, nodes_eq_foldl, ← List.foldl_append]
      rfl
  exact general {}

/-! ## One meeting, and a run of meetings -/

theorem meet_of_seen {t : Tour} {n : Node} (h : n.fullName ∈ t.seen) : t.meet n = t := by
  rw [meet, hasSeen, if_pos (List.contains_iff_mem.mpr h)]

theorem meet_of_unseen {t : Tour} {n : Node} (h : n.fullName ∉ t.seen) :
    t.meet n = ⟨n.fullName :: t.seen, t.services ++ n.service?.toList⟩ := by
  rw [meet, hasSeen, if_neg (fun hc => h (List.contains_iff_mem.mp hc))]

/-- What holds after the nodes `xs` have been met: exactly their names are noted, and a
service has been visited when it is the first of them with its name. -/
structure After (xs : List Node) (t : Tour) : Prop where
  seen_iff : ∀ name, name ∈ t.seen ↔ name ∈ xs.map Node.fullName
  services_iff : ∀ s, s ∈ t.services ↔
    xs.find? (fun n => n.fullName == s.fullName) = some (.service s)

theorem After.nil : After [] {} := by
  constructor <;> simp

theorem After.meet {xs : List Node} {t : Tour} (h : After xs t) (n : Node) :
    After (xs ++ [n]) (t.meet n) := by
  by_cases hn : n.fullName ∈ t.seen
  · rw [meet_of_seen hn]
    have hxs := (h.seen_iff n.fullName).mp hn
    constructor
    · intro name
      rw [h.seen_iff, List.map_append, List.mem_append, List.map_singleton, List.mem_singleton]
      exact ⟨Or.inl, fun hname => hname.elim id fun he => he ▸ hxs⟩
    · intro s
      rw [h.services_iff, List.find?_append]
      obtain ⟨m, hm, hmn⟩ := List.mem_map.mp hxs
      by_cases hs : n.fullName = s.fullName
      · -- an earlier node has the name already, so the search ends before `n`
        have hsome : (xs.find? fun n => n.fullName == s.fullName).isSome :=
          List.find?_isSome.mpr ⟨m, hm, by rw [hmn, hs, beq_self_eq_true]⟩
        obtain ⟨first, hfirst⟩ := Option.isSome_iff_exists.mp hsome
        rw [hfirst, Option.some_or]
      · rw [List.find?_singleton, if_neg (by simpa using hs), Option.or_none]
  · rw [meet_of_unseen hn]
    have hxs : n.fullName ∉ xs.map Node.fullName := fun hc => hn ((h.seen_iff _).mpr hc)
    constructor
    · intro name
      rw [List.mem_cons, h.seen_iff, List.map_append, List.mem_append, List.map_singleton,
        List.mem_singleton, or_comm]
    · intro s
      rw [List.mem_append, h.services_iff, List.find?_append]
      by_cases hs : n.fullName = s.fullName
      · -- no earlier node has the name, so `n` is the first
        have hnone : (xs.find? fun n => n.fullName == s.fullName) = none := by
          rw [List.find?_eq_none]
          intro m hm hbeq
          exact hxs (hs ▸ List.mem_map.mpr ⟨m, hm, eq_of_beq hbeq⟩)
        rw [hnone, Option.none_or, List.find?_singleton, if_pos (by simpa using hs)]
        cases n <;> simp [Node.service?, eq_comm]
      · rw [List.find?_singleton, if_neg (by simpa using hs), Option.or_none]
        refine ⟨fun hor => hor.elim id fun hmem => absurd ?_ hs, Or.inl⟩
        cases n with
        | scope => cases hmem
        | enum => cases hmem
        | service s' => exact congrArg Service.fullName (List.mem_singleton.mp hmem).symm

theorem After.foldl {xs : List Node} {t : Tour} (h : After xs t) (ys : List Node) :
    After (xs ++ ys) (ys.foldl Tour.meet t) := by
  induction ys generalizing xs t with
  | nil => rwa [List.append_nil]
  | cons y ys ih =>
    rw [List.append_cons]
    exact ih (h.meet y)

/-- **A tour visits a service exactly when no node of its name is met before it.** -/
theorem mem_services_iff (roots : List Root) (s : Service) :
    s ∈ (ofRoots roots).services ↔
      (met roots).find? (fun n => n.fullName == s.fullName) = some (.service s) := by
  rw [ofRoots_eq_foldl]
  exact (After.nil.foldl (met roots)).services_iff s

theorem mem_servicesAll {roots : List Root} {s : Service} (h : s ∈ (ofRoots roots).services) :
    ∃ r ∈ roots, s ∈ servicesAll r.nodes :=
  mem_servicesAll_of_met (List.mem_of_find?_eq_some ((mem_services_iff roots s).mp h))

/-- What keeps a tour from visiting a service twice: the names of those it has visited are
noted. -/
structure Once (t : Tour) : Prop where
  noted : ∀ s ∈ t.services, s.fullName ∈ t.seen
  nodup : (t.services.map Service.fullName).Nodup

theorem Once.start : Once {} := by
  constructor <;> simp

theorem Once.meet {t : Tour} (h : Once t) (n : Node) : Once (t.meet n) := by
  by_cases hn : n.fullName ∈ t.seen
  · rwa [meet_of_seen hn]
  · rw [meet_of_unseen hn]
    cases n with
    | service s =>
      have hfresh : ∀ s' ∈ t.services, s'.fullName ≠ s.fullName := by
        intro s' hs' he
        have hnoted := h.noted s' hs'
        rw [he] at hnoted
        exact hn hnoted
      constructor
      · intro s' hs'
        rcases List.mem_append.mp hs' with hs' | hs'
        · exact List.mem_cons_of_mem _ (h.noted s' hs')
        · rw [List.mem_singleton.mp hs']
          exact List.mem_cons_self ..
      · refine List.pairwise_map.mpr (List.pairwise_append.mpr ?_)
        refine ⟨List.pairwise_map.mp h.nodup, List.pairwise_singleton _ _, ?_⟩
        intro s' hs' s'' hs''
        rw [List.mem_singleton.mp hs'']
        exact hfresh s' hs'
    | scope | enum =>
      -- nothing is visited
      simp only [Node.service?, Option.toList_none, List.append_nil]
      exact ⟨fun s hs => List.mem_cons_of_mem _ (h.noted s hs), h.nodup⟩

/-- **A tour visits no full name twice.** -/
theorem nodup_services (roots : List Root) :
    ((ofRoots roots).services.map Service.fullName).Nodup := by
  rw [ofRoots_eq_foldl]
  have general : ∀ (ns : List Node) (t : Tour), Once t → Once (ns.foldl Tour.meet t) := by
    intro ns
    induction ns with
    | nil => exact fun _ ht => ht
    | cons n ns ih => exact fun t ht => ih _ (ht.meet n)
  exact (general (met roots) {} Once.start).nodup

end Tour

/-! ## The models of a generator -/

/-- The first node of a name that a tour meets. -/
def first? (roots : List Root) (name : String) : Option Node :=
  (met roots).find? fun n => n.fullName == name

theorem fullName_shown (policy : Policy) (m : ServiceModel) :
    (policy.shown m).fullName = m.fullName := by
  unfold Policy.shown
  split <;> rfl

theorem mem_pass_iff {policy : Policy} {role : Role} {roots : List Root} {j : Journal}
    {m : ServiceModel} :
    m ∈ (pass policy role roots j).1 ↔
      ∃ s ∈ (Tour.ofRoots roots).services, policy.shown (.ofService role s) = m := by
  simp only [pass, modelsFor, List.mem_map]
  constructor
  · rintro ⟨_, ⟨s, hs, rfl⟩, rfl⟩
    exact ⟨s, hs, rfl⟩
  · rintro ⟨s, hs, rfl⟩
    exact ⟨_, ⟨s, hs, rfl⟩, rfl⟩

/-- A name is the name of a model exactly when the first node of that name is a service. -/
theorem exists_model_iff (policy : Policy) (role : Role) (roots : List Root) (j : Journal)
    (name : String) :
    (∃ m ∈ (pass policy role roots j).1, m.fullName = name) ↔
      ∃ s, first? roots name = some (.service s) := by
  constructor
  · rintro ⟨m, hm, rfl⟩
    obtain ⟨s, hs, rfl⟩ := mem_pass_iff.mp hm
    rw [fullName_shown]
    exact ⟨s, (Tour.mem_services_iff roots s).mp hs⟩
  · rintro ⟨s, hs⟩
    have hname : s.fullName = name := by
      have hbeq := List.find?_some hs
      exact eq_of_beq hbeq
    subst hname
    have hvisited := (Tour.mem_services_iff roots s).mpr hs
    exact ⟨_, mem_pass_iff.mpr ⟨s, hvisited, rfl⟩, fullName_shown _ _⟩

/-- No service is lost: every full name that a service carries is the name of a model. -/
def KeepsServices (policy : Policy) (role : Role) (roots : List Root) (j : Journal) : Prop :=
  ∀ r ∈ roots, ∀ s ∈ servicesAll r.nodes, ∃ m ∈ (pass policy role roots j).1,
    m.fullName = s.fullName

/-- **A generator keeps all services exactly when no other node takes their names first**:
of the nodes that carry the name of a service, the one that is met first has to be a
service.  This holds for schemas of every origin, for every generator and every policy. -/
theorem keepsServices_iff (policy : Policy) (role : Role) (roots : List Root) (j : Journal) :
    KeepsServices policy role roots j ↔
      ∀ r ∈ roots, ∀ s ∈ servicesAll r.nodes,
        ∃ s', first? roots s.fullName = some (.service s') := by
  constructor
  · intro h r hr s hs
    exact (exists_model_iff policy role roots j s.fullName).mp (h r hr s hs)
  · intro h r hr s hs
    exact (exists_model_iff policy role roots j s.fullName).mpr (h r hr s hs)

/-- Two entry files of one package: `X` is a message in the first and a service in the
second. -/
def messageThenService : Store :=
  { entries :=
      [(["a.proto"], .file (.text "package p; message X \x7b\x7d")),
       (["b.proto"],
        .file (.text "package p; message M \x7b\x7d service X \x7b rpc Call (M) returns (M); \x7d"))] }

/-- The service is loaded, and no generator has a model of it. -/
theorem loses_service_behind_message :
    ∃ roots events,
      loadAll messageThenService [] ["a.proto", "b.proto"] = .ok (roots, events) ∧
      ∃ r ∈ roots, ∃ s ∈ servicesAll r.nodes, s.fullName = ".p.X" ∧
        ∀ policy role j, ∀ m ∈ (pass policy role roots j).1, m.fullName ≠ s.fullName := by
  have hrun : ((loadAll messageThenService [] ["a.proto", "b.proto"]).toOption.any
      fun (roots, _) =>
        (roots.any fun r => (servicesAll r.nodes).any fun s => s.fullName == ".p.X") &&
          (first? roots ".p.X").any fun n => n.service?.isNone) = true := by
    decide +kernel
  cases hload : loadAll messageThenService [] ["a.proto", "b.proto"] with
  | error e =>
    rw [hload] at hrun
    cases hrun
  | ok result =>
    obtain ⟨roots, events⟩ := result
    rw [hload] at hrun
    simp only [Except.toOption, Option.any_some, Bool.and_eq_true, List.any_eq_true,
      beq_iff_eq] at hrun
    obtain ⟨⟨r, hr, s, hs, hname⟩, hfirst⟩ := hrun
    refine ⟨roots, events, rfl, r, hr, s, hs, hname, ?_⟩
    intro policy role j m hm he
    obtain ⟨s', hs'⟩ := (exists_model_iff policy role roots j ".p.X").mp ⟨m, hm, he.trans hname⟩
    rw [hs'] at hfirst
    cases hfirst

end RpcBindings.Generate

import Mathlib.Data.List.Nodup
import RpcBindings.Proofs.Runs
import RpcBindings.Proofs.TourCoverage

/-! # The classes of a bindings file

A bindings file exports a client class and a server class for every service of the run.  The
services are told apart by their full names, but a class is called after the last segment
alone, so two packages that each declare a service `S` give two classes `SClient`.  Which runs
are affected is exactly known: the classes have names of their own if and only if no two
generated services of different full names share their last segment (`distinctClasses_iff`).
The suffixes cause no trouble, since a client and a server never end alike.
-/
namespace RpcBindings.Generate

open RpcBindings.Binding
open RpcBindings.Disk (Store)
open RpcBindings.Emit
open RpcBindings.Schema
open RpcBindings.TypeScript (ClassDecl)

/-- The classes that the bindings of a run export: the clients, and behind them the
servers. -/
def exportedClasses (policy : Policy) (roots : List Root) : List ClassDecl :=
  let (clients, j) := pass policy .client roots {}
  let (servers, _) := pass policy .server roots j
  clients.map Client.classOf ++ servers.map Server.classOf

/-! ## The name of a class -/

theorem name_addBlank (c : ClassDecl) : c.addBlank.name = c.name := by
  unfold ClassDecl.addBlank
  split <;> rfl

theorem name_foldl {α : Type} {f : ClassDecl → α → ClassDecl}
    (hf : ∀ c x, (f c x).name = c.name) (xs : List α) (c : ClassDecl) :
    (xs.foldl f c).name = c.name := by
  induction xs generalizing c with
  | nil => rfl
  | cons x xs ih => rw [List.foldl_cons, ih, hf]

theorem name_addField (c : ClassDecl) (declaration : String) :
    (c.addField declaration).name = c.name := rfl

theorem name_addBlank_addMethod (c : ClassDecl) (m : TypeScript.Method) :
    (c.addBlank.addMethod m).name = c.name :=
  name_addBlank c

theorem name_addBlank_addComment (c : ClassDecl) (text : String) :
    (c.addBlank.addComment text).name = c.name :=
  name_addBlank c

/-- No member that is added to a class changes its name. -/
theorem name_class (start : ClassDecl) (service : ServiceModel) (first : TypeScript.Method)
    (method : Endpoint → TypeScript.Method) :
    (service.omissions.foldl (fun c o => c.addBlank.addComment (omissionComment o))
      (service.endpoints.foldl (fun c e => c.addBlank.addMethod (method e))
        ((service.codecs.codecs.foldl (fun c codec => c.addField (codecField codec))
          start).addBlank.addMethod first))).name = start.name := by
  rw [name_foldl fun c o => name_addBlank_addComment c (omissionComment o),
    name_foldl fun c e => name_addBlank_addMethod c (method e), name_addBlank_addMethod]
  exact name_foldl (fun c codec => name_addField c (codecField codec)) _ _

theorem name_shown (policy : Policy) (m : ServiceModel) : (policy.shown m).name = m.name := by
  unfold Policy.shown
  split <;> rfl

/-- The names of the exported classes, read off the services of the tour. -/
theorem names_exportedClasses (policy : Policy) (roots : List Root) :
    (exportedClasses policy roots).map ClassDecl.name =
      (Tour.ofRoots roots).services.map (fun s => s.name ++ "Client") ++
        (Tour.ofRoots roots).services.map (fun s => s.name ++ "Server") := by
  simp only [exportedClasses, pass, modelsFor, List.map_append, List.map_map]
  congr 1
  · refine List.map_congr_left fun s _ => (name_class _ _ _ _).trans ?_
    exact congrArg (· ++ "Client") (name_shown policy (.ofService .client s))
  · refine List.map_congr_left fun s _ => (name_class _ _ _ _).trans ?_
    exact congrArg (· ++ "Server") (name_shown policy (.ofService .server s))

/-! ## Names that are told apart -/

/-- A client and a server class never have one name: they differ in the last letter. -/
theorem client_ne_server (a b : String) : a ++ "Client" ≠ b ++ "Server" := by
  intro he
  have hlast := congrArg (fun s : String => s.toList.getLast?) he
  simp at hlast

theorem nodup_suffixed_iff (names : List String) :
    (names.map (· ++ "Client") ++ names.map (· ++ "Server")).Nodup ↔ names.Nodup := by
  constructor
  · intro h
    exact (List.nodup_append.mp h).1.of_map
  · intro h
    refine List.nodup_append.mpr ⟨h.map fun a b he => (String.append_left_inj _).mp he,
      h.map fun a b he => (String.append_left_inj _).mp he, ?_⟩
    intro a ha b hb hab
    obtain ⟨x, _, rfl⟩ := List.mem_map.mp ha
    obtain ⟨y, _, rfl⟩ := List.mem_map.mp hb
    exact client_ne_server x y hab

/-- **The classes of a run have names of their own exactly when its services do**: of the
services that are generated, those of one last segment have one full name.  This holds for
schemas of every origin and for every policy. -/
theorem distinctClasses_iff (policy : Policy) (roots : List Root) :
    ((exportedClasses policy roots).map ClassDecl.name).Nodup ↔
      ∀ s s' : Service, first? roots s.fullName = some (.service s) →
        first? roots s'.fullName = some (.service s') → s.name = s'.name →
          s.fullName = s'.fullName := by
  have hnames : (exportedClasses policy roots).map ClassDecl.name =
      ((Tour.ofRoots roots).services.map Service.name).map (· ++ "Client") ++
        ((Tour.ofRoots roots).services.map Service.name).map (· ++ "Server") := by
    rw [names_exportedClasses, List.map_map, List.map_map]
    rfl
  rw [hnames, nodup_suffixed_iff]
  constructor
  · intro hnodup s s' hs hs' hname
    have hmem := (Tour.mem_services_iff roots s).mpr hs
    have hmem' := (Tour.mem_services_iff roots s').mpr hs'
    exact congrArg Service.fullName (List.inj_on_of_nodup_map hnodup hmem hmem' hname)
  · intro hnamed
    -- the tour visits no full name twice, so two services of one name would have two
    refine List.pairwise_map.mpr ?_
    refine (List.pairwise_map.mp (Tour.nodup_services roots)).imp_of_mem ?_
    intro s s' hs hs' hne hname
    exact hne (hnamed s s' ((Tour.mem_services_iff roots s).mp hs)
      ((Tour.mem_services_iff roots s').mp hs') hname)

/-- Two packages that declare a service of one name, each in an entry file of its own. -/
def serviceTwins : Store :=
  { entries :=
      [(["a.proto"],
        .file (.text "package a; message M \x7b\x7d service S \x7b rpc Call (M) returns (M); \x7d")),
       (["b.proto"],
        .file (.text "package b; message M \x7b\x7d service S \x7b rpc Call (M) returns (M); \x7d"))] }

/-- The bindings of the two export each of their classes twice. -/
theorem repeats_classes_of_serviceTwins :
    ∃ roots events, loadAll serviceTwins [] ["a.proto", "b.proto"] = .ok (roots, events) ∧
      ∀ policy,
        (exportedClasses policy roots).map ClassDecl.name =
          ["SClient", "SClient", "SServer", "SServer"] ∧
        ¬ ((exportedClasses policy roots).map ClassDecl.name).Nodup := by
  have hrun : ((loadAll serviceTwins [] ["a.proto", "b.proto"]).toOption.any fun (roots, _) =>
      (Tour.ofRoots roots).services.map Service.name == ["S", "S"]) = true := by
    decide +kernel
  obtain ⟨⟨roots, events⟩, hload, hservices⟩ := exists_ok_of_any hrun
  have hservices : (Tour.ofRoots roots).services.map Service.name = ["S", "S"] :=
    eq_of_beq hservices
  refine ⟨roots, events, hload, fun policy => ?_⟩
  have hnames : (exportedClasses policy roots).map ClassDecl.name =
      ["SClient", "SClient", "SServer", "SServer"] := by
    rw [names_exportedClasses]
    have hclients := congrArg (List.map (· ++ "Client")) hservices
    have hservers := congrArg (List.map (· ++ "Server")) hservices
    rw [List.map_map] at hclients hservers
    exact congrArg₂ (· ++ ·) hclients hservers
  refine ⟨hnames, ?_⟩
  rw [hnames]
  decide

end RpcBindings.Generate

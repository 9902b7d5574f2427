import RpcBindings.Proofs.LoadRuns
import RpcBindings.Proofs.Resolution
import RpcBindings.Proofs.SourceNames

/-! # Nodes are named by their paths

A node that comes from a source carries as its full name the path that leads to it, and no
segment of that path holds a dot.  So names are unambiguous: a path can be read off a full
name.  The forest of every source has this property, a merge adds nodes of such forests
only, and looking up types changes no name; hence every schema that is loaded from sources
alone has it (`Root.named_of_loadAll`).  A JSON document can name its nodes with dots, so
nothing of the kind is said about one.
-/
namespace RpcBindings.Schema

open RpcBindings.Disk
open RpcBindings.Proto (Decl File Span declNames)

/-- The full name of the node is the path to it, seen from the scope `scope`. -/
structure Placed.Named (scope : String) (a : Placed) : Prop where
  fullName_eq : a.node.fullName = a.path.foldl Name.member scope
  dotFree : ∀ segment ∈ a.path, Name.DotFree segment

theorem Placed.Named.below {scope name : String} {a : Placed}
    (h : a.Named (Name.member scope name)) (hname : Name.DotFree name) :
    (a.below name).Named scope := by
  refine ⟨h.fullName_eq, ?_⟩
  intro segment hsegment
  rcases List.mem_cons.mp hsegment with rfl | hsegment
  · exact hname
  · exact h.dotFree segment hsegment

theorem named_here {scope name : String} {n : Node} (hname : Name.DotFree name)
    (hfull : n.fullName = Name.member scope name) : Placed.Named scope ⟨[name], n⟩ := by
  refine ⟨hfull, fun segment hsegment => ?_⟩
  rwa [List.mem_singleton.mp hsegment]

theorem named_scope {kind : ScopeKind} {scope name : String} {children : List Node}
    (hname : Name.DotFree name)
    (hchildren : ∀ a ∈ placedAll children, a.Named (Name.member scope name)) :
    ∀ a ∈ (Node.scope kind name (Name.member scope name) children).placed, a.Named scope := by
  intro a ha
  rcases mem_placed_scope.mp ha with rfl | ⟨b, hb, rfl⟩
  · exact named_here hname rfl
  · exact (hchildren b hb).below hname

/-! ## Sources -/

/-- Declarations are named by their paths, seen from the scope they are declared in. -/
theorem named_declNodes {parent : String} {ds : List Decl}
    (h : ∀ n ∈ declNames ds, Name.DotFree n) :
    ∀ a ∈ placedAll (declNodes parent ds), a.Named parent := by
  induction ds using decl_induction generalizing parent with
  | nil => exact fun a ha => nomatch ha
  | message name members rest ihMembers ih =>
    have hname : Name.DotFree name := h name (List.mem_append_left _ (List.mem_cons_self ..))
    have hmembers := @ihMembers (Name.member parent name) fun n hn =>
      h n (List.mem_append_left _ (List.mem_cons_of_mem _ hn))
    intro a ha
    rcases List.mem_append.mp ha with ha | ha
    · exact named_scope hname hmembers a ha
    · exact ih (fun n hn => h n (List.mem_append_right _ hn)) a ha
  | enum name rest ih =>
    intro a ha
    rcases List.mem_append.mp ha with ha | ha
    · rw [List.mem_singleton.mp ha]
      exact named_here (h name (List.mem_append_left _ (List.mem_cons_self ..))) rfl
    · exact ih (fun n hn => h n (List.mem_append_right _ hn)) a ha
  | service name methods rest ih =>
    intro a ha
    rcases List.mem_append.mp ha with ha | ha
    · rw [List.mem_singleton.mp ha]
      exact named_here (h name (List.mem_append_left _ (List.mem_cons_self ..))) rfl
    · exact ih (fun n hn => h n (List.mem_append_right _ hn)) a ha

theorem named_nest {scope : String} {inner : List Node} {path : List String}
    (hpath : ∀ segment ∈ path, Name.DotFree segment)
    (hinner : ∀ a ∈ placedAll inner, a.Named (path.foldl Name.member scope)) :
    ∀ a ∈ placedAll (nest scope inner path), a.Named scope := by
  induction path generalizing scope with
  | nil => exact hinner
  | cons name rest ih =>
    intro a ha
    rw [nest, placedAll_singleton] at ha
    refine named_scope (hpath name (List.mem_cons_self ..)) ?_ a ha
    exact ih (fun segment hsegment => hpath segment (List.mem_cons_of_mem _ hsegment)) hinner

/-- **The forest of a source is named by its paths.** -/
theorem named_sourceForest {source : String} {file : File Span}
    (h : Proto.parse source = .ok file) :
    ∀ a ∈ placedAll (sourceForest file), a.Named "" := by
  obtain ⟨hnames, hpackage⟩ := Proto.names_of_parse h
  exact named_nest hpackage (named_declNodes fun n hn => (hnames n hn).dotFree)

theorem named_forestAt {disk : Store} {path : Path} (hjson : path.hasExtension "json" = false) :
    ∀ a ∈ placedAll (forestAt disk path), a.Named "" := by
  intro a ha
  unfold forestAt at ha
  split at ha
  · next file hsource =>
    rw [sourceAt, if_neg (by rw [hjson]; exact Bool.false_ne_true)] at hsource
    obtain ⟨text, _, hparse⟩ := Option.bind_eq_some_iff.mp hsource
    cases hfile : Proto.parse text with
    | error e =>
      rw [hfile] at hparse
      cases hparse
    | ok file' =>
      rw [hfile] at hparse
      cases hparse
      exact named_sourceForest hfile a ha
  · -- no source, and no document either: the file describes nothing
    rw [documentAt, if_neg (by rw [hjson]; exact Bool.false_ne_true)] at ha
    cases ha

/-! ## Schemas -/

/-- Every node of the schema is named by its path. -/
def Root.Named (r : Root) : Prop :=
  ∀ a ∈ placedAll r.nodes, a.Named ""

theorem Root.Named.resolve {r : Root} (h : r.Named) : r.resolve.Named := by
  intro a ha
  rw [Root.resolve, placedAll_resolveNodes] at ha
  obtain ⟨b, hb, rfl⟩ := List.mem_map.mp ha
  refine ⟨?_, (h b hb).dotFree⟩
  exact (fullName_resolve _ b.node).trans (h b hb).fullName_eq

theorem Sound.named {disk : Store} {includes : List Path} {entry : Path} {opened : List Path}
    {l : Loading} (h : Sound disk includes entry opened l)
    (hsources : ∀ p ∈ l.root.files, Path.hasExtension p "json" = false) : l.root.Named := by
  intro a ha
  obtain ⟨p, hp, _, hforest⟩ := h.placed a ha
  exact named_forestAt (hsources p hp) a hforest

/-- **Every schema that is loaded from sources alone is named by its paths.** -/
theorem Root.named_of_loadAll {disk : Store} {includes : List Path} {entries : List Path}
    {roots : List Root} {events : List Event}
    (h : loadAll disk includes entries = .ok (roots, events)) {r : Root} (hr : r ∈ roots)
    (hsources : ∀ p ∈ r.files, Path.hasExtension p "json" = false) : r.Named := by
  obtain ⟨entry, _, l, hload, rfl⟩ := exists_load_of_mem h hr
  have hends := sound_load disk includes entry
  rw [hload] at hends
  exact (hends.of_ok.named hsources).resolve

end RpcBindings.Schema

import RpcBindings.Proofs.NodePlaces

/-! # The forest of a document

A document describes a forest, and the entries of an object may repeat a name.  Of two entries
of one name only the later counts, at the place of the earlier, so no scope of the forest holds
two nodes of one name (`tidy_toNodes`).  Full names are put together on the way down, so every
node is named by the path to it (`fullName_toNodes`).
-/
namespace RpcBindings.Schema

open RpcBindings.Proto (Rpc)

namespace Descriptor

/-! ## Entries -/

section Entries
variable {α : Type} {name : α → String} {x y : α} {xs ys : List α}

theorem putBy_of_new (h : name x ∉ xs.map name) : putBy name x xs = xs ++ [x] := by
  induction xs with
  | nil => rfl
  | cons y ys ih =>
    rw [List.map_cons, List.mem_cons, not_or] at h
    rw [putBy, if_neg (by simpa using Ne.symm h.1), ih h.2]
    rfl

theorem mem_putBy (h : y ∈ putBy name x xs) : y = x ∨ y ∈ xs := by
  induction xs with
  | nil => exact Or.inl (List.mem_singleton.mp h)
  | cons z zs ih =>
    rw [putBy] at h
    split at h
    · exact (List.mem_cons.mp h).imp_right (List.mem_cons_of_mem _)
    · rcases List.mem_cons.mp h with rfl | h
      · exact Or.inr (List.mem_cons_self ..)
      · exact (ih h).imp_right (List.mem_cons_of_mem _)

theorem mem_foldl_putBy (h : y ∈ xs.foldl (fun ys x => putBy name x ys) ys) :
    y ∈ xs ∨ y ∈ ys := by
  induction xs generalizing ys with
  | nil => exact Or.inr h
  | cons x xs ih =>
    rcases ih h with h | h
    · exact Or.inl (List.mem_cons_of_mem _ h)
    · rcases mem_putBy h with rfl | h
      · exact Or.inl (List.mem_cons_self ..)
      · exact Or.inr h

theorem nodup_putBy (h : (xs.map name).Nodup) : ((putBy name x xs).map name).Nodup := by
  by_cases hnew : name x ∈ xs.map name
  · have hnames : (putBy name x xs).map name = xs.map name := by
      clear h
      induction xs with
      | nil => cases hnew
      | cons z zs ih =>
        rw [putBy]
        split
        · next hz => rw [List.map_cons, List.map_cons, eq_of_beq hz]
        · next hz =>
          have hne : name x ≠ name z := fun he => hz (beq_iff_eq.mpr he.symm)
          rw [List.map_cons, List.map_cons, ih ((List.mem_cons.mp hnew).resolve_left hne)]
    rwa [hnames]
  · rw [putBy_of_new hnew, List.map_append, List.map_singleton, ← List.concat_eq_append]
    exact h.concat hnew

theorem nodup_foldl_putBy (h : (ys.map name).Nodup) :
    ((xs.foldl (fun ys x => putBy name x ys) ys).map name).Nodup := by
  induction xs generalizing ys with
  | nil => exact h
  | cons x xs ih => exact ih (nodup_putBy h)

/-- Entries of different names stay as they are. -/
theorem foldl_putBy_of_nodup {α : Type} {name : α → String} {xs ys : List α}
    (h : ((ys ++ xs).map name).Nodup) :
    xs.foldl (fun ys x => putBy name x ys) ys = ys ++ xs := by
  induction xs generalizing ys with
  | nil => rw [List.foldl_nil, List.append_nil]
  | cons x xs ih =>
    have hnew : name x ∉ ys.map name := by
      rw [List.map_append, List.map_cons, List.nodup_append] at h
      exact fun hmem => h.2.2 _ hmem _ (List.mem_cons_self ..) rfl
    rw [List.append_cons] at h
    rw [List.foldl_cons, putBy_of_new hnew, ih h, List.append_assoc]
    rfl

theorem mapM_eq_some_map {α β : Type} {f : α → Option β} {g : α → β} {xs : List α}
    (h : ∀ x ∈ xs, f x = some (g x)) : xs.mapM f = some (xs.map g) := by
  induction xs with
  | nil => rfl
  | cons x xs ih =>
    rw [List.mapM_cons, h x (List.mem_cons_self ..), ih fun y hy => h y (List.mem_cons_of_mem _ hy)]
    rfl

theorem exists_of_mem_mapM {β : Type} {f : α → Option β} {zs : List β} {z : β}
    (h : xs.mapM f = some zs) (hz : z ∈ zs) : ∃ x ∈ xs, f x = some z := by
  induction xs generalizing zs with
  | nil =>
    cases h
    cases hz
  | cons x xs ih =>
    rw [List.mapM_cons] at h
    obtain ⟨first, hfirst, h⟩ := Option.bind_eq_some_iff.mp h
    obtain ⟨rest, hrest, h⟩ := Option.bind_eq_some_iff.mp h
    cases h
    rcases List.mem_cons.mp hz with rfl | hz
    · exact ⟨x, List.mem_cons_self .., hfirst⟩
    · obtain ⟨y, hy, hfy⟩ := ih hrest hz
      exact ⟨y, List.mem_cons_of_mem _ hy, hfy⟩

end Entries

/-! ## Keys -/

/-- The nodes that stand under `nested`, when no more than `depth` brackets are open in it. -/
def nestedNodes? (depth : Nat) (nested : Option Json.Value) : Option (List Descriptor) :=
  match given? nested with
  | none => some []
  | some (.object entries) =>
    match depth with
    | 0 => none
    | below + 1 => do
      let ds ← (← Json.keyed? entries).mapM fun e => (keys? below e.2).map (ofKeys e.1)
      some (ds.foldl (fun ys x => putBy Descriptor.name x ys) [])
  | some _ => none

/-- The methods that stand under `methods`, if they are given. -/
def givenMethods? (depth : Nat) (methods : Option Json.Value) : Option (Option (List Rpc)) :=
  match given? methods with
  | none => some none
  | some v => (entries? Rpc.name rpc? depth v).map some

/-- The keys of a node are read one by one. -/
theorem keys?_succ (depth : Nat) (v : Json.Value) :
    keys? (depth + 1) v = (do
      match ← slots? ["nested", "fields", "values", "methods"] v with
      | [nested, fields, values, methods] =>
        let nodes ← nestedNodes? depth nested
        let methods ← givenMethods? depth methods
        return ⟨nodes, ← presence? depth fields, ← presence? depth values, methods⟩
      | _ => none) := by
  rw [keys?]
  refine congrArg _ (funext fun slots => ?_)
  match slots with
  | [nested, fields, values, methods] =>
    dsimp only
    unfold nestedNodes? givenMethods?
    cases given? nested with
    | none => cases given? methods <;> rfl
    | some w =>
      cases w with
      | object entries =>
        cases depth with
        | zero => rfl
        | succ below =>
          dsimp only
          cases Json.keyed? entries with
          | none => rfl
          | some read =>
            simp only [Option.bind_eq_bind, Option.bind_some]
            cases given? methods <;> simp [Option.bind_assoc]
      | _ => rfl
  | [] | [_] | [_, _] | [_, _, _] | _ :: _ :: _ :: _ :: _ :: _ => rfl

theorem exists_nestedNodes? {depth : Nat} {v : Json.Value} {k : Keys}
    (h : keys? (depth + 1) v = some k) : ∃ nested, nestedNodes? depth nested = some k.nested := by
  rw [keys?_succ] at h
  obtain ⟨slots, _, h⟩ := Option.bind_eq_some_iff.mp h
  split at h
  · next nested fields values methods _ =>
    obtain ⟨nodes, hnodes, h⟩ := Option.bind_eq_some_iff.mp h
    obtain ⟨_, _, h⟩ := Option.bind_eq_some_iff.mp h
    obtain ⟨_, _, h⟩ := Option.bind_eq_some_iff.mp h
    obtain ⟨_, _, h⟩ := Option.bind_eq_some_iff.mp h
    cases h
    exact ⟨nested, hnodes⟩
  · cases h

/-- The nodes that stand under `nested` have different names, and each is read from an entry. -/
theorem nestedNodes?_eq_some {depth : Nat} {nested : Option Json.Value} {ds : List Descriptor}
    (h : nestedNodes? depth nested = some ds) :
    (ds.map Descriptor.name).Nodup ∧ ∀ d ∈ ds, ∃ below name v k, below < depth ∧
      keys? below v = some k ∧ d = ofKeys name k := by
  unfold nestedNodes? at h
  split at h
  · cases h
    exact ⟨List.nodup_nil, List.forall_mem_nil _⟩
  · split at h
    · cases h
    · next below =>
      obtain ⟨entries, _, h⟩ := Option.bind_eq_some_iff.mp h
      obtain ⟨read, hread, h⟩ := Option.bind_eq_some_iff.mp h
      cases h
      refine ⟨nodup_foldl_putBy List.nodup_nil, fun d hd => ?_⟩
      have hmem := (mem_foldl_putBy hd).resolve_right List.not_mem_nil
      obtain ⟨e, _, hkeys⟩ := exists_of_mem_mapM hread hmem
      obtain ⟨k, hk, rfl⟩ := Option.map_eq_some_iff.mp hkeys
      exact ⟨below, e.1, e.2, k, Nat.lt_succ_self below, hk, rfl⟩
  · cases h

/-! ## Nodes -/

theorem name_toNode (parent : String) (d : Descriptor) : (toNode parent d).name = d.name := by
  cases d <;> rfl

theorem toNodes_eq_map (parent : String) (ds : List Descriptor) :
    toNodes parent ds = ds.map (toNode parent) := by
  induction ds with
  | nil => rfl
  | cons d ds ih => rw [toNodes, ih, List.map_cons]

/-- What a node holds that is described by keys stands under `nested`, or it holds nothing. -/
theorem children_toNode_ofKeys (parent name : String) (k : Keys) :
    (toNode parent (ofKeys name k)).children = [] ∨
      (toNode parent (ofKeys name k)).children = toNodes (Name.member parent name) k.nested := by
  unfold ofKeys
  split
  · exact Or.inl rfl
  · split
    · exact Or.inr rfl
    · split
      · exact Or.inl rfl
      · exact Or.inr rfl

/-- **The forest of a document is tidy**: of two entries of one name only one is left. -/
theorem tidy_toNodes {depth : Nat} {v : Json.Value} {k : Keys} (h : keys? depth v = some k)
    (parent : String) : Tidy (toNodes parent k.nested) := by
  induction depth using Nat.strongRecOn generalizing v k parent with
  | ind depth ih =>
    cases depth with
    | zero => cases h
    | succ depth =>
      obtain ⟨nested, hnested⟩ := exists_nestedNodes? h
      obtain ⟨hnames, hread⟩ := nestedNodes?_eq_some hnested
      rw [toNodes_eq_map]
      refine .intro ?_ fun n hn => ?_
      · have hsame : Node.name ∘ toNode parent = Descriptor.name := funext (name_toNode parent)
        rwa [List.map_map, hsame]
      · obtain ⟨d, hd, rfl⟩ := List.mem_map.mp hn
        obtain ⟨below, name, w, k', hlt, hk, rfl⟩ := hread d hd
        rcases children_toNode_ofKeys parent name k' with hnil | hchildren
        · rw [hnil]
          exact .nil
        · rw [hchildren]
          exact ih below (by omega) hk (Name.member parent name)

theorem tidy_of_parse? {text : String} {ds : List Descriptor} (h : parse? text = some ds) :
    Tidy (toNodes "" ds) := by
  obtain ⟨v, _, h⟩ := Option.bind_eq_some_iff.mp h
  obtain ⟨k, hk, h⟩ := Option.bind_eq_some_iff.mp h
  cases h
  exact tidy_toNodes hk ""

mutual

theorem fullName_toNode (parent : String) : ∀ (d : Descriptor), ∀ a ∈ (toNode parent d).placed,
    a.node.fullName = a.path.foldl Name.member parent
  | .scope kind name nested => by
    intro a ha
    rw [toNode] at ha
    rcases mem_placed_scope.mp ha with rfl | ⟨b, hb, rfl⟩
    · rfl
    · exact fullName_toNodes (Name.member parent name) nested b hb
  | .enum name => by
    intro a ha
    rw [List.mem_singleton.mp ha]
    rfl
  | .service name methods => by
    intro a ha
    rw [List.mem_singleton.mp ha]
    rfl

/-- The nodes of a document are named by their paths. -/
theorem fullName_toNodes (parent : String) : ∀ (ds : List Descriptor),
    ∀ a ∈ placedAll (toNodes parent ds), a.node.fullName = a.path.foldl Name.member parent
  | [] => fun a ha => nomatch ha
  | d :: ds => by
    intro a ha
    rw [toNodes, placedAll] at ha
    rcases List.mem_append.mp ha with ha | ha
    · exact fullName_toNode parent d a ha
    · exact fullName_toNodes parent ds a ha

end

end Descriptor

end RpcBindings.Schema

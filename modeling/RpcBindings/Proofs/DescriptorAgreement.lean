import Mathlib.Data.List.Duplicate
import RpcBindings.Proofs.DocumentForests

/-! # A source and its descriptor build the same tree

A schema can come from a source or from a JSON descriptor, and the two are put together in
different ways.  A source has its package defined scope by scope, and its declarations are
inserted one at a time, each under a name that has to be free.  A descriptor is classified node
by node from the keys that it has, of two entries of one name the later counts, and the nodes
are merged into the packages that are there.

`document` writes a source as a descriptor.  When no scope declares a name twice and no service
a method twice, both ways lead from an empty schema to the forest of the source
(`mergeFile_eq_sourceForest`, `keys?_document`, `mergeDescriptors_ofFile`), so their trees are
equal.  When a scope does declare a name twice, the source is refused under such a name
(`taken_or_repeats_of_insertDecls`).
-/
namespace RpcBindings.Schema

open RpcBindings.Json (Value keyed?)
open RpcBindings.Proto (Decl File Rpc)

/-! ## Names of one scope -/

/-- The name that a declaration has in its scope. -/
def declName : Decl → String
  | .message name _ => name
  | .enum name => name
  | .service name _ => name

mutual

/-- In the message that is declared, if one is, no scope declares a name twice. -/
def Decl.SiblingsDiffer : Decl → Prop
  | .message _ members => SiblingsDiffer members
  | .enum _ => True
  | .service _ _ => True

/-- Neither the scope of the declarations nor a message in it declares a name twice. -/
def SiblingsDiffer : List Decl → Prop
  | [] => True
  | d :: ds => declName d ∉ ds.map declName ∧ Decl.SiblingsDiffer d ∧ SiblingsDiffer ds

end

mutual

/-- The declared service, or every service in the declared message, has methods of different
names. -/
def Decl.MethodsDiffer : Decl → Prop
  | .message _ members => MethodsDiffer members
  | .enum _ => True
  | .service _ methods => (methods.map Rpc.name).Nodup

/-- Every service among the declarations and inside them has methods of different names. -/
def MethodsDiffer : List Decl → Prop
  | [] => True
  | d :: ds => Decl.MethodsDiffer d ∧ MethodsDiffer ds

end

mutual

def Decl.decideSiblingsDiffer : (d : Decl) → Decidable (Decl.SiblingsDiffer d)
  | .message _ members => decideSiblingsDiffer members
  | .enum _ => .isTrue trivial
  | .service _ _ => .isTrue trivial

def decideSiblingsDiffer : (ds : List Decl) → Decidable (SiblingsDiffer ds)
  | [] => .isTrue trivial
  | d :: ds =>
    have := Decl.decideSiblingsDiffer d
    have := decideSiblingsDiffer ds
    inferInstanceAs (Decidable (_ ∧ _ ∧ _))

end

instance (ds : List Decl) : Decidable (SiblingsDiffer ds) := decideSiblingsDiffer ds

mutual

def Decl.decideMethodsDiffer : (d : Decl) → Decidable (Decl.MethodsDiffer d)
  | .message _ members => decideMethodsDiffer members
  | .enum _ => .isTrue trivial
  | .service _ methods => inferInstanceAs (Decidable (methods.map Rpc.name).Nodup)

def decideMethodsDiffer : (ds : List Decl) → Decidable (MethodsDiffer ds)
  | [] => .isTrue trivial
  | d :: ds =>
    have := Decl.decideMethodsDiffer d
    have := decideMethodsDiffer ds
    inferInstanceAs (Decidable (_ ∧ _))

end

instance (ds : List Decl) : Decidable (MethodsDiffer ds) := decideMethodsDiffer ds

/-- Two declarations of one scope, in or below the scope `parent`, have this full name. -/
inductive Repeats : String → List Decl → String → Prop
  | here {parent name : String} {ds : List Decl} : List.Duplicate name (ds.map declName) →
      Repeats parent ds (Name.member parent name)
  | inside {parent name full : String} {ds members : List Decl} : .message name members ∈ ds →
      Repeats (Name.member parent name) members full → Repeats parent ds full

/-! ## A source as a descriptor -/

/-- What a descriptor tells beyond a source: the fields of every message and the values of
every enum, by full name.  They are kept, so they must not open too many brackets. -/
structure Details where
  fields : String → List (Option String × Value)
  values : String → List (Option String × Value)
  depth : Nat
  fields_kept : ∀ full, Descriptor.isKept depth (.object (fields full)) = true
  values_kept : ∀ full, Descriptor.isKept depth (.object (values full)) = true

/-- The entry of a method. -/
def methodEntry (m : Rpc) : Option String × Value :=
  (some m.name, .object
    [(some "requestType", .text (some m.requestType)),
     (some "responseType", .text (some m.responseType)),
     (some "requestStream", .bool m.requestStream),
     (some "responseStream", .bool m.responseStream)])

section Document
variable (details : Details)

mutual

/-- The object of a declaration in the scope `parent`. -/
def declValue (parent : String) : Decl → Value
  | .message name members => .object
      [(some "fields", .object (details.fields (Name.member parent name))),
       (some "nested", .object (declEntries (Name.member parent name) members))]
  | .enum name => .object [(some "values", .object (details.values (Name.member parent name)))]
  | .service _ methods => .object [(some "methods", .object (methods.map methodEntry))]

/-- The entries of declarations in the scope `parent`, in order. -/
def declEntries (parent : String) : List Decl → List (Option String × Value)
  | [] => []
  | d :: ds => (some (declName d), declValue parent d) :: declEntries parent ds

end

/-- Entries inside packages, one in the other. -/
def packageEntries (inner : List (Option String × Value)) :
    List String → List (Option String × Value)
  | [] => inner
  | name :: rest => [(some name, .object [(some "nested", .object (packageEntries inner rest))])]

/-- The descriptor of a source. -/
def document {Pos : Type} (file : File Pos) : Value :=
  .object [(some "nested", .object
    (packageEntries (declEntries details (scopeName file.package) file.decls) file.package))]

end Document

mutual

/-- How many brackets the object of a declaration opens, apart from its fields and values. -/
def declBrackets : Decl → Nat
  | .message _ members => declsBrackets members + 2
  | .enum _ => 1
  | .service _ _ => 3

/-- How many brackets declarations open at most. -/
def declsBrackets : List Decl → Nat
  | [] => 0
  | d :: ds => max (declBrackets d) (declsBrackets ds)

end

/-- How many brackets the descriptor of a source opens, apart from fields and values. -/
def fileBrackets {Pos : Type} (file : File Pos) : Nat :=
  declsBrackets file.decls + 2 * file.package.length + 2

namespace Descriptor

mutual

/-- The descriptor node of a declaration. -/
def ofDecl : Decl → Descriptor
  | .message name members => .scope .message name (ofDecls members)
  | .enum name => .enum name
  | .service name methods => .service name methods

/-- The descriptor nodes of declarations. -/
def ofDecls : List Decl → List Descriptor
  | [] => []
  | d :: ds => ofDecl d :: ofDecls ds

end

/-- Descriptor nodes inside packages, one in the other. -/
def inPackage (inner : List Descriptor) : List String → List Descriptor
  | [] => inner
  | name :: rest => [.scope .package name (inPackage inner rest)]

/-- The descriptor nodes of a source. -/
def ofFile {Pos : Type} (file : File Pos) : List Descriptor :=
  inPackage (ofDecls file.decls) file.package

end Descriptor

/-! ## Building from the source -/

theorem name_declNode (parent : String) (d : Decl) : (declNode parent d).name = declName d := by
  cases d <;> rfl

theorem fullName_declNode (parent : String) (d : Decl) :
    (declNode parent d).fullName = Name.member parent (declName d) := by
  cases d <;> rfl

theorem names_declNodes (parent : String) (ds : List Decl) :
    (declNodes parent ds).map Node.name = ds.map declName := by
  induction ds with
  | nil => rfl
  | cons d ds ih => rw [declNodes, List.map_cons, List.map_cons, ih, name_declNode]

/-- The names of a source differ scope by scope exactly when its forest is tidy. -/
theorem tidy_declNodes {parent : String} {ds : List Decl} :
    Tidy (declNodes parent ds) ↔ SiblingsDiffer ds := by
  induction ds using decl_induction generalizing parent with
  | nil => exact iff_of_true .nil trivial
  | message name members rest ihMembers ih =>
    rw [declNodes, tidy_cons, ih, name_declNode, names_declNodes, SiblingsDiffer,
      Decl.SiblingsDiffer, ← ihMembers]
    rfl
  | enum name rest ih =>
    rw [declNodes, tidy_cons, ih, name_declNode, names_declNodes, SiblingsDiffer]
    exact and_congr_right fun _ => and_congr_left fun _ => iff_of_true .nil trivial
  | service name methods rest ih =>
    rw [declNodes, tidy_cons, ih, name_declNode, names_declNodes, SiblingsDiffer]
    exact and_congr_right fun _ => and_congr_left fun _ => iff_of_true .nil trivial

/-- An edit of the scope at a path of an empty forest is an edit of an empty scope, inside the
packages of the path. -/
theorem updateScope_empty (edit : String → List Node → Except DuplicateName (List Node))
    (scope : String) (path : List String) :
    updateScope edit scope [] path =
      (fun inner => nest scope inner path) <$> edit (path.foldl Name.member scope) [] := by
  induction path generalizing scope with
  | nil =>
    rw [updateScope, List.foldl_nil]
    exact (id_map _).symm
  | cons name rest ih =>
    rw [updateScope_new rfl, ih, List.foldl_cons, Functor.map_map]
    rfl

theorem mergeFile_empty {Pos : Type} (file : File Pos) :
    Root.mergeFile {} file =
      (fun inner => { nodes := nest "" inner file.package }) <$>
        insertDecls (scopeName file.package) [] file.decls := by
  unfold Root.mergeFile Root.update
  rw [updateScope_empty]
  unfold scopeName
  cases insertDecls (file.package.foldl Name.member "") [] file.decls <;> rfl

/-- A source in which no scope declares a name twice is merged into an empty schema and gives
its forest. -/
theorem mergeFile_eq_sourceForest {Pos : Type} {file : File Pos}
    (h : SiblingsDiffer file.decls) :
    Root.mergeFile {} file = .ok { nodes := sourceForest file } := by
  have htidy : Tidy (declNodes (scopeName file.package) file.decls) := tidy_declNodes.mpr h
  rw [mergeFile_empty, insertDecls_of_apart (Apart.nil_right _) htidy.consistent]
  rfl

/-! ### A name that is declared twice -/

theorem Repeats.cons {parent full : String} {ds : List Decl} (h : Repeats parent ds full)
    (d : Decl) : Repeats parent (d :: ds) full := by
  cases h with
  | here hname => exact .here hname.cons_duplicate
  | inside hmem hinside => exact .inside (List.mem_cons_of_mem _ hmem) hinside

theorem nodeOfDecl_eq_declNode {parent : String} {d : Decl} {node : Node}
    (h : nodeOfDecl parent d = .ok node) : node = declNode parent d := by
  have hinsert : insertDecls parent [] [d] = .ok [node] := by
    rw [insertDecls, h]
    rfl
  exact (List.cons.inj (insertDecls_eq_append hinsert)).1

/-- What goes wrong with the first of some declarations, or behind it. -/
theorem insertDecls_cons_error {parent : String} {nodes : List Node} {d : Decl}
    {ds : List Decl} {e : DuplicateName} (h : insertDecls parent nodes (d :: ds) = .error e) :
    nodeOfDecl parent d = .error e ∨
      (∃ taken ∈ nodes, taken.name = declName d ∧ taken.fullName = e.fullName) ∨
      insertDecls parent (nodes ++ [declNode parent d]) ds = .error e := by
  rw [insertDecls] at h
  split at h
  · next hnode =>
    cases h
    exact Or.inl hnode
  · next node hnode =>
    obtain rfl := nodeOfDecl_eq_declNode hnode
    unfold insertNew at h
    cases hfind : find? nodes (declNode parent d).name with
    | none =>
      rw [hfind] at h
      exact Or.inr (Or.inr h)
    | some taken =>
      rw [hfind] at h
      cases h
      obtain ⟨hmem, hname⟩ := find?_eq_some hfind
      exact Or.inr (Or.inl ⟨taken, hmem, hname.trans (name_declNode parent d), rfl⟩)

/-- The name of a declaration that is refused is taken in the scope, or two declarations share
it.  `hinside` says so of what stands in the first declaration, `hbehind` of the others. -/
theorem taken_or_repeats_cons {parent : String} {nodes : List Node} {d : Decl} {ds : List Decl}
    {e : DuplicateName} (h : insertDecls parent nodes (d :: ds) = .error e)
    (hinside : nodeOfDecl parent d = .error e → Repeats parent (d :: ds) e.fullName)
    (hbehind : ∀ {ns : List Node}, insertDecls parent ns ds = .error e →
      (∃ taken ∈ ns, taken.name ∈ ds.map declName ∧ taken.fullName = e.fullName) ∨
        Repeats parent ds e.fullName) :
    (∃ taken ∈ nodes, taken.name ∈ (d :: ds).map declName ∧ taken.fullName = e.fullName) ∨
      Repeats parent (d :: ds) e.fullName := by
  rcases insertDecls_cons_error h with hnode | ⟨taken, hmem, hname, hfull⟩ | hrest
  · exact Or.inr (hinside hnode)
  · exact Or.inl ⟨taken, hmem, hname ▸ List.mem_cons_self .., hfull⟩
  · rcases hbehind hrest with ⟨taken, hmem, hname, hfull⟩ | hrepeats
    · rcases List.mem_append.mp hmem with hmem | hmem
      · exact Or.inl ⟨taken, hmem, List.mem_cons_of_mem _ hname, hfull⟩
      · -- what is in the way is the first declaration itself
        obtain rfl := List.mem_singleton.mp hmem
        rw [name_declNode] at hname
        rw [← hfull, fullName_declNode]
        exact Or.inr (.here hname.duplicate_cons_self)
    · exact Or.inr (hrepeats.cons d)

/-- **Declarations are refused under a name that is taken or that two of one scope share.** -/
theorem taken_or_repeats_of_insertDecls {parent : String} {nodes : List Node} {ds : List Decl}
    {e : DuplicateName} (h : insertDecls parent nodes ds = .error e) :
    (∃ taken ∈ nodes, taken.name ∈ ds.map declName ∧ taken.fullName = e.fullName) ∨
      Repeats parent ds e.fullName := by
  induction ds using decl_induction generalizing parent nodes e with
  | nil => cases h
  | message name members rest ihMembers ih =>
    refine taken_or_repeats_cons h (fun hnode => ?_) ih
    rw [nodeOfDecl] at hnode
    split at hnode
    · cases hnode
    · next hmembers =>
      cases hnode
      -- the members go into an empty scope, so two of them share the name
      rcases ihMembers hmembers with ⟨_, hmem, _⟩ | hrepeats
      · cases hmem
      · exact .inside (List.mem_cons_self ..) hrepeats
  | enum name rest ih => exact taken_or_repeats_cons h (fun hnode => by cases hnode) ih
  | service name methods rest ih => exact taken_or_repeats_cons h (fun hnode => by cases hnode) ih

/-- A source in which a scope declares a name twice is refused under such a name. -/
theorem exists_error_mergeFile {Pos : Type} {file : File Pos} (h : ¬ SiblingsDiffer file.decls) :
    ∃ e, Root.mergeFile {} file = .error e ∧
      Repeats (scopeName file.package) file.decls e.fullName := by
  rw [mergeFile_empty]
  cases hinsert : insertDecls (scopeName file.package) [] file.decls with
  | ok nodes =>
    have htidy := Tidy.nil.insertDecls hinsert
    rw [insertDecls_eq_append hinsert, List.nil_append] at htidy
    exact absurd (tidy_declNodes.mp htidy) h
  | error e =>
    refine ⟨e, rfl, ?_⟩
    rcases taken_or_repeats_of_insertDecls hinsert with ⟨_, hmem, _⟩ | hrepeats
    · cases hmem
    · exact hrepeats

/-! ## Reading the descriptor -/

/-- What can be kept can be kept with more brackets to open. -/
theorem isKept_mono {depth depth' : Nat} {v : Value} (h : Descriptor.isKept depth v = true)
    (hle : depth ≤ depth') : Descriptor.isKept depth' v = true := by
  induction depth generalizing depth' v with
  | zero =>
    cases v <;> simp_all [Descriptor.isKept]
  | succ depth ih =>
    obtain ⟨depth', rfl⟩ := Nat.exists_eq_add_of_le' (Nat.le_trans (Nat.le_add_left 1 depth) hle)
    have hle : depth ≤ depth' := Nat.le_of_succ_le_succ hle
    cases v with
    | array items =>
      rw [Descriptor.isKept, List.all_eq_true] at h ⊢
      exact fun item hitem => ih (h item hitem) hle
    | object entries =>
      rw [Descriptor.isKept, List.all_eq_true] at h ⊢
      intro entry hentry
      have hkept := h entry hentry
      rw [Bool.and_eq_true] at hkept ⊢
      exact ⟨hkept.1, ih hkept.2 hle⟩
    | _ => simp_all [Descriptor.isKept]

namespace Descriptor

/-- Under these entries stand these nodes, when no more than `depth` brackets are open in
each. -/
def Lists (depth : Nat) (entries : List (Option String × Value)) (ds : List Descriptor) : Prop :=
  ∃ read, keyed? entries = some read ∧
    (read.mapM fun e => (keys? depth e.2).map (ofKeys e.1)) = some ds ∧
    (ds.map Descriptor.name).Nodup

section Keys
variable {depth : Nat} {entries : List (Option String × Value)} {ds : List Descriptor}

/-- What a node says is read slot by slot. -/
theorem keys?_of_slots {v : Value} {nested fields values methods : Option Value}
    {isMessage isEnum : Bool} {rpcs : Option (List Rpc)}
    (hslots : slots? ["nested", "fields", "values", "methods"] v =
      some [nested, fields, values, methods])
    (hnested : nestedNodes? depth nested = some ds)
    (hfields : presence? depth fields = some isMessage)
    (hvalues : presence? depth values = some isEnum)
    (hmethods : givenMethods? depth methods = some rpcs) :
    keys? (depth + 1) v = some ⟨ds, isMessage, isEnum, rpcs⟩ := by
  rw [keys?_succ, hslots]
  simp only [hnested, hfields, hvalues, hmethods, Option.bind_eq_bind, Option.bind_some]
  rfl

theorem nestedNodes?_of_lists (h : Lists depth entries ds) :
    nestedNodes? (depth + 1) (some (.object entries)) = some ds := by
  obtain ⟨read, hread, hds, hnames⟩ := h
  have hfold := @foldl_putBy_of_nodup _ Descriptor.name ds [] hnames
  unfold nestedNodes?
  simp only [given?, hread, hds, hfold, Option.bind_eq_bind, Option.bind_some]
  rfl

theorem keys?_package (h : Lists depth entries ds) :
    keys? (depth + 2) (.object [(some "nested", .object entries)]) =
      some ⟨ds, false, false, none⟩ := by
  have hslots : slots? ["nested", "fields", "values", "methods"]
      (.object [(some "nested", .object entries)]) =
        some [some (.object entries), none, none, none] := by
    simp [slots?, keyed?, List.lookup_cons]
  exact keys?_of_slots hslots (nestedNodes?_of_lists h) rfl rfl rfl

theorem presence?_object (hkept : isKept depth (.object entries) = true) :
    presence? depth (some (.object entries)) = some true := by
  simp only [presence?, given?, hkept, if_true]

theorem keys?_message {fields : List (Option String × Value)} (h : Lists depth entries ds)
    (hkept : isKept (depth + 1) (.object fields) = true) :
    keys? (depth + 2)
        (.object [(some "fields", .object fields), (some "nested", .object entries)]) =
      some ⟨ds, true, false, none⟩ := by
  have hslots : slots? ["nested", "fields", "values", "methods"]
      (.object [(some "fields", .object fields), (some "nested", .object entries)]) =
        some [some (.object entries), some (.object fields), none, none] := by
    simp [slots?, keyed?, List.lookup_cons]
  exact keys?_of_slots hslots (nestedNodes?_of_lists h) (presence?_object hkept) rfl rfl

theorem keys?_enum {values : List (Option String × Value)}
    (hkept : isKept depth (.object values) = true) :
    keys? (depth + 1) (.object [(some "values", .object values)]) =
      some ⟨[], false, true, none⟩ := by
  have hslots : slots? ["nested", "fields", "values", "methods"]
      (.object [(some "values", .object values)]) =
        some [none, none, some (.object values), none] := by
    simp [slots?, keyed?, List.lookup_cons]
  exact keys?_of_slots hslots rfl rfl (presence?_object hkept) rfl

theorem rpc?_methodEntry (depth : Nat) (m : Rpc) :
    rpc? (depth + 1) m.name (methodEntry m).2 = some m := by
  have hslots : slots? ["requestType", "responseType", "requestStream", "responseStream"]
      (methodEntry m).2 = some [some (.text (some m.requestType)),
        some (.text (some m.responseType)), some (.bool m.requestStream),
        some (.bool m.responseStream)] := by
    simp [slots?, keyed?, methodEntry, List.lookup_cons]
  rw [rpc?, hslots]
  rfl

theorem keyed?_map {α : Type} (entry : α → String × Value) (xs : List α) :
    keyed? (xs.map fun x => (some (entry x).1, (entry x).2)) = some (xs.map entry) := by
  rw [keyed?, List.mapM_map]
  exact mapM_eq_some_map fun x _ => rfl

theorem entries?_methods {methods : List Rpc} (h : (methods.map Rpc.name).Nodup) :
    entries? Rpc.name rpc? (depth + 2) (.object (methods.map methodEntry)) = some methods := by
  have hkeyed : keyed? (methods.map methodEntry) =
      some (methods.map fun m => (m.name, (methodEntry m).2)) :=
    keyed?_map (fun m : Rpc => (m.name, (methodEntry m).2)) methods
  have hread : (methods.map fun m => (m.name, (methodEntry m).2)).mapM
      (fun e => rpc? (depth + 1) e.1 e.2) = some methods := by
    rw [List.mapM_map]
    exact (mapM_eq_some_map fun m _ => rpc?_methodEntry depth m).trans
      (congrArg some (List.map_id _))
  have hfold := @foldl_putBy_of_nodup _ Rpc.name methods [] h
  rw [entries?, hkeyed]
  simp only [Option.bind_eq_bind, Option.bind_some, hread, hfold]
  rfl

theorem keys?_service {methods : List Rpc} (h : (methods.map Rpc.name).Nodup) :
    keys? (depth + 3) (.object [(some "methods", .object (methods.map methodEntry))]) =
      some ⟨[], false, false, some methods⟩ := by
  have hslots : slots? ["nested", "fields", "values", "methods"]
      (.object [(some "methods", .object (methods.map methodEntry))]) =
        some [none, none, none, some (.object (methods.map methodEntry))] := by
    simp [slots?, keyed?, List.lookup_cons]
  exact keys?_of_slots hslots rfl rfl rfl (congrArg (Option.map some) (entries?_methods h))

end Keys

/-! ## Descriptors of declarations -/

theorem name_ofDecl (d : Decl) : (ofDecl d).name = declName d := by
  cases d <;> rfl

theorem names_ofDecls (ds : List Decl) : (ofDecls ds).map Descriptor.name = ds.map declName := by
  induction ds with
  | nil => rfl
  | cons d ds ih => rw [ofDecls, List.map_cons, List.map_cons, ih, name_ofDecl]

theorem lists_nil (depth : Nat) : Lists depth [] [] :=
  ⟨[], rfl, rfl, List.nodup_nil⟩

theorem Lists.cons {depth : Nat} {entries : List (Option String × Value)} {ds : List Descriptor}
    {name : String} {v : Value} {k : Keys} (hkeys : keys? depth v = some k)
    (hname : (ofKeys name k).name ∉ ds.map Descriptor.name) (h : Lists depth entries ds) :
    Lists depth ((some name, v) :: entries) (ofKeys name k :: ds) := by
  obtain ⟨read, hread, hds, hnames⟩ := h
  refine ⟨(name, v) :: read, ?_, ?_, List.nodup_cons.mpr ⟨hname, hnames⟩⟩
  · rw [keyed?] at hread ⊢
    rw [List.mapM_cons, hread]
    rfl
  · rw [List.mapM_cons, hds, hkeys]
    rfl

/-- **The entries of declarations read as their nodes**, as long as enough brackets may be
open. -/
theorem lists_declEntries (details : Details) (parent : String) {ds : List Decl} {depth : Nat}
    (hnames : SiblingsDiffer ds) (hmethods : MethodsDiffer ds)
    (hdepth : details.depth + declsBrackets ds ≤ depth) :
    Lists depth (declEntries details parent ds) (ofDecls ds) := by
  induction ds using decl_induction generalizing parent depth with
  | nil => exact lists_nil depth
  | message name members rest ihMembers ih =>
    obtain ⟨hnew, hnamesIn, hnamesRest⟩ := hnames
    obtain ⟨hmethodsIn, hmethodsRest⟩ := hmethods
    rw [declsBrackets, declBrackets] at hdepth
    obtain ⟨inner, rfl⟩ := Nat.exists_eq_add_of_le' (show 2 ≤ depth by omega)
    have hmembers := ihMembers (Name.member parent name) hnamesIn hmethodsIn
      (show details.depth + declsBrackets members ≤ inner by omega)
    have hkept := isKept_mono (details.fields_kept (Name.member parent name))
      (show details.depth ≤ inner + 1 by omega)
    have hrest := ih parent hnamesRest hmethodsRest
      (show details.depth + declsBrackets rest ≤ inner + 2 by omega)
    refine Lists.cons (keys?_message hmembers hkept) ?_ hrest
    rwa [names_ofDecls]
  | enum name rest ih =>
    obtain ⟨hnew, _, hnamesRest⟩ := hnames
    rw [declsBrackets, declBrackets] at hdepth
    obtain ⟨inner, rfl⟩ := Nat.exists_eq_add_of_le' (show 1 ≤ depth by omega)
    have hkept := isKept_mono (details.values_kept (Name.member parent name))
      (show details.depth ≤ inner by omega)
    refine Lists.cons (keys?_enum hkept) ?_ (ih parent hnamesRest hmethods.2 (by omega))
    rwa [names_ofDecls]
  | service name methods rest ih =>
    obtain ⟨hnew, _, hnamesRest⟩ := hnames
    rw [declsBrackets, declBrackets] at hdepth
    obtain ⟨inner, rfl⟩ := Nat.exists_eq_add_of_le' (show 3 ≤ depth by omega)
    refine Lists.cons (keys?_service hmethods.1) ?_ (ih parent hnamesRest hmethods.2 (by omega))
    rwa [names_ofDecls]

/-- Entries read inside packages as they read outside. -/
theorem lists_packageEntries {entries : List (Option String × Value)} {ds : List Descriptor}
    {depth : Nat} (h : Lists depth entries ds) (path : List String) :
    Lists (depth + 2 * path.length) (packageEntries entries path) (inPackage ds path) := by
  induction path with
  | nil => exact h
  | cons name rest ih =>
    exact Lists.cons (keys?_package ih) List.not_mem_nil (lists_nil _)

/-- **The descriptor of a source reads as the nodes of the source.** -/
theorem keys?_document {Pos : Type} (details : Details) {file : File Pos} {depth : Nat}
    (hnames : SiblingsDiffer file.decls) (hmethods : MethodsDiffer file.decls)
    (hdepth : details.depth + fileBrackets file ≤ depth) :
    keys? depth (document details file) = some ⟨ofFile file, false, false, none⟩ := by
  rw [fileBrackets] at hdepth
  obtain ⟨inner, rfl⟩ := Nat.exists_eq_add_of_le'
    (show 2 * file.package.length + 2 ≤ depth by omega)
  have hdecls := lists_declEntries details (scopeName file.package) hnames hmethods
    (show details.depth + declsBrackets file.decls ≤ inner by omega)
  exact keys?_package (lists_packageEntries hdecls file.package)

/-! ## Building from the descriptor -/

theorem toNodes_ofDecls (parent : String) (ds : List Decl) :
    toNodes parent (ofDecls ds) = declNodes parent ds := by
  induction ds using decl_induction generalizing parent with
  | nil => rfl
  | message name members rest ihMembers ih =>
    rw [ofDecls, ofDecl, toNodes, toNode, ihMembers, ih]
    rfl
  | enum name rest ih =>
    rw [ofDecls, toNodes, ih]
    rfl
  | service name methods rest ih =>
    rw [ofDecls, toNodes, ih]
    rfl

theorem toNodes_inPackage (ds : List Descriptor) (scope : String) (path : List String) :
    toNodes scope (inPackage ds path) =
      nest scope (toNodes (path.foldl Name.member scope) ds) path := by
  induction path generalizing scope with
  | nil => rfl
  | cons name rest ih =>
    rw [inPackage, toNodes, toNode, ih]
    rfl

theorem toNodes_ofFile {Pos : Type} (file : File Pos) :
    toNodes "" (ofFile file) = sourceForest file := by
  rw [ofFile, toNodes_inPackage, toNodes_ofDecls]
  rfl

end Descriptor

theorem names_nest {inner : List Node} (h : (inner.map Node.name).Nodup) (scope : String)
    (path : List String) : ((nest scope inner path).map Node.name).Nodup := by
  cases path with
  | nil => exact h
  | cons name rest => exact List.nodup_singleton _

theorem mergeDescriptors_ofFile {Pos : Type} {file : File Pos} (h : SiblingsDiffer file.decls) :
    Root.mergeDescriptors {} (Descriptor.ofFile file) = .ok { nodes := sourceForest file } := by
  have htidy : Tidy (declNodes (scopeName file.package) file.decls) := tidy_declNodes.mpr h
  unfold Root.mergeDescriptors
  rw [Descriptor.toNodes_ofFile, mergeNodes_of_nodup (names_nest htidy.names "" file.package)]
  rfl

/-! ## Agreement -/

/-- **A source and its descriptor build the same tree.**  When no scope of a source declares a
name twice and no service a method twice, the source is merged into an empty schema; its
descriptor, whatever fields and values it gives, can be read with enough brackets open and is
merged into an empty schema as well; and the two schemas are equal.  When a scope declares a
name twice, the source is refused, under the full name of such a declaration. -/
theorem source_document_agree {Pos : Type} (details : Details) (file : File Pos) :
    (SiblingsDiffer file.decls → MethodsDiffer file.decls →
      ∃ root, Root.mergeFile {} file = .ok root ∧
        ∀ depth, details.depth + fileBrackets file ≤ depth →
          ∃ keys, Descriptor.keys? depth (document details file) = some keys ∧
            Root.mergeDescriptors {} keys.nested = .ok root) ∧
    (¬ SiblingsDiffer file.decls →
      ∃ e, Root.mergeFile {} file = .error e ∧
        Repeats (scopeName file.package) file.decls e.fullName) := by
  refine ⟨fun hnames hmethods => ?_, exists_error_mergeFile⟩
  refine ⟨_, mergeFile_eq_sourceForest hnames, fun depth hdepth => ?_⟩
  exact ⟨_, Descriptor.keys?_document details hnames hmethods hdepth,
    mergeDescriptors_ofFile hnames⟩

/-- A message that holds a message and an enum, and a service beside it. -/
def nestedSource : File Unit :=
  { package := ["a", "b"]
    decls := [.message "Outer" [.message "Inner" [], .enum "Kind"],
      .service "Calls" [⟨"Get", "Outer", false, ".a.b.Outer.Inner", true⟩]] }

/-- A message that declares a name twice, once as a message and once as an enum. -/
def repeatedSource : File Unit :=
  { package := ["a"], decls := [.message "Outer" [.message "Kind" [], .enum "Kind"]] }

/-- Every message has one field, and every enum one value. -/
def oneEach : Details where
  fields _ := [(some "id", .object [(some "type", .text (some "string"))])]
  values _ := [(some "FIRST", .bool false)]
  depth := 2
  fields_kept _ := by decide
  values_kept _ := by decide

/-- The nested source and its descriptor give one schema, and the other source is refused. -/
theorem nestedSource_agrees_repeatedSource_refused :
    (∃ root, Root.mergeFile {} nestedSource = .ok root ∧
      ∀ depth, oneEach.depth + fileBrackets nestedSource ≤ depth →
        ∃ keys, Descriptor.keys? depth (document oneEach nestedSource) = some keys ∧
          Root.mergeDescriptors {} keys.nested = .ok root) ∧
    ∃ e, Root.mergeFile {} repeatedSource = .error e ∧
      Repeats ".a" repeatedSource.decls e.fullName :=
  ⟨(source_document_agree oneEach nestedSource).1 (by decide) (by decide),
    (source_document_agree oneEach repeatedSource).2 (by decide)⟩

end RpcBindings.Schema

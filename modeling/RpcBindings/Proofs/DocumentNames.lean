import RpcBindings.Proofs.DocumentForests
import RpcBindings.Proofs.Joins
import RpcBindings.Proofs.SchemaTree

/-! # Full names in documents

The nodes of a document are called by the keys of its objects, and a key can be any text.  Keys
of one object differ, so the nodes of a scope have different names, and every node is named by
the path to it.  But the full name only joins the path with dots: with the key `a.b` beside a
package `a` that holds `b`, two nodes are called `.a.b`, and the look-up, which cuts a name at its
dots, finds only one of them.

Keys with a dot are the only trouble.  A schema read from a document has unique full names under
which its nodes are found if and only if no node has a dot in its name (`uniquelyNamed_iff`).
-/
namespace RpcBindings.Schema

open RpcBindings.Disk

/-- Full names and nodes of the schema determine each other. -/
structure Root.UniquelyNamed (r : Root) : Prop where
  distinct : ((preorderAll r.nodes).map Node.fullName).Nodup
  found : ∀ n ∈ preorderAll r.nodes, r.get? n.fullName = some n

/-- A node that is found under its full name has no dot in its own name: the look-up follows
segments between dots, and the last of them is the name of what it finds. -/
theorem dotFree_of_get? {r : Root} {name : String} {n : Node} (h : r.get? name = some n) :
    Name.DotFree n.name := by
  unfold Root.get? at h
  split at h
  · next path hpath =>
    have hstands := standsAt_of_descend? h
    exact (Name.eq_scopeName_of_path? hpath).2.2 n.name hstands.name_mem
  · cases h

section Documents
variable {start l : Loading} {path : Path} {text : String}

/-- A document that is read into an empty schema gives the forest it describes. -/
theorem exists_document (hempty : start.root.nodes = [])
    (h : loadDescriptor start path text = .ok l) :
    Tidy l.root.nodes ∧ ∀ a ∈ placedAll l.root.nodes, a.node.fullName = scopeName a.path := by
  unfold loadDescriptor at h
  split at h
  · cases h
  next ds hparse =>
  unfold Loading.merged at h
  split at h
  · next root hroot =>
    cases h
    have hnodes := (Root.mergeDescriptors_ok hroot).2
    rw [hempty] at hnodes
    refine ⟨Tidy.nil.mergeNodes (Descriptor.tidy_of_parse? hparse) hnodes, fun a ha => ?_⟩
    rcases placed_mergeNodes hnodes a ha with ha | ha
    · cases ha
    · exact Descriptor.fullName_toNodes "" ds a ha
  · cases h

/-- **A schema read from a document has unique full names, under which its nodes are found,
exactly when no node has a dot in its name.** -/
theorem uniquelyNamed_iff (hempty : start.root.nodes = [])
    (h : loadDescriptor start path text = .ok l) :
    l.root.UniquelyNamed ↔ ∀ n ∈ preorderAll l.root.nodes, Name.DotFree n.name := by
  constructor
  · intro hunique n hn
    exact dotFree_of_get? (hunique.found n hn)
  · intro hdotFree
    obtain ⟨htidy, hnames⟩ := exists_document hempty h
    have horderly := Root.orderly_of_dotFree htidy hnames hdotFree
    exact ⟨horderly.nodup_fullNames, fun n hn => horderly.get?_eq_some.mpr ⟨hn, rfl⟩⟩

end Documents

/-- Keys are repeated in different scopes, and one is empty. -/
def plainKeys : String :=
  "\x7b\"nested\": \x7b" ++
    "\"a\": \x7b\"nested\": \x7b" ++
      "\"a\": \x7b\"fields\": \x7b\x7d\x7d, \"\": \x7b\"values\": \x7b\x7d\x7d\x7d\x7d, " ++
    "\"b\": \x7b\"methods\": \x7b\x7d\x7d\x7d\x7d"

theorem uniquelyNamed_plainKeys :
    ∃ l, loadDescriptor {} "main.json" plainKeys = .ok l ∧
      (preorderAll l.root.nodes).map Node.fullName = [".a", ".a.a", ".a.", ".b"] ∧
      l.root.UniquelyNamed := by
  have hrun : ((loadDescriptor {} "main.json" plainKeys).toOption.any fun l =>
      (preorderAll l.root.nodes).map Node.fullName == [".a", ".a.a", ".a.", ".b"] &&
        (preorderAll l.root.nodes).all fun n => !n.name.toList.contains '.') = true := by
    decide +kernel
  obtain ⟨l, hload, hl⟩ := exists_ok_of_any hrun
  simp only [Bool.and_eq_true, beq_iff_eq, List.all_eq_true, Bool.not_eq_true'] at hl
  refine ⟨l, hload, hl.1, (uniquelyNamed_iff rfl hload).mpr fun n hn => ?_⟩
  exact fun hdot => by simpa [hdot] using hl.2 n hn

/-- A package `a` that holds a message `b`, and a message `a.b` beside it. -/
def dottedKey : String :=
  "\x7b\"nested\": \x7b" ++
    "\"a\": \x7b\"nested\": \x7b\"b\": \x7b\"fields\": \x7b\x7d\x7d\x7d\x7d, " ++
    "\"a.b\": \x7b\"fields\": \x7b\x7d\x7d\x7d\x7d"

theorem not_uniquelyNamed_dottedKey :
    ∃ l, loadDescriptor {} "main.json" dottedKey = .ok l ∧
      (preorderAll l.root.nodes).map Node.fullName = [".a", ".a.b", ".a.b"] ∧
      (l.root.get? ".a.b").map Node.name = some "b" ∧ ¬ l.root.UniquelyNamed := by
  have hrun : ((loadDescriptor {} "main.json" dottedKey).toOption.any fun l =>
      (preorderAll l.root.nodes).map Node.fullName == [".a", ".a.b", ".a.b"] &&
        (l.root.get? ".a.b").map Node.name == some "b") = true := by
    decide +kernel
  obtain ⟨l, hload, hl⟩ := exists_ok_of_any hrun
  simp only [Bool.and_eq_true, beq_iff_eq] at hl
  refine ⟨l, hload, hl.1, hl.2, fun hunique => ?_⟩
  have htwice := hunique.distinct
  rw [hl.1] at htwice
  exact absurd htwice (by decide)

end RpcBindings.Schema

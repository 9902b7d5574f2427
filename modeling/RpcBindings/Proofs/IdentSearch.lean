import RpcBindings.Binding.Codec

/-! # The search for an identifier

A message whose leaf name and whose qualified name are both in use gets a numbered name, and the
numbers 2, 3, … are tried one after the other with no bound on them (`Numbering.firstFree?`).  The
search ends all the same: different numbers give different names (`Numbering.ident_inj`), so the
fields of a table cannot use all of one name more than there are fields (`exists_free`), even when
their identifiers are themselves numbered names.  It ends at the first number whose name is free
(`Numbering.firstFree?_ends`).

What follows for the choice of an identifier is said once (`freshIdent_cases`).
-/
namespace RpcBindings.Binding

open RpcBindings.Schema (TypeRef)

namespace Numbering

/-- Different numbers give different names. -/
theorem ident_inj (c : Numbering) {i j : Nat} (h : c.ident i = c.ident j) : i = j := by
  have hrepr : Nat.repr i = Nat.repr j := (String.append_right_inj _).mp h
  have hdigits : Nat.toDigits 10 i = Nat.toDigits 10 j := by
    rw [← Nat.toList_repr, ← Nat.toList_repr, hrepr]
  rw [← Nat.ofDigitChars_ten_toDigits (n := i), hdigits, Nat.ofDigitChars_ten_toDigits]

/-- The first number from `start` on whose name is free. -/
structure FirstFree (c : Numbering) (start n : Nat) : Prop where
  start_le : start ≤ n
  free : c.taken (c.ident n) = false
  taken_below : ∀ k, start ≤ k → k < n → c.taken (c.ident k) = true

section Search
variable {c : Numbering} {start n : Nat}

theorem firstFree?_of_free (h : c.taken (c.ident start) = false) :
    c.firstFree? start = some (c.ident start) := by
  rw [firstFree?, h]
  rfl

theorem firstFree?_of_taken (h : c.taken (c.ident start) = true) :
    c.firstFree? start = c.firstFree? (start + 1) := by
  rw [firstFree?, h]
  rfl

theorem FirstFree.here (h : c.taken (c.ident start) = false) : c.FirstFree start start :=
  ⟨Nat.le_refl start, h, fun _ hk hlt => absurd hlt (Nat.not_lt.mpr hk)⟩

theorem FirstFree.later (h : c.taken (c.ident start) = true) (hn : c.FirstFree (start + 1) n) :
    c.FirstFree start n := by
  refine ⟨Nat.le_of_succ_le hn.start_le, hn.free, fun k hk hlt => ?_⟩
  rcases Nat.eq_or_lt_of_le hk with rfl | hk
  · exact h
  · exact hn.taken_below k hk hlt

/-- **The search ends** at the first free number, if there is a free number at all. -/
theorem firstFree?_ends {free : Nat} (hstart : start ≤ free)
    (hfree : c.taken (c.ident free) = false) :
    ∃ n ≤ free, c.FirstFree start n ∧ c.firstFree? start = some (c.ident n) := by
  -- the induction is on the distance to the number that is known to be free
  obtain ⟨distance, rfl⟩ := Nat.exists_eq_add_of_le hstart
  induction distance generalizing start with
  | zero => exact ⟨start, Nat.le_refl _, .here hfree, firstFree?_of_free hfree⟩
  | succ distance ih =>
    cases hhere : c.taken (c.ident start) with
    | false => exact ⟨start, hstart, .here hhere, firstFree?_of_free hhere⟩
    | true =>
      rw [← Nat.add_assoc, Nat.add_right_comm] at hfree ⊢
      obtain ⟨n, hle, hn, hsearch⟩ := ih (Nat.le_add_right _ _) hfree
      exact ⟨n, hle, hn.later hhere, (firstFree?_of_taken hhere).trans hsearch⟩

end Search

end Numbering

/-! ## Identifiers in use -/

theorem isTaken_iff (codecs : List Codec) (ident : String) :
    isTaken codecs ident = true ↔ ident ∈ codecs.map Codec.ident := by
  rw [isTaken, List.any_eq_true, List.mem_map]
  constructor
  · rintro ⟨c, hc, he⟩
    exact ⟨c, hc, eq_of_beq he⟩
  · rintro ⟨c, hc, rfl⟩
    exact ⟨c, hc, beq_self_eq_true _⟩

/-- Of one name more than there are fields, one is free. -/
theorem exists_free (codecs : List Codec) (c : Numbering) (start : Nat) :
    ∃ n, start ≤ n ∧ n ≤ start + codecs.length ∧ isTaken codecs (c.ident n) = false := by
  apply Classical.byContradiction
  intro hnone
  let names := (List.range (codecs.length + 1)).map fun i => c.ident (start + i)
  have hnodup : names.Nodup := by
    refine List.pairwise_map.mpr ((List.nodup_range).imp ?_)
    intro i j hne he
    exact hne (Nat.add_left_cancel (c.ident_inj he))
  have hsub : names ⊆ codecs.map Codec.ident := by
    intro ident hident
    obtain ⟨i, hi, rfl⟩ := List.mem_map.mp hident
    have hbound : start + i ≤ start + codecs.length := by
      have hlt := List.mem_range.mp hi
      omega
    rw [← isTaken_iff]
    exact Classical.byContradiction fun hfree =>
      hnone ⟨start + i, Nat.le_add_right _ _, hbound, Bool.eq_false_iff.mpr hfree⟩
  have hlen := hnodup.length_le_of_subset hsub
  simp only [names, List.length_map, List.length_range] at hlen
  omega

/-! ## The choice -/

/-- A message gets its leaf name, or its qualified name, or the first numbered name that is free. -/
theorem freshIdent_cases (codecs : List Codec) (message : TypeRef) :
    (isTaken codecs message.name = false ∧ freshIdent codecs message = message.name) ∨
    (isTaken codecs message.name = true ∧
      isTaken codecs (Name.underscored message.qualified) = false ∧
      freshIdent codecs message = Name.underscored message.qualified) ∨
    (isTaken codecs message.name = true ∧
      isTaken codecs (Name.underscored message.qualified) = true ∧
      ∃ n ≤ codecs.length + 2, (numbering codecs message).FirstFree 2 n ∧
        (numbering codecs message).firstFree? 2 = some ((numbering codecs message).ident n) ∧
        freshIdent codecs message = (numbering codecs message).ident n) := by
  unfold freshIdent
  dsimp only
  cases hleaf : isTaken codecs message.name with
  | false => exact .inl ⟨rfl, rfl⟩
  | true =>
    cases hlong : isTaken codecs (Name.underscored message.qualified) with
    | false => exact .inr (.inl ⟨rfl, rfl, rfl⟩)
    | true =>
      let c := numbering codecs message
      obtain ⟨free, hstart, hbound, hfree⟩ := exists_free codecs c 2
      obtain ⟨n, hle, hfirst, hsearch⟩ := Numbering.firstFree?_ends (c := c) hstart hfree
      refine .inr (.inr ⟨rfl, rfl, n, by omega, hfirst, hsearch, ?_⟩)
      rw [hsearch]
      rfl

/-- **The identifier given to a message is used by no field.** -/
theorem freshIdent_free (codecs : List Codec) (message : TypeRef) :
    isTaken codecs (freshIdent codecs message) = false := by
  rcases freshIdent_cases codecs message with ⟨hfree, he⟩ | ⟨-, hfree, he⟩ | ⟨-, -, n, -, hn, -, he⟩
  · rw [he, hfree]
  · rw [he, hfree]
  · rw [he]
    exact hn.free

/-- **The search for an identifier ends.**  Whatever fields there are and whatever the message is,
the identifier it gets is used by none of them.  It is the leaf name of the message if that is free,
else its qualified name if that is free.  When both are taken, the numbers are tried from 2 on, and
the search has a result: it stops at the first number whose name is free, which is at most the
number of fields and two more, so the taken name that stands behind the search is never given. -/
theorem freshIdent_ends (codecs : List Codec) (message : TypeRef) :
    (∀ c ∈ codecs, c.ident ≠ freshIdent codecs message) ∧
    (isTaken codecs message.name = false → freshIdent codecs message = message.name) ∧
    (isTaken codecs message.name = true →
      isTaken codecs (Name.underscored message.qualified) = false →
      freshIdent codecs message = Name.underscored message.qualified) ∧
    (isTaken codecs message.name = true →
      isTaken codecs (Name.underscored message.qualified) = true →
      ∃ n ≤ codecs.length + 2, (numbering codecs message).FirstFree 2 n ∧
        (numbering codecs message).firstFree? 2 = some ((numbering codecs message).ident n) ∧
        freshIdent codecs message = (numbering codecs message).ident n) := by
  constructor
  · intro c hc he
    have htaken := (isTaken_iff codecs c.ident).mpr (List.mem_map.mpr ⟨c, hc, rfl⟩)
    rw [he, freshIdent_free] at htaken
    cases htaken
  · rcases freshIdent_cases codecs message with
      ⟨hleaf, he⟩ | ⟨hleaf, hlong, he⟩ | ⟨hleaf, hlong, hsearch⟩
    · simp [hleaf, he]
    · simp [hleaf, hlong, he]
    · simp only [hleaf, hlong, Bool.true_eq_false, forall_const, false_imp_iff, true_and]
      exact hsearch

/-- Fields whose identifiers look like numbered names of each other. -/
def numberedTwins : List Codec :=
  (CodecTable.bind .client
    ([".Msg", ".a_b.Msg", ".a_b_Msg_2", ".a_b_Msg_4"].map fun name => (⟨name⟩, ⟨name⟩))).serializers

theorem freshIdent_ends_numberedTwins :
    isTaken numberedTwins "Msg" = true ∧ isTaken numberedTwins "a_b_Msg" = true ∧
      freshIdent numberedTwins ⟨".a.b.Msg"⟩ = "a_b_Msg_3" := by
  have hleaf : isTaken numberedTwins (TypeRef.mk ".a.b.Msg").name = true := by decide +kernel
  have hlong :
      isTaken numberedTwins (Name.underscored (TypeRef.mk ".a.b.Msg").qualified) = true := by
    decide +kernel
  obtain ⟨-, -, -, hnumbered⟩ := freshIdent_ends numberedTwins ⟨".a.b.Msg"⟩
  obtain ⟨n, -, hfirst, -, he⟩ := hnumbered hleaf hlong
  refine ⟨by decide +kernel, by decide +kernel, ?_⟩
  -- 2 is taken and 3 is not, so the first free number is 3
  have htwo : n ≠ 2 := by
    rintro rfl
    exact absurd hfirst.free (by decide +kernel)
  have hthree : ¬ 3 < n := by
    intro hlt
    exact absurd (hfirst.taken_below 3 (by decide) hlt) (by decide +kernel)
  obtain rfl : n = 3 := by
    have hstart := hfirst.start_le
    omega
  rw [he]
  decide +kernel

end RpcBindings.Binding

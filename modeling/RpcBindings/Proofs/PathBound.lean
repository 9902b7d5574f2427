import Mathlib.Data.List.Nodup
import Mathlib.Data.List.Perm.Subperm
import Mathlib.Data.Nat.Digits.Defs
import RpcBindings.Proofs.LoadRuns

/-! # A load never runs out of its bound

The recursion of a load through imports is bounded by a number that is larger than the number
of paths the system takes.  A path is a text of at most `Store.maxPathBytes` bytes, and the
bytes of a text, read as digits, are a number that tells the text from all others; so a list
of different paths that can be read is shorter than the bound (`length_lt_pathBound`).  What a
load needs of this is said by `Room`: how many files there are still to be opened, when some
have been opened already.
-/
namespace RpcBindings

namespace Text

/-- The bytes of a text in UTF-8. -/
def utf8 (text : String) : List UInt8 :=
  text.toList.flatMap String.utf8EncodeChar

theorem length_utf8 (text : String) : (utf8 text).length = byteLength text.toList := by
  unfold utf8
  induction text.toList with
  | nil => rfl
  | cons c cs ih =>
    rw [List.flatMap_cons, List.length_append, ih, String.length_utf8EncodeChar, byteLength_cons]

theorem utf8_injective : Function.Injective utf8 := by
  intro s t h
  have hbytes : ∀ text : String, (utf8 text).toByteArray = text.toByteArray := by
    intro text
    rw [utf8, ← List.utf8Encode, ← String.toByteArray_ofList, String.ofList_toList]
  rw [← String.toByteArray_inj, ← hbytes, ← hbytes, h]

/-- The number with the bytes of a text as its digits, the first byte last.  A one in front of
them keeps texts of different lengths apart. -/
def number (text : String) : Nat :=
  Nat.ofDigits 256 ((utf8 text).map UInt8.toNat ++ [1])

theorem digit_lt {text : String} : ∀ d ∈ (utf8 text).map UInt8.toNat ++ [1], d < 256 := by
  intro d hd
  rcases List.mem_append.mp hd with hd | hd
  · obtain ⟨b, _, rfl⟩ := List.mem_map.mp hd
    exact b.toNat_lt
  · rw [List.mem_singleton.mp hd]
    decide

theorem digits_number (text : String) :
    Nat.digits 256 (number text) = (utf8 text).map UInt8.toNat ++ [1] := by
  refine Nat.digits_ofDigits 256 (by decide) _ digit_lt ?_
  intro _
  rw [List.getLast_concat]
  exact Nat.one_ne_zero

theorem number_injective : Function.Injective number := by
  intro s t h
  have hdigits := congrArg (Nat.digits 256) h
  rw [digits_number, digits_number] at hdigits
  have hbytes := List.append_cancel_right hdigits
  exact utf8_injective (List.map_injective_iff.mpr (fun a b => UInt8.toNat_inj.mp) hbytes)

theorem number_ne_zero (text : String) : number text ≠ 0 := by
  intro h
  have hdigits := digits_number text
  rw [h, Nat.digits_zero] at hdigits
  exact absurd hdigits.symm (List.append_ne_nil_of_right_ne_nil _ (List.cons_ne_nil _ _))

theorem number_lt {text : String} {n : Nat} (h : byteLength text.toList ≤ n) :
    number text < 256 ^ (n + 1) := by
  have hlt := Nat.ofDigits_lt_base_pow_length (by decide : 1 < 256) (@digit_lt text)
  rw [List.length_append, List.length_map, length_utf8, List.length_singleton] at hlt
  exact Nat.lt_of_lt_of_le hlt (Nat.pow_le_pow_right (by decide) (Nat.succ_le_succ h))

/-- **Texts of at most `n` bytes are fewer than the numbers of `n + 1` bytes.** -/
theorem length_lt_of_byteLength_le {texts : List String} {n : Nat} (hnodup : texts.Nodup)
    (h : ∀ text ∈ texts, byteLength text.toList ≤ n) : texts.length < 256 ^ (n + 1) := by
  have hzero : 0 ∉ texts.map number := by
    intro hmem
    obtain ⟨text, _, hnumber⟩ := List.mem_map.mp hmem
    exact number_ne_zero text hnumber
  have hnumbers : (0 :: texts.map number).Nodup :=
    List.nodup_cons.mpr ⟨hzero, hnodup.map number_injective⟩
  have hsubset : 0 :: texts.map number ⊆ List.range (256 ^ (n + 1)) := by
    intro k hk
    rw [List.mem_range]
    rcases List.mem_cons.mp hk with rfl | hk
    · exact Nat.pow_pos (by decide)
    · obtain ⟨text, htext, rfl⟩ := List.mem_map.mp hk
      exact number_lt (h text htext)
  have hlength := (hnumbers.subperm hsubset).length_le
  rwa [List.length_cons, List.length_map, List.length_range] at hlength

end Text

namespace Schema

open RpcBindings.Disk

/-- A path that leads to a file is not longer than the system takes. -/
theorem byteLength_le_of_readContent {disk : Store} {path : Path} {content : Content}
    (h : disk.readContent path = .ok content) :
    Text.byteLength path.toList ≤ Store.maxPathBytes := by
  apply Classical.byContradiction
  intro hlong
  have hcheck : ∃ fault, Store.checkPath path = .error fault := by
    unfold Store.checkPath
    split
    · exact ⟨_, rfl⟩
    · split
      · exact ⟨_, rfl⟩
      · rw [if_pos (Nat.lt_of_not_le hlong)]
        exact ⟨_, rfl⟩
  obtain ⟨fault, hfault⟩ := hcheck
  rw [Store.readContent, Store.locate, hfault] at h
  cases h

theorem byteLength_le_of_readText {disk : Store} {path : Path} {text : String}
    (h : disk.readText path = .ok text) : Text.byteLength path.toList ≤ Store.maxPathBytes := by
  obtain ⟨content, hcontent, -⟩ := bind_eq_ok.mp h
  exact byteLength_le_of_readContent hcontent

theorem byteLength_le_of_isFile {disk : Store} {path : Path} (h : disk.isFile path = true) :
    Text.byteLength path.toList ≤ Store.maxPathBytes := by
  unfold Store.isFile at h
  split at h
  · next hcontent => exact byteLength_le_of_readContent hcontent
  · cases h

/-- **Different paths that can be read are fewer than the bound of a load.** -/
theorem length_lt_pathBound {disk : Store} {paths : List Path} (hnodup : paths.Nodup)
    (hread : ∀ p ∈ paths, ∃ text, disk.readText p = .ok text) : paths.length < pathBound := by
  have hshort : ∀ p ∈ paths, Text.byteLength p.toList ≤ Store.maxPathBytes := by
    intro p hp
    obtain ⟨text, htext⟩ := hread p hp
    exact byteLength_le_of_readText htext
  -- the bound is not to be computed, so the length of paths is forgotten first
  unfold pathBound
  generalize Store.maxPathBytes = n at hshort ⊢
  exact Text.length_lt_of_byteLength_le hnodup hshort

/-- No path in `seen` has the components of `path`. -/
def Fresh (seen : List Path) (path : Path) : Prop :=
  ∀ p ∈ seen, Differ p path

/-- Fewer than `bound` files can be read whose paths differ from each other and from those in
`seen`. -/
def Room (disk : Store) (bound : Nat) (seen : List Path) : Prop :=
  ∀ more : List Path, more.Pairwise Differ →
    (∀ p ∈ more, (∃ text, disk.readText p = .ok text) ∧ Fresh seen p) → more.length < bound

section Room
variable {disk : Store} {bound : Nat} {seen : List Path}

theorem room_start (disk : Store) : Room disk pathBound [] := by
  intro more hdistinct hmore
  exact length_lt_pathBound (hdistinct.imp Differ.ne) fun p hp => (hmore p hp).1

theorem Room.pos (h : Room disk bound seen) : 0 < bound :=
  h [] List.Pairwise.nil fun _ hp => absurd hp List.not_mem_nil

/-- Files that are opened take no room from others. -/
theorem Room.mono {seen' : List Path} (h : Room disk bound seen) (hsub : seen ⊆ seen') :
    Room disk bound seen' := by
  intro more hdistinct hmore
  refine h more hdistinct fun p hp => ?_
  exact ⟨(hmore p hp).1, fun q hq => (hmore p hp).2 q (hsub hq)⟩

/-- A file that is opened takes room for one. -/
theorem Room.open {path : Path} {text : String} (h : Room disk (bound + 1) seen)
    (hread : disk.readText path = .ok text) (hnew : Fresh seen path) :
    Room disk bound (seen ++ [path]) := by
  intro more hdistinct hmore
  have hlength : (path :: more).length < bound + 1 := by
    refine h (path :: more) (List.pairwise_cons.mpr ⟨?_, hdistinct⟩) ?_
    · intro p hp
      exact (hmore p hp).2 path (List.mem_append_right _ (List.mem_singleton.mpr rfl))
    · intro p hp
      rcases List.mem_cons.mp hp with rfl | hp
      · exact ⟨⟨text, hread⟩, hnew⟩
      · exact ⟨(hmore p hp).1, fun q hq => (hmore p hp).2 q (List.mem_append_left _ hq)⟩
  rw [List.length_cons] at hlength
  omega

end Room

end Schema

end RpcBindings

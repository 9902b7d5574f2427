import Mathlib.Data.List.Chain
import Mathlib.Data.List.DropRight
import RpcBindings.TypeScript.Class

/-! # Empty lines in class bodies

A class is put together by calls, each of which adds a member or asks for an empty line.  Two rules
keep the empty lines in order, and neither is enough: a call drops what would stand at the start or
behind another empty line, and writing drops what nothing follows.  The first is an invariant of the
calls (`Tidy`), and the second cuts off a tail of the members that holds nothing else
(`writtenMembers_append`).

Between two members that are asked for one after the other there is therefore an empty line when one
was asked for in between, however often, and none otherwise (`Spaced`).
-/
namespace RpcBindings.Layout

/-- Whether the fragment is an empty line. -/
def Fragment.isBlank : Fragment → Bool
  | .blank => true
  | _ => false

end RpcBindings.Layout

namespace RpcBindings.TypeScript

open RpcBindings.Layout

/-! ## What is written -/

section Written
variable {c : ClassDecl}

theorem writtenMembers_eq (c : ClassDecl) :
    c.writtenMembers = c.members.rdropWhile Member.isBlank := rfl

/-- Only empty lines are dropped. -/
theorem filter_rdropWhile (ms : List Member) :
    (ms.rdropWhile Member.isBlank).filter (fun m => !m.isBlank) =
      ms.filter fun m => !m.isBlank := by
  have htail : (ms.rtakeWhile Member.isBlank).filter (fun m => !m.isBlank) = [] := by
    rw [List.filter_eq_nil_iff]
    intro m hm
    simp [List.mem_rtakeWhile_imp hm]
  have hsplit := congrArg (List.filter fun m => !m.isBlank)
    (@List.rdropWhile_append_rtakeWhile _ Member.isBlank ms)
  rw [List.filter_append, htail, List.append_nil] at hsplit
  exact hsplit

/-- Nothing is dropped up to a member that is not an empty line. -/
theorem writtenMembers_append {before after : List Member} {m : Member}
    (hmembers : c.members = before ++ m :: after) (hm : m.isBlank = false) :
    c.writtenMembers = before ++ m :: after.rdropWhile Member.isBlank := by
  rw [writtenMembers_eq, hmembers]
  clear hmembers
  induction after using List.reverseRecOn with
  | nil => exact List.rdropWhile_concat_neg _ _ _ (by simp [hm])
  | append_singleton after last ih =>
    have hassoc : before ++ m :: (after ++ [last]) = (before ++ m :: after) ++ [last] := by simp
    rw [hassoc]
    by_cases hlast : last.isBlank = true
    · rw [List.rdropWhile_concat_pos _ _ _ hlast, List.rdropWhile_concat_pos _ _ _ hlast, ih]
    · rw [List.rdropWhile_concat_neg _ _ _ hlast, List.rdropWhile_concat_neg _ _ _ hlast, hassoc]

/-- The last member is something, so a blank that follows it is kept. -/
def EndsInMember (c : ClassDecl) : Prop :=
  ∃ before m, c.members = before ++ [m] ∧ m.isBlank = false

theorem endsInMember_add (c : ClassDecl) {m : Member} (h : m.isBlank = false) :
    EndsInMember (c.add m) :=
  ⟨c.members, m, rfl, h⟩

theorem EndsInMember.addBlank (h : EndsInMember c) : c.addBlank = c.add .blank := by
  obtain ⟨before, m, hmembers, hm⟩ := h
  have hlast : c.members.getLast? = some m := by rw [hmembers, List.getLast?_concat]
  rw [ClassDecl.addBlank, hlast]
  cases m with
  | blank => cases hm
  | field => rfl
  | method => rfl
  | comment => rfl

/-- Nothing is dropped when the class is written. -/
theorem EndsInMember.writtenMembers (h : EndsInMember c) : c.writtenMembers = c.members := by
  obtain ⟨before, m, hmembers, hm⟩ := h
  rw [writtenMembers_append hmembers hm, hmembers, List.rdropWhile_nil]

end Written

/-! ## Calls -/

namespace ClassDecl

/-- One call: a member is added, or an empty line is asked for. -/
def call (c : ClassDecl) : Member → ClassDecl
  | .field declaration => c.addField declaration
  | .method m => c.addMethod m
  | .comment text => c.addComment text
  | .blank => c.addBlank

/-- Calls one after the other. -/
def callAll (c : ClassDecl) (asked : List Member) : ClassDecl := asked.foldl call c

end ClassDecl

section Calls
variable {c : ClassDecl}

theorem call_eq_add (c : ClassDecl) {m : Member} (h : m.isBlank = false) : c.call m = c.add m := by
  cases m with
  | blank => cases h
  | field => rfl
  | method => rfl
  | comment => rfl

theorem eq_blank {m : Member} (h : m.isBlank = true) : m = .blank := by
  cases m with
  | blank => rfl
  | field => cases h
  | method => cases h
  | comment => cases h

/-- An empty line is added behind a member and nowhere else. -/
theorem addBlank_cases (c : ClassDecl) :
    (EndsInMember c ∧ c.addBlank = c.add .blank) ∨ (¬ EndsInMember c ∧ c.addBlank = c) := by
  by_cases h : EndsInMember c
  · exact .inl ⟨h, h.addBlank⟩
  · refine .inr ⟨h, ?_⟩
    rw [ClassDecl.addBlank]
    split
    · rfl
    · rfl
    · next m hm hlast =>
      obtain ⟨before, hmembers⟩ := List.getLast?_eq_some_iff.mp hlast
      refine absurd ⟨before, m, hmembers, ?_⟩ h
      cases m with
      | blank => exact absurd rfl hm
      | field => rfl
      | method => rfl
      | comment => rfl

theorem callAll_append (c : ClassDecl) (asked more : List Member) :
    c.callAll (asked ++ more) = (c.callAll asked).callAll more :=
  List.foldl_append

theorem callAll_member (c : ClassDecl) {m : Member} (h : m.isBlank = false) (asked : List Member) :
    c.callAll (m :: asked) = (c.add m).callAll asked := by
  rw [← call_eq_add c h]
  rfl

theorem exists_members_call (c : ClassDecl) (m : Member) :
    ∃ added, (c.call m).members = c.members ++ added ∧
      added.filter (fun m => !m.isBlank) = [m].filter fun m => !m.isBlank := by
  cases hm : m.isBlank with
  | false => exact ⟨[m], by rw [call_eq_add c hm, ClassDecl.add], rfl⟩
  | true =>
    obtain rfl := eq_blank hm
    rcases addBlank_cases c with ⟨-, he⟩ | ⟨-, he⟩
    · exact ⟨[.blank], by rw [ClassDecl.call, he, ClassDecl.add], rfl⟩
    · exact ⟨[], by rw [ClassDecl.call, he, List.append_nil], rfl⟩

/-- Calls leave the members that there are and add those that are asked for. -/
theorem exists_members_callAll (c : ClassDecl) (asked : List Member) :
    ∃ added, (c.callAll asked).members = c.members ++ added ∧
      added.filter (fun m => !m.isBlank) = asked.filter fun m => !m.isBlank := by
  induction asked generalizing c with
  | nil => exact ⟨[], (List.append_nil _).symm, rfl⟩
  | cons m asked ih =>
    obtain ⟨here, hhere, hm⟩ := exists_members_call c m
    obtain ⟨later, hlater, hasked⟩ := ih (c.call m)
    refine ⟨here ++ later, ?_, ?_⟩
    · rw [← List.append_assoc, ← hhere]
      exact hlater
    · rw [List.filter_append, hm, hasked, ← List.filter_append, List.singleton_append]

theorem callAll_blanks_of_not_endsInMember (h : ¬ EndsInMember c) {blanks : List Member}
    (hblanks : ∀ m ∈ blanks, m.isBlank = true) : c.callAll blanks = c := by
  induction blanks with
  | nil => rfl
  | cons m blanks ih =>
    rw [List.forall_mem_cons] at hblanks
    obtain rfl := eq_blank hblanks.1
    have hcall : c.call .blank = c :=
      ((addBlank_cases c).resolve_left fun hends => h hends.1).2
    rw [ClassDecl.callAll, List.foldl_cons, hcall]
    exact ih hblanks.2

theorem not_endsInMember_blank (c : ClassDecl) : ¬ EndsInMember (c.add .blank) := by
  rintro ⟨before, m, hmembers, hm⟩
  obtain ⟨-, rfl⟩ := List.append_singleton_inj.mp hmembers
  cases hm

/-- Behind a member, empty lines that are asked for are one empty line. -/
theorem members_callAll_blanks (h : EndsInMember c) {blanks : List Member}
    (hblanks : ∀ m ∈ blanks, m.isBlank = true) :
    (c.callAll blanks).members = c.members ++ if blanks.isEmpty then [] else [.blank] := by
  cases blanks with
  | nil => exact (List.append_nil _).symm
  | cons m blanks =>
    rw [List.forall_mem_cons] at hblanks
    obtain rfl := eq_blank hblanks.1
    have hcall : c.call .blank = c.add .blank := h.addBlank
    rw [ClassDecl.callAll, List.foldl_cons, hcall]
    exact congrArg ClassDecl.members
      (callAll_blanks_of_not_endsInMember (not_endsInMember_blank c) hblanks.2)

end Calls

/-! ## The invariant -/

/-- Members do not start with an empty line, and no two empty lines stand next to each other. -/
structure Tidy (ms : List Member) : Prop where
  head : ∀ m ∈ ms.head?, m.isBlank = false
  chain : ms.IsChain fun a b => a.isBlank = false ∨ b.isBlank = false

section Tidy
variable {c : ClassDecl}

theorem Tidy.nil : Tidy [] := ⟨nofun, .nil⟩

/-- A member goes behind everything, and an empty line goes behind a member. -/
theorem Tidy.add (h : Tidy c.members) {m : Member} (hm : m.isBlank = false ∨ EndsInMember c) :
    Tidy (c.add m).members := by
  constructor
  · intro first hfirst
    cases hmembers : c.members with
    | nil =>
      rw [ClassDecl.add, hmembers] at hfirst
      obtain rfl : m = first := Option.some.inj hfirst
      refine hm.resolve_right ?_
      rintro ⟨before, last, hends, -⟩
      rw [hmembers] at hends
      exact List.append_ne_nil_of_right_ne_nil before (List.cons_ne_nil last []) hends.symm
    | cons d ds =>
      rw [ClassDecl.add, hmembers] at hfirst
      exact h.head first (by rw [hmembers]; exact hfirst)
  · refine List.isChain_append.mpr ⟨h.chain, .singleton m, fun last hlast y hy => ?_⟩
    obtain rfl : m = y := Option.some.inj hy
    rcases hm with hm | ⟨before, last', hends, hlast'⟩
    · exact .inr hm
    · rw [hends, List.getLast?_concat] at hlast
      obtain rfl : last' = last := Option.some.inj hlast
      exact .inl hlast'

theorem Tidy.call (h : Tidy c.members) (m : Member) : Tidy (c.call m).members := by
  cases hm : m.isBlank with
  | false =>
    rw [call_eq_add c hm]
    exact h.add (.inl hm)
  | true =>
    obtain rfl := eq_blank hm
    rcases addBlank_cases c with ⟨hends, he⟩ | ⟨-, he⟩
    · rw [ClassDecl.call, he]
      exact h.add (.inr hends)
    · rw [ClassDecl.call, he]
      exact h

theorem Tidy.callAll (h : Tidy c.members) (asked : List Member) :
    Tidy (c.callAll asked).members := by
  induction asked generalizing c with
  | nil => exact h
  | cons m asked ih => exact ih (h.call m)

/-- Writing a class keeps this, since it drops members at the end only. -/
theorem Tidy.written (h : Tidy c.members) : Tidy c.writtenMembers := by
  have hsplit := @List.rdropWhile_append_rtakeWhile _ Member.isBlank c.members
  constructor
  · intro first hfirst
    refine h.head first ?_
    rw [← hsplit, List.head?_append, ← writtenMembers_eq, Option.mem_def.mp hfirst]
    rfl
  · have hchain := h.chain
    rw [← hsplit] at hchain
    exact hchain.left_of_append

theorem getLast?_writtenMembers (c : ClassDecl) :
    ∀ m ∈ c.writtenMembers.getLast?, m.isBlank = false := by
  intro m hm
  obtain ⟨hne, hlast⟩ := List.mem_getLast?_eq_getLast hm
  rw [hlast]
  exact Bool.eq_false_iff.mpr (List.rdropWhile_last_not _ _ hne)

end Tidy

/-! ## The body of a class -/

/-- Code without its empty lines. -/
def solid (body : List Fragment) : List Fragment := body.filter fun f => !f.isBlank

/-- The code of the members among what is asked for. -/
def added (asked : List Member) : List Fragment :=
  (asked.filter fun m => !m.isBlank).map Member.fragment

theorem isBlank_fragment (m : Member) : m.fragment.isBlank = m.isBlank := by
  cases m with
  | method m =>
    simp only [Member.fragment, Method.fragment]
    split <;> rfl
  | _ => rfl

theorem solid_map_fragment (ms : List Member) : solid (ms.map Member.fragment) = added ms := by
  rw [solid, added, List.filter_map]
  simp only [Function.comp_def, isBlank_fragment]

theorem added_rdropWhile (ms : List Member) : added (ms.rdropWhile Member.isBlank) = added ms :=
  congrArg (List.map Member.fragment) (filter_rdropWhile ms)

/-- The body of a class for what has been asked for, in order. -/
structure Spaced (asked : List Member) (body : List Fragment) : Prop where
  leading : ∀ f ∈ body.head?, f.isBlank = false
  trailing : ∀ f ∈ body.getLast?, f.isBlank = false
  adjacent : body.IsChain fun f g => f.isBlank = false ∨ g.isBlank = false
  /-- Its members are those that were asked for. -/
  solid_eq : solid body = added asked
  /-- Two members with nothing but empty lines asked for between them have one between them if any
  was asked for, and stand next to each other otherwise. -/
  between : ∀ before a blanks b after, asked = before ++ a :: (blanks ++ b :: after) →
    a.isBlank = false → b.isBlank = false → (∀ m ∈ blanks, m.isBlank = true) →
    ∃ left right, solid left = added before ∧ solid right = added after ∧
      body = left ++ a.fragment ::
        ((if blanks.isEmpty then [] else [.blank]) ++ b.fragment :: right)

section Body
variable {start : ClassDecl}

theorem added_members_callAll (hstart : start.members = []) (asked : List Member) :
    added (start.callAll asked).members = added asked := by
  obtain ⟨members, hmembers, hadded⟩ := exists_members_callAll start asked
  rw [hmembers, hstart, List.nil_append]
  exact congrArg (List.map Member.fragment) hadded

/-- What is written for two members and the empty lines between them. -/
theorem writtenMembers_between (start : ClassDecl) (before after : List Member) {a b : Member}
    (ha : a.isBlank = false) (hb : b.isBlank = false) {blanks : List Member}
    (hblanks : ∀ m ∈ blanks, m.isBlank = true) :
    ∃ right, added right = added after ∧
      (start.callAll (before ++ a :: (blanks ++ b :: after))).writtenMembers =
        (start.callAll before).members ++
          a :: ((if blanks.isEmpty then [] else [.blank]) ++ b :: right) := by
  have hgap := members_callAll_blanks (endsInMember_add (start.callAll before) ha) hblanks
  -- what is asked for behind the second member goes behind it, so that it is not cut off
  obtain ⟨more, hmore, hadded⟩ :=
    exists_members_callAll ((((start.callAll before).add a).callAll blanks).add b) after
  have hmembers : (start.callAll (before ++ a :: (blanks ++ b :: after))).members =
      ((start.callAll before).members ++ a :: if blanks.isEmpty then [] else [.blank]) ++
        b :: more := by
    rw [callAll_append, callAll_member _ ha, callAll_append, callAll_member _ hb, hmore,
      ClassDecl.add, hgap, ClassDecl.add]
    simp
  refine ⟨more.rdropWhile Member.isBlank, ?_, ?_⟩
  · rw [added_rdropWhile]
    exact congrArg (List.map Member.fragment) hadded
  · rw [writtenMembers_append hmembers hb]
    simp

end Body

/-- **Class bodies are spaced.**  Whatever is asked for, from a class without members on, the body
of the class neither starts nor ends with an empty line and has no two of them in a row; its members
are those that were asked for, in order; and there is an empty line between two that follow each
other just when one was asked for in between. -/
theorem class_bodies_spaced (name : String) (isAbstract : Bool) (base : Option String)
    (asked : List Member) :
    ∃ header body, (({ name, isAbstract, base } : ClassDecl).callAll asked).fragments =
      [.block header body (some "\x7d")] ∧ Spaced asked body := by
  let start : ClassDecl := { name, isAbstract, base }
  have htidy : Tidy (start.callAll asked).writtenMembers := (Tidy.nil.callAll asked).written
  refine ⟨_, (start.callAll asked).writtenMembers.map Member.fragment, rfl, ?_, ?_, ?_, ?_, ?_⟩
  · rw [List.head?_map]
    intro f hf
    obtain ⟨m, hm, rfl⟩ := Option.map_eq_some_iff.mp hf
    rw [isBlank_fragment]
    exact htidy.head m hm
  · rw [List.getLast?_map]
    intro f hf
    obtain ⟨m, hm, rfl⟩ := Option.map_eq_some_iff.mp hf
    rw [isBlank_fragment]
    exact getLast?_writtenMembers _ m hm
  · rw [List.isChain_map]
    simp only [isBlank_fragment]
    exact htidy.chain
  · rw [solid_map_fragment, writtenMembers_eq, added_rdropWhile]
    exact added_members_callAll rfl asked
  · rintro before a blanks b after rfl ha hb hblanks
    obtain ⟨right, hright, hwritten⟩ := writtenMembers_between start before after ha hb hblanks
    refine ⟨(start.callAll before).members.map Member.fragment, right.map Member.fragment,
      ?_, ?_, ?_⟩
    · rw [solid_map_fragment]
      exact added_members_callAll rfl before
    · rw [solid_map_fragment, hright]
    · rw [hwritten]
      cases blanks <;> simp [Member.fragment]

end RpcBindings.TypeScript

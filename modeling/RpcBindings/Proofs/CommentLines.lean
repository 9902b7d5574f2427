import RpcBindings.Proofs.MethodNames
import RpcBindings.Proofs.SourceNames
import RpcBindings.Proofs.TextLines
import RpcBindings.Proofs.WrittenText

/-! # Comments in generated code

A method that is left out is marked by a line comment, and the comment is made of the names of
the method and of its open types.  Names are written as they are.  A name from a document may hold
a line end, and what follows the line end is then a line of code.

Which runs are affected is exactly known.  The comments add nothing to a bindings file but empty
lines and lines that are comments, and no part of a name starts a line, if and only if the text of
no comment has a line end before its last character (`contained_iff`).  Schemas from sources alone
are never affected, since their names and types hold only the characters of words and dots
(`free_comment_of_sources`).
-/
namespace RpcBindings.Generate

open RpcBindings.Binding
open RpcBindings.Emit
open RpcBindings.Layout (Indent)
open RpcBindings.Schema (Root)
open RpcBindings.Text (LineEnds Interleaved Remark isMargin isPlain)

/-! ## The text of a comment -/

section Comment
variable {e : LineEnds}

theorem free_literal {s : String} (h : s.toList.all isPlain = true) : e.Free s.toList :=
  fun c hc => e.plain c (List.all_eq_true.mp h c hc)

theorem confined_joined {names : List String}
    (hnames : ∀ name ∈ names, e.Confined name.toList)
    (hgoes : e.GoesOnInRemarks (", ".intercalate names).toList) :
    e.Confined (", ".intercalate names).toList := by
  induction names with
  | nil => exact LineEnds.free_nil
  | cons name rest ih =>
    cases rest with
    | nil => simpa using hnames name (List.mem_cons_self ..)
    | cons next rest =>
      have hjoined : (", ".intercalate (name :: next :: rest)).toList =
          name.toList ++ ',' :: ([' '] ++ (", ".intercalate (next :: rest)).toList) := by
        simp [String.intercalate_cons_cons]
      rw [hjoined] at hgoes ⊢
      have hname := LineEnds.free_of_goesOnInRemarks (e.plain ',' (by decide)) (by decide)
        (by decide) hgoes (hnames name (List.mem_cons_self ..))
      have hcomma : e.Free [',', ' '] := free_literal (s := ", ") (by decide)
      rw [LineEnds.goesOnInRemarks_append hname] at hgoes
      refine hname.confined_append (hcomma.confined_append (ih ?_ ?_))
      · exact fun other hother => hnames other (List.mem_cons_of_mem _ hother)
      · exact (LineEnds.goesOnInRemarks_append hcomma _).mp hgoes

theorem confined_of_joined {names : List String}
    (h : e.Confined (", ".intercalate names).toList) :
    ∀ name ∈ names, e.Confined name.toList := by
  induction names with
  | nil => exact List.forall_mem_nil _
  | cons name rest ih =>
    cases rest with
    | nil => simpa using h
    | cons next rest =>
      rw [String.intercalate_cons_cons, String.toList_append, String.toList_append] at h
      rw [List.forall_mem_cons]
      exact ⟨h.of_append.1.of_append.1, ih h.of_append.2⟩

/-- **A comment stays on its line exactly when it goes on in remarks and no part of a name starts
a line.** -/
theorem confined_comment_iff (o : Omission) :
    e.Confined (omissionComment o).toList ↔
      e.GoesOnInRemarks (omissionComment o).toList ∧
        ∀ name ∈ o.name :: o.unresolved, e.Confined name.toList := by
  have hskipped : e.Free ": skipped, unresolved type ".toList := free_literal (by decide)
  have hcomment : (omissionComment o).toList = o.name.toList ++
      (": skipped, unresolved type ".toList ++ (", ".intercalate o.unresolved).toList) := by
    simp [omissionComment]
  rw [hcomment, List.forall_mem_cons]
  constructor
  · intro h
    obtain ⟨hname, hrest⟩ := h.of_append
    exact ⟨h.goesOnInRemarks, hname, confined_of_joined hrest.of_append.2⟩
  · rintro ⟨hgoes, hname, htypes⟩
    -- the name is followed by a colon, which no comment starts with
    have hfree : e.Free o.name.toList :=
      LineEnds.free_of_goesOnInRemarks (e.plain ':' (by decide)) (by decide) (by decide) hgoes hname
    rw [LineEnds.goesOnInRemarks_append hfree, LineEnds.goesOnInRemarks_append hskipped] at hgoes
    exact hfree.confined_append (hskipped.confined_append (confined_joined htypes hgoes))

end Comment

/-! ## The lines of a bindings file -/

section Lines
variable (e : LineEnds)

/-- The lines that the note on a method that is left out adds. -/
def noteLines (indent : Indent) (o : Omission) : List (List Char) :=
  [] :: e.lines (indent.unit.toList ++ ("// " ++ omissionComment o).toList)

theorem isMargin_unit (indent : Indent) : ∀ c ∈ indent.unit.toList, isMargin c = true := by
  rw [← List.all_eq_true]
  unfold Indent.unit
  split <;> decide

/-- The lines of a note are remarks exactly when its comment goes on in remarks. -/
theorem remark_noteLines_iff (indent : Indent) (o : Omission) :
    (∀ line ∈ noteLines e indent o, Remark line) ↔
      e.GoesOnInRemarks (omissionComment o).toList := by
  have hstart : e.Free (indent.unit.toList ++ ['/', '/', ' ']) := by
    refine LineEnds.Free.append (fun c hc => e.plain c ?_) (free_literal (s := "// ") (by decide))
    have hmargin := isMargin_unit indent c hc
    simp only [isMargin, Bool.or_eq_true, beq_iff_eq] at hmargin
    rcases hmargin with rfl | rfl
    · decide
    · decide
  have htext : indent.unit.toList ++ ("// " ++ omissionComment o).toList =
      indent.unit.toList ++ ['/', '/', ' '] ++ (omissionComment o).toList := by
    simp
  obtain ⟨first, rest, hcomment, hlines⟩ :=
    LineEnds.exists_lines_append hstart (omissionComment o).toList
  rw [noteLines, htext, hlines, List.forall_mem_cons, List.forall_mem_cons,
    LineEnds.GoesOnInRemarks, hcomment]
  refine ⟨fun h => h.2.2, fun h => ⟨Or.inl rfl, ?_, h⟩⟩
  rw [List.append_assoc]
  exact Text.remark_of_margin (isMargin_unit indent) (' ' :: first)

theorem lines_notes (indent : Indent) (os : List Omission) (after : List Char) :
    e.lines (os.flatMap (writtenNote indent) ++ after) =
      os.flatMap (noteLines e indent) ++ e.lines after := by
  induction os with
  | nil => rfl
  | cons o os ih =>
    have hnote : writtenNote indent o ++ (os.flatMap (writtenNote indent) ++ after) =
        [] ++ '\n' :: (indent.unit.toList ++ ("// " ++ omissionComment o).toList ++
          '\n' :: (os.flatMap (writtenNote indent) ++ after)) := by
      simp [writtenNote, Layout.lineAt]
    rw [List.flatMap_cons, List.append_assoc, hnote, LineEnds.lines_append_newline,
      LineEnds.lines_append_newline, ih, LineEnds.lines_of_free LineEnds.free_nil,
      List.flatMap_cons, noteLines]
    simp

theorem interleaved_noted {indent : Indent} {os : List Omission} {plain noted : List Char}
    (h : Noted indent os plain noted) :
    Interleaved (e.lines plain) (os.flatMap (noteLines e indent)) (e.lines noted) := by
  obtain ⟨before, after, rfl, rfl⟩ := h
  rw [LineEnds.lines_append_newline, LineEnds.lines_append_newline, lines_notes]
  have hnotes := (Interleaved.addAll (os.flatMap (noteLines e indent))).append
    (.refl (e.lines after))
  simpa using (Interleaved.refl (e.lines before)).append hnotes

theorem lines_sections {α : Type} (start : List Char) (text : α → List Char) (xs : List α) :
    e.lines (start ++ xs.flatMap fun x => '\n' :: text x) =
      e.lines start ++ xs.flatMap fun x => e.lines (text x) := by
  induction xs generalizing start with
  | nil => simp
  | cons x xs ih =>
    have hhead : start ++ (x :: xs).flatMap (fun x => '\n' :: text x) =
        start ++ '\n' :: text x ++ xs.flatMap fun x => '\n' :: text x := by
      simp
    rw [hhead, ih, LineEnds.lines_append_newline, List.flatMap_cons, List.append_assoc]

/-- **The comments of a run put the lines of their notes into the bindings, and nothing else.** -/
theorem interleaved_bindings (options : Options) (roots : List Root) :
    Interleaved (e.lines (run options .skip roots).bindings.toList)
      ((omissionsMet roots ++ omissionsMet roots).flatMap (noteLines e options.indent))
      (e.lines (run options .comment roots).bindings.toList) := by
  have hlines : ∀ policy, e.lines (run options policy roots).bindings.toList =
      e.lines (options.bindingsHeader (Registry.ofRoots roots)).toList ++
        ((Tour.ofRoots roots).services.flatMap fun s =>
          e.lines (options.client (policy.shown (.ofService .client s))).toList) ++
        ((Tour.ofRoots roots).services.flatMap fun s =>
          e.lines (options.server (policy.shown (.ofService .server s))).toList) := by
    intro policy
    rw [toList_bindings, shownModels, shownModels, List.flatMap_map, List.flatMap_map,
      lines_sections, lines_sections]
  rw [hlines, hlines, List.flatMap_append, omissionsMet, List.flatMap_assoc]
  have hheader := Interleaved.refl
    (e.lines (options.bindingsHeader (Registry.ofRoots roots)).toList)
  refine (hheader.append (.flatMap fun s _ => ?_)).append (.flatMap fun s _ => ?_)
  · exact interleaved_noted e (noted_client options (.ofService .client s))
  · exact interleaved_noted e (noted_server options (.ofService .server s))

/-- What the comments of a run may do to its bindings. -/
structure CommentsContained (options : Options) (roots : List Root) : Prop where
  /-- The bindings are those without comments with empty lines and comments put in. -/
  lines : ∃ added, Interleaved (e.lines (run options .skip roots).bindings.toList) added
    (e.lines (run options .comment roots).bindings.toList) ∧ ∀ line ∈ added, Remark line
  /-- No part of the name of a method that is left out or of its open types starts a line. -/
  names : ∀ o ∈ omissionsMet roots, ∀ name ∈ o.name :: o.unresolved, e.Confined name.toList

/-- **Comments are contained exactly when none of them has a line end before its last
character.** -/
theorem contained_iff (options : Options) (roots : List Root) :
    CommentsContained e options roots ↔
      ∀ o ∈ omissionsMet roots, e.Confined (omissionComment o).toList := by
  have hlines := (interleaved_bindings e options roots).forall_added (P := Remark)
  have hnotes : (∀ line ∈ (omissionsMet roots ++ omissionsMet roots).flatMap
      (noteLines e options.indent), Remark line) ↔
      ∀ o ∈ omissionsMet roots, e.GoesOnInRemarks (omissionComment o).toList := by
    simp only [List.mem_flatMap, List.mem_append, or_self, forall_exists_index, and_imp,
      ← remark_noteLines_iff e options.indent]
    exact ⟨fun h o ho line hline => h line o ho hline, fun h line o ho hline => h o ho line hline⟩
  constructor
  · rintro ⟨hadded, hnames⟩ o ho
    exact (confined_comment_iff o).mpr ⟨hnotes.mp (hlines.mp hadded) o ho, hnames o ho⟩
  · intro h
    refine ⟨hlines.mpr (hnotes.mpr fun o ho => ?_), fun o ho => ?_⟩
    · exact ((confined_comment_iff o).mp (h o ho)).1
    · exact ((confined_comment_iff o).mp (h o ho)).2

end Lines

/-! ## Comments on methods from sources -/

section Sources

open RpcBindings.Disk
open RpcBindings.Proto (Decl IsDotted IsIdentifier declTypes)
open RpcBindings.Schema

theorem isPlain_of_isWordPart {c : Char} (h : Proto.isWordPart c = true) : isPlain c = true := by
  have hranges : Proto.isWordPart c = (decide (c.val ≥ 'A'.val ∧ c.val ≤ 'Z'.val) ||
      (decide (c.val ≥ 'a'.val) && decide (c.val ≤ 'z'.val)) ||
      (decide (c.val ≥ '0'.val) && decide (c.val ≤ '9'.val)) || c == '_') := rfl
  simp only [hranges, Bool.or_eq_true, Bool.and_eq_true, decide_eq_true_eq, beq_iff_eq] at h
  rcases h with h | rfl
  · simp only [isPlain, Bool.or_eq_true, Bool.and_eq_true, decide_eq_true_eq, Char.le_def]
    grind
  · decide

theorem free_of_isDotted {e : LineEnds} {text : String} (h : IsDotted text) :
    e.Free text.toList := by
  intro c hc
  refine e.plain c ?_
  rcases h c hc with hpart | rfl
  · exact isPlain_of_isWordPart hpart
  · decide

theorem free_joined {e : LineEnds} {names : List String} (h : ∀ name ∈ names, e.Free name.toList) :
    e.Free (", ".intercalate names).toList := by
  induction names with
  | nil => exact LineEnds.free_nil
  | cons name rest ih =>
    obtain ⟨hname, hrest⟩ := List.forall_mem_cons.mp h
    cases rest with
    | nil => simpa using hname
    | cons next rest =>
      rw [String.intercalate_cons_cons, String.toList_append, String.toList_append]
      exact (hname.append (free_literal (by decide))).append (ih hrest)

/-- The types of the methods of a source are among those that it declares. -/
theorem mem_declTypes {parent : String} {ds : List Decl} :
    ∀ s ∈ servicesAll (declNodes parent ds), ∀ m ∈ s.methods,
      m.requestType ∈ declTypes ds ∧ m.responseType ∈ declTypes ds := by
  induction ds using decl_induction generalizing parent with
  | nil => exact fun s hs => nomatch hs
  | message name members rest ihMembers ih =>
    intro s hs m hm
    rw [declTypes, List.mem_append, List.mem_append]
    rcases List.mem_append.mp hs with hs | hs
    · exact (ihMembers s hs m hm).imp Or.inl Or.inl
    · exact (ih s hs m hm).imp Or.inr Or.inr
  | enum name rest ih => exact ih
  | service name methods rest ih =>
    intro s hs m hm
    rw [declTypes, List.mem_append, List.mem_append]
    rcases List.mem_append.mp hs with hs | hs
    · rw [List.mem_singleton.mp hs] at hm
      obtain ⟨rpc, hrpc, rfl⟩ := List.mem_map.mp hm
      refine ⟨Or.inl (List.mem_flatMap.mpr ⟨rpc, hrpc, ?_⟩),
        Or.inl (List.mem_flatMap.mpr ⟨rpc, hrpc, ?_⟩)⟩
      · exact List.mem_cons_self ..
      · exact List.mem_cons_of_mem _ (List.mem_cons_self ..)
    · exact (ih s hs m hm).imp Or.inr Or.inr

/-- The name and the types of a method that is loaded from sources hold nothing but the
characters of words and dots. -/
theorem isDotted_method {disk : Store} {includes : List Path} {entry : Path} {l : Loading}
    (h : load disk includes entry = .ok l)
    (hsources : ∀ p ∈ l.root.files, Path.hasExtension p "json" = false) {s : Service}
    (hs : s ∈ servicesAll l.root.nodes) {m : Method} (hm : m ∈ s.methods) :
    IsDotted m.name ∧ IsDotted m.requestType ∧ IsDotted m.responseType := by
  obtain ⟨_, _, hparse, hdeclared⟩ := exists_source_of_service h hsources hs
  have hname := (Proto.names_of_parse hparse).1 m.name (mem_declNames s hdeclared m hm)
  have htypes := mem_declTypes s hdeclared m hm
  exact ⟨hname.isDotted, Proto.types_of_parse hparse _ htypes.1,
    Proto.types_of_parse hparse _ htypes.2⟩

/-- What a comment on a method names are the method and its types. -/
theorem mem_written {m : Method} {o : Omission} (h : Omission.ofMethod? m = some o) :
    ∀ name ∈ o.name :: o.unresolved, name ∈ [m.name, m.requestType, m.responseType] := by
  unfold Omission.ofMethod? at h
  split at h
  · cases h
  · cases h
    intro name hname
    simp only [openTypes] at hname
    grind

/-- **No comment on a method from a source has a line end.** -/
theorem free_comment_of_sources {e : LineEnds} {disk : Store} {includes entries : List Path}
    {roots : List Root} {events : List Event}
    (hload : loadAll disk includes entries = .ok (roots, events))
    (hsources : ∀ r ∈ roots, ∀ p ∈ r.files, Path.hasExtension p "json" = false) :
    ∀ o ∈ omissionsMet roots, e.Free (omissionComment o).toList := by
  intro o ho
  obtain ⟨s, hs, ho⟩ := List.mem_flatMap.mp ho
  obtain ⟨m, hm, ho⟩ := List.mem_filterMap.mp ho
  obtain ⟨r, hr, hs⟩ := Tour.mem_servicesAll hs
  obtain ⟨entry, _, l, hl, rfl⟩ := exists_load_of_mem hload hr
  obtain ⟨written, hwritten, rfl⟩ := exists_of_mem_servicesAll hs
  obtain ⟨given, hgiven, rfl⟩ := List.mem_map.mp hm
  have hmethod := isDotted_method hl (hsources l.root.resolve hr) hwritten hgiven
  have hnames : ∀ name ∈ o.name :: o.unresolved, e.Free name.toList := by
    intro name hname
    have hmem := mem_written ho name hname
    simp only [List.mem_cons, List.not_mem_nil, or_false] at hmem
    rcases hmem with rfl | rfl | rfl
    · exact free_of_isDotted hmethod.1
    · exact free_of_isDotted hmethod.2.1
    · exact free_of_isDotted hmethod.2.2
  obtain ⟨hname, htypes⟩ := List.forall_mem_cons.mp hnames
  rw [omissionComment, String.toList_append, String.toList_append]
  exact (hname.append (free_literal (by decide))).append (free_joined htypes)

/-- **When comments cannot become code.**  The comments of a run add to the bindings nothing but
empty lines and comments, and no part of a name starts a line, exactly when no comment has a line
end before its last character.  In schemas that are loaded from sources alone no comment has. -/
theorem comments_contained (e : LineEnds) (options : Options) {disk : Store}
    {includes entries : List Path} {roots : List Root} {events : List Event}
    (hload : loadAll disk includes entries = .ok (roots, events)) :
    (CommentsContained e options roots ↔
      ∀ o ∈ omissionsMet roots, e.Confined (omissionComment o).toList) ∧
    ((∀ r ∈ roots, ∀ p ∈ r.files, Path.hasExtension p "json" = false) →
      CommentsContained e options roots) := by
  refine ⟨contained_iff e options roots, fun hsources => (contained_iff e options roots).mpr ?_⟩
  exact fun o ho => (free_comment_of_sources hload hsources o ho).confined

/-- A source with a method whose types are declared nowhere. -/
def openSource : Store :=
  { entries :=
      [(["main.proto"],
        .file (.text "service S \x7b rpc A (Missing) returns (.q.Lost); \x7d"))] }

theorem comments_contained_openSource :
    ∃ roots events, loadAll openSource [] ["main.proto"] = .ok (roots, events) ∧
      (omissionsMet roots).map omissionComment =
        ["A: skipped, unresolved type Missing, .q.Lost"] ∧
      CommentsContained .terminators {} roots := by
  have hrun : ((loadAll openSource [] ["main.proto"]).toOption.any fun (roots, _) =>
      (omissionsMet roots).map omissionComment ==
        ["A: skipped, unresolved type Missing, .q.Lost"] &&
      roots.all fun r => r.files.all fun p => !Path.hasExtension p "json") = true := by
    decide +kernel
  obtain ⟨⟨roots, events⟩, hload, hrun⟩ := exists_ok_of_any hrun
  simp only [Bool.and_eq_true, beq_iff_eq, List.all_eq_true, Bool.not_eq_true'] at hrun
  exact ⟨roots, events, hload, hrun.1, (comments_contained .terminators {} hload).2 hrun.2⟩

/-- A document with a method whose name goes on in a second line. -/
def brokenName : Store :=
  { entries :=
      [(["main.json"],
        .file (.text ("\x7b\"nested\": \x7b\"S\": \x7b\"methods\": \x7b\"A\\nevil()\": " ++
          "\x7b\"requestType\": \"M\", \"responseType\": \"M\"\x7d\x7d\x7d\x7d\x7d")))] }

theorem not_contained_brokenName :
    ∃ roots events, loadAll brokenName [] ["main.json"] = .ok (roots, events) ∧
      (omissionsMet roots).map omissionComment =
        ["A\nevil(): skipped, unresolved type M, M"] ∧
      ¬ CommentsContained .newlines {} roots := by
  have hrun : ((loadAll brokenName [] ["main.json"]).toOption.any fun (roots, _) =>
      (omissionsMet roots).map omissionComment ==
        ["A\nevil(): skipped, unresolved type M, M"]) = true := by
    decide +kernel
  obtain ⟨⟨roots, events⟩, hload, hrun⟩ := exists_ok_of_any hrun
  have hcomments := eq_of_beq hrun
  refine ⟨roots, events, hload, hcomments, fun hcontained => ?_⟩
  obtain ⟨o, ho, hcomment⟩ := List.mem_map.mp (hcomments ▸ List.mem_singleton_self _)
  have hconfined := (contained_iff .newlines {} roots).mp hcontained o ho
  rw [hcomment] at hconfined
  exact absurd (hconfined '\n' (by decide)) (by decide)

end Sources

end RpcBindings.Generate

import RpcBindings.Proofs.OmissionReports

/-! # The text of generated code

Rendering goes through fragments with a builder.  What a fragment adds to the text depends on
the indentation and on the depth at which it stands, and on nothing that was written before
(`writtenAt`), so the text of fragments is put together from their own texts (`toList_render`).

For a bindings file this says where the comments for methods that are left out stand.  They come
behind the other members of a class, in front of the brace that closes it, and what is around them
is the text of the class without them (`noted_client`, `noted_server`).  Sections follow each
other behind a newline (`toList_bindings`).
-/
namespace RpcBindings.Layout

/-- What a line adds. -/
def lineAt (indent : Indent) (depth : Nat) (s : String) : List Char :=
  (String.join (List.replicate depth indent.unit)).toList ++ s.toList ++ ['\n']

mutual

/-- What a fragment adds at a depth. -/
def writtenAt (indent : Indent) (depth : Nat) : Fragment → List Char
  | .line s => lineAt indent depth s
  | .blank => ['\n']
  | .raw s => s.toList
  | .comment s => lineAt indent depth ("// " ++ s)
  | .block header body close =>
    lineAt indent depth header ++ writtenAllAt indent (depth + 1) body
      ++ close.toList.flatMap (lineAt indent depth)
  | .indent body => writtenAllAt indent (depth + 1) body
  | .sequence body => writtenAllAt indent depth body

/-- What fragments add at a depth. -/
def writtenAllAt (indent : Indent) (depth : Nat) : List Fragment → List Char
  | [] => []
  | f :: fs => writtenAt indent depth f ++ writtenAllAt indent depth fs

end

section Written
variable {indent : Indent} {depth : Nat}

theorem writtenAllAt_append (xs ys : List Fragment) :
    writtenAllAt indent depth (xs ++ ys) =
      writtenAllAt indent depth xs ++ writtenAllAt indent depth ys := by
  induction xs with
  | nil => rfl
  | cons x xs ih => rw [List.cons_append, writtenAllAt, ih, writtenAllAt, List.append_assoc]

theorem writtenAllAt_singleton (f : Fragment) :
    writtenAllAt indent depth [f] = writtenAt indent depth f := by
  rw [writtenAllAt, writtenAllAt, List.append_nil]

end Written

/-! ## Building -/

/-- The builder has added `cs` and stands where it stood. -/
structure Builder.Wrote (b : Builder) (cs : List Char) (b' : Builder) : Prop where
  indent : b'.indent = b.indent
  depth : b'.depth = b.depth
  text : b'.text.toList = b.text.toList ++ cs

section Wrote
variable {b b' b'' : Builder} {cs cs' : List Char}

theorem Builder.Wrote.refl (b : Builder) : b.Wrote [] b :=
  ⟨rfl, rfl, (List.append_nil _).symm⟩

theorem Builder.Wrote.trans (h : b.Wrote cs b') (h' : b'.Wrote cs' b'') :
    b.Wrote (cs ++ cs') b'' := by
  refine ⟨h'.indent.trans h.indent, h'.depth.trans h.depth, ?_⟩
  rw [h'.text, h.text, List.append_assoc]

theorem Builder.wrote_line (b : Builder) (s : String) :
    b.Wrote (lineAt b.indent b.depth s) (b.pushLine s) := by
  refine ⟨rfl, rfl, ?_⟩
  simp [pushLine, pushRaw, margin, lineAt]

/-- What is written one step deeper is written at that depth. -/
theorem Builder.Wrote.deeper (h : b.deeper.Wrote cs b') : b.Wrote cs b'.shallower := by
  refine ⟨h.indent, ?_, h.text⟩
  show b'.depth - 1 = b.depth
  rw [h.depth]
  show b.depth + 1 - 1 = b.depth
  omega

theorem Builder.wrote_close (b : Builder) (close : Option String) :
    b.Wrote (close.toList.flatMap (lineAt b.indent b.depth)) (b.pushClose close) := by
  cases close with
  | none => exact .refl b
  | some s => simpa [pushClose] using b.wrote_line s

end Wrote

mutual

/-- A fragment adds what it adds to any text. -/
theorem Builder.wrote_apply (b : Builder) :
    (f : Fragment) → b.Wrote (writtenAt b.indent b.depth f) (b.apply f)
  | .line s => b.wrote_line s
  | .blank => ⟨rfl, rfl, by simp [apply, pushBlank, pushRaw, writtenAt]⟩
  | .raw s => ⟨rfl, rfl, by simp [apply, pushRaw, writtenAt]⟩
  | .comment s => b.wrote_line ("// " ++ s)
  | .block header body close => by
    have hheader := b.wrote_line header
    have hbody := (Builder.wrote_applyAll (b.pushLine header).deeper body).deeper
    have hclose := Builder.wrote_close (applyAll (b.pushLine header).deeper body).shallower close
    rw [hbody.indent, hbody.depth] at hclose
    exact (hheader.trans hbody).trans hclose
  | .indent body => (Builder.wrote_applyAll b.deeper body).deeper
  | .sequence body => Builder.wrote_applyAll b body

/-- Fragments add what they add to any text, one after the other. -/
theorem Builder.wrote_applyAll (b : Builder) :
    (fs : List Fragment) → b.Wrote (writtenAllAt b.indent b.depth fs) (b.applyAll fs)
  | [] => .refl b
  | f :: fs => by
    have hfirst := Builder.wrote_apply b f
    have hrest := Builder.wrote_applyAll (b.apply f) fs
    rw [hfirst.indent, hfirst.depth] at hrest
    exact hfirst.trans hrest

end

/-- **The text of fragments is what they add at the left margin.** -/
theorem toList_render (indent : Indent) (fs : List Fragment) :
    (render indent fs).toList = writtenAllAt indent 0 fs := by
  have hwrote := (Builder.wrote_applyAll ({ indent := indent } : Builder) fs).text
  rwa [String.toList_empty, List.nil_append] at hwrote

end RpcBindings.Layout

namespace RpcBindings.Generate

open RpcBindings.Binding
open RpcBindings.Emit
open RpcBindings.Layout
open RpcBindings.Schema (Root)
open RpcBindings.TypeScript (ClassDecl EndsInMember Member)

/-! ## Classes with notes -/

/-- Every member of a class ends its last line. -/
theorem exists_writtenAt_member (indent : Indent) (depth : Nat) (m : Member) :
    ∃ cs, writtenAt indent depth m.fragment = cs ++ ['\n'] := by
  cases m with
  | field declaration => exact ⟨_, rfl⟩
  | comment text => exact ⟨_, rfl⟩
  | blank => exact ⟨[], rfl⟩
  | method m =>
    rw [Member.fragment, TypeScript.Method.fragment]
    split
    · exact ⟨_, rfl⟩
    · rw [Fragment.enclosed, writtenAt, Option.toList, List.flatMap_singleton, lineAt, lineAt,
        ← List.append_assoc]
      exact ⟨_, rfl⟩

/-- What the note on a method that is left out adds to a class. -/
def writtenNote (indent : Indent) (o : Omission) : List Char :=
  '\n' :: lineAt indent 1 ("// " ++ omissionComment o)

theorem writtenAllAt_notes (indent : Indent) (os : List Omission) :
    writtenAllAt indent 1 ((os.flatMap omissionNote).map Member.fragment) =
      os.flatMap (writtenNote indent) := by
  induction os with
  | nil => rfl
  | cons o os ih =>
    rw [List.flatMap_cons, List.map_append, writtenAllAt_append, ih, List.flatMap_cons]
    simp [omissionNote, Member.fragment, writtenAllAt, writtenAt, writtenNote]

/-- The texts differ by notes on methods that are left out, which start a line of their own. -/
def Noted (indent : Indent) (os : List Omission) (plain noted : List Char) : Prop :=
  ∃ before after, plain = before ++ '\n' :: after ∧
    noted = before ++ '\n' :: (os.flatMap (writtenNote indent) ++ after)

theorem Noted.append {indent : Indent} {os : List Omission} {plain noted : List Char}
    (h : Noted indent os plain noted) (rest : List Char) :
    Noted indent os (plain ++ rest) (noted ++ rest) := by
  obtain ⟨before, after, rfl, rfl⟩ := h
  exact ⟨before, after ++ rest, by simp, by simp⟩

theorem writtenAllAt_class (indent : Indent) {c : ClassDecl} (h : EndsInMember c) :
    writtenAllAt indent 0 c.fragments =
      lineAt indent 0 c.header ++ writtenAllAt indent 1 (c.members.map Member.fragment) ++
        lineAt indent 0 "\x7d" := by
  rw [ClassDecl.fragments, h.writtenMembers, writtenAllAt_singleton, Fragment.enclosed, writtenAt,
    Option.toList, List.flatMap_singleton]

/-- **Notes stand behind the last line of the other members, and nothing else changes.** -/
theorem noted_class (indent : Indent) {c : ClassDecl} {os : List Omission}
    (h : EndsInMember c) (hnoted : EndsInMember (withNotes c os)) :
    Noted indent os (writtenAllAt indent 0 c.fragments)
      (writtenAllAt indent 0 (withNotes c os).fragments) := by
  obtain ⟨ms, m, hmembers, _⟩ := id h
  obtain ⟨last, hlast⟩ := exists_writtenAt_member indent 1 m
  have hbody : writtenAllAt indent 1 (c.members.map Member.fragment) =
      writtenAllAt indent 1 (ms.map Member.fragment) ++ (last ++ ['\n']) := by
    rw [hmembers, List.map_append, writtenAllAt_append, List.map_singleton,
      writtenAllAt_singleton, hlast]
  have hheader : (withNotes c os).header = c.header := rfl
  refine ⟨lineAt indent 0 c.header ++ writtenAllAt indent 1 (ms.map Member.fragment) ++ last,
    lineAt indent 0 "\x7d", ?_, ?_⟩
  · rw [writtenAllAt_class indent h, hbody]
    simp
  · rw [writtenAllAt_class indent hnoted, hheader, withNotes, List.map_append,
      writtenAllAt_append, writtenAllAt_notes, hbody]
    simp

/-! ## Sections -/

section Sections
variable (options : Options)

theorem noted_client (m : ServiceModel) :
    Noted options.indent m.omissions (options.client { m with omissions := [] }).toList
      (options.client m).toList := by
  have hsection : ∀ m : ServiceModel, (options.client m).toList =
      writtenAllAt options.indent 0 (Client.classOf m).fragments ++
        writtenAllAt options.indent 0 (.blank :: Client.markers m) := by
    intro m
    rw [Options.client, TypeScript.SourceFile.render, toList_render, ← writtenAllAt_append]
    simp [TypeScript.SourceFile.fragments, Client.sectionFile]
  obtain ⟨hclass, hends⟩ := classOf_client m
  rw [hclass] at hends
  rw [hsection, hsection, hclass]
  exact (noted_class options.indent (classOf_client _).2 hends).append _

theorem noted_server (m : ServiceModel) :
    Noted options.indent m.omissions (options.server { m with omissions := [] }).toList
      (options.server m).toList := by
  have hsection : ∀ m : ServiceModel, (options.server m).toList =
      writtenAllAt options.indent 0 (Server.classOf m).fragments := by
    intro m
    rw [Options.server, TypeScript.SourceFile.render, toList_render]
    simp [TypeScript.SourceFile.fragments, Server.sectionFile]
  obtain ⟨hclass, hends⟩ := classOf_server m
  rw [hclass] at hends
  rw [hsection, hsection, hclass]
  exact noted_class options.indent (classOf_server _).2 hends

theorem toList_foldl_appendSection {start : String} (h : start.toList ≠ [])
    (sections : List String) :
    (sections.foldl appendSection start).toList =
      start.toList ++ sections.flatMap fun s => '\n' :: s.toList := by
  induction sections generalizing start with
  | nil => simp
  | cons s rest ih =>
    have hempty : start.isEmpty = false := by
      simpa [← String.toList_eq_nil_iff] using h
    have hstep : (appendSection start s).toList = start.toList ++ '\n' :: s.toList := by
      simp [appendSection, hempty]
    rw [List.foldl_cons, ih (by rw [hstep]; simp), hstep, List.flatMap_cons, List.append_assoc]

/-- The header imports the transport, whatever else it imports. -/
theorem bindingsHeader_ne_nil (registry : Registry) :
    (options.bindingsHeader registry).toList ≠ [] := by
  rw [Options.bindingsHeader, TypeScript.SourceFile.render, toList_render]
  simp [TypeScript.SourceFile.fragments, TypeScript.Import.fragments, writtenAllAt, writtenAt,
    lineAt]

/-- **A bindings file is its header and its sections, each behind a newline.** -/
theorem toList_bindings (policy : Policy) (roots : List Root) :
    (run options policy roots).bindings.toList =
      (options.bindingsHeader (Registry.ofRoots roots)).toList ++
        ((shownModels policy .client roots).flatMap fun m => '\n' :: (options.client m).toList) ++
        ((shownModels policy .server roots).flatMap fun m =>
          '\n' :: (options.server m).toList) := by
  rw [bindings_run, toList_foldl_appendSection (bindingsHeader_ne_nil options _),
    List.flatMap_append, List.flatMap_map, List.flatMap_map, List.append_assoc]

end Sections

end RpcBindings.Generate

import RpcBindings.Proofs.CommentLines
import RpcBindings.Proofs.EndpointAgreement

/-! # Indentation is only indentation

What a fragment writes is known before the indentation is: a list of lines with their depths, of
empty lines and of texts that are taken as they are (`Fragment.items`).  A builder appends the
texts of these items to what it has, and it stands at the depth at which it stood
(`Builder.apply_eq`), so fragments can be put together in any way without a look at the builder.

The files of a run are made of whole lines only (`WholeLines`).  Hence their lines are the same
ones under every indentation, up to the blanks and tabs that they start with (`bareLines_textOf`).
-/
namespace RpcBindings.Layout

/-! ## What is written before the indentation is chosen -/

/-- One thing that a fragment writes. -/
inductive Item where
  /-- A line at a depth. -/
  | line (depth : Nat) (text : String)
  /-- An empty line. -/
  | blank
  /-- Text as it is. -/
  | raw (text : String)
deriving DecidableEq

namespace Item

/-- The text of an item: a line stands behind as many steps of indentation as it is deep. -/
def text (indent : Indent) : Item → String
  | .line depth text => String.join (List.replicate depth indent.unit) ++ text ++ "\n"
  | .blank => "\n"
  | .raw text => text

/-- Whether the item is text that is taken as it is. -/
def isRaw : Item → Bool
  | .raw _ => true
  | _ => false

end Item

/-- The text of items. -/
def textOf (indent : Indent) (items : List Item) : String :=
  String.join (items.map (Item.text indent))

mutual

/-- What a fragment writes at a depth. -/
def Fragment.items (depth : Nat) : Fragment → List Item
  | .line s => [.line depth s]
  | .blank => [.blank]
  | .raw s => [.raw s]
  | .comment s => [.line depth ("// " ++ s)]
  | .block header body close =>
    .line depth header :: itemsAll (depth + 1) body ++ close.toList.map (.line depth)
  | .indent body => itemsAll (depth + 1) body
  | .sequence body => itemsAll depth body

/-- What fragments write at a depth. -/
def itemsAll (depth : Nat) : List Fragment → List Item
  | [] => []
  | f :: fs => f.items depth ++ itemsAll depth fs

end

section Items
variable {indent : Indent} {depth : Nat}

theorem textOf_cons (item : Item) (items : List Item) :
    textOf indent (item :: items) = item.text indent ++ textOf indent items := by
  rw [textOf, List.map_cons, String.join_cons, textOf]

theorem textOf_append (xs ys : List Item) :
    textOf indent (xs ++ ys) = textOf indent xs ++ textOf indent ys := by
  rw [textOf, List.map_append, String.join_append, textOf, textOf]

theorem toList_textOf_flatMap {α : Type} (f : α → List Item) (xs : List α) :
    (textOf indent (xs.flatMap f)).toList = xs.flatMap fun x => (textOf indent (f x)).toList := by
  induction xs with
  | nil => rfl
  | cons x xs ih =>
    rw [List.flatMap_cons, textOf_append, String.toList_append, ih, List.flatMap_cons]

theorem itemsAll_eq_flatMap (fs : List Fragment) :
    itemsAll depth fs = fs.flatMap (Fragment.items depth) := by
  induction fs with
  | nil => rfl
  | cons f fs ih => rw [itemsAll, ih, List.flatMap_cons]

theorem toList_text_line (s : String) :
    ((Item.line depth s).text indent).toList = lineAt indent depth s := by
  simp [Item.text, lineAt]

end Items

mutual

/-- The text that a fragment adds is the text of its items. -/
theorem toList_textOf_items (indent : Indent) (depth : Nat) :
    (f : Fragment) → (textOf indent (f.items depth)).toList = writtenAt indent depth f
  | .line s => by simp [Fragment.items, textOf, toList_text_line, writtenAt]
  | .blank => by simp [Fragment.items, textOf, Item.text, writtenAt]
  | .raw s => by simp [Fragment.items, textOf, Item.text, writtenAt]
  | .comment s => by simp [Fragment.items, textOf, toList_text_line, writtenAt]
  | .block header body close => by
    have hbody := toList_textOf_itemsAll indent (depth + 1) body
    have hclose : (textOf indent (close.toList.map (.line depth))).toList =
        close.toList.flatMap (lineAt indent depth) := by
      cases close <;> simp [textOf, toList_text_line]
    rw [Fragment.items, List.cons_append, textOf_cons, textOf_append, String.toList_append,
      String.toList_append, toList_text_line, hbody, hclose, writtenAt, List.append_assoc]
  | .indent body => toList_textOf_itemsAll indent (depth + 1) body
  | .sequence body => toList_textOf_itemsAll indent depth body

/-- The text that fragments add is the text of their items. -/
theorem toList_textOf_itemsAll (indent : Indent) (depth : Nat) :
    (fs : List Fragment) → (textOf indent (itemsAll depth fs)).toList = writtenAllAt indent depth fs
  | [] => rfl
  | f :: fs => by
    rw [itemsAll, textOf_append, String.toList_append, toList_textOf_items indent depth f,
      toList_textOf_itemsAll indent depth fs, writtenAllAt]

end

/-! ## Builders -/

/-- **A fragment appends the texts of its items, and changes nothing else.** -/
theorem Builder.apply_eq (b : Builder) (f : Fragment) :
    b.apply f = { b with text := b.text ++ textOf b.indent (f.items b.depth) } := by
  obtain ⟨hindent, hdepth, htext⟩ := b.wrote_apply f
  rw [← toList_textOf_items, ← String.toList_append, String.toList_inj] at htext
  generalize b.apply f = after at hindent hdepth htext
  cases after
  subst hindent hdepth htext
  rfl

theorem Builder.applyAll_eq_foldl (b : Builder) (fs : List Fragment) :
    b.applyAll fs = fs.foldl Builder.apply b := by
  induction fs generalizing b with
  | nil => rfl
  | cons f fs ih => rw [applyAll, ih, List.foldl_cons]

theorem render_eq_textOf (indent : Indent) (fs : List Fragment) :
    render indent fs = textOf indent (itemsAll 0 fs) := by
  apply String.toList_inj.mp
  rw [toList_render, toList_textOf_itemsAll]

/-! ## Whole lines -/

/-- The fragment writes nothing but whole lines, at whatever depth it stands. -/
def Fragment.WholeLines (f : Fragment) : Prop :=
  ∀ depth, ∀ item ∈ f.items depth, item.isRaw = false

section WholeLines
variable {fs : List Fragment}

theorem wholeLines_itemsAll (h : ∀ f ∈ fs, f.WholeLines) (depth : Nat) :
    ∀ item ∈ itemsAll depth fs, item.isRaw = false := by
  rw [itemsAll_eq_flatMap]
  intro item hitem
  obtain ⟨f, hf, hitem⟩ := List.mem_flatMap.mp hitem
  exact h f hf depth item hitem

@[simp]
theorem wholeLines_line (s : String) : (Fragment.line s).WholeLines :=
  fun _ => List.forall_mem_singleton.mpr rfl

@[simp]
theorem wholeLines_comment (s : String) : (Fragment.comment s).WholeLines :=
  fun _ => List.forall_mem_singleton.mpr rfl

@[simp]
theorem wholeLines_blank : Fragment.blank.WholeLines :=
  fun _ => List.forall_mem_singleton.mpr rfl

theorem wholeLines_enclosed (h : ∀ f ∈ fs, f.WholeLines) (header close : String) :
    (Fragment.enclosed header fs close).WholeLines := by
  intro depth item hitem
  have hbody := wholeLines_itemsAll h (depth + 1) item
  simp only [Fragment.enclosed, Fragment.items, Option.toList, List.mem_append, List.mem_cons,
    List.map_cons, List.map_nil, List.not_mem_nil, or_false] at hitem
  rcases hitem with (rfl | hitem) | rfl
  · rfl
  · exact hbody hitem
  · rfl

theorem wholeLines_indent (h : ∀ f ∈ fs, f.WholeLines) : (Fragment.indent fs).WholeLines :=
  fun depth => wholeLines_itemsAll h (depth + 1)

theorem wholeLines_sequence (h : ∀ f ∈ fs, f.WholeLines) : (Fragment.sequence fs).WholeLines :=
  fun depth => wholeLines_itemsAll h depth

theorem wholeLines_lines (texts : List String) : ∀ f ∈ texts.map Fragment.line, f.WholeLines := by
  intro f hf
  obtain ⟨text, _, rfl⟩ := List.mem_map.mp hf
  exact wholeLines_line text

end WholeLines

/-! ## The lines of a text without their margins -/

section BareLines

open RpcBindings.Text (LineEnds isMargin)

variable (e : LineEnds)

/-- The lines of a text without the blanks and tabs that they start with. -/
def bareLines (text : String) : List (List Char) :=
  (e.lines text.toList).map (List.dropWhile isMargin)

/-- The lines of an item without their margins. -/
def Item.bareLines : Item → List (List Char)
  | .line _ text => Layout.bareLines e text
  | .blank => [[]]
  | .raw text => Layout.bareLines e text

theorem isMargin_margin (indent : Indent) (depth : Nat) :
    ∀ c ∈ (String.join (List.replicate depth indent.unit)).toList, isMargin c = true := by
  intro c hc
  rw [String.toList_join] at hc
  obtain ⟨unit, hunit, hc⟩ := List.mem_flatMap.mp hc
  rw [List.eq_of_mem_replicate hunit] at hc
  exact Generate.isMargin_unit indent c hc

theorem free_of_isMargin {cs : List Char} (h : ∀ c ∈ cs, isMargin c = true) : e.Free cs := by
  intro c hc
  have hmargin := h c hc
  simp only [isMargin, Bool.or_eq_true, beq_iff_eq] at hmargin
  rcases hmargin with rfl | rfl
  · exact e.plain ' ' (by decide)
  · exact e.plain '\t' (by decide)

/-- A line ends where its newline stands, and its margin is all that the indentation decides. -/
theorem bareLines_textOf_cons (indent : Indent) {item : Item} (h : item.isRaw = false)
    (items : List Item) :
    bareLines e (textOf indent (item :: items)) =
      item.bareLines e ++ bareLines e (textOf indent items) := by
  rw [textOf_cons]
  cases item with
  | raw text => cases h
  | blank =>
    have htext : ((Item.blank).text indent ++ textOf indent items).toList =
        [] ++ '\n' :: (textOf indent items).toList := by
      simp [Item.text]
    rw [bareLines, htext, LineEnds.lines_append_newline, LineEnds.lines_of_free LineEnds.free_nil,
      List.map_append]
    rfl
  | line depth text =>
    have hmargin := isMargin_margin indent depth
    have htext : ((Item.line depth text).text indent ++ textOf indent items).toList =
        (String.join (List.replicate depth indent.unit)).toList ++ text.toList ++
          '\n' :: (textOf indent items).toList := by
      simp [Item.text]
    obtain ⟨first, rest, hfirst, hlines⟩ :=
      LineEnds.exists_lines_append (free_of_isMargin e hmargin) text.toList
    rw [bareLines, htext, LineEnds.lines_append_newline, hlines, List.map_append, List.map_cons,
      List.dropWhile_append_of_pos hmargin, Item.bareLines, bareLines, hfirst, List.map_cons,
      bareLines]

/-- **The lines of whole lines do not depend on the indentation, but for their margins.** -/
theorem bareLines_textOf (indent : Indent) {items : List Item}
    (h : ∀ item ∈ items, item.isRaw = false) :
    bareLines e (textOf indent items) = items.flatMap (Item.bareLines e) ++ [[]] := by
  induction items with
  | nil =>
    have hlines := LineEnds.lines_of_free (LineEnds.free_nil : e.Free [])
    rw [textOf, List.map_nil, String.join_nil, bareLines, String.toList_empty, hlines]
    rfl
  | cons item items ih =>
    obtain ⟨hitem, hitems⟩ := List.forall_mem_cons.mp h
    rw [bareLines_textOf_cons e indent hitem, ih hitems, List.flatMap_cons, List.append_assoc]

end BareLines

end RpcBindings.Layout

namespace RpcBindings.TypeScript

open RpcBindings.Layout

/-! ## Literals and methods are whole lines -/

mutual

theorem wholeLines_property : (p : Property) → p.fragment.WholeLines
  | .text .. => wholeLines_line _
  | .raw .. => wholeLines_line _
  | .object _ properties => wholeLines_enclosed (wholeLines_properties properties) _ _
  | .array _ elements => by
    rw [Property.fragment]
    split
    · exact wholeLines_line _
    · exact wholeLines_enclosed (wholeLines_elements elements) _ _
  | .arrow _ _ body => wholeLines_enclosed (wholeLines_lines body) _ _
  | .comment _ => wholeLines_comment _

theorem wholeLines_element : (e : Element) → e.fragment.WholeLines
  | .text _ => wholeLines_line _
  | .raw _ => wholeLines_line _
  | .object properties => wholeLines_enclosed (wholeLines_properties properties) _ _

theorem wholeLines_properties :
    (ps : ObjectLiteral) → ∀ f ∈ ps.body, f.WholeLines
  | [] => List.forall_mem_nil _
  | p :: ps => List.forall_mem_cons.mpr ⟨wholeLines_property p, wholeLines_properties ps⟩

theorem wholeLines_elements :
    (es : ArrayLiteral) → ∀ f ∈ es.body, f.WholeLines
  | [] => List.forall_mem_nil _
  | e :: es => List.forall_mem_cons.mpr ⟨wholeLines_element e, wholeLines_elements es⟩

end

theorem wholeLines_method {m : Method} (h : ∀ f ∈ m.body, f.WholeLines) :
    m.fragment.WholeLines := by
  unfold Method.fragment
  split
  · exact wholeLines_line _
  · exact wholeLines_enclosed h _ _

theorem wholeLines_class {c : ClassDecl}
    (h : ∀ m ∈ c.writtenMembers, m.fragment.WholeLines) : ∀ f ∈ c.fragments, f.WholeLines := by
  rw [ClassDecl.fragments, List.forall_mem_singleton]
  refine wholeLines_enclosed ?_ _ _
  intro f hf
  obtain ⟨m, hm, rfl⟩ := List.mem_map.mp hf
  exact h m hm

end RpcBindings.TypeScript

namespace RpcBindings.Emit

open RpcBindings.Binding
open RpcBindings.Layout
open RpcBindings.TypeScript

/-! ## What all members of a class have in common -/

/-- What holds of an empty line and of everything that a class of a service is put together from
holds of all its written members. -/
theorem forall_writtenMembers {P : Member → Prop} {start : ClassDecl} (hstart : start.members = [])
    {service : ServiceModel} {first : TypeScript.Method} {method : Endpoint → TypeScript.Method}
    (hblank : P .blank) (hfields : ∀ c ∈ service.codecs.codecs, P (.field (codecField c)))
    (hfirst : P (.method first)) (hmethods : ∀ e ∈ service.endpoints, P (.method (method e)))
    (hcomments : ∀ o ∈ service.omissions, P (.comment (omissionComment o))) :
    ∀ m ∈ (service.omissions.foldl (fun c o => c.addBlank.addComment (omissionComment o))
      (service.endpoints.foldl (fun c e => c.addBlank.addMethod (method e))
        ((service.codecs.codecs.foldl (fun c codec => c.addField (codecField codec))
          start).addBlank.addMethod first))).writtenMembers, P m := by
  intro m hm
  by_cases hm' : m.isBlank = true
  · cases m with
    | blank => exact hblank
    | field => cases hm'
    | method => cases hm'
    | comment => cases hm'
  · have hcontent : m ∈ contentOf _ := List.mem_filter.mpr ⟨hm, by simp [hm']⟩
    rw [contentOf_class start hstart] at hcontent
    simp only [List.mem_append, List.mem_cons, List.mem_map] at hcontent
    rcases hcontent with (⟨c, hc, rfl⟩ | rfl | ⟨e, he, rfl⟩) | ⟨o, ho, rfl⟩
    · exact hfields c hc
    · exact hfirst
    · exact hmethods e he
    · exact hcomments o ho

/-! ## The code of a section -/

theorem Client.fragments_sectionFile (service : ServiceModel) :
    (Client.sectionFile service).fragments =
      (Client.classOf service).fragments ++ .blank :: Client.markers service := by
  simp [SourceFile.fragments, Client.sectionFile]

theorem Server.fragments_sectionFile (service : ServiceModel) :
    (Server.sectionFile service).fragments = (Server.classOf service).fragments := by
  simp [SourceFile.fragments, Server.sectionFile]

theorem Manifest.fragments_body (services : List ServiceModel) :
    (Manifest.body services).fragments = Manifest.fragments services := by
  simp [SourceFile.fragments, Manifest.body]

/-! ## Sections are whole lines -/

theorem wholeLines_forwardEvents (response : String) :
    ∀ f ∈ Client.forwardEvents response, f.WholeLines := by
  simp [Client.forwardEvents]

theorem wholeLines_writeInput (binder request : String) :
    (Client.writeInput binder request).WholeLines :=
  wholeLines_enclosed (wholeLines_properties _) _ _

theorem wholeLines_methodBody (service : ServiceModel) (e : Endpoint) :
    (Client.methodBody service e).WholeLines := by
  unfold Client.methodBody
  cases e.shape with
  | unary => exact wholeLines_enclosed (List.forall_mem_singleton.mpr (wholeLines_line _)) _ _
  | serverStreaming =>
    have hforward := wholeLines_forwardEvents e.response.qualified
    refine wholeLines_enclosed ?_ _ _
    simpa [or_imp, forall_and] using hforward
  | clientStreaming =>
    have hinput := wholeLines_writeInput "" e.request.interface
    exact wholeLines_enclosed (List.forall_mem_cons.mpr
      ⟨wholeLines_line _, List.forall_mem_singleton.mpr hinput⟩) _ _
  | bidirectional =>
    have hforward := wholeLines_forwardEvents e.response.qualified
    have hinput := wholeLines_writeInput "const input = " e.request.interface
    have hcancel := wholeLines_enclosed
      (wholeLines_lines ["input.unsubscribe();", "call.cancel();"]) "return () => \x7b" "\x7d;"
    rw [List.map_cons, List.map_singleton] at hcancel
    refine wholeLines_enclosed ?_ _ _
    simpa [or_imp, forall_and, hinput, hcancel] using hforward

theorem wholeLines_attachToServer (service : ServiceModel) :
    (Server.attachToServer service).fragment.WholeLines := by
  have hdescriptors :=
    wholeLines_properties (service.endpoints.map (Server.descriptorEntry service))
  have hhandlers := wholeLines_properties (service.endpoints.map Server.handlerEntry)
  refine wholeLines_method (List.forall_mem_singleton.mpr (wholeLines_sequence ?_))
  simp [wholeLines_indent hdescriptors, wholeLines_indent hhandlers]

theorem wholeLines_clientSection (service : ServiceModel) :
    ∀ f ∈ (Client.sectionFile service).fragments, f.WholeLines := by
  have hclass : ∀ f ∈ (Client.classOf service).fragments, f.WholeLines := by
    refine wholeLines_class (forall_writtenMembers rfl wholeLines_blank ?_ ?_ ?_ ?_)
    · exact fun c _ => wholeLines_line _
    · exact wholeLines_method (List.forall_mem_singleton.mpr (wholeLines_line _))
    · exact fun e _ =>
        wholeLines_method (List.forall_mem_singleton.mpr (wholeLines_methodBody service e))
    · exact fun o _ => wholeLines_comment _
  have hmarkers : ∀ f ∈ Client.markers service, f.WholeLines := wholeLines_lines _
  rw [Client.fragments_sectionFile, List.forall_mem_append, List.forall_mem_cons]
  exact ⟨hclass, wholeLines_blank, hmarkers⟩

theorem wholeLines_serverSection (service : ServiceModel) :
    ∀ f ∈ (Server.sectionFile service).fragments, f.WholeLines := by
  rw [Server.fragments_sectionFile]
  refine wholeLines_class (forall_writtenMembers rfl wholeLines_blank ?_ ?_ ?_ ?_)
  · exact fun c _ => wholeLines_line _
  · exact wholeLines_attachToServer service
  · exact fun e _ => wholeLines_method (List.forall_mem_nil _)
  · exact fun o _ => wholeLines_comment _

theorem wholeLines_manifest (services : List ServiceModel) :
    ∀ f ∈ (Manifest.body services).fragments, f.WholeLines := by
  rw [Manifest.fragments_body, Manifest.fragments]
  split
  · exact List.forall_mem_singleton.mpr (wholeLines_line _)
  · exact List.forall_mem_singleton.mpr (wholeLines_enclosed (wholeLines_elements _) _ _)

theorem wholeLines_imports (imports : List Import) :
    ∀ f ∈ ({ imports } : SourceFile).fragments, f.WholeLines := by
  have hfragments : ({ imports } : SourceFile).fragments = imports.flatMap Import.fragments := by
    simp [SourceFile.fragments]
  rw [hfragments]
  intro f hf
  obtain ⟨i, _, hf⟩ := List.mem_flatMap.mp hf
  rw [List.mem_singleton.mp hf]
  exact wholeLines_line _

end RpcBindings.Emit

namespace RpcBindings.Generate

open RpcBindings.Emit
open RpcBindings.Layout
open RpcBindings.Schema (Root)
open RpcBindings.Text (LineEnds)
open RpcBindings.TypeScript (Import SourceFile)

/-! ## The files of a run -/

/-- The texts differ in nothing but how a step of indentation is written. -/
structure IndentedOnly (text : Indent → String) : Prop where
  /-- All of them have the same lines at the same depths. -/
  items : ∃ items : List Item, (∀ item ∈ items, item.isRaw = false) ∧
    ∀ indent, text indent = textOf indent items
  /-- Without the blanks and tabs that they start with, their lines are the same. -/
  lines : ∀ (e : LineEnds) (indent indent' : Indent),
    bareLines e (text indent) = bareLines e (text indent')

theorem indentedOnly_of_items {text : Indent → String} {items : List Item}
    (hwhole : ∀ item ∈ items, item.isRaw = false)
    (htext : ∀ indent, text indent = textOf indent items) : IndentedOnly text where
  items := ⟨items, hwhole, htext⟩
  lines e indent indent' := by
    rw [htext, htext, bareLines_textOf e indent hwhole, bareLines_textOf e indent' hwhole]

/-- What a section of the bindings writes behind what is there. -/
def sectionItems (file : SourceFile) : List Item :=
  .blank :: itemsAll 0 file.fragments

theorem wholeLines_sectionItems {file : SourceFile} (h : ∀ f ∈ file.fragments, f.WholeLines) :
    ∀ item ∈ sectionItems file, item.isRaw = false :=
  List.forall_mem_cons.mpr ⟨rfl, wholeLines_itemsAll h 0⟩

theorem toList_sectionItems (indent : Indent) (file : SourceFile) :
    (textOf indent (sectionItems file)).toList = '\n' :: (file.render indent).toList := by
  rw [sectionItems, textOf_cons, SourceFile.render, render_eq_textOf, String.toList_append]
  simp [Item.text]

section Files
variable (options : Options) (policy : Policy) (roots : List Root)

/-- What the bindings of a run are made of. -/
def bindingsItems : List Item :=
  itemsAll 0 { imports :=
      [{ source := options.transport, wildcard := some "grpc" },
       { source := options.observable, names := ["Observable"] }]
        ++ options.typesImport (Registry.ofRoots roots) true : SourceFile }.fragments ++
    (shownModels policy .client roots).flatMap (fun m => sectionItems (Client.sectionFile m)) ++
    (shownModels policy .server roots).flatMap fun m => sectionItems (Server.sectionFile m)

theorem wholeLines_bindingsItems :
    ∀ item ∈ bindingsItems options policy roots, item.isRaw = false := by
  have hsections : ∀ {file : Binding.ServiceModel → SourceFile} (ms : List Binding.ServiceModel),
      (∀ m, ∀ f ∈ (file m).fragments, f.WholeLines) →
      ∀ item ∈ ms.flatMap (fun m => sectionItems (file m)), item.isRaw = false := by
    intro file ms h item hitem
    obtain ⟨m, _, hitem⟩ := List.mem_flatMap.mp hitem
    exact wholeLines_sectionItems (h m) item hitem
  rw [bindingsItems, List.forall_mem_append, List.forall_mem_append]
  exact ⟨⟨wholeLines_itemsAll (wholeLines_imports _) 0, hsections _ wholeLines_clientSection⟩,
    hsections _ wholeLines_serverSection⟩

theorem bindings_eq_textOf (indent : Indent) :
    (run { options with indent } policy roots).bindings =
      textOf indent (bindingsItems options policy roots) := by
  apply String.toList_inj.mp
  rw [toList_bindings, bindingsItems, textOf_append, textOf_append, String.toList_append,
    String.toList_append, toList_textOf_flatMap, toList_textOf_flatMap, ← render_eq_textOf]
  simp only [toList_sectionItems]
  rfl

/-- What the manifest of a run is made of: without an import it is the list of services alone. -/
def manifestItems : List Item :=
  let imports := options.typesImport (Registry.ofRoots roots) false
  let listed := Manifest.body (shownModels policy .manifest roots)
  if imports.isEmpty then itemsAll 0 listed.fragments
  else itemsAll 0 ({ imports } : SourceFile).fragments ++ sectionItems listed

theorem wholeLines_manifestItems :
    ∀ item ∈ manifestItems options policy roots, item.isRaw = false := by
  unfold manifestItems
  dsimp only
  split
  · exact wholeLines_itemsAll (wholeLines_manifest _) 0
  · rw [List.forall_mem_append]
    exact ⟨wholeLines_itemsAll (wholeLines_imports _) 0,
      wholeLines_sectionItems (wholeLines_manifest _)⟩

theorem isEmpty_render_imports (indent : Indent) (imports : List Import) :
    (({ imports } : SourceFile).render indent).isEmpty = imports.isEmpty := by
  cases imports with
  | nil => rfl
  | cons i is =>
    have hne : (({ imports := i :: is } : SourceFile).render indent).toList ≠ [] := by
      rw [SourceFile.render, toList_render]
      simp [SourceFile.fragments, Import.fragments, writtenAllAt, writtenAt, lineAt]
    simpa [← String.toList_eq_nil_iff] using hne

theorem manifest_eq_textOf (indent : Indent) :
    (run { options with indent } policy roots).manifest =
      textOf indent (manifestItems options policy roots) := by
  have hheader : ({ options with indent } : Options).manifestHeader (Registry.ofRoots roots) =
      SourceFile.render indent
        { imports := options.typesImport (Registry.ofRoots roots) false } := rfl
  have hlisted (ms : List Binding.ServiceModel) :
      ({ options with indent } : Options).manifest ms = (Manifest.body ms).render indent := rfl
  rw [manifest_run, hheader, hlisted, appendSection, isEmpty_render_imports]
  unfold manifestItems
  dsimp only
  split
  case isTrue hnone =>
    rw [List.isEmpty_iff.mp hnone]
    exact (String.empty_append).trans (render_eq_textOf indent _)
  case isFalse =>
    apply String.toList_inj.mp
    rw [textOf_append, String.toList_append, String.toList_append, String.toList_append,
      toList_sectionItems, ← render_eq_textOf, SourceFile.render]
    simp

end Files

/-- **Rendering is compositional, and indentation is only indentation.**  A fragment appends the
texts of its items, which do not depend on the indentation, and leaves the builder at its depth.
Fragments in sequence are written one after the other, and an indented body is the body at the next
depth.  Hence a file is the text of its items, and the files of a run have the same lines in the
same order under every indentation, but for the blanks and tabs in front of them. -/
theorem rendering_compositional :
    (∀ (b : Builder) (f : Fragment),
      b.apply f = { b with text := b.text ++ textOf b.indent (f.items b.depth) }) ∧
    (∀ (b : Builder) (fs : List Fragment), b.apply (.sequence fs) = fs.foldl Builder.apply b) ∧
    (∀ (b : Builder) (fs : List Fragment),
      (b.apply (.indent fs)).text = (b.deeper.apply (.sequence fs)).text) ∧
    (∀ (indent : Indent) (file : SourceFile),
      file.render indent = textOf indent (itemsAll 0 file.fragments)) ∧
    ∀ (options : Options) (policy : Policy) (roots : List Root),
      IndentedOnly (fun indent => (run { options with indent } policy roots).bindings) ∧
      IndentedOnly (fun indent => (run { options with indent } policy roots).manifest) := by
  refine ⟨Builder.apply_eq, Builder.applyAll_eq_foldl, fun b fs => rfl,
    fun indent file => render_eq_textOf indent file.fragments, fun options policy roots => ⟨?_, ?_⟩⟩
  · exact indentedOnly_of_items (wholeLines_bindingsItems options policy roots)
      (bindings_eq_textOf options policy roots)
  · exact indentedOnly_of_items (wholeLines_manifestItems options policy roots)
      (manifest_eq_textOf options policy roots)

end RpcBindings.Generate

import RpcBindings.Proofs.Completeness
import RpcBindings.Proofs.Lexing

/-! # Files printed and read again

A file is printed as the lexemes of its declarations, each behind a blank.  Any file that can be
declared at all comes back from its print (`parse_print`): with the same package, the same import
paths and the same declarations, methods, types and streams.  So it does from any other text that
the grammar derives for it: however the text is laid out, whatever comments it holds, and
whatever stands in it that declares nothing.

What can be declared is a condition on names only: they are identifiers, messages hold messages
and enums, and types have the form of type names.  Keywords are identifiers like others.
-/
namespace RpcBindings.Proto

/-! ## Lexemes as text -/

/-- A character as it is written in a string literal. -/
def escape (c : Char) : List Char :=
  if c = '"' ∨ c = '\\' ∨ c = '\n' then ['\\', c] else [c]

/-- The text of a lexeme.  Of all numbers zero is written. -/
def Lexeme.text : Lexeme → List Char
  | .word w => w.toList
  | .literal value => '"' :: (value.toList.flatMap escape ++ ['"'])
  | .number => ['0']
  | .symbol c => [c]

/-- The lexemes as text, each behind a blank. -/
def spell (lexemes : List Lexeme) : List Char := lexemes.flatMap fun l => ' ' :: l.text

/-- The lexeme has a spelling. -/
def Lexeme.Spellable : Lexeme → Prop
  | .word w => IsIdentifier w
  | .symbol c => IsSymbol c
  | _ => True

/-- Whether a text is an identifier. -/
def isIdentifier (w : String) : Bool :=
  match w.toList with
  | [] => false
  | c :: cs => isWordStart c && cs.all isWordPart

theorem isIdentifier_iff (w : String) : isIdentifier w = true ↔ IsIdentifier w := by
  unfold isIdentifier IsIdentifier
  cases w.toList with
  | nil => simp
  | cons c cs => simp

instance (w : String) : Decidable (IsIdentifier w) := decidable_of_iff _ (isIdentifier_iff w)

instance (c : Char) : Decidable (IsSymbol c) :=
  decidable_of_iff (isSpace c = false ∧ isWordStart c = false ∧ c.isDigit = false ∧
    (c == '"' || c == '\'') = false)
    ⟨fun ⟨hspace, hword, hdigit, hquote⟩ => ⟨hspace, hword, hdigit, hquote⟩,
      fun ⟨hspace, hword, hdigit, hquote⟩ => ⟨hspace, hword, hdigit, hquote⟩⟩

instance (l : Lexeme) : Decidable l.Spellable :=
  match l with
  | .word w => inferInstanceAs (Decidable (IsIdentifier w))
  | .symbol c => inferInstanceAs (Decidable (IsSymbol c))
  | .literal _ => inferInstanceAs (Decidable True)
  | .number => inferInstanceAs (Decidable True)

theorem quoted_escape (value : List Char) : Quoted '"' (value.flatMap escape) value := by
  induction value with
  | nil => exact .nil
  | cons c value ih =>
    rw [List.flatMap_cons, escape]
    split
    · exact .escaped ih
    · next h =>
      obtain ⟨hquote, hescape, hline⟩ : c ≠ '"' ∧ c ≠ '\\' ∧ c ≠ '\n' := by
        rwa [not_or, not_or] at h
      exact .plain hquote hescape hline ih

theorem spells_text {l : Lexeme} (h : l.Spellable) : Spells l.text l := by
  cases l with
  | word w => exact .word h
  | literal value =>
    have hspells := Spells.literal (.inl rfl) (quoted_escape value.toList)
    rwa [String.ofList_toList] at hspells
  | number => exact .number rfl fun c hc => absurd hc List.not_mem_nil
  | symbol c => exact .symbol h

theorem stops_spell (l : Lexeme) (lexemes : List Lexeme) : Stops l (spell lexemes) := by
  cases lexemes with
  | nil => exact fun c hc => nomatch hc
  | cons next lexemes =>
    intro c hc
    cases hc
    unfold Lexeme.EndsBefore
    split <;> trivial

/-- **A spelling is laid out as the lexemes it spells.** -/
theorem laid_spell {lexemes : List Lexeme} (h : ∀ l ∈ lexemes, l.Spellable) (offset : Nat) :
    ∃ tokens, Laid offset (spell lexemes) tokens ∧ tokens.map Token.lexeme = lexemes := by
  induction lexemes generalizing offset with
  | nil => exact ⟨[], .done .nil, rfl⟩
  | cons l lexemes ih =>
    obtain ⟨hl, hrest⟩ := List.forall_mem_cons.mp h
    obtain ⟨tokens, hlaid, htokens⟩ :=
      ih hrest (offset + Text.byteLength [' '] + Text.byteLength l.text)
    exact ⟨_, .token (.space rfl .nil) (spells_text hl) (stops_spell l lexemes) hlaid,
      congrArg (List.cons l) htokens⟩

/-! ## Files as lexemes -/

mutual

/-- The lexemes of a declaration.  The values of an enum are not known and left out. -/
def declLexemes : Decl → List Lexeme
  | .message name members => .word "message" :: .word name :: block (declsLexemes members)
  | .enum name => .word "enum" :: .word name :: block []
  | .service name methods =>
    .word "service" :: .word name :: block (methods.flatMap fun m => rpcLexemes m ++ [.symbol ';'])

/-- The lexemes of declarations, one after the other. -/
def declsLexemes : List Decl → List Lexeme
  | [] => []
  | d :: ds => declLexemes d ++ declsLexemes ds

end

section File
variable {Pos : Type}

/-- The lexemes of a file: its package, its imports and its declarations. -/
def File.lexemes (file : File Pos) : List Lexeme :=
  (if file.package = [] then [] else packageLexemes file.package) ++
    (file.imports.flatMap (fun i => importLexemes [] i.path) ++ declsLexemes file.decls)

/-- The file as a source. -/
def File.print (file : File Pos) : String := String.ofList (spell file.lexemes)

end File

/-! ## The print is derived by the grammar -/

/-- The declaration can be put before others of the scope. -/
def Decl.Leads (place : Place) (d : Decl) : Prop :=
  ∀ decls rest, Declares place decls rest → Declares place (d :: decls) (declLexemes d ++ rest)

theorem declares_all {place : Place} {decls : List Decl} (h : ∀ d ∈ decls, d.Leads place) :
    Declares place decls (declsLexemes decls) := by
  induction decls with
  | nil => exact .nil
  | cons d decls ih =>
    obtain ⟨hd, hdecls⟩ := List.forall_mem_cons.mp h
    exact hd _ _ (ih hdecls)

theorem Decl.Nestable.leads {d : Decl} (h : d.Nestable) (place : Place) : d.Leads place := by
  induction h generalizing place with
  | message _ _ ih =>
    intro decls rest hrest
    exact .message (declares_all fun d hd => ih d hd .message) hrest
  | enum _ =>
    intro decls rest hrest
    exact .enum .nil hrest

theorem offers_all {methods : List Rpc} (h : ∀ m ∈ methods, m.WellTyped) :
    Offers methods (methods.flatMap fun m => rpcLexemes m ++ [.symbol ';']) := by
  induction methods with
  | nil => exact .nil
  | cons m methods ih =>
    obtain ⟨hm, hmethods⟩ := List.forall_mem_cons.mp h
    rw [List.flatMap_cons, List.append_assoc]
    exact .rpc hm .semicolon (ih hmethods)

theorem Decl.Declarable.leads {d : Decl} (h : d.Declarable) : d.Leads .file := by
  cases h with
  | nestable hd => exact hd.leads .file
  | service _ hmethods =>
    intro decls rest hrest
    exact .service (offers_all fun m hm => (hmethods m hm).toWellTyped) hrest

theorem contains_imports {paths : List String} {decls : List Decl} {items : List Lexeme}
    (h : Declares .file decls items) :
    Contains [] paths decls (paths.flatMap (importLexemes []) ++ items) := by
  induction paths with
  | nil => exact .decls h
  | cons path paths ih =>
    rw [List.flatMap_cons, List.append_assoc]
    exact .imported (by decide) .nil ih

theorem File.Declarable.spelledBy {Pos : Type} {file : File Pos} (h : file.Declarable) :
    file.SpelledBy file.lexemes := by
  have hdecls := declares_all fun d hd => (h.decls d hd).leads
  have hrest := @contains_imports (file.imports.map Import.path) _ _ hdecls
  rw [List.flatMap_map] at hrest
  rw [File.SpelledBy, File.lexemes]
  split
  · next hpackage =>
    rw [hpackage]
    exact hrest
  · next hpackage => exact .package hpackage h.package .nil hrest

/-! ## The print can be spelled -/

theorem spellable_block {inner : List Lexeme} (h : ∀ l ∈ inner, l.Spellable) :
    ∀ l ∈ block inner, l.Spellable := by
  simp only [block, List.forall_mem_cons, List.forall_mem_append]
  exact ⟨by decide, h, by decide, by decide⟩

theorem spellable_dotted {first : String} {rest : List String}
    (hfirst : first ≠ "" → IsIdentifier first) (hrest : ∀ s ∈ rest, IsIdentifier s) :
    ∀ l ∈ dottedLexemes (first :: rest), l.Spellable := by
  have hdots : ∀ s ∈ rest, ∀ l ∈ [Lexeme.symbol '.', .word s], l.Spellable := fun s hs =>
    List.forall_mem_cons.mpr ⟨by decide, List.forall_mem_singleton.mpr (hrest s hs)⟩
  rw [dottedLexemes, List.forall_mem_append, List.forall_mem_flatMap]
  refine ⟨?_, hdots⟩
  split
  · exact fun l hl => absurd hl List.not_mem_nil
  · next hne => exact List.forall_mem_singleton.mpr (hfirst hne)

theorem spellable_package {package : List String} (h : ∀ s ∈ package, IsIdentifier s) :
    ∀ l ∈ packageLexemes package, l.Spellable := by
  have hname : ∀ l ∈ dottedLexemes package, l.Spellable := by
    cases package with
    | nil => exact fun l hl => absurd hl List.not_mem_nil
    | cons first rest =>
      obtain ⟨hfirst, hrest⟩ := List.forall_mem_cons.mp h
      exact spellable_dotted (fun _ => hfirst) hrest
  simp only [packageLexemes, List.forall_mem_cons, List.forall_mem_append]
  exact ⟨by decide, hname, by decide, by decide⟩

theorem spellable_type {type : String} (h : IsTypeName type) :
    ∀ l ∈ typeLexemes type, l.Spellable := by
  obtain ⟨path, hpath, hidents, hsegments⟩ := h
  rw [typeLexemes]
  rcases hsegments with hsegments | hsegments
  · obtain ⟨first, rest, rfl⟩ := List.exists_cons_of_ne_nil hpath
    obtain ⟨hfirst, hrest⟩ := List.forall_mem_cons.mp hidents
    rw [hsegments]
    exact spellable_dotted (fun _ => hfirst) hrest
  · rw [hsegments]
    exact spellable_dotted (absurd rfl) hidents

theorem spellable_side {stream : Bool} {type : String} (h : IsTypeName type) :
    ∀ l ∈ sideLexemes stream type, l.Spellable := by
  have hstream : ∀ l ∈ if stream then [Lexeme.word "stream"] else [], l.Spellable := by
    cases stream <;> decide
  simp only [sideLexemes, List.forall_mem_cons, List.forall_mem_append]
  exact ⟨by decide, ⟨hstream, spellable_type h⟩, by decide, by decide⟩

theorem Rpc.Declarable.spellable {m : Rpc} (h : m.Declarable) :
    ∀ l ∈ rpcLexemes m, l.Spellable := by
  simp only [rpcLexemes, List.forall_mem_cons, List.forall_mem_append]
  exact ⟨by decide, h.name, spellable_side h.request.1, by decide, spellable_side h.response.1⟩

theorem spellable_all {decls : List Decl} (h : ∀ d ∈ decls, ∀ l ∈ declLexemes d, l.Spellable) :
    ∀ l ∈ declsLexemes decls, l.Spellable := by
  induction decls with
  | nil => exact fun l hl => absurd hl List.not_mem_nil
  | cons d decls ih =>
    obtain ⟨hd, hdecls⟩ := List.forall_mem_cons.mp h
    rw [declsLexemes, List.forall_mem_append]
    exact ⟨hd, ih hdecls⟩

theorem Decl.Nestable.spellable {d : Decl} (h : d.Nestable) :
    ∀ l ∈ declLexemes d, l.Spellable := by
  induction h with
  | message hname _ ih =>
    simp only [declLexemes, List.forall_mem_cons]
    exact ⟨by decide, hname, spellable_block (spellable_all ih)⟩
  | enum hname =>
    simp only [declLexemes, List.forall_mem_cons]
    exact ⟨by decide, hname, by decide⟩

theorem Decl.Declarable.spellable {d : Decl} (h : d.Declarable) :
    ∀ l ∈ declLexemes d, l.Spellable := by
  cases h with
  | nestable hd => exact hd.spellable
  | @service name methods hname hmethods =>
    have hbody : ∀ l ∈ methods.flatMap fun m => rpcLexemes m ++ [.symbol ';'], l.Spellable :=
      List.forall_mem_flatMap.mpr fun m hm =>
        List.forall_mem_append.mpr ⟨(hmethods m hm).spellable, by decide⟩
    simp only [declLexemes, List.forall_mem_cons]
    exact ⟨by decide, hname, spellable_block hbody⟩

theorem File.Declarable.spellable {Pos : Type} {file : File Pos} (h : file.Declarable) :
    ∀ l ∈ file.lexemes, l.Spellable := by
  have himports : ∀ l ∈ file.imports.flatMap fun i => importLexemes [] i.path, l.Spellable := by
    simp only [List.forall_mem_flatMap, importLexemes, List.nil_append, List.forall_mem_cons]
    exact fun i _ => ⟨by decide, trivial, by decide, by decide⟩
  rw [File.lexemes, List.forall_mem_append, List.forall_mem_append]
  refine ⟨?_, himports, spellable_all fun d hd => (h.decls d hd).spellable⟩
  split
  · exact fun l hl => absurd hl List.not_mem_nil
  · exact spellable_package h.package

/-! ## Reading the print -/

/-- A text is read as the file that its lexemes contain. -/
theorem exists_parse {Pos : Type} {file : File Pos} {text : String} {tokens : List (Token Span)}
    (hlaid : Laid 0 text.toList tokens) (h : file.SpelledBy (tokens.map Token.lexeme)) :
    ∃ read, parse text = .ok read ∧ read.Agrees file := by
  obtain ⟨read, hread, hagrees⟩ := exists_readTokens h
  refine ⟨read, ?_, hagrees⟩
  simp only [parse, lex_of_laid hlaid, bind, Except.bind, hread]

/-- **A file comes back from its print**, and from every text whose lexemes are those of the file
with items between them that declare nothing. -/
theorem parse_print {Pos : Type} (file : File Pos) (h : file.Declarable) :
    (∃ read, parse file.print = .ok read ∧ read.Agrees file) ∧
      ∀ text tokens, Laid 0 text.toList tokens → file.SpelledBy (tokens.map Token.lexeme) →
        ∃ read, parse text = .ok read ∧ read.Agrees file := by
  refine ⟨?_, fun text tokens hlaid hspelled => exists_parse hlaid hspelled⟩
  obtain ⟨tokens, hlaid, htokens⟩ := laid_spell h.spellable 0
  rw [← String.toList_ofList (l := spell file.lexemes)] at hlaid
  refine exists_parse hlaid ?_
  rw [htokens]
  exact h.spelledBy

/-- A method that is called `stream` and takes a message of that name. -/
def takesStream : Rpc := ⟨"stream", "stream", false, ".shop.Item", true⟩

/-- A method with a stream of messages that are declared in `stream`. -/
def takesItems : Rpc := ⟨"returns", "stream.Item", true, "shop.stream", false⟩

/-- A file whose names are keywords. -/
def keywordNames : File Unit where
  package := ["shop", "message"]
  imports := [⟨"the \"common\" types", ()⟩]
  decls := [.message "enum" [.message "Inner" [.enum "oneof"], .enum "rpc"],
    .service "service" [takesStream, takesItems]]

theorem declarable_takesStream : takesStream.Declarable := by
  have hsegments : Name.segments "stream" = ["stream"] := by decide
  have hrequest : FitsSide false "stream" := by
    refine ⟨⟨["stream"], by decide, by decide, .inl hsegments⟩, fun _ next rest heq => ?_⟩
    cases hsegments.symm.trans heq
  have hresponse : FitsSide true ".shop.Item" :=
    ⟨⟨["shop", "Item"], by decide, by decide, .inr (by decide)⟩, fun hfalse => nomatch hfalse⟩
  exact ⟨⟨hrequest, hresponse⟩, by decide⟩

theorem declarable_takesItems : takesItems.Declarable := by
  have hsegments : Name.segments "shop.stream" = ["shop", "stream"] := by decide
  have hrequest : FitsSide true "stream.Item" :=
    ⟨⟨["stream", "Item"], by decide, by decide, .inl (by decide)⟩, fun hfalse => nomatch hfalse⟩
  have hresponse : FitsSide false "shop.stream" := by
    refine ⟨⟨["shop", "stream"], by decide, by decide, .inl hsegments⟩, fun _ next rest heq => ?_⟩
    exact absurd (List.cons.inj (hsegments.symm.trans heq)).1 (by decide)
  exact ⟨⟨hrequest, hresponse⟩, by decide⟩

theorem declarable_keywordNames : keywordNames.Declarable := by
  have hinner : Decl.Nestable (.message "Inner" [.enum "oneof"]) :=
    .message (by decide) (List.forall_mem_singleton.mpr (.enum (by decide)))
  have henum : Decl.Nestable (.message "enum" [.message "Inner" [.enum "oneof"], .enum "rpc"]) :=
    .message (by decide) (List.forall_mem_cons.mpr
      ⟨hinner, List.forall_mem_singleton.mpr (.enum (by decide))⟩)
  have hservice : Decl.Declarable (.service "service" [takesStream, takesItems]) :=
    .service (by decide) (List.forall_mem_cons.mpr
      ⟨declarable_takesStream, List.forall_mem_singleton.mpr declarable_takesItems⟩)
  exact ⟨by decide, List.forall_mem_cons.mpr
    ⟨.nestable henum, List.forall_mem_singleton.mpr hservice⟩⟩

/-! A source of that file with items in it that declare nothing: statements with semicolons and
keywords in brackets, and blocks that look like declarations. -/

section Padded
open Lexeme

/-- An option statement. -/
def optionLexemes : List Lexeme :=
  [word "option", word "message", symbol '=', literal ";"] ++ [symbol ';']

/-- A field with an option whose value is a block. -/
def fieldLexemes : List Lexeme :=
  ([word "rpc", word "extend", symbol '=', number] ++
    symbol '[' :: ((word "hint" :: symbol ';' :: (block optionLexemes ++ [])) ++
      [symbol ']'])) ++ [symbol ';']

/-- A block of alternatives that has a keyword for its name. -/
def oneofLexemes : List Lexeme := word "oneof" :: (typeLexemes "message" ++ block optionLexemes)

/-- A block that extends a message. -/
def extendLexemes : List Lexeme :=
  word "extend" :: (typeLexemes ".shop.Item" ++ block optionLexemes)

/-- The members of the message `enum`. -/
def memberLexemes : List Lexeme :=
  fieldLexemes ++ (word "message" :: word "Inner" ::
    (block (oneofLexemes ++ (word "enum" :: word "oneof" :: (block optionLexemes ++ []))) ++
      (word "enum" :: word "rpc" :: (block [] ++ (optionLexemes ++ [])))))

/-- The methods of the service. -/
def methodLexemes : List Lexeme :=
  optionLexemes ++ (rpcLexemes takesStream ++ (block optionLexemes ++
    (rpcLexemes takesItems ++ ([symbol ';'] ++ ([symbol ';'] ++ [])))))

/-- The whole source. -/
def paddedLexemes : List Lexeme :=
  (optionLexemes ++ []) ++ (packageLexemes ["shop", "message"] ++
    ((extendLexemes ++ []) ++ (importLexemes [word "public"] "the \"common\" types" ++
      (word "message" :: word "enum" :: (block memberLexemes ++
        (word "service" :: word "service" :: (block methodLexemes ++ [])))))))

end Padded

theorem statement_optionLexemes : Statement optionLexemes := .semicolon (.of_plain (by decide))

theorem braced_optionLexemes : Braced optionLexemes := .of_plain (by decide)

theorem statement_fieldLexemes : Statement fieldLexemes := by
  have hinner : Bracketed true (.word "hint" :: .symbol ';' :: (block optionLexemes ++ [])) :=
    .token (by decide) (by decide) (by decide) (.semicolon (.block braced_optionLexemes .nil))
  exact .semicolon (.plain (by decide) (.group (by decide) (by decide) hinner .nil))

theorem declares_memberLexemes :
    Declares .message [.message "Inner" [.enum "oneof"], .enum "rpc"] memberLexemes := by
  have honeof : Skipped .message oneofLexemes :=
    .block (by decide) ⟨["message"], by decide, by decide, .inl (by decide)⟩ braced_optionLexemes
  have hinner := Declares.skip honeof (@Declares.enum _ "oneof" _ _ _ braced_optionLexemes .nil)
  exact .skip (.statement (by decide) statement_fieldLexemes) (.message hinner
    (.enum .nil (.skip (.statement (by decide) statement_optionLexemes) .nil)))

theorem offers_methodLexemes : Offers [takesStream, takesItems] methodLexemes :=
  .skip (.statement rfl statement_optionLexemes)
    (.rpc declarable_takesStream.toWellTyped (.options braced_optionLexemes)
      (.rpc declarable_takesItems.toWellTyped .semicolon (.skip .empty .nil)))

theorem spelledBy_paddedLexemes : keywordNames.SpelledBy paddedLexemes := by
  have hoption : Declares .file [] (optionLexemes ++ []) :=
    .skip (.statement (by decide) statement_optionLexemes) .nil
  have hextend : Declares .file [] (extendLexemes ++ []) :=
    .skip (.block (by decide) ⟨["shop", "Item"], by decide, by decide, .inr (by decide)⟩
      braced_optionLexemes) .nil
  exact .package (by decide) (by decide) hoption (.imported (by decide) hextend
    (.decls (.message declares_memberLexemes (.service offers_methodLexemes .nil))))

theorem parse_print_keywordNames :
    keywordNames.Declarable ∧
    (∃ read, parse keywordNames.print = .ok read ∧ read.Agrees keywordNames) ∧
    ∃ read, parse (String.ofList (spell paddedLexemes)) = .ok read ∧ read.Agrees keywordNames := by
  obtain ⟨hprint, htexts⟩ := parse_print keywordNames declarable_keywordNames
  have hspellable : ∀ l ∈ paddedLexemes, l.Spellable := by decide +kernel
  obtain ⟨tokens, hlaid, htokens⟩ := laid_spell hspellable 0
  refine ⟨declarable_keywordNames, hprint, htexts _ tokens ?_ ?_⟩
  · rwa [String.toList_ofList]
  · rw [htokens]
    exact spelledBy_paddedLexemes

end RpcBindings.Proto

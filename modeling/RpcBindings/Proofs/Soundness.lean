import RpcBindings.Proofs.Grammar
import RpcBindings.Proofs.Tiling

/-! # The reader declares only what can be declared

The declarations that come out of a source are those that a source can be written for: names are
identifiers, types have the form of type names, and no service stands in a message.  The reader
puts names and types together piece by piece and keeps them for a while before it declares
anything, so the invariant is about everything it holds: finished declarations, open scopes, and
what it is in the middle of (`Reader.Formed`).  One token preserves it (`Reader.Formed.step`).

The package is the exception.  It is read as a type name, and a type name may start with a dot,
which leaves an empty segment in front.  The invariant keeps account of the token that stands right
behind the word `package` of the last package statement, which alone decides whether this has
happened (`declarable_parse_iff`).
-/
namespace RpcBindings.Proto

/-! ## Type names -/

theorem IsIdentifier.isTypeName {w : String} (h : IsIdentifier w) : IsTypeName w :=
  ⟨[w], List.cons_ne_nil _ _, List.forall_mem_singleton.mpr h,
    .inl (Name.segments_of_dotFree h.dotFree)⟩

/-- A type name goes on with a dot and a word, and so does nothing. -/
theorem isTypeName_member {scope w : String} (hscope : scope = "" ∨ IsTypeName scope)
    (hw : IsIdentifier w) : IsTypeName (Name.member scope w) := by
  rw [IsTypeName, Name.segments_member scope hw.dotFree]
  rcases hscope with rfl | ⟨path, hpath, hidents, hsegments⟩
  · exact ⟨[w], List.cons_ne_nil _ _, List.forall_mem_singleton.mpr hw, .inr rfl⟩
  · refine ⟨path ++ [w], List.append_ne_nil_of_left_ne_nil hpath _, ?_, ?_⟩
    · exact List.forall_mem_append.mpr ⟨hidents, List.forall_mem_singleton.mpr hw⟩
    · exact hsegments.imp (congrArg (· ++ [w])) (congrArg (· ++ [w]))

/-- The first segment of a name, which is empty when the name starts with a dot. -/
def front (text : String) : Option String := (Name.segments text).head?

theorem front_of_isIdentifier {w : String} (h : IsIdentifier w) : front w = some w := by
  rw [front, Name.segments_of_dotFree h.dotFree]
  rfl

theorem front_dot (text : String) : front (text ++ ".") = front text := by
  have hmember : text ++ "." = Name.member text "" := by rw [Name.member, String.append_empty]
  rw [hmember]
  exact Name.head?_segments_member text List.not_mem_nil

/-! ## Files -/

/-- The declarations of the file can be declared, and `anchored` tells whether its package has an
empty segment in front. -/
structure File.WellRead {Pos : Type} (anchored : Bool) (file : File Pos) : Prop where
  decls : ∀ d ∈ file.decls, d.Declarable
  package : file.package = [] ∨ ∃ name, IsTypeName name ∧ file.package = Name.segments name
  anchor : file.package.head? = some "" ↔ anchored = true

theorem File.WellRead.declarable_iff {Pos : Type} {anchored : Bool} {file : File Pos}
    (h : file.WellRead anchored) : file.Declarable ↔ anchored = false := by
  constructor
  · intro hfile
    refine Bool.eq_false_iff.mpr fun hanchored => ?_
    have hempty := hfile.package "" (List.mem_of_head? (h.anchor.mpr hanchored))
    exact hempty.ne_empty rfl
  · rintro rfl
    refine ⟨?_, h.decls⟩
    rcases h.package with hnone | ⟨name, ⟨path, -, hidents, hsegments⟩, hpackage⟩
    · rw [hnone]
      exact List.forall_mem_nil _
    · rcases hsegments with hsegments | hsegments
      · rwa [hpackage, hsegments]
      · have hanchor : file.package.head? = some "" := by rw [hpackage, hsegments, List.head?_cons]
        exact absurd (h.anchor.mp hanchor) Bool.false_ne_true

namespace Reader

/-- The text is what has been read of a type name. -/
inductive Begun : Progress → String → Prop
  | start : Begun .start ""
  | dotted {scope : String} : scope = "" ∨ IsTypeName scope → Begun .dotted (scope ++ ".")
  | named {type : String} : IsTypeName type → Begun .named type

namespace Begun
variable {text w : String}

theorem of_start (h : Begun .start text) : text = "" := by
  cases h
  rfl

theorem of_named (h : Begun .named text) : IsTypeName text := by
  cases h
  assumption

theorem word {progress : Progress} (h : Begun progress text) (hprogress : progress ≠ .named)
    (hw : IsIdentifier w) : Begun .named (text ++ w) := by
  cases h with
  | start =>
    rw [String.empty_append]
    exact .named hw.isTypeName
  | dotted hscope => exact .named (isTypeName_member hscope hw)
  | named _ => exact absurd rfl hprogress

/-- A word behind a dot leaves the first segment as it is. -/
theorem front_word (h : Begun .dotted text) (hw : IsIdentifier w) :
    front (text ++ w) = front text := by
  cases h with
  | @dotted scope _ =>
    rw [front_dot]
    exact Name.head?_segments_member scope hw.dotFree

end Begun

/-! ## What the reader holds -/

variable {Pos : Type}

/-- A scope that can be declared when it ends. -/
def Scope.Formed : Scope Pos → Prop
  | .message name members => IsIdentifier name ∧ ∀ d ∈ members, d.Nestable
  | .service _ name methods => IsIdentifier name ∧ ∀ m ∈ methods, m.Declarable

/-- What is known of the method when one of its sides is read. -/
def Side.Formed : Side → Prop
  | .request name => IsIdentifier name
  | .response name stream type => IsIdentifier name ∧ FitsSide stream type

/-- What is known of the method when one of its types is read. -/
def Purpose.Formed : Purpose → Prop
  | .package => False
  | .skippedBlock => True
  | .request name _ => IsIdentifier name
  | .response name stream type _ => IsIdentifier name ∧ FitsSide stream type

/-- The type is not the one of a stream. -/
def Purpose.IsSingle : Purpose → Prop
  | .request _ stream => stream = false
  | .response _ _ _ stream => stream = false
  | _ => False

/-- What is known in the middle of something.  The name of a package counts only until it is
started: from then on `Formed` says what is known of it. -/
def Mode.Formed : Mode Pos → Prop
  | .typeName .package progress text => progress = .start ∧ text = ""
  | .typeName purpose progress text => purpose.Formed ∧ Begun progress text ∧
      (purpose.IsSingle → progress ≠ .start ∧ front text ≠ some "stream")
  | .messageBrace name => IsIdentifier name
  | .enumBrace name => IsIdentifier name
  | .serviceBrace _ name => IsIdentifier name
  | .rpcParen side => side.Formed
  | .rpcType side => side.Formed
  | .rpcStream side => side.Formed
  | .rpcReturns name stream type => IsIdentifier name ∧ FitsSide stream type
  | _ => True

/-- What the reader has finished is well read, and so is what its scopes hold. -/
structure Held (anchored : Bool) (s : State Pos) : Prop where
  file : s.file.WellRead anchored
  scopes : ∀ scope ∈ s.scopes, scope.Formed

/-- The invariant of the reader.  While the name of a package is read, that name counts for the
package. -/
inductive Formed (anchored : Bool) (s : State Pos) : Prop
  | plain : Held anchored s → s.mode.Formed → Formed anchored s
  | package {old : Bool} {progress : Progress} {text : String} : Held old s →
      s.mode = .typeName .package progress text → progress ≠ .start → Begun progress text →
      (front text = some "" ↔ anchored = true) → Formed anchored s

namespace Held
variable {a : Bool} {s : State Pos} {t : Token Pos}

theorem go {mode : Mode Pos} (h : Held a s) (hmode : mode.Formed) :
    Ends (Formed a) (fun _ => True) (s.go mode) :=
  .ok (.plain ⟨h.file, h.scopes⟩ hmode)

theorem unexpected {what : Expectation} :
    Ends (Formed a) (fun _ => True) (Reader.unexpected t what) :=
  .error trivial

/-- Reading goes on when the token is the expected one. -/
theorem expect {lexeme : Lexeme} {what : Expectation} {next : Except (Refusal Pos) (State Pos)}
    (hnext : Ends (Formed a) (fun _ => True) next) :
    Ends (Formed a) (fun _ => True)
      (if t.lexeme = lexeme then next else Reader.unexpected t what) := by
  split
  · exact hnext
  · exact unexpected

/-! ## Declarations and scopes -/

/-- A finished message or enum goes to the innermost message, and to the file if there is none. -/
theorem declare {d : Decl} (h : Held a s) (hd : d.Nestable) : Held a (s.declare d) := by
  unfold State.declare
  split
  · next name members rest hscopes =>
    have hold := h.scopes
    rw [hscopes, List.forall_mem_cons] at hold
    have hmembers : ∀ d' ∈ members ++ [d], d'.Nestable :=
      List.forall_mem_append.mpr ⟨hold.1.2, List.forall_mem_singleton.mpr hd⟩
    exact ⟨h.file, List.forall_mem_cons.mpr ⟨⟨hold.1.1, hmembers⟩, hold.2⟩⟩
  · have hdecls : ∀ d' ∈ s.file.decls ++ [d], d'.Declarable :=
      List.forall_mem_append.mpr ⟨h.file.decls, List.forall_mem_singleton.mpr (.nestable hd)⟩
    exact ⟨⟨hdecls, h.file.package, h.file.anchor⟩, h.scopes⟩

/-- A service is declared only where no scope is open. -/
theorem declareService {name : String} {methods : List Rpc} (h : Held a s)
    (hd : (Decl.service name methods).Declarable) :
    Held a (State.declare { s with scopes := [] } (.service name methods)) := by
  have hdecls : ∀ d ∈ s.file.decls ++ [.service name methods], d.Declarable :=
    List.forall_mem_append.mpr ⟨h.file.decls, List.forall_mem_singleton.mpr hd⟩
  exact ⟨⟨hdecls, h.file.package, h.file.anchor⟩, List.forall_mem_nil _⟩

theorem formed_declare {d : Decl} (h : Held a (s.declare d)) : Formed a (s.declare d) := by
  refine .plain h ?_
  rw [mode_declare]
  trivial

theorem leaveScope {scope : Scope Pos} {rest : List (Scope Pos)} (h : Held a s)
    (hscopes : s.scopes = scope :: rest) : scope.Formed ∧ Held a { s with scopes := rest } := by
  have hold := h.scopes
  rw [hscopes, List.forall_mem_cons] at hold
  exact ⟨hold.1, h.file, hold.2⟩

theorem openScope {scope : Scope Pos} (h : Held a s) (hscope : scope.Formed) :
    Formed a { s with mode := .item, scopes := scope :: s.scopes } :=
  .plain ⟨h.file, List.forall_mem_cons.mpr ⟨hscope, h.scopes⟩⟩ trivial

theorem addMethod {m : Rpc} (h : Held a s) (hm : m.Declarable) : Held a (s.addMethod m) := by
  unfold State.addMethod
  split
  · next pos name methods rest hscopes =>
    have hold := h.scopes
    rw [hscopes, List.forall_mem_cons] at hold
    have hmethods : ∀ m' ∈ methods ++ [m], m'.Declarable :=
      List.forall_mem_append.mpr ⟨hold.1.2, List.forall_mem_singleton.mpr hm⟩
    exact ⟨h.file, List.forall_mem_cons.mpr ⟨⟨hold.1.1, hmethods⟩, hold.2⟩⟩
  · exact h

/-! ## Skipped text -/

theorem readStatement {depth : Nat} (h : Held a s) :
    Ends (Formed a) (fun _ => True) (readStatement s depth t) := by
  unfold Reader.readStatement
  repeat' split
  any_goals exact h.go trivial
  -- a closing brace outside all brackets
  exact .error trivial

theorem readBlock {braces around : Nat} (h : Held a s) :
    Ends (Formed a) (fun _ => True) (readBlock s braces around t) := by
  unfold Reader.readBlock
  repeat' split
  all_goals exact h.go trivial

/-! ## Types -/

/-- A complete type is kept for the request, and as a response it finishes the method. -/
theorem endTypeName {purpose : Purpose} {text : String} (h : Held a s) (hpurpose : purpose.Formed)
    (htype : IsTypeName text)
    (hsingle : purpose.IsSingle → ∀ next rest, Name.segments text ≠ "stream" :: next :: rest) :
    Ends (Formed a) (fun _ => True) (endTypeName s purpose text t) := by
  unfold Reader.endTypeName
  split
  · exact hpurpose.elim
  · exact expect (h.go trivial)
  · exact expect (h.go ⟨hpurpose, htype, hsingle⟩)
  · next name requestStream requestType stream =>
    have hmethod : Rpc.Declarable ⟨name, requestType, requestStream, text, stream⟩ :=
      ⟨⟨hpurpose.2, htype, hsingle⟩, hpurpose.1⟩
    exact expect ((h.addMethod hmethod).go trivial)

theorem goTypeName {purpose : Purpose} {progress : Progress} {text : String} (h : Held a s)
    (hpurpose : purpose.Formed) (hbegun : Begun progress text)
    (hsingle : purpose.IsSingle → progress ≠ .start ∧ front text ≠ some "stream") :
    Ends (Formed a) (fun _ => True) (s.go (.typeName purpose progress text)) := by
  refine h.go ?_
  cases purpose with
  | package => exact hpurpose.elim
  | skippedBlock => exact ⟨hpurpose, hbegun, hsingle⟩
  | request name stream => exact ⟨hpurpose, hbegun, hsingle⟩
  | response name requestStream requestType stream => exact ⟨hpurpose, hbegun, hsingle⟩

/-- A single type does not start with the word `stream`: there that word is not read as its
start, and nothing that is read later changes the first segment. -/
theorem readTypeName {purpose : Purpose} {progress : Progress} {text : String} (h : Held a s)
    (hpurpose : purpose.Formed) (hbegun : Begun progress text)
    (hfront : purpose.IsSingle → front text ≠ some "stream")
    (hstart : purpose.IsSingle → progress = .start → t.lexeme ≠ .word "stream")
    (ht : ∀ w, t.lexeme = .word w → IsIdentifier w) :
    Ends (Formed a) (fun _ => True) (readTypeName s purpose progress text t) := by
  have hdot : purpose.IsSingle → Progress.dotted ≠ .start ∧ front (text ++ ".") ≠ some "stream" :=
    fun hsingle => ⟨by decide, front_dot text ▸ hfront hsingle⟩
  unfold Reader.readTypeName
  split
  · exact h.goTypeName hpurpose (.dotted (.inl hbegun.of_start)) hdot
  · exact h.goTypeName hpurpose (.dotted (.inr hbegun.of_named)) hdot
  · refine h.endTypeName hpurpose hbegun.of_named fun hsingle next rest hsegments => ?_
    exact hfront hsingle (by rw [front, hsegments]; rfl)
  · next w hnamed hw =>
    have hw' := ht w hw
    -- the first word of a type is not `stream`, and a later one is not in front
    refine h.goTypeName hpurpose (hbegun.word hnamed hw') fun hsingle => ⟨by decide, ?_⟩
    cases hbegun with
    | start =>
      rw [String.empty_append, front_of_isIdentifier hw']
      rintro ⟨⟩
      exact hstart hsingle rfl hw
    | dotted hscope =>
      rw [(Begun.dotted hscope).front_word hw']
      exact hfront hsingle
    | named _ => exact absurd rfl hnamed
  · exact unexpected

/-! ## Items -/

/-- The name of a block that is skipped starts with nothing. -/
theorem goSkippedBlock (h : Held a s) :
    Ends (Formed a) (fun _ => True) (s.go (.typeName .skippedBlock .start "")) :=
  h.goTypeName trivial .start False.elim

theorem readTopLevel (h : Held a s) : Ends (Formed a) (fun _ => True) (readTopLevel s t) := by
  unfold Reader.readTopLevel
  split
  · repeat' split
    · exact h.go ⟨rfl, rfl⟩
    · exact h.go trivial
    · exact h.go trivial
    · exact h.goSkippedBlock
    · exact h.go trivial
    · exact h.go trivial
    · exact h.go trivial
    · exact .error trivial
  · exact h.go trivial
  · exact unexpected

theorem readMember {name : String} {members : List Decl} {rest : List (Scope Pos)}
    (h : Held a s) (hscopes : s.scopes = .message name members :: rest) :
    Ends (Formed a) (fun _ => True) (readMember s name members rest t) := by
  unfold Reader.readMember
  split
  · obtain ⟨⟨hname, hmembers⟩, hrest⟩ := h.leaveScope hscopes
    exact .ok (hrest.declare (.message hname hmembers)).formed_declare
  · exact h.go trivial
  · repeat' split
    · exact h.go trivial
    · exact h.go trivial
    · exact h.go trivial
    · exact h.goSkippedBlock
    · exact h.readStatement
  · exact h.readStatement

/-- A service that ends inside another scope is refused, so none gets into a message. -/
theorem readServiceItem {pos : Pos} {name : String} {methods : List Rpc}
    {rest : List (Scope Pos)} (h : Held a s)
    (hscopes : s.scopes = .service pos name methods :: rest) :
    Ends (Formed a) (fun _ => True) (readServiceItem s pos name methods rest t) := by
  unfold Reader.readServiceItem
  split
  · split
    · obtain ⟨hname, hmethods⟩ := (h.leaveScope hscopes).1
      exact .ok (h.declareService (.service hname hmethods)).formed_declare
    · exact .error trivial
  · exact h.go trivial
  · repeat' split
    · exact h.go trivial
    · exact h.go trivial
    · exact unexpected
  · exact unexpected

theorem readItem (h : Held a s) : Ends (Formed a) (fun _ => True) (readItem s t) := by
  unfold Reader.readItem
  split
  · exact h.readTopLevel
  · next hscopes => exact h.readMember hscopes
  · next hscopes => exact h.readServiceItem hscopes

theorem readName {what : String} {next : String → Mode Pos} (h : Held a s)
    (ht : ∀ w, t.lexeme = .word w → IsIdentifier w)
    (hnext : ∀ w, IsIdentifier w → (next w).Formed) :
    Ends (Formed a) (fun _ => True) (readName s what next t) := by
  unfold Reader.readName
  split
  · next w hw => exact h.go (hnext w (ht w hw))
  · exact unexpected

theorem readImportPath (h : Held a s) : Ends (Formed a) (fun _ => True) (readImportPath s t) := by
  unfold Reader.readImportPath
  split
  · exact .ok (.plain ⟨⟨h.file.decls, h.file.package, h.file.anchor⟩, h.scopes⟩ trivial)
  · exact unexpected

/-! ## The sides of a method -/

theorem formed_purpose {side : Side} {stream : Bool} (h : side.Formed) :
    (side.purpose stream).Formed := by
  cases side <;> exact h

theorem isSingle_purpose {side : Side} : ¬ (side.purpose true).IsSingle := by
  cases side <;> exact Bool.noConfusion

theorem readSide {side : Side} (h : Held a s) (hside : side.Formed)
    (hstream : t.lexeme ≠ .word "stream") (ht : ∀ w, t.lexeme = .word w → IsIdentifier w) :
    Ends (Formed a) (fun _ => True) (Reader.readTypeName s (side.purpose false) .start "" t) :=
  h.readTypeName (formed_purpose hside) .start (fun _ => by decide) (fun _ _ => hstream) ht

theorem readStreamSide {side : Side} (h : Held a s) (hside : side.Formed)
    (ht : ∀ w, t.lexeme = .word w → IsIdentifier w) :
    Ends (Formed a) (fun _ => True) (Reader.readTypeName s (side.purpose true) .start "" t) :=
  h.readTypeName (formed_purpose hside) .start (absurd · isSingle_purpose)
    (absurd · isSingle_purpose) ht

/-- The word `stream` was the whole type. -/
theorem endStreamSide {side : Side} (h : Held a s) (hside : side.Formed)
    (hdot : t.lexeme ≠ .symbol '.') :
    Ends (Formed a) (fun _ => True)
      (Reader.readTypeName s (side.purpose false) .named "stream" t) := by
  have hstream : IsIdentifier "stream" := ⟨'s', "tream".toList, rfl, rfl, List.all_eq_true.mp rfl⟩
  have hend : Reader.readTypeName s (side.purpose false) .named "stream" t =
      Reader.endTypeName s (side.purpose false) "stream" t := by
    unfold Reader.readTypeName
    split <;> simp_all
  rw [hend]
  refine h.endTypeName (formed_purpose hside) hstream.isTypeName fun _ next rest hsegments => ?_
  rw [Name.segments_of_dotFree hstream.dotFree] at hsegments
  cases hsegments

end Held

/-! ## One token -/

/-- The reader is right behind the word `package`. -/
def Mode.startsPackage : Mode Pos → Bool
  | .typeName .package .start _ => true
  | _ => false

theorem startsPackage_iff {mode : Mode Pos} :
    mode.startsPackage = true ↔ ∃ text, mode = .typeName .package .start text := by
  unfold Mode.startsPackage
  split
  · exact iff_of_true rfl ⟨_, rfl⟩
  · next hother => exact iff_of_false Bool.false_ne_true fun ⟨text, hmode⟩ => hother text hmode

/-- A token behind the word `package` tells whether that package has an anchor. -/
def anchoredAfter (anchored : Bool) (s : State Pos) (t : Token Pos) : Bool :=
  if s.mode.startsPackage then t.lexeme = .symbol '.' else anchored

namespace Held
variable {a : Bool} {s : State Pos} {t : Token Pos}

/-- The first token of the name of a package. -/
theorem startPackage (h : Held a s) (ht : ∀ w, t.lexeme = .word w → IsIdentifier w) :
    Ends (Formed (decide (t.lexeme = .symbol '.'))) (fun _ => True)
      (Reader.readTypeName s .package .start "" t) := by
  have hheld : ∀ mode, Held a { s with mode := mode } := fun _ =>
    ⟨h.file, h.scopes⟩
  unfold Reader.readTypeName
  split
  · next hdot =>
    refine .ok (.package (hheld _) rfl (by decide) (.dotted (.inl rfl)) (iff_of_true ?_ ?_))
    · decide
    · exact decide_eq_true hdot
  · contradiction
  · contradiction
  · next w hw _ =>
    have hname : Begun .named ("" ++ w) := Begun.start.word (by decide) (ht w hw)
    refine .ok (.package (hheld _) rfl (by decide) hname (iff_of_false ?_ ?_))
    · rw [String.empty_append, front_of_isIdentifier (ht w hw)]
      exact fun hempty => (ht w hw).ne_empty (Option.some.inj hempty)
    · rw [hw, decide_eq_true_iff]
      exact fun hdot => nomatch hdot
  · exact unexpected

/-- The name of a package keeps its first segment to its end. -/
theorem readPackage {old : Bool} {progress : Progress} {text : String} (h : Held old s)
    (hprogress : progress ≠ .start) (hbegun : Begun progress text)
    (hanchor : front text = some "" ↔ a = true) (ht : ∀ w, t.lexeme = .word w → IsIdentifier w) :
    Ends (Formed a) (fun _ => True) (Reader.readTypeName s .package progress text t) := by
  have hheld : ∀ mode, Held old { s with mode := mode } := fun _ =>
    ⟨h.file, h.scopes⟩
  unfold Reader.readTypeName
  split
  · contradiction
  · refine .ok (.package (hheld _) rfl (by decide) (.dotted (.inr hbegun.of_named)) ?_)
    rwa [front_dot]
  · have hpackage : Held a { s with file := { s.file with package := Name.segments text } } :=
      ⟨⟨h.file.decls, .inr ⟨text, hbegun.of_named, rfl⟩, hanchor⟩, h.scopes⟩
    exact expect (hpackage.go trivial)
  · next w hnamed hw =>
    refine .ok (.package (hheld _) rfl (by decide) (hbegun.word hnamed (ht w hw)) ?_)
    cases hbegun with
    | start => contradiction
    | dotted hscope => rwa [(Begun.dotted hscope).front_word (ht w hw)]
    | named _ => exact absurd rfl hnamed
  · exact unexpected

/-- A token that is not read for the name of a package. -/
theorem step (h : Held a s) (hmode : s.mode.Formed) (hpackage : s.mode.startsPackage = false)
    (ht : ∀ w, t.lexeme = .word w → IsIdentifier w) :
    Ends (Formed a) (fun _ => True) (Reader.step s t) := by
  unfold Reader.step
  cases heq : s.mode <;> rw [heq] at hmode hpackage <;> dsimp only
  case item => exact h.readItem
  case statement depth => exact h.readStatement
  case block braces around => exact h.readBlock
  case typeName purpose progress text =>
    cases purpose with
    | package =>
      obtain ⟨rfl, rfl⟩ := hmode
      cases hpackage
    | skippedBlock => exact h.readTypeName trivial hmode.2.1 False.elim False.elim ht
    | request name stream =>
      obtain ⟨hpurpose, hbegun, hsingle⟩ := hmode
      exact h.readTypeName hpurpose hbegun (fun hs => (hsingle hs).2)
        (fun hs hstart => absurd hstart (hsingle hs).1) ht
    | response name requestStream requestType stream =>
      obtain ⟨hpurpose, hbegun, hsingle⟩ := hmode
      exact h.readTypeName hpurpose hbegun (fun hs => (hsingle hs).2)
        (fun hs hstart => absurd hstart (hsingle hs).1) ht
  case importStart =>
    split
    · exact h.go trivial
    · exact h.readImportPath
  case importPath => exact h.readImportPath
  case importEnd => exact expect (h.go trivial)
  case messageName => exact h.readName ht fun _ hw => hw
  case messageBrace name => exact expect (.ok (h.openScope ⟨hmode, List.forall_mem_nil _⟩))
  case enumName => exact h.readName ht fun _ hw => hw
  case enumBrace name => exact expect ((h.declare (.enum hmode)).go trivial)
  case serviceName pos => exact h.readName ht fun _ hw => hw
  case serviceBrace pos name => exact expect (.ok (h.openScope ⟨hmode, List.forall_mem_nil _⟩))
  case rpcName => exact h.readName ht fun _ hw => hw
  case rpcParen side => exact expect (h.go hmode)
  case rpcType side =>
    split
    · exact h.go hmode
    · next hstream => exact h.readSide hmode hstream ht
  case rpcStream side =>
    split
    · exact h.readStreamSide hmode ht
    · exact h.readStreamSide hmode ht
    · next hdot => exact h.endStreamSide hmode hdot
  case rpcReturns name stream type => exact expect (h.go hmode)
  case rpcEnd =>
    split
    · exact h.go trivial
    · exact expect (h.go trivial)

end Held

namespace Formed
variable {a : Bool} {s : State Pos} {t : Token Pos}

/-- **One token keeps what the reader holds well-formed.** -/
theorem step (h : Formed a s) (ht : ∀ w, t.lexeme = .word w → IsIdentifier w) :
    Ends (Formed (anchoredAfter a s t)) (fun _ => True) (Reader.step s t) := by
  unfold anchoredAfter
  split
  · -- behind the word `package` the token alone decides, whatever the package was before
    next hstarts =>
    obtain ⟨text, hmode⟩ := startsPackage_iff.mp hstarts
    unfold Reader.step
    rw [hmode]
    cases h with
    | plain hheld hformed =>
      rw [hmode] at hformed
      obtain ⟨-, rfl⟩ := hformed
      exact hheld.startPackage ht
    | package _ hpackage hprogress _ _ =>
      rw [hmode] at hpackage
      cases hpackage
      contradiction
  · next hstarts =>
    cases h with
    | plain hheld hformed => exact hheld.step hformed (Bool.eq_false_iff.mpr hstarts) ht
    | package hheld hpackage hprogress hbegun hanchor =>
      unfold Reader.step
      rw [hpackage]
      exact hheld.readPackage hprogress hbegun hanchor ht

theorem start : Formed false ({} : State Pos) := by
  have hfile : File.WellRead false ({} : File Pos) :=
    ⟨List.forall_mem_nil _, .inl rfl, iff_of_false nofun Bool.false_ne_true⟩
  exact .plain ⟨hfile, List.forall_mem_nil _⟩ trivial

end Formed

/-! ## All tokens -/

/-- The tokens that stand right behind the word `package` of a package statement. -/
def packageStarts (s : State Pos) : List (Token Pos) → List (Token Pos)
  | [] => []
  | t :: rest =>
    match Reader.step s t with
    | .ok s' => (if s.mode.startsPackage then [t] else []) ++ packageStarts s' rest
    | .error _ => []

/-- The last of these tokens is a dot, or there are none and it was so before. -/
def anchoredBy (anchored : Bool) (starts : List (Token Pos)) : Bool :=
  (starts.getLast?.map fun t => decide (t.lexeme = .symbol '.')).getD anchored

theorem anchoredBy_append (a : Bool) (starts more : List (Token Pos)) :
    anchoredBy a (starts ++ more) = anchoredBy (anchoredBy a starts) more := by
  unfold anchoredBy
  rw [List.getLast?_append]
  cases more.getLast? <;> rfl

theorem anchoredBy_packageStarts_cons {a : Bool} {s s' : State Pos} {t : Token Pos}
    {rest : List (Token Pos)} (hstep : Reader.step s t = .ok s') :
    anchoredBy a (packageStarts s (t :: rest)) =
      anchoredBy (anchoredAfter a s t) (packageStarts s' rest) := by
  have hfirst : anchoredBy a (if s.mode.startsPackage then [t] else []) = anchoredAfter a s t := by
    unfold anchoredAfter
    split <;> rfl
  rw [packageStarts, hstep, ← hfirst]
  exact anchoredBy_append ..

namespace Formed
variable {a : Bool} {s : State Pos}

/-- **All tokens keep what the reader holds well-formed.** -/
theorem run {tokens : List (Token Pos)} {s' : State Pos} (h : Formed a s)
    (htokens : ∀ t ∈ tokens, ∀ w, t.lexeme = .word w → IsIdentifier w)
    (hrun : tokens.foldlM Reader.step s = .ok s') :
    Formed (anchoredBy a (packageStarts s tokens)) s' := by
  induction tokens generalizing a s with
  | nil =>
    cases hrun
    exact h
  | cons t rest ih =>
    obtain ⟨ht, hrest⟩ := List.forall_mem_cons.mp htokens
    obtain ⟨mid, hmid, hrun⟩ := foldlM_cons_eq_ok.mp hrun
    have hstep := h.step ht
    rw [hmid] at hstep
    rw [anchoredBy_packageStarts_cons hmid]
    exact ih hstep.of_ok hrest hrun

/-- Between items the package is complete. -/
theorem close {file : File Pos} (h : Formed a s) (hclose : Reader.close s = .ok file) :
    file.WellRead a := by
  unfold Reader.close at hclose
  split at hclose
  · cases hclose
  · cases hclose
  · cases hclose
  · next hawaited _ =>
    cases hclose
    cases h with
    | plain hheld _ => exact hheld.file
    | @package _ progress _ _ hmode _ _ _ =>
      rw [hmode] at hawaited
      cases progress <;> cases hawaited

end Formed

end Reader

theorem wellRead_readTokens {Pos : Type} {tokens : List (Token Pos)} {file : File Pos}
    (htokens : ∀ t ∈ tokens, ∀ w, t.lexeme = .word w → IsIdentifier w)
    (h : readTokens tokens = .ok file) :
    file.WellRead (Reader.anchoredBy false (Reader.packageStarts {} tokens)) := by
  obtain ⟨s, hrun, hclose⟩ := bind_eq_ok.mp h
  exact (Reader.Formed.start.run htokens hrun).close hclose

/-- The last package statement of the source has a dot in front of the name. -/
def anchorsPackage (source : String) : Bool :=
  match lex source.toList with
  | .ok tokens => Reader.anchoredBy false (Reader.packageStarts {} tokens)
  | .error _ => false

/-- **A source that is read is well read.** -/
theorem wellRead_of_parse {source : String} {file : File Span} (h : parse source = .ok file) :
    file.WellRead (anchorsPackage source) := by
  obtain ⟨tokens, htokens, h⟩ := bind_eq_ok.mp h
  unfold anchorsPackage
  rw [htokens]
  split at h
  · next hread =>
    cases h
    exact wellRead_readTokens (isIdentifier_of_lex htokens) hread
  · cases h
  · cases h

/-- **What a source declares can be declared.**  All of its declarations can, and so can its
package unless the last package statement has a dot in front of the name. -/
theorem declarable_parse_iff {source : String} {file : File Span} (h : parse source = .ok file) :
    (∀ d ∈ file.decls, d.Declarable) ∧
      (file.Declarable ↔ anchorsPackage source = false) :=
  ⟨(wellRead_of_parse h).decls, (wellRead_of_parse h).declarable_iff⟩

/-- Two package statements of which the first has a dot in front, and words that are keywords
elsewhere. -/
def twoPackages : String :=
  "package .x; message M \x7b enum package \x7b\x7d \x7d package a . b; " ++
  "service S \x7b rpc stream (stream) returns (stream .M); \x7d"

theorem declarable_parse_twoPackages :
    ∃ file, parse twoPackages = .ok file ∧ file.package = ["a", "b"] ∧ file.Declarable := by
  have hrun : ((parse twoPackages).toOption.any fun file => file.package == ["a", "b"]) = true := by
    decide +kernel
  obtain ⟨file, hfile, hpackage⟩ := exists_ok_of_any hrun
  refine ⟨file, hfile, eq_of_beq hpackage, (declarable_parse_iff hfile).2.mpr ?_⟩
  decide +kernel

/-- A package with a dot in front of its name. -/
def leadingDot : String := "package .a; message M \x7b\x7d"

theorem not_declarable_leadingDot :
    ∃ file, parse leadingDot = .ok file ∧ file.package = ["", "a"] ∧ ¬ file.Declarable := by
  have hrun : ((parse leadingDot).toOption.any fun file => file.package == ["", "a"]) = true := by
    decide +kernel
  obtain ⟨file, hfile, hpackage⟩ := exists_ok_of_any hrun
  have hpackage := eq_of_beq hpackage
  refine ⟨file, hfile, hpackage, fun hdeclarable => ?_⟩
  have hempty := hdeclarable.package "" (hpackage ▸ List.mem_cons_self ..)
  exact hempty.ne_empty rfl

end RpcBindings.Proto

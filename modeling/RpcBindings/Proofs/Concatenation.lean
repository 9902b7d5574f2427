import RpcBindings.Proofs.ErrorSpans
import RpcBindings.Proofs.PrintedTokens
import RpcBindings.Proofs.Soundness

/-! # One source behind another

Two sources that are read can be read as one, with a newline between them: imports and
declarations of the second follow those of the first, at the bytes where they now stand, and a
package statement of the second wins (`parse_concat`).

For the lexer the newline ends whatever the first source ends with, a last line comment included,
and then the tokens of the second are as before but for the bytes in front of them
(`lex_concat`).  The reader has nothing open at the end of the first source, so it reads the second
on top of a file that it never looks at (`readTokens_concat`).  It remains to be seen which sources
set the package: those with a package statement and no others (`package_eq_nil_iff`).
-/
namespace RpcBindings.Proto

open RpcBindings.Text (byteLength)

/-! ## Tokens -/

/-- The span `k` bytes further on. -/
def Span.shift (k : Nat) (span : Span) : Span := ⟨span.offset + k, span.length⟩

theorem Ending.shift {offset : Nat} {rest : List Char} (h : Ending none offset rest) (k : Nat) :
    Ending none (offset + k) rest := by
  cases h with
  | nothing => exact .nothing
  | lineComment htext => exact .lineComment htext

/-- A text behind `k` more bytes has its tokens `k` bytes further on. -/
theorem Tiled.shift {offset : Nat} {cs : List Char} {tokens : List (Token Span)}
    (h : Tiled none offset cs tokens) (k : Nat) :
    Tiled none (offset + k) cs (tokens.map (Token.move (Span.shift k))) := by
  induction h with
  | @ending offset gap rest hgap hending =>
    have hshift := hending.shift k
    rw [Nat.add_right_comm] at hshift
    exact .ending hgap hshift
  | @token offset gap written rest lexeme tokens hgap hspells hstops _ ih =>
    rw [Nat.add_right_comm, Nat.add_right_comm offset] at ih
    rw [List.map_cons, Token.move, Span.shift, Nat.add_right_comm]
    exact .token hgap hspells hstops ih

/-- A newline makes a gap of what a text can end with. -/
theorem Ending.gap_newline {offset : Nat} {rest : List Char} (h : Ending none offset rest) :
    Gap (rest ++ ['\n']) := by
  cases h with
  | nothing => exact .space rfl .nil
  | lineComment htext => exact .lineComment htext .nil

theorem stops_newline {lexeme : Lexeme} {rest : List Char} (h : Stops lexeme rest)
    (cs : List Char) : Stops lexeme (rest ++ '\n' :: cs) := by
  cases rest with
  | nil => exact stops_cons (lexeme.endsBefore_of_isSpace rfl)
  | cons c rest => exact h

/-- Tokens behind a newline follow those before it. -/
theorem Tiled.newline {refusal : Option SyntaxError} {offset : Nat} {cs more : List Char}
    {tokens later : List (Token Span)} (h : Tiled none offset cs tokens)
    (hmore : Tiled refusal (offset + byteLength (cs ++ ['\n'])) more later) :
    Tiled refusal offset (cs ++ '\n' :: more) (tokens ++ later) := by
  induction h with
  | @ending offset gap rest hgap hending =>
    rw [List.append_assoc] at hmore
    rw [List.append_cons, List.append_assoc gap]
    exact hmore.behind_gap (hgap.append hending.gap_newline)
  | @token offset gap written rest lexeme tokens hgap hspells hstops _ ih =>
    have hbytes : offset + byteLength (gap ++ (written ++ rest) ++ ['\n']) =
        offset + byteLength gap + byteLength written + byteLength (rest ++ ['\n']) := by
      simp only [Text.byteLength_append, Nat.add_assoc]
    rw [hbytes] at hmore
    rw [List.append_assoc, List.append_assoc]
    exact .token hgap hspells (stops_newline hstops more) (ih hmore)

/-- **The tokens of a source follow those of another one before it**, at the bytes where they now
stand. -/
theorem lex_concat {a b : List Char} {ts us : List (Token Span)} (ha : lex a = .ok ts)
    (hb : lex b = .ok us) :
    lex (a ++ '\n' :: b) = .ok (ts ++ us.map (Token.move (Span.shift (byteLength a + 1)))) := by
  have hbytes : byteLength (a ++ ['\n']) = byteLength a + 1 := Text.byteLength_append ..
  have hbehind := (tiled_of_lex hb).shift (byteLength (a ++ ['\n']))
  rw [← hbytes]
  exact lex_of_tiled ((tiled_of_lex ha).newline hbehind)

/-! ## Declarations -/

section Files
variable {Pos Pos' : Type}

/-- The file with all that another one declares behind it, whose package wins if it has one. -/
def File.followedBy (file more : File Pos) : File Pos :=
  { package := match more.package with
      | [] => file.package
      | segments => segments
    imports := file.imports ++ more.imports
    decls := file.decls ++ more.decls }

theorem carries_followedBy (f : Pos → Pos') (file : File Pos') :
    Reader.Carries f (fun _ => True) fun more => file.followedBy (more.move f) where
  package more text := by
    obtain ⟨first, rest, hsegments⟩ := List.exists_cons_of_ne_nil (Name.segments_ne_nil text)
    simp only [File.followedBy, File.move, hsegments]
  imports more path pos _ := by
    simp only [File.followedBy, File.move, List.map_append, List.map_singleton,
      List.append_assoc, Import.move]
  decls more d := by
    simp only [File.followedBy, File.move, List.append_assoc]

theorem File.followedBy_empty (file : File Pos) : file.followedBy {} = file := by
  simp only [File.followedBy, List.append_nil]

theorem Reader.eq_item_of_awaited {mode : Mode Pos} (h : mode.awaited = none) : mode = .item := by
  cases mode with
  | item => rfl
  | typeName purpose progress text => cases progress <;> cases h
  | _ => cases h

/-- At the end of a file the reader has nothing open. -/
theorem Reader.eq_of_close {s : State Pos} {file : File Pos} (h : close s = .ok file) :
    s = { file } := by
  unfold close at h
  split at h
  · cases h
  · cases h
  · cases h
  · next hawaited hscopes =>
    cases h
    obtain ⟨file, scopes, mode⟩ := s
    obtain rfl : mode = .item := eq_item_of_awaited hawaited
    obtain rfl : scopes = [] := hscopes
    rfl

/-- **Tokens behind those of a file are read on top of it.** -/
theorem readTokens_concat (f : Pos → Pos') {ts : List (Token Pos')} {us : List (Token Pos)}
    {file : File Pos'} {more : File Pos} (hts : readTokens ts = .ok file)
    (hus : readTokens us = .ok more) :
    readTokens (ts ++ us.map (Token.move f)) = .ok (file.followedBy (more.move f)) := by
  obtain ⟨s, hrun, hclose⟩ := bind_eq_ok.mp hts
  obtain rfl := Reader.eq_of_close hclose
  have honto := carry_readOnto (carries_followedBy f file) (fun t (_ : t ∈ us) => trivial) {}
  calc readTokens (ts ++ us.map (Token.move f))
      = readOnto file (us.map (Token.move f)) := by
        rw [readTokens, List.foldlM_append, hrun]
        rfl
    _ = readOnto (file.followedBy (File.move f {})) (us.map (Token.move f)) :=
        congrArg (readOnto · _) file.followedBy_empty.symm
    _ = .ok (file.followedBy (more.move f)) := honto.trans (congrArg _ hus)

end Files

/-! ## Package statements -/

namespace Reader
variable {Pos : Type}

/-- The reader is in the middle of the name of a package. -/
def Mode.inPackage : Mode Pos → Bool
  | .typeName .package .dotted _ => true
  | .typeName .package .named _ => true
  | _ => false

/-- The file has a package, or the reader is in the middle of its name. -/
def Packaged (s : State Pos) : Prop := s.file.package ≠ [] ∨ s.mode.inPackage = true

/-- The second state has the package of the first and is not in the middle of one. -/
def Aside (s s' : State Pos) : Prop :=
  s'.file.package = s.file.package ∧ s'.mode.inPackage = false

section Aside
variable {s : State Pos} {t : Token Pos}

theorem aside_declare (d : Decl) : Aside s (s.declare d) := by
  unfold State.declare
  split <;> exact ⟨rfl, rfl⟩

theorem aside_readStatement (depth : Nat) :
    Ends (Aside s) (fun _ => True) (readStatement s depth t) := by
  unfold readStatement
  repeat' split
  all_goals first | exact .ok ⟨rfl, rfl⟩ | exact .error trivial

theorem aside_readBlock (braces around : Nat) :
    Ends (Aside s) (fun _ => True) (readBlock s braces around t) := by
  unfold readBlock
  repeat' split
  all_goals exact .ok ⟨rfl, rfl⟩

theorem aside_readItem : Ends (Aside s) (fun _ => True) (readItem s t) := by
  unfold readItem readTopLevel readMember readServiceItem
  repeat' split
  all_goals first
    | exact .ok ⟨rfl, rfl⟩
    | exact .error trivial
    | exact aside_readStatement 0
    | exact .ok (aside_declare _)

theorem aside_readName (what : String) {next : String → Mode Pos}
    (hnext : ∀ w, (next w).inPackage = false) :
    Ends (Aside s) (fun _ => True) (readName s what next t) := by
  unfold readName
  split
  · exact .ok ⟨rfl, hnext _⟩
  · exact .error trivial

theorem aside_readImportPath : Ends (Aside s) (fun _ => True) (readImportPath s t) := by
  unfold readImportPath
  split
  · exact .ok ⟨rfl, rfl⟩
  · exact .error trivial

theorem package_addMethod (m : Rpc) : (s.addMethod m).file = s.file := by
  unfold State.addMethod
  split <;> rfl

/-- A type name that is not read for the package. -/
theorem aside_readTypeName {purpose : Purpose} (hpurpose : purpose ≠ .package)
    (progress : Progress) (text : String) :
    Ends (Aside s) (fun _ => True) (readTypeName s purpose progress text t) := by
  have hmode : ∀ progress text, (Mode.typeName purpose progress text : Mode Pos).inPackage =
      false := by
    intro progress text
    unfold Mode.inPackage
    split <;> simp_all
  have hmethod : ∀ m, Aside s { s.addMethod m with mode := .rpcEnd } := fun m =>
    ⟨congrArg File.package (package_addMethod m), rfl⟩
  unfold readTypeName endTypeName
  repeat' split
  all_goals first
    | exact .ok ⟨rfl, hmode _ _⟩
    | exact .ok ⟨rfl, rfl⟩
    | exact .ok (hmethod _)
    | exact .error trivial
    | contradiction

/-- Outside package statements the package stays as it is. -/
theorem aside_step (hmode : ∀ progress text, s.mode ≠ .typeName .package progress text) :
    Ends (Aside s) (fun _ => True) (step s t) := by
  have hside : ∀ (side : Side) (stream : Bool), side.purpose stream ≠ .package := by
    rintro (_ | _) stream <;> exact nofun
  unfold step
  cases heq : s.mode <;> dsimp only
  case item => exact aside_readItem
  case statement depth => exact aside_readStatement depth
  case block braces around => exact aside_readBlock braces around
  case typeName purpose progress text =>
    refine aside_readTypeName ?_ progress text
    rintro rfl
    exact hmode progress text heq
  case importStart =>
    split
    · exact .ok ⟨rfl, rfl⟩
    · exact aside_readImportPath
  case importPath => exact aside_readImportPath
  case messageName => exact aside_readName _ fun _ => rfl
  case enumName => exact aside_readName _ fun _ => rfl
  case enumBrace name =>
    split
    · exact .ok ⟨(aside_declare (.enum name)).1, rfl⟩
    · exact .error trivial
  case serviceName pos => exact aside_readName _ fun _ => rfl
  case rpcName => exact aside_readName _ fun _ => rfl
  case rpcType side =>
    split
    · exact .ok ⟨rfl, rfl⟩
    · exact aside_readTypeName (hside side _) _ _
  case rpcStream side => split <;> exact aside_readTypeName (hside side _) _ _
  -- everywhere else one token is expected, and nothing is written down
  all_goals
    repeat' split
    all_goals first | exact .ok ⟨rfl, rfl⟩ | exact .error trivial

end Aside

section Packaged
variable {s : State Pos} {t : Token Pos}

theorem packaged_readTypeName (progress : Progress) (text : String) :
    Ends Packaged (fun _ => True) (readTypeName s .package progress text t) := by
  unfold readTypeName
  split
  · exact .ok (.inr rfl)
  · exact .ok (.inr rfl)
  · -- the name is complete, and no name is without segments
    dsimp only [endTypeName]
    split
    · exact .ok (.inl (Name.segments_ne_nil text))
    · exact .error trivial
  · exact .ok (.inr rfl)
  · exact .error trivial

/-- **A token makes for a package when it stands behind the word `package`, and keeps what there
is otherwise.** -/
theorem packaged_step :
    Ends (fun s' => Packaged s' ↔ Packaged s ∨ s.mode.startsPackage = true) (fun _ => True)
      (step s t) := by
  by_cases hmode : ∃ progress text, s.mode = .typeName .package progress text
  · obtain ⟨progress, text, hmode⟩ := hmode
    have hbefore : Packaged s ∨ s.mode.startsPackage = true := by
      rw [Packaged, hmode]
      cases progress with
      | start => exact .inr rfl
      | dotted => exact .inl (.inr rfl)
      | named => exact .inl (.inr rfl)
    have hstep : step s t = readTypeName s .package progress text t := by
      rw [step, hmode]
    rw [hstep]
    exact (packaged_readTypeName progress text).imp (fun _ hs' => iff_of_true hs' hbefore)
      fun _ => id
  · have hmode : ∀ progress text, s.mode ≠ .typeName .package progress text :=
      fun progress text heq => hmode ⟨progress, text, heq⟩
    have hstarts : s.mode.startsPackage = false :=
      Bool.eq_false_iff.mpr fun hstarts => hmode _ _ (startsPackage_iff.mp hstarts).choose_spec
    have hin : s.mode.inPackage = false := by
      unfold Mode.inPackage
      split
      · next heq => exact absurd heq (hmode _ _)
      · next heq => exact absurd heq (hmode _ _)
      · rfl
    refine (aside_step hmode).imp (fun s' hs' => ?_) fun _ => id
    simp only [Packaged, hs'.1, hs'.2, hin, hstarts, Bool.false_eq_true, or_false]

/-- **All tokens make for a package exactly when there is a package statement among them**, or
there was a package before. -/
theorem packaged_run {tokens : List (Token Pos)} {s' : State Pos}
    (h : tokens.foldlM step s = .ok s') :
    Packaged s' ↔ Packaged s ∨ packageStarts s tokens ≠ [] := by
  induction tokens generalizing s with
  | nil =>
    cases h
    exact (or_iff_left fun hne => hne rfl).symm
  | cons t tokens ih =>
    obtain ⟨mid, hmid, hrun⟩ := foldlM_cons_eq_ok.mp h
    have hstep := packaged_step (s := s) (t := t)
    rw [hmid] at hstep
    rw [ih hrun, hstep.of_ok, packageStarts, hmid, or_assoc, ne_eq, ne_eq, List.append_eq_nil_iff]
    refine or_congr_right ?_
    split <;> simp_all

end Packaged

end Reader

theorem package_eq_nil_iff {Pos : Type} {tokens : List (Token Pos)} {file : File Pos}
    (h : readTokens tokens = .ok file) :
    file.package = [] ↔ Reader.packageStarts {} tokens = [] := by
  obtain ⟨s, hrun, hclose⟩ := bind_eq_ok.mp h
  obtain rfl := Reader.eq_of_close hclose
  have hstart : ¬ Reader.Packaged ({} : Reader.State Pos) := by
    rintro (hpackage | hmode)
    · exact hpackage rfl
    · cases hmode
  have hend : Reader.Packaged { file } ↔ file.package ≠ [] :=
    or_iff_left Bool.false_ne_true
  have hpackaged := Reader.packaged_run hrun
  rw [hend, or_iff_right hstart] at hpackaged
  exact not_iff_not.mp hpackaged

/-! ## Sources -/

/-- The source has a package statement. -/
def declaresPackage (source : String) : Bool :=
  match lex source.toList with
  | .ok tokens => !(Reader.packageStarts {} tokens).isEmpty
  | .error _ => false

theorem exists_tokens_of_parse {source : String} {file : File Span} (h : parse source = .ok file) :
    ∃ tokens, lex source.toList = .ok tokens ∧ readTokens tokens = .ok file := by
  obtain ⟨tokens, hlex, -⟩ := bind_eq_ok.mp h
  refine ⟨tokens, hlex, ?_⟩
  rw [parse_of_lex hlex] at h
  cases hread : readTokens tokens with
  | ok read =>
    rw [hread] at h
    cases h
    rfl
  | error e =>
    rw [hread] at h
    cases h

theorem declaresPackage_iff {source : String} {file : File Span} (h : parse source = .ok file) :
    declaresPackage source = true ↔ file.package ≠ [] := by
  obtain ⟨tokens, hlex, hread⟩ := exists_tokens_of_parse h
  rw [declaresPackage, hlex, ne_eq, package_eq_nil_iff hread, Bool.not_eq_true',
    List.isEmpty_eq_false_iff]

/-- **A source behind another one is read behind it**: both are accepted as one, which imports and
declares what the first does and then what the second does, `a.utf8ByteSize + 1` bytes further on,
and has the package of the second if that has a package statement and of the first otherwise. -/
theorem parse_concat {a b : String} {first second : File Span} (ha : parse a = .ok first)
    (hb : parse b = .ok second) :
    parse (a ++ "\n" ++ b) = .ok
      { package := if declaresPackage b then second.package else first.package
        imports := first.imports ++
          second.imports.map (Import.move (Span.shift (a.utf8ByteSize + 1)))
        decls := first.decls ++ second.decls } := by
  obtain ⟨ts, hts, hfirst⟩ := exists_tokens_of_parse ha
  obtain ⟨us, hus, hsecond⟩ := exists_tokens_of_parse hb
  have hlex := lex_concat hts hus
  have htext : (a ++ "\n" ++ b).toList = a.toList ++ '\n' :: b.toList := by
    simp only [String.toList_append, List.append_assoc]
    rfl
  rw [← htext, byteLength_toList] at hlex
  rw [parse_of_lex hlex, readTokens_concat _ hfirst hsecond]
  have hpackage := declaresPackage_iff hb
  refine congrArg Except.ok ?_
  simp only [File.followedBy, File.move]
  cases hsegments : second.package with
  | nil =>
    rw [if_neg fun hdeclares => hpackage.mp hdeclares hsegments]
  | cons segment rest =>
    rw [if_pos (hpackage.mpr (hsegments ▸ List.cons_ne_nil segment rest))]

/-- A source with a package that ends in the middle of a comment. -/
def commentedEnd : String := "package a.b; import 'é'; // message"

/-- A source without a package statement, though it has the word. -/
def withoutPackage : String := "option package = 1; import \"x\"; message package \x7b\x7d"

theorem parse_concat_withoutPackage : ∃ first second, parse commentedEnd = .ok first ∧
    parse withoutPackage = .ok second ∧ first.package = ["a", "b"] ∧
    parse (commentedEnd ++ "\n" ++ withoutPackage) = .ok
      { package := first.package
        imports := first.imports ++ second.imports.map (Import.move (Span.shift 37))
        decls := first.decls ++ second.decls } := by
  have hfirst : ((parse commentedEnd).toOption.any fun file => file.package == ["a", "b"]) =
      true := by
    decide +kernel
  have hsecond : ((parse withoutPackage).toOption.any fun _ => true) = true := by decide +kernel
  obtain ⟨first, hfirst, hpackage⟩ := exists_ok_of_any hfirst
  obtain ⟨second, hsecond, -⟩ := exists_ok_of_any hsecond
  have hnone : declaresPackage withoutPackage = false := by decide +kernel
  have hconcat := parse_concat hfirst hsecond
  rw [hnone] at hconcat
  exact ⟨first, second, hfirst, hsecond, eq_of_beq hpackage, hconcat⟩

end RpcBindings.Proto

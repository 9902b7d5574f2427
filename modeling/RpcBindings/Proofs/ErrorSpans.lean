import RpcBindings.Proofs.Positions
import RpcBindings.Proofs.Tiling

/-! # What refusals and imports point at

A refusal points at a token of the source, at its end, or, when it has no tokens, at the string
literal or comment that is left open.  An import points at the string literal that it was read
from.  So every span that is ever shown lies in the source and cuts no character
(`parse_points`).

The reader has many ways to refuse a token, and it is not necessary to go through them.  It treats
positions alike, whatever they are, so a token can be given itself for a position: what comes out
then is at a token of the list, because there are no other positions (`origins_readTokens`).
-/
namespace RpcBindings.Proto

open RpcBindings.Text (byteLength)

section Origins
variable {Pos : Type}

/-- The tokens, each with itself for a position. -/
def ownPositions (tokens : List (Token Pos)) : List (Token { t // t ∈ tokens }) :=
  tokens.attach.map fun t => ⟨t.val.lexeme, t⟩

theorem move_ownPositions (tokens : List (Token Pos)) :
    (ownPositions tokens).map (Token.move fun t => t.val.pos) = tokens := by
  rw [ownPositions, List.map_map]
  exact List.attach_map_subtype_val tokens

theorem lexeme_of_mem_ownPositions {tokens : List (Token Pos)} :
    ∀ t ∈ ownPositions tokens, t.lexeme = t.pos.val.lexeme := by
  intro t ht
  obtain ⟨own, -, rfl⟩ := List.mem_map.mp ht
  rfl

variable {tokens : List (Token Pos)}

/-- The file with those imports only whose path is what the token at their position says. -/
def File.keepOwn (file : File { t // t ∈ tokens }) : File { t // t ∈ tokens } :=
  { file with imports := file.imports.filter fun i => i.pos.val.lexeme = .literal i.path }

theorem carries_keepOwn :
    Reader.Carries id (fun t => t.lexeme = t.pos.val.lexeme) (@File.keepOwn Pos tokens) where
  package _ _ := rfl
  imports file path pos hpos := by
    have hkept : decide (pos.val.lexeme = .literal path) = true := decide_eq_true hpos.symm
    simp only [File.keepOwn, List.filter_append, List.filter_singleton, hkept, cond_true]
    rfl
  decls _ _ := rfl

/-- An import is read from the token at its position. -/
theorem lexeme_of_mem_imports {file : File { t // t ∈ tokens }}
    (h : readTokens (ownPositions tokens) = .ok file) :
    ∀ i ∈ file.imports, i.pos.val.lexeme = .literal i.path := by
  have hmap : (ownPositions tokens).map (Token.move id) = ownPositions tokens := List.map_id _
  have hread := carry_readOnto (@carries_keepOwn Pos tokens) lexeme_of_mem_ownPositions {}
  rw [hmap] at hread
  -- what is kept of the imports is what is read, and that is all of them
  have hkept : file = file.keepOwn := Except.ok.inj (h.symm.trans (hread.trans (congrArg _ h)))
  intro i hi
  rw [hkept] at hi
  exact of_decide_eq_true (List.mem_filter.mp hi).2

/-- **Refusals are at tokens, and imports at the literals that they were read from.** -/
theorem origins_readTokens (tokens : List (Token Pos)) :
    Ends (fun file => ∀ i ∈ file.imports, ⟨.literal i.path, i.pos⟩ ∈ tokens)
      (fun e => ∀ pos ∈ e.pos, ∃ t ∈ tokens, t.pos = pos) (readTokens tokens) := by
  have hread := move_readTokens (fun t => t.val.pos) (ownPositions tokens)
  rw [move_ownPositions] at hread
  rw [hread]
  cases hown : readTokens (ownPositions tokens) with
  | ok file =>
    refine .ok fun i hi => ?_
    obtain ⟨own, hown', rfl⟩ := List.mem_map.mp hi
    have hlexeme := lexeme_of_mem_imports hown own hown'
    have htoken : (⟨.literal own.path, own.pos.val.pos⟩ : Token Pos) = own.pos.val := by
      rw [← hlexeme]
    exact htoken ▸ own.pos.property
  | error e =>
    refine .error fun pos hpos => ?_
    obtain ⟨own, -, rfl⟩ := Option.map_eq_some_iff.mp hpos
    exact ⟨own.val, own.property, rfl⟩

end Origins

/-! ## Sources -/

/-- The refusal as it is shown: without a token it is at the end of the source. -/
def Refusal.locate (source : String) (e : Refusal Span) : SyntaxError :=
  ⟨e.fault, e.pos.getD ⟨byteLength source.toList, 0⟩⟩

theorem parse_of_lex {source : String} {tokens : List (Token Span)}
    (h : lex source.toList = .ok tokens) :
    parse source = (readTokens tokens).mapError (Refusal.locate source) := by
  rw [parse, h]
  dsimp only [bind, Except.bind]
  cases readTokens tokens with
  | ok file => rfl
  | error e =>
    obtain ⟨fault, pos⟩ := e
    cases pos <;> rfl

/-- The span lies in the source and cuts no character. -/
structure Span.Within (span : Span) (source : String) : Prop where
  le_size : span.offset + span.length ≤ source.utf8ByteSize
  valid_start : String.Pos.Raw.IsValid source ⟨span.offset⟩
  valid_end : String.Pos.Raw.IsValid source ⟨span.offset + span.length⟩

theorem byteLength_toList (source : String) : byteLength source.toList = source.utf8ByteSize := by
  rw [← utf8ByteSize_ofList, String.ofList_toList]

theorem Span.Bounded.within {span : Span} {source : String} (h : span.Bounded source.toList) :
    span.Within source :=
  ⟨byteLength_toList source ▸ h.2.le, h.isValid.1, h.isValid.2⟩

/-- What a refusal of the source is shown at. -/
inductive SyntaxError.PointsAt (source : String) (e : SyntaxError) : Prop
  /-- One of its tokens. -/
  | token {tokens : List (Token Span)} {t : Token Span} : lex source.toList = .ok tokens →
      t ∈ tokens → t.pos = e.span → PointsAt source e
  /-- Its end. -/
  | sourceEnd {tokens : List (Token Span)} : lex source.toList = .ok tokens →
      e.span = ⟨source.utf8ByteSize, 0⟩ → PointsAt source e
  /-- What is left open behind the tokens that it starts with. -/
  | leftOpen {tokens : List (Token Span)} : lex source.toList = .error e →
      Tiling source (some e) tokens → PointsAt source e

theorem SyntaxError.PointsAt.within {source : String} {e : SyntaxError} (h : e.PointsAt source) :
    e.span.Within source := by
  cases h with
  | token hlex ht hspan =>
    obtain ⟨_, _, hcut, -⟩ := @Tiled.cuts _ _ _ _ (tiled_of_lex hlex) [] rfl _ ht
    exact hspan ▸ hcut.bounded.within
  | sourceEnd _ hspan =>
    have hend := isBoundary_end source.toList
    rw [hspan, ← byteLength_toList]
    exact Span.Bounded.within ⟨hend, hend⟩
  | leftOpen _ htiling =>
    obtain ⟨_, _, hcut, -⟩ := htiling.opened e rfl
    exact hcut.bounded.within

theorem pointsAt_of_lex {source : String} {e : SyntaxError} (h : lex source.toList = .error e) :
    e.PointsAt source := by
  obtain ⟨refusal, tokens, htiled⟩ := exists_tiled 0 source.toList
  have houtcome := h.symm.trans (lex_of_tiled htiled)
  cases refusal with
  | none => cases houtcome
  | some e' =>
    cases houtcome
    exact .leftOpen h htiled.tiling

theorem pointsAt_locate {source : String} {tokens : List (Token Span)} {e : Refusal Span}
    (hlex : lex source.toList = .ok tokens) (he : ∀ pos ∈ e.pos, ∃ t ∈ tokens, t.pos = pos) :
    (e.locate source).PointsAt source := by
  obtain ⟨fault, pos⟩ := e
  cases pos with
  | none => exact .sourceEnd hlex (by rw [← byteLength_toList]; rfl)
  | some span =>
    obtain ⟨t, ht, hspan⟩ := he span rfl
    exact .token hlex ht hspan

/-- The import stands where a literal of the source spells its path. -/
structure Import.SpelledIn (i : Import Span) (source : String) : Prop where
  within : i.pos.Within source
  token : ∃ tokens, lex source.toList = .ok tokens ∧ ⟨.literal i.path, i.pos⟩ ∈ tokens
  spelled : ∃ written after, i.pos.Cuts source.toList written after ∧
    Spells written (.literal i.path)

theorem spelledIn_of_mem {source : String} {tokens : List (Token Span)} {i : Import Span}
    (hlex : lex source.toList = .ok tokens) (hi : ⟨.literal i.path, i.pos⟩ ∈ tokens) :
    i.SpelledIn source := by
  obtain ⟨written, after, hcut, hspells, -⟩ := @Tiled.cuts _ _ _ _ (tiled_of_lex hlex) [] rfl _ hi
  exact ⟨hcut.bounded.within, ⟨tokens, hlex, hi⟩, written, after, hcut, hspells⟩

/-- **Every span of an outcome points into the source**: that of a refusal to a token, to the end
or to what is left open, and that of an import to the literal which spells its path. -/
theorem parse_points (source : String) :
    Ends (fun file => ∀ i ∈ file.imports, i.SpelledIn source)
      (fun e => e.span.Within source ∧ e.PointsAt source) (parse source) := by
  cases hlex : lex source.toList with
  | error e =>
    have hparse : parse source = .error e := by
      rw [parse, hlex]
      rfl
    have hpoints := pointsAt_of_lex hlex
    rw [hparse]
    exact .error ⟨hpoints.within, hpoints⟩
  | ok tokens =>
    have horigins := origins_readTokens tokens
    rw [parse_of_lex hlex]
    cases hread : readTokens tokens with
    | ok file =>
      rw [hread] at horigins
      exact .ok fun i hi => spelledIn_of_mem hlex (horigins.of_ok i hi)
    | error e =>
      rw [hread] at horigins
      have hpoints := pointsAt_locate hlex horigins.of_error
      exact .error ⟨hpoints.within, hpoints⟩

end RpcBindings.Proto

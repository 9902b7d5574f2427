import Mathlib.Data.List.TakeWhile
import RpcBindings.Proofs.Lexing

/-! # Tokens tile their text

Every text is a sequence of tokens with gaps between them and an ending behind them
(`exists_tiled`), and the lexer gives what this says, so nothing of a text is lost or read twice.
What a text starts with is found by looking at its first characters (`exists_opening`): a part of
a gap, a token that cannot go on, or something that nothing can follow.

Spans are read off the tiles.  The positions that the lexer keeps while it runs are known by an
invariant of its own (`Lexer.Grounded`): all of them are boundaries of what has been read.
-/
namespace RpcBindings.Proto

open RpcBindings.Text (byteLength)

/-! ## What a text starts with -/

theorem exists_first_infix {α : Type} {pattern text : List α} (hpattern : pattern ≠ [])
    (h : pattern <:+: text) :
    ∃ before after, text = before ++ (pattern ++ after) ∧ ¬ pattern <:+: before := by
  induction text with
  | nil => exact absurd (List.infix_nil.mp h) hpattern
  | cons c text ih =>
    by_cases hprefix : pattern <+: c :: text
    · obtain ⟨after, hafter⟩ := hprefix
      exact ⟨[], after, hafter.symm, fun hnil => hpattern (List.infix_nil.mp hnil)⟩
    · -- it starts later, and no sooner with this character in front
      have htail := (List.infix_cons_iff.mp h).resolve_left hprefix
      obtain ⟨before, after, rfl, hbefore⟩ := ih htail
      refine ⟨c :: before, after, rfl, fun hinside => ?_⟩
      rcases List.infix_cons_iff.mp hinside with hhere | hlater
      · exact hprefix (hhere.trans ((List.prefix_cons_inj c).mpr (List.prefix_append before _)))
      · exact hbefore hlater

/-- The characters behind a quote are those of a literal up to the first that is not. -/
theorem exists_quoted (quote : Char) (cs : List Char) :
    ∃ written value rest, cs = written ++ rest ∧ Quoted quote written value ∧
      (rest = [] ∨ rest = ['\\'] ∨ (∃ after, rest = '\n' :: after) ∨
        ∃ after, rest = quote :: after) := by
  match cs with
  | [] => exact ⟨[], [], [], rfl, .nil, .inl rfl⟩
  | c :: cs =>
    by_cases hquote : c = quote
    · exact ⟨[], [], c :: cs, rfl, .nil, .inr (.inr (.inr ⟨cs, hquote ▸ rfl⟩))⟩
    by_cases hline : c = '\n'
    · exact ⟨[], [], c :: cs, rfl, .nil, .inr (.inr (.inl ⟨cs, hline ▸ rfl⟩))⟩
    by_cases hescape : c = '\\'
    · subst hescape
      match cs with
      | [] => exact ⟨[], [], ['\\'], rfl, .nil, .inr (.inl rfl)⟩
      | d :: cs =>
        obtain ⟨written, value, rest, rfl, hwritten, hrest⟩ := exists_quoted quote cs
        exact ⟨'\\' :: d :: written, d :: value, rest, rfl, .escaped hwritten, hrest⟩
    · obtain ⟨written, value, rest, rfl, hwritten, hrest⟩ := exists_quoted quote cs
      exact ⟨c :: written, c :: value, rest, rfl, .plain hquote hescape hline hwritten, hrest⟩

/-- What a text starts with, seen from the byte `offset`. -/
inductive Opening (offset : Nat) (cs : List Char) : Prop
  | ending {refusal : Option SyntaxError} : Ending refusal offset cs → Opening offset cs
  | gap {gap rest : List Char} : gap ≠ [] → Gap gap → cs = gap ++ rest → Opening offset cs
  | token {written rest : List Char} {lexeme : Lexeme} : Spells written lexeme →
      Stops lexeme rest → cs = written ++ rest → Opening offset cs

variable {offset : Nat}

theorem stops_nil {lexeme : Lexeme} : Stops lexeme [] := fun _ hc => nomatch hc

theorem stops_cons {lexeme : Lexeme} {c : Char} {rest : List Char} (h : lexeme.EndsBefore c) :
    Stops lexeme (c :: rest) := by
  rintro d ⟨⟩
  exact h

theorem not_of_mem_head?_dropWhile {p : Char → Bool} {cs : List Char} :
    ∀ c ∈ (cs.dropWhile p).head?, p c = false := by
  intro c hc
  have hnot := List.head?_dropWhile_not p cs
  rwa [Option.mem_def.mp hc] at hnot

theorem opening_word {c : Char} {cs : List Char} (hc : isWordStart c = true) :
    Opening offset (c :: cs) := by
  have hword : IsIdentifier (String.ofList (c :: cs.takeWhile isWordPart)) :=
    ⟨c, cs.takeWhile isWordPart, String.toList_ofList .., hc, fun d => List.mem_takeWhile_imp⟩
  have hcs : c :: cs = (String.ofList (c :: cs.takeWhile isWordPart)).toList ++
      cs.dropWhile isWordPart := by
    rw [String.toList_ofList, List.cons_append, List.takeWhile_append_dropWhile]
  exact .token (.word hword) not_of_mem_head?_dropWhile hcs

theorem opening_number {c : Char} {cs : List Char} (hc : c.isDigit = true) :
    Opening offset (c :: cs) := by
  have hnumber : Spells (c :: cs.takeWhile isNumberPart) .number :=
    .number hc fun d => List.mem_takeWhile_imp
  have hcs : c :: cs = (c :: cs.takeWhile isNumberPart) ++ cs.dropWhile isNumberPart := by
    rw [List.cons_append, List.takeWhile_append_dropWhile]
  exact .token hnumber not_of_mem_head?_dropWhile hcs

/-- A slash starts a comment, closed or not, unless it is a symbol. -/
theorem opening_slash {cs : List Char} : Opening offset ('/' :: cs) := by
  have hslash : IsSymbol '/' := by constructor <;> rfl
  match cs with
  | [] => exact .token (.symbol hslash) stops_nil rfl
  | c :: cs =>
    by_cases hline : c = '/'
    · subst hline
      by_cases hclosed : '\n' ∈ cs
      · obtain ⟨text, rest, rfl, htext⟩ := List.eq_append_cons_of_mem hclosed
        have hcs : '/' :: '/' :: (text ++ '\n' :: rest) =
            ('/' :: '/' :: (text ++ ['\n'])) ++ rest := by simp
        exact .gap (List.cons_ne_nil _ _) (.lineComment htext .nil) hcs
      · exact .ending (.lineComment hclosed)
    by_cases hblock : c = '*'
    · subst hblock
      by_cases hclosed : ['*', '/'] <:+: cs
      · obtain ⟨text, rest, rfl, htext⟩ := exists_first_infix (List.cons_ne_nil _ _) hclosed
        have hcs : '/' :: '*' :: (text ++ (['*', '/'] ++ rest)) =
            ('/' :: '*' :: (text ++ ['*', '/'])) ++ rest := by simp
        exact .gap (List.cons_ne_nil _ _) (.blockComment htext .nil) hcs
      · exact .ending (.openComment hclosed)
    · exact .token (.symbol hslash) (stops_cons ⟨hline, hblock⟩) rfl

theorem opening_quote {quote : Char} {cs : List Char} (hquote : quote = '"' ∨ quote = '\'') :
    Opening offset (quote :: cs) := by
  obtain ⟨written, value, rest, rfl, hwritten, hrest⟩ := exists_quoted quote cs
  obtain rfl | rfl | ⟨after, rfl⟩ | ⟨after, rfl⟩ := hrest
  · rw [List.append_nil]
    exact .ending (.openString hquote hwritten)
  · exact .ending (.openEscape hquote hwritten)
  · exact .ending (.brokenString hquote hwritten)
  · have hcs : quote :: (written ++ quote :: after) = (quote :: (written ++ [quote])) ++ after := by
      simp
    exact .token (.literal hquote hwritten) (fun _ _ => trivial) hcs

/-- **Every text starts with a part of a gap, a token or an ending.** -/
theorem exists_opening (offset : Nat) (cs : List Char) : Opening offset cs := by
  match cs with
  | [] => exact .ending .nothing
  | c :: cs =>
    by_cases hspace : isSpace c = true
    · exact .gap (List.cons_ne_nil _ _) (.space hspace .nil) rfl
    by_cases hslash : c = '/'
    · exact hslash ▸ opening_slash
    by_cases hword : isWordStart c = true
    · exact opening_word hword
    by_cases hdigit : c.isDigit = true
    · exact opening_number hdigit
    by_cases hquote : c = '"' ∨ c = '\''
    · exact opening_quote hquote
    · have hsymbol : IsSymbol c :=
        ⟨Bool.eq_false_iff.mpr hspace, Bool.eq_false_iff.mpr hword, Bool.eq_false_iff.mpr hdigit,
          by simpa using hquote⟩
      have hstops : Stops (.symbol c) cs := by
        intro d _
        unfold Lexeme.EndsBefore
        split <;> simp_all
      exact .token (.symbol hsymbol) hstops rfl

/-! ## Every text is tiled -/

theorem Gap.append {a b : List Char} (ha : Gap a) (hb : Gap b) : Gap (a ++ b) := by
  induction ha with
  | nil => exact hb
  | space hc _ ih => exact .space hc ih
  | @lineComment text cs htext _ ih =>
    rw [List.cons_append, List.cons_append, List.append_assoc]
    exact .lineComment htext ih
  | @blockComment text cs htext _ ih =>
    rw [List.cons_append, List.cons_append, List.append_assoc]
    exact .blockComment htext ih

theorem Tiled.behind_gap {refusal : Option SyntaxError} {gap cs : List Char}
    {tokens : List (Token Span)} (hgap : Gap gap)
    (h : Tiled refusal (offset + byteLength gap) cs tokens) :
    Tiled refusal offset (gap ++ cs) tokens := by
  cases h with
  | ending hgap' hending =>
    rw [Nat.add_assoc, ← Text.byteLength_append] at hending
    rw [← List.append_assoc]
    exact .ending (hgap.append hgap') hending
  | token hgap' hspells hstops hrest =>
    rw [Nat.add_assoc offset, ← Text.byteLength_append] at hrest ⊢
    rw [← List.append_assoc]
    exact .token (hgap.append hgap') hspells hstops hrest

theorem Spells.ne_nil {written : List Char} {lexeme : Lexeme} (h : Spells written lexeme) :
    written ≠ [] := by
  cases h with
  | word hw =>
    obtain ⟨c, cs, hcs, -⟩ := hw
    rw [hcs]
    exact List.cons_ne_nil _ _
  | number _ _ => exact List.cons_ne_nil _ _
  | literal _ _ => exact List.cons_ne_nil _ _
  | symbol _ => exact List.cons_ne_nil _ _

theorem length_lt_of_append {α : Type} {a b : List α} (h : a ≠ []) :
    b.length < (a ++ b).length := by
  rw [List.length_append]
  exact Nat.lt_add_of_pos_left (List.length_pos_of_ne_nil h)

/-- **Every text is tiled.** -/
theorem exists_tiled (offset : Nat) (cs : List Char) :
    ∃ refusal tokens, Tiled refusal offset cs tokens := by
  -- neither a part of a gap nor a token is empty, so what is left is shorter
  cases exists_opening offset cs with
  | ending hending => exact ⟨_, [], .ending .nil hending⟩
  | @gap gap rest hne hgap hcs =>
    have hshort : rest.length < cs.length := hcs ▸ length_lt_of_append hne
    obtain ⟨refusal, tokens, hrest⟩ := exists_tiled (offset + byteLength gap) rest
    exact ⟨refusal, tokens, hcs ▸ hrest.behind_gap hgap⟩
  | @token written rest lexeme hspells hstops hcs =>
    have hshort : rest.length < cs.length := hcs ▸ length_lt_of_append hspells.ne_nil
    obtain ⟨refusal, tokens, hrest⟩ := exists_tiled (offset + byteLength written) rest
    exact ⟨refusal, _, hcs ▸ Tiled.token .nil hspells hstops hrest⟩
termination_by cs.length

/-! ## Boundaries -/

/-- The bytes before the position are whole characters. -/
def IsBoundary (cs : List Char) (n : Nat) : Prop := ∃ before, before <+: cs ∧ byteLength before = n

theorem IsBoundary.mono {cs cs' : List Char} {n : Nat} (h : IsBoundary cs n) (hcs : cs <+: cs') :
    IsBoundary cs' n := by
  obtain ⟨before, hbefore, hn⟩ := h
  exact ⟨before, hbefore.trans hcs, hn⟩

theorem isBoundary_end (cs : List Char) : IsBoundary cs (byteLength cs) :=
  ⟨cs, List.prefix_refl cs, rfl⟩

theorem IsBoundary.le {cs : List Char} {n : Nat} (h : IsBoundary cs n) : n ≤ byteLength cs := by
  obtain ⟨before, ⟨after, rfl⟩, rfl⟩ := h
  rw [Text.byteLength_append]
  exact Nat.le_add_right ..

theorem utf8ByteSize_ofList (cs : List Char) :
    (String.ofList cs).utf8ByteSize = byteLength cs := by
  induction cs with
  | nil => rfl
  | cons c cs ih =>
    rw [String.ofList_cons, String.utf8ByteSize_append, String.utf8ByteSize_singleton, ih,
      Text.byteLength_cons]

theorem IsBoundary.isValid {source : String} {n : Nat} (h : IsBoundary source.toList n) :
    String.Pos.Raw.IsValid source ⟨n⟩ := by
  obtain ⟨before, ⟨after, hsource⟩, rfl⟩ := h
  refine String.Pos.Raw.isValid_iff_exists_append.mpr
    ⟨String.ofList before, String.ofList after, ?_, ?_⟩
  · rw [← String.ofList_append, hsource, String.ofList_toList]
  · rw [← utf8ByteSize_ofList]
    rfl

/-- The span starts and ends between characters. -/
def Span.Bounded (cs : List Char) (span : Span) : Prop :=
  IsBoundary cs span.offset ∧ IsBoundary cs (span.offset + span.length)

theorem Span.Bounded.mono {cs cs' : List Char} {span : Span} (h : span.Bounded cs)
    (hcs : cs <+: cs') : span.Bounded cs' :=
  h.imp (·.mono hcs) (·.mono hcs)

/-! ## Where the lexer stands -/

namespace Lexer

/-- Where the thing that the lexer is in the middle of started. -/
def Mode.starts : Mode → List Nat
  | .slash start => [start]
  | .blockComment start _ => [start]
  | .word start _ => [start]
  | .number start => [start]
  | .literal start _ _ _ => [start]
  | _ => []

/-- The byte positions that the lexer knows: where it stands, where the thing that it is in the
middle of started, and where the finished tokens start and end. -/
def State.positions (s : State) : List Nat :=
  s.offset :: (s.mode.starts ++
    s.finished.flatMap fun t => [t.pos.offset, t.pos.offset + t.pos.length])

/-- The lexer has read `before`, and knows only boundaries of it. -/
structure Grounded (before : List Char) (s : State) : Prop where
  offset : s.offset = byteLength before
  mode : ∀ n ∈ s.mode.starts, IsBoundary before n
  finished : ∀ t ∈ s.finished, t.pos.Bounded before

namespace Grounded
variable {before : List Char} {s : State} {c : Char}

theorem isBoundary_offset (h : Grounded before s) : IsBoundary before s.offset :=
  h.offset ▸ isBoundary_end before

/-- What starts at a boundary ends where the lexer stands. -/
theorem bounded {start : Nat} (h : Grounded before s) (hstart : IsBoundary before start) :
    Span.Bounded before ⟨start, s.offset - start⟩ := by
  refine ⟨hstart, ?_⟩
  have hle : start ≤ s.offset := h.offset ▸ hstart.le
  rw [Nat.add_sub_cancel' hle]
  exact h.isBoundary_offset

theorem pass {mode : Mode} (h : Grounded before s)
    (hmode : ∀ n ∈ mode.starts, IsBoundary before n) :
    Grounded (before ++ [c]) (s.pass c mode) := by
  have hmore : before <+: before ++ [c] := List.prefix_append ..
  refine ⟨?_, fun n hn => (hmode n hn).mono hmore, fun t ht => (h.finished t ht).mono hmore⟩
  rw [State.pass, h.offset, Text.byteLength_append]
  rfl

theorem finish {lexeme : Lexeme} {start : Nat} (h : Grounded before s)
    (hstart : IsBoundary before start) : Grounded before (s.finish lexeme start) :=
  ⟨h.offset, List.forall_mem_nil _, List.forall_mem_cons.mpr ⟨h.bounded hstart, h.finished⟩⟩

theorem isBoundary_start {start : Nat} (h : Grounded before s) (hmode : s.mode.starts = [start]) :
    IsBoundary before start :=
  h.mode start (hmode ▸ List.mem_singleton_self start)

theorem settle (h : Grounded before s) : Grounded before s.settle := by
  unfold State.settle
  split
  · next hmode => exact h.finish (h.isBoundary_start (congrArg Mode.starts hmode))
  · next hmode => exact h.finish (h.isBoundary_start (congrArg Mode.starts hmode))
  · next hmode => exact h.finish (h.isBoundary_start (congrArg Mode.starts hmode))
  · exact h

theorem begin (h : Grounded before s) : Grounded (before ++ [c]) (s.begin c) := by
  have hhere : ∀ n ∈ [s.offset], IsBoundary before n :=
    List.forall_mem_singleton.mpr h.isBoundary_offset
  have hpass : Grounded (before ++ [c]) (s.pass c .gap) := h.pass (List.forall_mem_nil _)
  unfold State.begin
  repeat' split
  · exact hpass
  · exact h.pass hhere
  · exact h.pass hhere
  · exact h.pass hhere
  · exact h.pass hhere
  · exact hpass.finish (h.isBoundary_offset.mono (List.prefix_append ..))

/-- **One character keeps the positions of the lexer boundaries.** -/
theorem step (h : Grounded before s) :
    Ends (Grounded (before ++ [c])) (fun _ => True) (s.step c) := by
  have hmode := h.mode
  unfold State.step
  split
  · exact .ok h.begin
  · next start heq =>
    rw [heq] at hmode
    repeat' split
    · exact .ok (h.pass (List.forall_mem_nil _))
    · exact .ok (h.pass hmode)
    · exact .ok h.settle.begin
  · refine .ok (h.pass ?_)
    split <;> exact List.forall_mem_nil _
  · next start star heq =>
    rw [heq] at hmode
    refine .ok (h.pass ?_)
    split
    · exact List.forall_mem_nil _
    · exact hmode
  · next start text heq =>
    rw [heq] at hmode
    split
    · exact .ok (h.pass hmode)
    · exact .ok h.settle.begin
  · next start heq =>
    rw [heq] at hmode
    split
    · exact .ok (h.pass hmode)
    · exact .ok h.settle.begin
  · next start quote value escaped heq =>
    have hstart := h.isBoundary_start (congrArg Mode.starts heq)
    rw [heq] at hmode
    repeat' split
    · exact .ok (h.pass hmode)
    · exact .error trivial
    · have hpass : Grounded (before ++ [c]) (s.pass c .gap) := h.pass (List.forall_mem_nil _)
      exact .ok (hpass.finish (hstart.mono (List.prefix_append ..)))
    · exact .ok (h.pass hmode)
    · exact .ok (h.pass hmode)

/-- **All characters keep the positions of the lexer boundaries.** -/
theorem run {cs : List Char} {s' : State} (h : Grounded before s)
    (hrun : cs.foldlM State.step s = .ok s') : Grounded (before ++ cs) s' := by
  induction cs generalizing before s with
  | nil =>
    cases hrun
    rwa [List.append_nil]
  | cons c cs ih =>
    obtain ⟨mid, hmid, hrun⟩ := foldlM_cons_eq_ok.mp hrun
    have hstep := h.step (c := c)
    rw [hmid] at hstep
    rw [List.append_cons]
    exact ih hstep.of_ok hrun

theorem start : Grounded [] {} :=
  ⟨rfl, List.forall_mem_nil _, List.forall_mem_nil _⟩

theorem positions (h : Grounded before s) : ∀ n ∈ s.positions, IsBoundary before n := by
  refine List.forall_mem_cons.mpr ⟨h.isBoundary_offset, List.forall_mem_append.mpr ⟨h.mode, ?_⟩⟩
  refine List.forall_mem_flatMap.mpr fun t ht => ?_
  obtain ⟨hstart, hend⟩ := h.finished t ht
  exact List.forall_mem_cons.mpr ⟨hstart, List.forall_mem_singleton.mpr hend⟩

end Grounded

end Lexer

/-! ## Spans -/

/-- The span is that of the characters `written` of the text, and `after` follows them. -/
def Span.Cuts (span : Span) (cs written after : List Char) : Prop :=
  ∃ before, cs = before ++ (written ++ after) ∧ span = ⟨byteLength before, byteLength written⟩

theorem Span.Cuts.bounded {span : Span} {cs written after : List Char}
    (h : span.Cuts cs written after) : span.Bounded cs := by
  obtain ⟨before, rfl, rfl⟩ := h
  refine ⟨⟨before, List.prefix_append .., rfl⟩, before ++ written, ?_, Text.byteLength_append ..⟩
  rw [← List.append_assoc]
  exact List.prefix_append ..

/-- The first span ends before the second starts. -/
def Span.Precedes (a b : Span) : Prop := a.offset + a.length ≤ b.offset

/-- What opens the things that can be left open. -/
def delimiters : List (List Char) := [['/', '*'], ['"'], ['\'']]

/-- The spans of the tokens, and behind them the one that is refused. -/
def tileSpans (refusal : Option SyntaxError) (tokens : List (Token Span)) : List Span :=
  tokens.map Token.pos ++ (refusal.map SyntaxError.span).toList

theorem Ending.opened {e : SyntaxError} {cs : List Char} (h : Ending (some e) offset cs) :
    ∃ opened after, cs = opened ++ after ∧ e.span = ⟨offset, byteLength opened⟩ ∧
      ∃ delimiter ∈ delimiters, delimiter <+: opened := by
  have hdelimiter : ∀ quote, quote = '"' ∨ quote = '\'' → [quote] ∈ delimiters := by
    rintro _ (rfl | rfl) <;> decide
  cases h with
  | openComment htext => exact ⟨['/', '*'], _, rfl, rfl, ['/', '*'], by decide, List.prefix_refl _⟩
  | @openString _ quote written _ hquote _ =>
    exact ⟨quote :: written, [], (List.append_nil _).symm, rfl, [quote], hdelimiter quote hquote,
      written, rfl⟩
  | @openEscape _ quote written _ hquote _ =>
    exact ⟨quote :: (written ++ ['\\']), [], (List.append_nil _).symm, rfl, [quote],
      hdelimiter quote hquote, written ++ ['\\'], rfl⟩
  | @brokenString _ quote written _ rest hquote _ =>
    exact ⟨quote :: written, '\n' :: rest, rfl, rfl, [quote], hdelimiter quote hquote, written, rfl⟩

namespace Tiled
variable {refusal : Option SyntaxError} {cs : List Char} {tokens : List (Token Span)}

/-- Each token cuts its own spelling out of the text, and what follows does not go on with it. -/
theorem cuts (h : Tiled refusal offset cs tokens) {before : List Char}
    (hoffset : offset = byteLength before) :
    ∀ t ∈ tokens, ∃ written after, t.pos.Cuts (before ++ cs) written after ∧
      Spells written t.lexeme ∧ Stops t.lexeme after := by
  induction h generalizing before with
  | ending _ _ => exact List.forall_mem_nil _
  | @token offset gap written rest lexeme tokens _ hspells hstops _ ih =>
    subst hoffset
    refine List.forall_mem_cons.mpr ⟨⟨written, rest, ⟨before ++ gap, ?_, ?_⟩, hspells, hstops⟩, ?_⟩
    · rw [List.append_assoc]
    · rw [Text.byteLength_append]
    · have hrest := @ih (before ++ gap ++ written)
        (by rw [Text.byteLength_append, Text.byteLength_append])
      rwa [List.append_assoc, List.append_assoc] at hrest

/-- What is refused starts with what opens it. -/
theorem refused {e : SyntaxError} (h : Tiled (some e) offset cs tokens) {before : List Char}
    (hoffset : offset = byteLength before) :
    ∃ opened after, e.span.Cuts (before ++ cs) opened after ∧
      ∃ delimiter ∈ delimiters, delimiter <+: opened := by
  induction h generalizing before with
  | @ending offset gap rest _ hending =>
    obtain ⟨opened, after, rfl, hspan, hdelimiter⟩ := hending.opened
    refine ⟨opened, after, ⟨before ++ gap, ?_, ?_⟩, hdelimiter⟩
    · rw [List.append_assoc]
    · rw [hspan, hoffset, Text.byteLength_append]
  | @token offset gap written rest _ _ _ _ _ _ ih =>
    subst hoffset
    have hrest := @ih (before ++ gap ++ written)
      (by rw [Text.byteLength_append, Text.byteLength_append])
    rwa [List.append_assoc, List.append_assoc] at hrest

theorem le_offset (h : Tiled refusal offset cs tokens) :
    ∀ span ∈ tileSpans refusal tokens, offset ≤ span.offset := by
  induction h with
  | @ending offset gap rest _ hending =>
    cases refusal with
    | none => exact List.forall_mem_nil _
    | some e =>
      obtain ⟨opened, _, _, hspan, _⟩ := hending.opened
      refine List.forall_mem_singleton.mpr ?_
      rw [hspan]
      exact Nat.le_add_right ..
  | @token offset gap written rest _ _ _ _ _ _ ih =>
    refine List.forall_mem_cons.mpr ⟨Nat.le_add_right .., fun span hspan => ?_⟩
    have hrest := ih span hspan
    omega

theorem ordered (h : Tiled refusal offset cs tokens) :
    (tileSpans refusal tokens).Pairwise Span.Precedes := by
  induction h with
  | ending _ _ =>
    cases refusal with
    | none => exact .nil
    | some e => exact List.pairwise_singleton ..
  | token _ _ _ hrest ih =>
    -- the rest is tiled from the end of this token on
    exact List.pairwise_cons.mpr ⟨hrest.le_offset, ih⟩

end Tiled

theorem tiled_of_lex {cs : List Char} {tokens : List (Token Span)} (h : lex cs = .ok tokens) :
    Tiled none 0 cs tokens := by
  obtain ⟨refusal, tokens', htiled⟩ := exists_tiled 0 cs
  have houtcome := h.symm.trans (lex_of_tiled htiled)
  cases refusal with
  | none =>
    cases houtcome
    exact htiled
  | some e => cases houtcome

/-- **Every word among the tokens of a text is an identifier.** -/
theorem isIdentifier_of_lex {cs : List Char} {tokens : List (Token Span)}
    (h : lex cs = .ok tokens) :
    ∀ t ∈ tokens, ∀ w, t.lexeme = .word w → IsIdentifier w := by
  intro t ht w hw
  obtain ⟨written, after, -, hspells, -⟩ := @Tiled.cuts _ _ _ _ (tiled_of_lex h) [] rfl t ht
  rw [hw] at hspells
  cases hspells with
  | word hidentifier => exact hidentifier

/-- The text is made up of the tokens, with gaps between them, and of what is refused, if anything
is: each token at the span of its own spelling, which nothing goes on with, and the refusal at a
span that starts with what was opened and not closed. -/
structure Tiling (source : String) (refusal : Option SyntaxError) (tokens : List (Token Span)) :
    Prop where
  tiled : Tiled refusal 0 source.toList tokens
  spelled : ∀ t ∈ tokens, 0 < t.pos.length ∧ ∃ written after,
    t.pos.Cuts source.toList written after ∧ Spells written t.lexeme ∧ Stops t.lexeme after
  opened : ∀ e ∈ refusal, ∃ opened after, e.span.Cuts source.toList opened after ∧
    ∃ delimiter ∈ delimiters, delimiter <+: opened
  valid : ∀ span ∈ tileSpans refusal tokens, String.Pos.Raw.IsValid source ⟨span.offset⟩ ∧
    String.Pos.Raw.IsValid source ⟨span.offset + span.length⟩
  ordered : (tileSpans refusal tokens).Pairwise Span.Precedes

theorem Span.Bounded.isValid {source : String} {span : Span} (h : span.Bounded source.toList) :
    String.Pos.Raw.IsValid source ⟨span.offset⟩ ∧
      String.Pos.Raw.IsValid source ⟨span.offset + span.length⟩ :=
  h.imp IsBoundary.isValid IsBoundary.isValid

theorem Spells.byteLength_pos {written : List Char} {lexeme : Lexeme} (h : Spells written lexeme) :
    0 < byteLength written := by
  obtain ⟨c, cs, rfl⟩ := List.exists_cons_of_ne_nil h.ne_nil
  exact Nat.add_pos_left c.utf8Size_pos _

theorem Tiled.tiling {source : String} {refusal : Option SyntaxError} {tokens : List (Token Span)}
    (h : Tiled refusal 0 source.toList tokens) : Tiling source refusal tokens := by
  have hcuts : ∀ t ∈ tokens, ∃ written after, t.pos.Cuts source.toList written after ∧
      Spells written t.lexeme ∧ Stops t.lexeme after := @cuts _ _ _ _ h [] rfl
  have hopened : ∀ e ∈ refusal, ∃ opened after, e.span.Cuts source.toList opened after ∧
      ∃ delimiter ∈ delimiters, delimiter <+: opened := by
    rintro e rfl
    exact @refused _ _ _ _ h [] rfl
  refine ⟨h, ?_, hopened, ?_, h.ordered⟩
  · intro t ht
    obtain ⟨written, after, hcut, hspells, hstops⟩ := hcuts t ht
    refine ⟨?_, written, after, hcut, hspells, hstops⟩
    obtain ⟨before, -, hpos⟩ := hcut
    rw [hpos]
    exact hspells.byteLength_pos
  · intro span hspan
    rcases List.mem_append.mp hspan with htoken | hrefused
    · obtain ⟨t, ht, rfl⟩ := List.mem_map.mp htoken
      obtain ⟨_, _, hcut, -⟩ := hcuts t ht
      exact hcut.bounded.isValid
    · obtain ⟨e, he, rfl⟩ := Option.map_eq_some_iff.mp (Option.mem_toList.mp hrefused)
      obtain ⟨_, _, hcut, -⟩ := hopened e he
      exact hcut.bounded.isValid

/-- **Tokens tile their text.**  While the lexer runs, it knows only positions between characters,
and what it gives is the one tiling of the text. -/
theorem lex_tiles (source : String) :
    (∀ before s, before <+: source.toList → before.foldlM Lexer.State.step {} = .ok s →
      s.offset = byteLength before ∧ ∀ n ∈ s.positions, String.Pos.Raw.IsValid source ⟨n⟩) ∧
    (∃ refusal tokens, lex source.toList = outcome refusal tokens ∧
      Tiling source refusal tokens) ∧
    ∀ refusal tokens, Tiled refusal 0 source.toList tokens →
      lex source.toList = outcome refusal tokens := by
  refine ⟨?_, ?_, fun refusal tokens => lex_of_tiled⟩
  · intro before s hbefore hrun
    have hgrounded := Lexer.Grounded.start.run hrun
    exact ⟨hgrounded.offset, fun n hn => ((hgrounded.positions n hn).mono hbefore).isValid⟩
  · obtain ⟨refusal, tokens, htiled⟩ := exists_tiled 0 source.toList
    exact ⟨refusal, tokens, lex_of_tiled htiled, htiled.tiling⟩

-- a literal of two characters, the second an open escape, behind three bytes
example : lex "é 'ü\\".toList = .error ⟨.unterminatedString, ⟨3, 4⟩⟩ := by
  decide

end RpcBindings.Proto

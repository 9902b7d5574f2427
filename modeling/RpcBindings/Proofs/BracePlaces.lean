import Mathlib.Data.List.Pairwise
import RpcBindings.Proofs.Tiling

/-! # Braces in a text

A brace of a text can stand in a literal, in a comment, or by itself, and only by itself is it a
token (`brace_mem_iff`).  This is read off the tiles of the text: a gap holds a brace only in one of
its comments (`Gap.inComment`), and of the lexemes only a literal can be spelled with a brace among
other characters (`Spells.braced`).
-/
namespace RpcBindings.Proto

open RpcBindings.Text (byteLength byteLength_append byteLength_cons)

/-! ## Places of characters -/

/-- The character stands in the text behind `n` bytes. -/
def StandsAt (c : Char) (cs : List Char) (n : Nat) : Prop :=
  ∃ before after, cs = before ++ c :: after ∧ n = byteLength before

section StandsAt
variable {c d : Char} {cs ds : List Char} {n : Nat}

theorem StandsAt.lt (h : StandsAt c cs n) : n < byteLength cs := by
  obtain ⟨before, after, rfl, rfl⟩ := h
  have hsize := c.utf8Size_pos
  rw [byteLength_append, byteLength_cons]
  omega

theorem StandsAt.mem (h : StandsAt c cs n) : c ∈ cs := by
  obtain ⟨before, after, rfl, -⟩ := h
  exact List.mem_append_right before List.mem_cons_self

theorem not_standsAt_nil : ¬ StandsAt c [] n := fun h => List.not_mem_nil h.mem

theorem standsAt_cons (h : StandsAt c (d :: cs) n) :
    (c = d ∧ n = 0) ∨ ∃ m, n = d.utf8Size + m ∧ StandsAt c cs m := by
  obtain ⟨before, after, he, rfl⟩ := h
  cases before with
  | nil =>
    cases he
    exact .inl ⟨rfl, rfl⟩
  | cons e before =>
    cases he
    exact .inr ⟨byteLength before, rfl, before, after, rfl, rfl⟩

theorem standsAt_append (h : StandsAt c (cs ++ ds) n) :
    StandsAt c cs n ∨ ∃ m, n = byteLength cs + m ∧ StandsAt c ds m := by
  induction cs generalizing n with
  | nil => exact .inr ⟨n, (Nat.zero_add n).symm, h⟩
  | cons d cs ih =>
    rcases standsAt_cons h with ⟨rfl, rfl⟩ | ⟨m, rfl, hm⟩
    · exact .inl ⟨[], cs, rfl, rfl⟩
    · rcases ih hm with ⟨before, after, rfl, rfl⟩ | ⟨k, rfl, hk⟩
      · exact .inl ⟨d :: before, after, rfl, rfl⟩
      · exact .inr ⟨k, by rw [byteLength_cons, Nat.add_assoc], hk⟩

end StandsAt

/-! ## Comments and literals -/

/-- A comment as it is written.  The newline behind a line comment does not belong to it. -/
inductive IsComment : List Char → Prop
  | line {text : List Char} : '\n' ∉ text → IsComment ('/' :: '/' :: text)
  | block {text : List Char} : ¬ ['*', '/'] <:+: text →
      IsComment ('/' :: '*' :: (text ++ ['*', '/']))

/-- The byte lies in the span. -/
def Span.Covers (span : Span) (n : Nat) : Prop := span.offset ≤ n ∧ n < span.offset + span.length

/-- The spans have nothing in common. -/
def Span.Apart (a b : Span) : Prop := a.Precedes b ∨ b.Precedes a

/-- The byte lies in a literal. -/
def InLiteral (tokens : List (Token Span)) (n : Nat) : Prop :=
  ∃ t ∈ tokens, (∃ value, t.lexeme = .literal value) ∧ t.pos.Covers n

/-- The byte lies in a comment of the text, which starts at the byte `offset`, and no token reaches
into the comment. -/
def InComment (offset : Nat) (cs : List Char) (tokens : List (Token Span)) (n : Nat) : Prop :=
  ∃ before comment after, cs = before ++ (comment ++ after) ∧ IsComment comment ∧
    Span.Covers ⟨offset + byteLength before, byteLength comment⟩ n ∧
    ∀ t ∈ tokens, Span.Apart ⟨offset + byteLength before, byteLength comment⟩ t.pos

section InComment
variable {offset n : Nat} {cs : List Char} {tokens : List (Token Span)}

theorem InComment.behind (front : List Char)
    (h : InComment (offset + byteLength front) cs tokens n) :
    InComment offset (front ++ cs) tokens n := by
  obtain ⟨before, comment, after, rfl, hcomment, hcovers, hapart⟩ := h
  refine ⟨front ++ before, comment, after, (List.append_assoc ..).symm, hcomment, ?_⟩
  rw [byteLength_append, ← Nat.add_assoc]
  exact ⟨hcovers, hapart⟩

theorem InComment.before {rest : List Char} (h : InComment offset cs [] n)
    (htokens : ∀ t ∈ tokens, offset + byteLength cs ≤ t.pos.offset) :
    InComment offset (cs ++ rest) tokens n := by
  obtain ⟨before, comment, after, rfl, hcomment, hcovers, -⟩ := h
  refine ⟨before, comment, after ++ rest, by simp, hcomment, hcovers, fun t ht => .inl ?_⟩
  have hle := htokens t ht
  rw [byteLength_append, byteLength_append] at hle
  simp only [Span.Precedes]
  omega

theorem InComment.cons {t : Token Span} (h : InComment offset cs tokens n)
    (ht : t.pos.offset + t.pos.length ≤ offset) : InComment offset cs (t :: tokens) n := by
  obtain ⟨before, comment, after, he, hcomment, hcovers, hapart⟩ := h
  refine ⟨before, comment, after, he, hcomment, hcovers, List.forall_mem_cons.mpr ⟨.inr ?_, hapart⟩⟩
  exact Nat.le_trans ht (Nat.le_add_right ..)

theorem IsComment.inComment {comment : List Char} (h : IsComment comment) (offset : Nat)
    (after : List Char) (hn : n < byteLength comment) :
    InComment offset (comment ++ after) [] (offset + n) := by
  refine ⟨[], comment, after, rfl, h, ⟨Nat.le_add_right .., ?_⟩, List.forall_mem_nil _⟩
  exact Nat.add_lt_add_left hn offset

/-- What stands in a gap and is not white space stands in a comment. -/
theorem Gap.inComment {gap : List Char} (h : Gap gap) {c : Char} (hc : isSpace c = false)
    (hn : StandsAt c gap n) : InComment offset gap [] (offset + n) := by
  induction h generalizing offset n with
  | nil => exact absurd hn not_standsAt_nil
  | @space d cs hd _ ih =>
    rcases standsAt_cons hn with ⟨rfl, -⟩ | ⟨m, rfl, hm⟩
    · rw [hc] at hd
      cases hd
    · rw [← Nat.add_assoc]
      exact (ih hm).behind [d]
  | @lineComment text cs htext _ ih =>
    have hcomment := IsComment.line htext
    have hsplit : '/' :: '/' :: (text ++ '\n' :: cs) = ('/' :: '/' :: text) ++ '\n' :: cs := rfl
    rcases standsAt_append (hsplit ▸ hn) with hin | ⟨m, rfl, hm⟩
    · exact hcomment.inComment offset ('\n' :: cs) hin.lt
    · rcases standsAt_cons hm with ⟨rfl, -⟩ | ⟨k, rfl, hk⟩
      · exact absurd hc (by decide)
      · rw [← Nat.add_assoc, ← Nat.add_assoc]
        exact ((ih hk).behind ['\n']).behind ('/' :: '/' :: text)
  | @blockComment text cs htext _ ih =>
    have hcomment := IsComment.block htext
    have hsplit : '/' :: '*' :: (text ++ '*' :: '/' :: cs) =
        ('/' :: '*' :: (text ++ ['*', '/'])) ++ cs := by simp
    rw [hsplit] at hn ⊢
    rcases standsAt_append hn with hin | ⟨m, rfl, hm⟩
    · exact hcomment.inComment offset cs hin.lt
    · rw [← Nat.add_assoc]
      exact (ih hm).behind _

end InComment

/-! ## Places of braces -/

/-- The two braces. -/
def IsBrace (c : Char) : Prop := c = '{' ∨ c = '}'

section Braces
variable {c : Char} {offset n : Nat} {cs : List Char} {tokens : List (Token Span)}

theorem IsBrace.not_isSpace (h : IsBrace c) : isSpace c = false := by
  rcases h with rfl | rfl <;> decide

theorem IsBrace.byteLength_eq (h : IsBrace c) : byteLength [c] = 1 := by
  rcases h with rfl | rfl <;> decide

/-- A lexeme that is spelled with a brace is the brace or a literal. -/
theorem Spells.braced {written : List Char} {lexeme : Lexeme} (h : Spells written lexeme)
    (hc : IsBrace c) (hmem : c ∈ written) :
    (lexeme = .symbol c ∧ written = [c]) ∨ ∃ value, lexeme = .literal value := by
  cases h with
  | word hword =>
    have hpart := hword.isWordPart c hmem
    rcases hc with rfl | rfl <;> exact absurd hpart (by decide)
  | @number d ds hd hds =>
    rcases List.mem_cons.mp hmem with rfl | hmem
    · rcases hc with rfl | rfl <;> exact absurd hd (by decide)
    · have hpart := hds c hmem
      rcases hc with rfl | rfl <;> exact absurd hpart (by decide)
  | literal _ _ => exact .inr ⟨_, rfl⟩
  | symbol _ =>
    obtain rfl := List.mem_singleton.mp hmem
    exact .inl ⟨rfl, rfl⟩

/-- Every brace of a text is a token, or stands in a literal or in a comment. -/
theorem Tiled.brace_placed (h : Tiled none offset cs tokens) (hc : IsBrace c)
    (hn : StandsAt c cs n) :
    ⟨.symbol c, ⟨offset + n, 1⟩⟩ ∈ tokens ∨ InLiteral tokens (offset + n) ∨
      InComment offset cs tokens (offset + n) := by
  induction h generalizing n with
  | @ending offset gap rest hgap hending =>
    refine .inr (.inr ?_)
    rcases standsAt_append hn with hin | ⟨m, rfl, hm⟩
    · exact (hgap.inComment hc.not_isSpace hin).before (List.forall_mem_nil _)
    · rw [← Nat.add_assoc]
      cases hending with
      | nothing => exact absurd hm not_standsAt_nil
      | @lineComment _ text htext =>
        have hcomment := (IsComment.line htext).inComment (offset + byteLength gap) [] hm.lt
        rw [List.append_nil] at hcomment
        exact hcomment.behind gap
  | @token offset gap written rest lexeme tokens hgap hspells _ hrest ih =>
    have hbehind : ∀ t ∈ tokens, offset + byteLength gap + byteLength written ≤ t.pos.offset :=
      fun t ht => hrest.le_offset t.pos (List.mem_append_left _ (List.mem_map_of_mem ht))
    rcases standsAt_append hn with hin | ⟨m, rfl, hm⟩
    · refine .inr (.inr ((hgap.inComment hc.not_isSpace hin).before ?_))
      refine List.forall_mem_cons.mpr ⟨Nat.le_refl _, fun t ht => ?_⟩
      exact Nat.le_trans (Nat.le_add_right ..) (hbehind t ht)
    · rw [← Nat.add_assoc]
      rcases standsAt_append hm with hin | ⟨k, rfl, hk⟩
      · rcases hspells.braced hc hin.mem with ⟨rfl, rfl⟩ | hliteral
        · have hfirst : m = 0 := by
            have hlt := hin.lt
            rw [hc.byteLength_eq] at hlt
            omega
          rw [hfirst, Nat.add_zero, hc.byteLength_eq]
          exact .inl List.mem_cons_self
        · refine .inr (.inl ⟨_, List.mem_cons_self, hliteral, Nat.le_add_right .., ?_⟩)
          exact Nat.add_lt_add_left hin.lt _
      · rw [← Nat.add_assoc]
        rcases ih hk with htoken | ⟨t, ht, hliteral⟩ | hcomment
        · exact .inl (List.mem_cons_of_mem _ htoken)
        · exact .inr (.inl ⟨t, List.mem_cons_of_mem _ ht, hliteral⟩)
        · exact .inr (.inr (((hcomment.cons (Nat.le_refl _)).behind written).behind gap))

/-- Two tokens have nothing in common. -/
theorem Tiled.apart {refusal : Option SyntaxError} (h : Tiled refusal offset cs tokens)
    {t u : Token Span} (ht : t ∈ tokens) (hu : u ∈ tokens) (hne : t ≠ u) : t.pos.Apart u.pos := by
  have hordered := List.pairwise_map.mp (List.pairwise_append.mp h.ordered).1
  have hapart : tokens.Pairwise fun t u => t.pos.Apart u.pos := hordered.imp .inl
  have hsymm : Std.Symm fun t u : Token Span => t.pos.Apart u.pos := ⟨fun _ _ => Or.symm⟩
  exact hapart.forall ht hu hne

theorem Span.Apart.not_covers {a b : Span} (h : a.Apart b) (ha : a.Covers n) : ¬ b.Covers n := by
  intro hb
  simp only [Span.Apart, Span.Precedes] at h
  simp only [Span.Covers] at ha hb
  omega

/-- **The braces that are tokens** of a text are those that stand in no literal and in no
comment. -/
theorem brace_mem_iff (h : lex cs = .ok tokens) (hc : IsBrace c) (span : Span) :
    ⟨.symbol c, span⟩ ∈ tokens ↔
      ∃ n, StandsAt c cs n ∧ span = ⟨n, 1⟩ ∧ ¬ InLiteral tokens n ∧ ¬ InComment 0 cs tokens n := by
  have htiled := tiled_of_lex h
  constructor
  · intro hmem
    obtain ⟨written, after, ⟨before, hcs, hspan⟩, hspells, -⟩ :=
      @Tiled.cuts _ _ _ _ htiled [] rfl _ hmem
    cases hspells with
    | symbol _ =>
      rw [hc.byteLength_eq] at hspan
      have hcovers : span.Covers (byteLength before) := by
        rw [show span = ⟨byteLength before, 1⟩ from hspan]
        exact ⟨Nat.le_refl _, Nat.lt_succ_self _⟩
      refine ⟨byteLength before, ⟨before, after, hcs, rfl⟩, hspan, ?_, ?_⟩
      · rintro ⟨t, ht, ⟨value, hvalue⟩, hin⟩
        have hne : ⟨.symbol c, span⟩ ≠ t := by
          rintro rfl
          cases hvalue
        exact (htiled.apart hmem ht hne).not_covers hcovers hin
      · rintro ⟨_, _, _, -, -, hin, hapart⟩
        exact (hapart _ hmem).not_covers hin hcovers
  · rintro ⟨n, hn, rfl, hliteral, hcomment⟩
    have hplaced := htiled.brace_placed hc hn
    rw [Nat.zero_add] at hplaced
    rcases hplaced with hmem | hin | hin
    · exact hmem
    · exact absurd hin hliteral
    · exact absurd hin hcomment

end Braces

end RpcBindings.Proto

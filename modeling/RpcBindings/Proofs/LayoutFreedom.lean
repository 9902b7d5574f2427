import Mathlib.Data.List.Forall2
import RpcBindings.Proofs.ErrorSpans

/-! # Layout does not matter

Two sources may say the same with different white space, comments, quotes and escapes.  Then they
have the same outcome: the same file, with each import at the same token, or the same refusal
(`parse_layout`).  The two runs of the reader are never followed side by side.  There is one run,
over tokens that have two spans each, and it is both of them when one of the spans is forgotten.
-/
namespace RpcBindings.Proto

/-- Tokens that say the same are one list of tokens with two positions each. -/
theorem exists_paired {Pos Pos' : Type} {ts : List (Token Pos)} {us : List (Token Pos')}
    (h : ts.map Token.lexeme = us.map Token.lexeme) :
    ∃ paired : List (Token (Pos × Pos')), paired.map (Token.move Prod.fst) = ts ∧
      paired.map (Token.move Prod.snd) = us := by
  induction ts generalizing us with
  | nil =>
    obtain rfl : us = [] := List.map_eq_nil_iff.mp h.symm
    exact ⟨[], rfl, rfl⟩
  | cons t ts ih =>
    obtain ⟨u, us', rfl, hlexeme, htail⟩ := List.map_eq_cons_iff.mp h.symm
    obtain ⟨paired, rfl, rfl⟩ := ih htail.symm
    refine ⟨⟨t.lexeme, t.pos, u.pos⟩ :: paired, rfl, ?_⟩
    rw [List.map_cons, Token.move, ← hlexeme]

/-- The spans belong to tokens with the same number. -/
def SameToken (ts us : List (Token Span)) (p q : Span) : Prop :=
  ∃ (k : Nat) (t u : Token Span), ts[k]? = some t ∧ us[k]? = some u ∧ t.pos = p ∧ u.pos = q

theorem sameToken_of_mem {paired : List (Token (Span × Span))} {t : Token (Span × Span)}
    (h : t ∈ paired) : SameToken (paired.map (Token.move Prod.fst))
      (paired.map (Token.move Prod.snd)) t.pos.1 t.pos.2 := by
  obtain ⟨k, hk⟩ := List.mem_iff_getElem?.mp h
  refine ⟨k, t.move Prod.fst, t.move Prod.snd, ?_, ?_, rfl, rfl⟩
  · rw [List.getElem?_map, hk, Option.map_some]
  · rw [List.getElem?_map, hk, Option.map_some]

/-- The outcomes for two sources with the tokens `ts` and `us` differ in nothing but spans. -/
inductive SameOutcome (ts us : List (Token Span)) :
    Except SyntaxError (File Span) → Except SyntaxError (File Span) → Prop
  /-- Both are read.  Imports correspond in order, each at one token of both sources. -/
  | read {a b : File Span} : a.package = b.package → a.decls = b.decls →
      List.Forall₂ (fun i j => i.path = j.path ∧ SameToken ts us i.pos j.pos)
        a.imports b.imports →
      SameOutcome ts us (.ok a) (.ok b)
  /-- Both are refused, for the same fault and so with the same message. -/
  | refused {d e : SyntaxError} : d.fault = e.fault → d.fault.message = e.fault.message →
      SameOutcome ts us (.error d) (.error e)

/-- **Layout does not matter**: sources that say the same have the same outcome. -/
theorem parse_layout {a b : String} {ts us : List (Token Span)} (ha : lex a.toList = .ok ts)
    (hb : lex b.toList = .ok us) (h : ts.map Token.lexeme = us.map Token.lexeme) :
    SameOutcome ts us (parse a) (parse b) := by
  obtain ⟨paired, rfl, rfl⟩ := exists_paired h
  have horigins := origins_readTokens paired
  rw [parse_of_lex ha, parse_of_lex hb, move_readTokens, move_readTokens]
  cases hread : readTokens paired with
  | error e => exact .refused rfl rfl
  | ok file =>
    rw [hread] at horigins
    refine .read rfl rfl ?_
    refine List.forall₂_map_left_iff.mpr (List.forall₂_map_right_iff.mpr ?_)
    refine List.forall₂_same.mpr fun i hi => ⟨rfl, ?_⟩
    exact sameToken_of_mem (horigins.of_ok i hi)

/-- An import and a message with as little white space as possible. -/
def dense : String := "import'a';message M\x7b\x7d"

/-- The same with comments, other quotes and an escape. -/
def spread : String := "/* é */ import \"\\a\" ; // M\n\tmessage M \x7b \x7d\n"

theorem parse_layout_dense_spread : ∃ ts us, lex dense.toList = .ok ts ∧
    lex spread.toList = .ok us ∧ ts.map Token.lexeme = us.map Token.lexeme ∧
    SameOutcome ts us (parse dense) (parse spread) := by
  have hrun : ((lex dense.toList).toOption.any fun ts => (lex spread.toList).toOption.any fun us =>
      ts.map Token.lexeme = us.map Token.lexeme) = true := by
    decide +kernel
  obtain ⟨ts, hts, hrun⟩ := exists_ok_of_any hrun
  obtain ⟨us, hus, hsame⟩ := exists_ok_of_any hrun
  have hsame := of_decide_eq_true hsame
  exact ⟨ts, us, hts, hus, hsame, parse_layout hts hus hsame⟩

end RpcBindings.Proto

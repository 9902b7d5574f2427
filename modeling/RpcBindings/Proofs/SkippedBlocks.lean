import RpcBindings.Proofs.BracePlaces
import RpcBindings.Proofs.Runs
import RpcBindings.Proto.Reader

/-! # Skipped blocks

Enums, oneofs, extensions, options and the bodies of methods are skipped up to the brace that closes
them.  The reader keeps no more than the number of braces that are open, and it meets the tokens one
by one, so what it skips is said here by counting: it reads the shortest start of the tokens that
closes one brace more than it opens (`SkipsBlock`), and if there is no such start, the file ends too
early.

What a block comes to is followed from any depth (`leaveBlock_cases`), by an induction along the
tokens in which the depth moves by what each token adds to the braces (`symbols_cons_depthBehind`).
That blocks begin one brace deep is a matter of all the places where the reader can meet an opening
brace (`opens_step`), and that braces in literals and comments do not count is one of the lexer
(`brace_mem_iff`).
-/
namespace RpcBindings.Proto

variable {Pos : Type}

/-! ## Braces in tokens -/

/-- How many of the tokens are the symbol. -/
def symbols (c : Char) (ts : List (Token Pos)) : Nat := ts.countP fun t => t.lexeme = .symbol c

/-- The tokens close one brace more than they open. -/
def Overcloses (ts : List (Token Pos)) : Prop := symbols '}' ts = symbols '{' ts + 1

/-- Every brace that the tokens open is closed, and none is closed before it is opened. -/
structure BraceBalanced (ts : List (Token Pos)) : Prop where
  settled : symbols '}' ts = symbols '{' ts
  sane : ∀ before, before <+: ts → symbols '}' before ≤ symbols '{' before

/-- Inside `depth` braces, the tokens do not lead out of the outermost. -/
def StaysInside (depth : Nat) (ts : List (Token Pos)) : Prop :=
  ∀ before, before <+: ts → symbols '}' before < symbols '{' before + depth

/-- The depth behind a token. -/
def depthBehind (t : Token Pos) (depth : Nat) : Nat :=
  if t.lexeme = .symbol '{' then depth + 1 else if t.lexeme = .symbol '}' then depth - 1 else depth

section Braces
variable {depth : Nat}

@[simp] theorem symbols_nil (c : Char) : symbols c ([] : List (Token Pos)) = 0 := rfl

theorem symbols_append (c : Char) (ts us : List (Token Pos)) :
    symbols c (ts ++ us) = symbols c ts + symbols c us :=
  List.countP_append

theorem symbols_singleton (c : Char) (t : Token Pos) :
    symbols c [t] = if t.lexeme = .symbol c then 1 else 0 := by
  simp [symbols, List.countP_cons]

/-- A token moves the depth by what it adds to the braces. -/
theorem symbols_cons_depthBehind (t : Token Pos) (ts : List (Token Pos)) (h : 0 < depth) :
    symbols '}' (t :: ts) + (symbols '{' ts + depthBehind t depth) =
      symbols '}' ts + (symbols '{' (t :: ts) + depth) := by
  rw [← List.singleton_append, symbols_append, symbols_append, symbols_singleton,
    symbols_singleton, depthBehind]
  by_cases hopen : t.lexeme = .symbol '{'
  · simp [hopen]
    omega
  · by_cases hclose : t.lexeme = .symbol '}'
    · simp [hclose]
      omega
    · simp [hopen, hclose]

theorem staysInside_nil (h : 0 < depth) : StaysInside depth ([] : List (Token Pos)) := by
  intro before hbefore
  rw [List.prefix_nil.mp hbefore]
  simpa using h

theorem staysInside_cons {t : Token Pos} {ts : List (Token Pos)} (hdepth : 0 < depth)
    (h : StaysInside (depthBehind t depth) ts) : StaysInside depth (t :: ts) := by
  intro before hbefore
  rcases List.prefix_cons_iff.mp hbefore with rfl | ⟨before, rfl, hstart⟩
  · simpa using hdepth
  · have hrest := h before hstart
    have hmoved := symbols_cons_depthBehind t before hdepth
    omega

theorem StaysInside.not_overcloses {ts : List (Token Pos)} (h : StaysInside 1 ts) :
    ¬ ∃ before, before <+: ts ∧ Overcloses before := by
  rintro ⟨before, hbefore, hover⟩
  have hinside := h before hbefore
  rw [hover] at hinside
  exact Nat.lt_irrefl _ hinside

theorem StaysInside.braceBalanced {ts : List (Token Pos)} (h : StaysInside 1 ts)
    (hsettled : symbols '}' ts = symbols '{' ts) : BraceBalanced ts :=
  ⟨hsettled, fun before hbefore => Nat.le_of_lt_succ (h before hbefore)⟩

theorem overcloses_concat {body : List (Token Pos)} {brace : Token Pos}
    (hbrace : brace.lexeme = .symbol '}') (hsettled : symbols '}' body = symbols '{' body) :
    Overcloses (body ++ [brace]) := by
  rw [Overcloses, symbols_append, symbols_append, symbols_singleton, symbols_singleton, hbrace,
    hsettled]
  simp

theorem isPrefix_concat (body : List (Token Pos)) (brace : Token Pos)
    (rest : List (Token Pos)) : body ++ [brace] <+: body ++ brace :: rest :=
  ⟨rest, (List.append_cons ..).symm⟩

/-- A start of the tokens that closes a brace too many does not end before the first such brace. -/
theorem StaysInside.shortest {body rest before : List (Token Pos)} {brace : Token Pos}
    (h : StaysInside 1 body) (hbefore : before <+: body ++ brace :: rest)
    (hover : Overcloses before) : body ++ [brace] <+: before := by
  refine List.prefix_of_prefix_length_le (isPrefix_concat ..) hbefore ?_
  rw [List.length_append, List.length_singleton]
  apply Nat.lt_of_not_le
  intro hle
  have hinside := List.prefix_of_prefix_length_le hbefore (List.prefix_append ..) hle
  exact h.not_overcloses ⟨before, hinside, hover⟩

end Braces

namespace Reader

/-! ## Out of a block -/

/-- Whether the reader is in a skipped block. -/
def Mode.inBlock : Mode Pos → Bool
  | .block .. => true
  | _ => false

/-- What the reader goes on with behind a block. -/
def behindBlock (around : Nat) : Mode Pos := if around = 0 then .item else .statement around

/-- Reads tokens until the reader is out of the block that it is in.  The result is the state that
it is in then, with the tokens that are left.  If the tokens end before, so does the reader. -/
def leaveBlock (s : State Pos) :
    List (Token Pos) → Except (Refusal Pos) (State Pos × List (Token Pos))
  | [] => do
    let _ ← close s
    .ok (s, [])
  | t :: ts => do
    let s' ← step s t
    if s'.mode.inBlock then leaveBlock s' ts else .ok (s', ts)

/-- A token inside a block changes nothing but the depth, and the last brace ends the block. -/
theorem step_inBlock (s : State Pos) (depth around : Nat) (t : Token Pos) :
    step { s with mode := .block depth around } t =
      .ok (if t.lexeme = .symbol '}' ∧ depth ≤ 1 then { s with mode := behindBlock around }
        else { s with mode := .block (depthBehind t depth) around }) := by
  simp only [step, readBlock, depthBehind, behindBlock]
  split
  · next hopen => simp [hopen, State.go]
  · next hclose =>
    by_cases hdepth : depth ≤ 1
    · simp [hclose, hdepth, State.go]
    · simp [hclose, hdepth, State.go]
  · next hopen hclose =>
    rw [if_neg fun hlast => hclose hlast.1, if_neg hopen, if_neg hclose]
    rfl

theorem inBlock_behindBlock (around : Nat) : (behindBlock around : Mode Pos).inBlock = false := by
  unfold behindBlock
  split <;> rfl

section Leave
variable (s : State Pos) {depth : Nat} (around : Nat) {t : Token Pos}

theorem leaveBlock_last (ht : t.lexeme = .symbol '}') (hdepth : depth ≤ 1)
    (ts : List (Token Pos)) :
    leaveBlock { s with mode := .block depth around } (t :: ts) =
      .ok ({ s with mode := behindBlock around }, ts) := by
  rw [leaveBlock, step_inBlock, if_pos ⟨ht, hdepth⟩]
  exact if_neg (by rw [inBlock_behindBlock]; exact Bool.false_ne_true)

theorem leaveBlock_inside (h : ¬ (t.lexeme = .symbol '}' ∧ depth ≤ 1)) (ts : List (Token Pos)) :
    leaveBlock { s with mode := .block depth around } (t :: ts) =
      leaveBlock { s with mode := .block (depthBehind t depth) around } ts := by
  rw [leaveBlock, step_inBlock, if_neg h]
  rfl

theorem depthBehind_pos (hdepth : 0 < depth) (h : ¬ (t.lexeme = .symbol '}' ∧ depth ≤ 1)) :
    0 < depthBehind t depth := by
  unfold depthBehind
  split
  · omega
  · split
    · next hclose =>
      have hdeeper : ¬ depth ≤ 1 := fun hle => h ⟨hclose, hle⟩
      omega
    · exact hdepth

/-- **What leaving a block comes to**, from any depth: a brace that leads out of it, with tokens
before it that do not; or the end of the tokens, none of which does. -/
theorem leaveBlock_cases (hdepth : 0 < depth) (ts : List (Token Pos)) :
    (∃ body brace rest, ts = body ++ brace :: rest ∧ brace.lexeme = .symbol '}' ∧
      StaysInside depth body ∧ symbols '}' body + 1 = symbols '{' body + depth ∧
      leaveBlock { s with mode := .block depth around } ts =
        .ok ({ s with mode := behindBlock around }, rest)) ∨
    (StaysInside depth ts ∧ leaveBlock { s with mode := .block depth around } ts =
      .error ⟨.endOfFile (.symbol '}'), none⟩) := by
  induction ts generalizing depth with
  | nil => exact .inr ⟨staysInside_nil hdepth, rfl⟩
  | cons t ts ih =>
    by_cases hlast : t.lexeme = .symbol '}' ∧ depth ≤ 1
    · refine .inl ⟨[], t, ts, rfl, hlast.1, staysInside_nil hdepth, ?_,
        leaveBlock_last s around hlast.1 hlast.2 ts⟩
      have hone := hlast.2
      simp
      omega
    · rw [leaveBlock_inside s around hlast]
      rcases ih (depthBehind_pos hdepth hlast) with
        ⟨body, brace, rest, rfl, hbrace, hinside, hsettled, hleave⟩ | ⟨hinside, hleave⟩
      · refine .inl ⟨t :: body, brace, rest, rfl, hbrace, staysInside_cons hdepth hinside, ?_,
          hleave⟩
        have hmoved := symbols_cons_depthBehind t body hdepth
        omega
      · exact .inr ⟨staysInside_cons hdepth hinside, hleave⟩

end Leave

/-! ## The reader and its blocks -/

theorem close_inBlock {s : State Pos} (h : s.mode.inBlock = true) :
    close s = .error ⟨.endOfFile (.symbol '}'), none⟩ := by
  obtain ⟨file, scopes, mode⟩ := s
  cases mode <;> first | rfl | cases h

/-- The reader goes out of the block and reads what is left. -/
theorem close_foldlM_inBlock {s : State Pos} (h : s.mode.inBlock = true) (ts : List (Token Pos)) :
    (ts.foldlM step s >>= close) =
      (leaveBlock s ts >>= fun left => left.2.foldlM step left.1 >>= close) := by
  induction ts generalizing s with
  | nil =>
    rw [leaveBlock, close_inBlock h]
    exact close_inBlock h
  | cons t ts ih =>
    rw [List.foldlM_cons, leaveBlock]
    cases hstep : step s t with
    | error e => rfl
    | ok s' =>
      by_cases hin : s'.mode.inBlock = true
      · simpa [bind, Except.bind, hin] using ih hin
      · simp [bind, Except.bind, hin]

/-- If a token leads into a block, it opens it. -/
def Opens (t : Token Pos) (s' : State Pos) : Prop :=
  s'.mode.inBlock = true → t.lexeme = .symbol '{' ∧ ∃ around, s'.mode = .block 1 around

section Opens
variable {s : State Pos} {t : Token Pos}

theorem opens_outside {s' : State Pos} (h : s'.mode.inBlock = false) : Opens t s' := by
  intro hin
  rw [h] at hin
  cases hin

theorem opens_block {s' : State Pos} {around : Nat} (ht : t.lexeme = .symbol '{')
    (h : s'.mode = .block 1 around) : Opens t s' :=
  fun _ => ⟨ht, around, h⟩

theorem opens_readStatement (depth : Nat) :
    Ends (Opens t) (fun _ => True) (readStatement s depth t) := by
  unfold readStatement
  repeat' split
  all_goals first
    | exact .ok (opens_outside rfl)
    | exact .ok (opens_block ‹_› rfl)
    | exact .error trivial

theorem opens_readItem : Ends (Opens t) (fun _ => True) (readItem s t) := by
  have hdeclare : ∀ (s' : State Pos) d, Opens t (s'.declare d) := fun s' d =>
    opens_outside (by rw [mode_declare]; rfl)
  unfold readItem readTopLevel readMember readServiceItem
  repeat' split
  all_goals first
    | exact .ok (opens_outside rfl)
    | exact .ok (hdeclare _ _)
    | exact opens_readStatement 0
    | exact .error trivial

theorem opens_readTypeName (purpose : Purpose) (progress : Progress) (text : String) :
    Ends (Opens t) (fun _ => True) (readTypeName s purpose progress text t) := by
  unfold readTypeName endTypeName
  repeat' split
  all_goals first
    | exact .ok (opens_outside rfl)
    | exact .ok (opens_block ‹_› rfl)
    | exact .error trivial

theorem opens_readName (what : String) {next : String → Mode Pos}
    (hnext : ∀ w, (next w).inBlock = false) :
    Ends (Opens t) (fun _ => True) (readName s what next t) := by
  unfold readName
  split
  · exact .ok (opens_outside (hnext _))
  · exact .error trivial

theorem opens_readImportPath : Ends (Opens t) (fun _ => True) (readImportPath s t) := by
  unfold readImportPath
  split
  · exact .ok (opens_outside rfl)
  · exact .error trivial

/-- Blocks are entered at an opening brace, and one brace deep. -/
theorem opens_step (h : s.mode.inBlock = false) : Ends (Opens t) (fun _ => True) (step s t) := by
  unfold step
  cases heq : s.mode <;> dsimp only
  case item => exact opens_readItem
  case statement depth => exact opens_readStatement depth
  case block braces around =>
    rw [heq] at h
    cases h
  case typeName purpose progress text => exact opens_readTypeName purpose progress text
  case importStart =>
    split
    · exact .ok (opens_outside rfl)
    · exact opens_readImportPath
  case importPath => exact opens_readImportPath
  case messageName => exact opens_readName _ fun _ => rfl
  case enumName => exact opens_readName _ fun _ => rfl
  case serviceName pos => exact opens_readName _ fun _ => rfl
  case rpcName => exact opens_readName _ fun _ => rfl
  case rpcType side =>
    split
    · exact .ok (opens_outside rfl)
    · exact opens_readTypeName _ _ _
  case rpcStream side => split <;> exact opens_readTypeName _ _ _
  -- everywhere else one token is expected
  all_goals
    repeat' split
    all_goals first
      | exact .ok (opens_outside rfl)
      | exact .ok (opens_block ‹_› rfl)
      | exact .error trivial

end Opens

/-! ## Blocks are skipped -/

/-- The result of skipping a block when the reader is one brace deep in it, with the tokens `ts` to
come. -/
structure SkipsBlock (s : State Pos) (around : Nat) (ts : List (Token Pos))
    (result : Except (Refusal Pos) (State Pos × List (Token Pos))) : Prop where
  /-- There is a state behind the block just when some start of the tokens closes one brace more
  than it opens. -/
  ok_iff : (∃ left, result = .ok left) ↔ ∃ before, before <+: ts ∧ Overcloses before
  /-- What has been read then is the shortest such start: balanced tokens and a brace.  Nothing is
  written down. -/
  shortest : ∀ s' rest, result = .ok (s', rest) →
    s' = { s with mode := behindBlock around } ∧
    ∃ body brace, ts = body ++ brace :: rest ∧ brace.lexeme = .symbol '}' ∧ BraceBalanced body ∧
      Overcloses (body ++ [brace]) ∧
      ∀ before, before <+: ts → Overcloses before → body ++ [brace] <+: before
  /-- Otherwise the end of the file is to blame. -/
  refused : (¬ ∃ before, before <+: ts ∧ Overcloses before) →
    ∃ e, result = .error e ∧ e.pos = none ∧ e.fault = .endOfFile (.symbol '}') ∧
      e.fault.message = "expected '\x7d', found end of file"

theorem skipsBlock_leaveBlock (s : State Pos) (around : Nat) (ts : List (Token Pos)) :
    SkipsBlock s around ts (leaveBlock { s with mode := .block 1 around } ts) := by
  rcases leaveBlock_cases s around Nat.one_pos ts with
    ⟨body, brace, rest, rfl, hbrace, hinside, hcount, hleave⟩ | ⟨hinside, hleave⟩
  · have hsettled : symbols '}' body = symbols '{' body := Nat.succ.inj hcount
    have hover := overcloses_concat hbrace hsettled
    have hstart := isPrefix_concat body brace rest
    rw [hleave]
    refine ⟨iff_of_true ⟨_, rfl⟩ ⟨_, hstart, hover⟩, ?_,
      fun hnone => absurd ⟨_, hstart, hover⟩ hnone⟩
    intro s' rest' he
    cases he
    exact ⟨rfl, body, brace, rfl, hbrace, hinside.braceBalanced hsettled, hover,
      fun before hbefore => hinside.shortest hbefore⟩
  · rw [hleave]
    refine ⟨iff_of_false not_exists_error_eq_ok hinside.not_overcloses, nofun, fun _ => ?_⟩
    exact ⟨_, rfl, rfl, rfl, rfl⟩

/-- **A skipped block ends at its balancing brace.**  Whatever tokens follow, a block that the
reader is one brace deep in is skipped as `SkipsBlock` says, and the reader goes on with what is
left behind it.  The reader gets into a block at an opening brace only, and is one brace deep in it
then.  Of the braces in a text, those in literals and comments are no tokens, and all others are. -/
theorem skipped_blocks_balanced (s : State Pos) (around : Nat) (ts : List (Token Pos)) :
    SkipsBlock s around ts (leaveBlock { s with mode := .block 1 around } ts) ∧
    (ts.foldlM step { s with mode := .block 1 around } >>= close) =
      (leaveBlock { s with mode := .block 1 around } ts >>= fun left =>
        left.2.foldlM step left.1 >>= close) ∧
    (∀ (s s' : State Pos) (t : Token Pos), s.mode.inBlock = false → step s t = .ok s' →
      s'.mode.inBlock = true → t.lexeme = .symbol '{' ∧ ∃ around, s'.mode = .block 1 around) ∧
    ∀ (source : String) (tokens : List (Token Span)) (c : Char), lex source.toList = .ok tokens →
      IsBrace c → ∀ span, ⟨.symbol c, span⟩ ∈ tokens ↔ ∃ n, StandsAt c source.toList n ∧
        span = ⟨n, 1⟩ ∧ ¬ InLiteral tokens n ∧ ¬ InComment 0 source.toList tokens n := by
  refine ⟨skipsBlock_leaveBlock s around ts, close_foldlM_inBlock rfl ts, ?_, ?_⟩
  · intro s s' t hout hstep hin
    have hopens := opens_step (t := t) hout
    rw [hstep] at hopens
    exact hopens.of_ok hin
  · intro source tokens c hlex hc span
    exact brace_mem_iff hlex hc span

-- the braces in the literal and in the comments are passed over
example : (lex "'\x7d' /* \x7d */ \x7b \x7d // \x7b\n \x7d message".toList).toOption.bind
    (fun tokens => (leaveBlock { mode := .block 1 0 } tokens).toOption.map fun left =>
      left.2.map Token.lexeme) = some [.word "message"] := by
  decide +kernel

end Reader

end RpcBindings.Proto

import RpcBindings.Proofs.Runs
import RpcBindings.Proto.Reader

/-! # Reading does not depend on positions, nor on what was read before

The reader keeps the positions of some tokens and looks at none.  So tokens may be moved: what
is read from moved tokens is what was read before, with its positions moved along
(`move_readTokens`), and a refusal stays the same refusal.  In particular a list of tokens can be
read as if it had no positions at all.

Nor does the reader look at the file: it writes a package, an import or a declaration down and
goes on.  So the file may be changed too, by any change that leaves what is written down later
alone (`Carries`), and both are proved at once (`carry_step`).
-/
namespace RpcBindings.Proto

variable {Pos Pos' : Type} (f : Pos → Pos')

/-- The token at its new position. -/
def Token.move (t : Token Pos) : Token Pos' := ⟨t.lexeme, f t.pos⟩

/-- The import with the new position of its path. -/
def Import.move (i : Import Pos) : Import Pos' := ⟨i.path, f i.pos⟩

/-- The file with the new positions of its imports. -/
def File.move (file : File Pos) : File Pos' :=
  { package := file.package, imports := file.imports.map (Import.move f), decls := file.decls }

/-- The refusal at its new position. -/
def Refusal.move (e : Refusal Pos) : Refusal Pos' := ⟨e.fault, e.pos.map f⟩

namespace Reader

/-- What the reader is in the middle of, with its positions moved. -/
def Mode.move : Mode Pos → Mode Pos'
  | .item => .item
  | .statement depth => .statement depth
  | .block braces around => .block braces around
  | .typeName purpose progress text => .typeName purpose progress text
  | .importStart => .importStart
  | .importPath => .importPath
  | .importEnd => .importEnd
  | .messageName => .messageName
  | .messageBrace name => .messageBrace name
  | .enumName => .enumName
  | .enumBrace name => .enumBrace name
  | .serviceName pos => .serviceName (f pos)
  | .serviceBrace pos name => .serviceBrace (f pos) name
  | .rpcName => .rpcName
  | .rpcParen side => .rpcParen side
  | .rpcType side => .rpcType side
  | .rpcStream side => .rpcStream side
  | .rpcReturns name stream type => .rpcReturns name stream type
  | .rpcEnd => .rpcEnd

/-- The open scope with its position moved. -/
def Scope.move : Scope Pos → Scope Pos'
  | .message name members => .message name members
  | .service pos name methods => .service (f pos) name methods

/-- A change `g` of files that goes along with moving tokens: what the reader writes down behind it
is what it would have written down before it.  The tokens that are read have `T`. -/
structure Carries (T : Token Pos → Prop) (g : File Pos → File Pos') : Prop where
  package (file : File Pos) (text : String) :
    g { file with package := Name.segments text } = { g file with package := Name.segments text }
  imports (file : File Pos) (path : String) (pos : Pos) : T ⟨.literal path, pos⟩ →
    g { file with imports := file.imports ++ [⟨path, pos⟩] } =
      { g file with imports := (g file).imports ++ [⟨path, f pos⟩] }
  decls (file : File Pos) (d : Decl) :
    g { file with decls := file.decls ++ [d] } = { g file with decls := (g file).decls ++ [d] }

/-- The reader with all positions moved and its file changed. -/
def State.carry (g : File Pos → File Pos') (s : State Pos) : State Pos' :=
  { file := g s.file, scopes := s.scopes.map (Scope.move f), mode := s.mode.move f }

/-- A result that is changed by `k`, or the refusal at its new position. -/
def carried {α β : Type} (k : α → β) : Except (Refusal Pos) α → Except (Refusal Pos') β
  | .ok a => .ok (k a)
  | .error e => .error (e.move f)

section Steps
variable {f : Pos → Pos'} {T : Token Pos → Prop} {g : File Pos → File Pos'}
variable {s : State Pos} {t : Token Pos}

theorem carried_ite {α β : Type} {k : α → β} {p : Prop} [Decidable p]
    (a b : Except (Refusal Pos) α) :
    carried f k (if p then a else b) = if p then carried f k a else carried f k b :=
  apply_ite (carried f k) p a b

theorem carry_readStatement (depth : Nat) :
    readStatement (s.carry f g) depth (t.move f) =
      carried f (State.carry f g) (readStatement s depth t) := by
  unfold readStatement
  simp only [Token.move]
  split
  any_goals rfl
  · split <;> rfl
  · rw [carried_ite]
    rfl

theorem carry_readBlock (braces around : Nat) :
    readBlock (s.carry f g) braces around (t.move f) =
      carried f (State.carry f g) (readBlock s braces around t) := by
  unfold readBlock
  simp only [Token.move]
  split
  · rfl
  · rw [carried_ite]
    split
    · split <;> rfl
    · rfl
  · rfl

theorem carry_addMethod (m : Rpc) : (s.carry f g).addMethod m = (s.addMethod m).carry f g := by
  obtain ⟨file, scopes, mode⟩ := s
  cases scopes with
  | nil => rfl
  | cons scope rest => cases scope <;> rfl

theorem carry_readTopLevel :
    readTopLevel (s.carry f g) (t.move f) = carried f (State.carry f g) (readTopLevel s t) := by
  unfold readTopLevel
  simp only [Token.move]
  split
  · simp only [carried_ite]
    rfl
  · rfl
  · rfl

theorem carry_readName (what : String) {next : String → Mode Pos} {next' : String → Mode Pos'}
    (hnext : ∀ w, next' w = (next w).move f) :
    readName (s.carry f g) what next' (t.move f) =
      carried f (State.carry f g) (readName s what next t) := by
  unfold readName
  simp only [Token.move, hnext]
  split <;> rfl

/-! The file is written to in three places: at the end of a package, at the path of an import and
behind a declaration. -/

theorem carry_endTypeName (hg : Carries f T g) (purpose : Purpose) (text : String) :
    endTypeName (s.carry f g) purpose text (t.move f) =
      carried f (State.carry f g) (endTypeName s purpose text t) := by
  unfold endTypeName
  simp only [Token.move, carry_addMethod]
  cases purpose with
  | package =>
    have hpackage := hg.package s.file text
    rw [carried_ite]
    simp only [carried, State.carry, hpackage]
    rfl
  | skippedBlock => rw [carried_ite]; rfl
  | request name stream => rw [carried_ite]; rfl
  | response name requestStream requestType stream => rw [carried_ite]; rfl

theorem carry_readTypeName (hg : Carries f T g) (purpose : Purpose) (progress : Progress)
    (text : String) :
    readTypeName (s.carry f g) purpose progress text (t.move f) =
      carried f (State.carry f g) (readTypeName s purpose progress text t) := by
  have hend := carry_endTypeName (s := s) (t := t) hg purpose text
  unfold readTypeName
  simp only [Token.move] at hend ⊢
  split
  any_goals rfl
  exact hend

theorem carry_readImportPath (hg : Carries f T g) (ht : T t) :
    readImportPath (s.carry f g) (t.move f) =
      carried f (State.carry f g) (readImportPath s t) := by
  obtain ⟨lexeme, pos⟩ := t
  unfold readImportPath
  cases lexeme with
  | literal path =>
    have himports := hg.imports s.file path pos ht
    simp only [carried, State.carry, himports]
    rfl
  | _ => rfl

theorem carry_declare (hg : Carries f T g) (d : Decl) :
    (s.carry f g).declare d = (s.declare d).carry f g := by
  obtain ⟨file, scopes, mode⟩ := s
  have hdecls := hg.decls file d
  cases scopes with
  | nil =>
    simp only [State.declare, State.carry, hdecls]
    rfl
  | cons scope rest =>
    cases scope with
    | message => rfl
    | service =>
      simp only [State.declare, State.carry, hdecls]
      rfl

theorem carry_readMember (hg : Carries f T g) (name : String) (members : List Decl)
    (rest : List (Scope Pos)) :
    readMember (s.carry f g) name members (rest.map (Scope.move f)) (t.move f) =
      carried f (State.carry f g) (readMember s name members rest t) := by
  have hdeclare := carry_declare (s := { s with scopes := rest }) hg (.message name members)
  have hstatement := carry_readStatement (f := f) (g := g) (s := s) (t := t) 0
  unfold readMember
  simp only [Token.move] at hstatement ⊢
  split
  · exact congrArg Except.ok hdeclare
  · rfl
  · simp only [carried_ite, hstatement]
    rfl
  · exact hstatement

theorem carry_readServiceItem (hg : Carries f T g) (pos : Pos) (name : String)
    (methods : List Rpc) (rest : List (Scope Pos)) :
    readServiceItem (s.carry f g) (f pos) name methods (rest.map (Scope.move f)) (t.move f) =
      carried f (State.carry f g) (readServiceItem s pos name methods rest t) := by
  have hdeclare := carry_declare (s := { s with scopes := rest }) hg (.service name methods)
  unfold readServiceItem
  simp only [Token.move]
  split
  · cases rest with
    | nil => exact congrArg Except.ok hdeclare
    | cons scope rest => rfl
  · rfl
  · simp only [carried_ite]
    rfl
  · rfl

theorem carry_readItem (hg : Carries f T g) :
    readItem (s.carry f g) (t.move f) = carried f (State.carry f g) (readItem s t) := by
  obtain ⟨file, scopes, mode⟩ := s
  cases scopes with
  | nil => exact carry_readTopLevel
  | cons scope rest =>
    cases scope with
    | message name members => exact carry_readMember hg name members rest
    | service pos name methods => exact carry_readServiceItem hg pos name methods rest

/-- **One token, moved, is read as before**, whatever the file held. -/
theorem carry_step (hg : Carries f T g) (ht : T t) :
    step (s.carry f g) (t.move f) = carried f (State.carry f g) (step s t) := by
  obtain ⟨file, scopes, mode⟩ := s
  cases mode with
  | item => exact carry_readItem hg
  | statement depth => exact carry_readStatement depth
  | block braces around => exact carry_readBlock braces around
  | typeName purpose progress text => exact carry_readTypeName hg purpose progress text
  | importStart =>
    have hpath := carry_readImportPath (s := ⟨file, scopes, .importStart⟩) hg ht
    simp only [step, carried_ite, ← hpath]
    rfl
  | importPath => exact carry_readImportPath hg ht
  | importEnd => simp only [step, carried_ite]; rfl
  | messageName => exact carry_readName _ fun _ => rfl
  | messageBrace name => simp only [step, carried_ite]; rfl
  | enumName => exact carry_readName _ fun _ => rfl
  | enumBrace name =>
    have hdeclare := carry_declare (s := ⟨file, scopes, .enumBrace name⟩) hg (.enum name)
    have hopen : ((State.carry f g ⟨file, scopes, .enumBrace name⟩).declare (.enum name)).go
        (.block 1 0) = carried f (State.carry f g)
          ((State.declare ⟨file, scopes, .enumBrace name⟩ (.enum name)).go (.block 1 0)) := by
      rw [hdeclare]
      rfl
    simp only [step, carried_ite, ← hopen]
    rfl
  | serviceName pos => exact carry_readName _ fun _ => rfl
  | serviceBrace pos name => simp only [step, carried_ite]; rfl
  | rpcName => exact carry_readName _ fun _ => rfl
  | rpcParen side => simp only [step, carried_ite]; rfl
  | rpcType side =>
    have hname := carry_readTypeName (s := ⟨file, scopes, .rpcType side⟩) (t := t) hg
      (side.purpose false) .start ""
    simp only [step, carried_ite, ← hname]
    rfl
  | rpcStream side =>
    simp only [step, State.carry, Mode.move, Token.move]
    split
    · exact carry_readTypeName (s := ⟨file, scopes, .rpcStream side⟩) (t := t) hg _ _ _
    · exact carry_readTypeName (s := ⟨file, scopes, .rpcStream side⟩) (t := t) hg _ _ _
    · exact carry_readTypeName (s := ⟨file, scopes, .rpcStream side⟩) (t := t) hg _ _ _
  | rpcReturns name stream type => simp only [step, carried_ite]; rfl
  | rpcEnd => simp only [step, carried_ite]; rfl

end Steps

section Runs
variable {f : Pos → Pos'} {T : Token Pos → Prop} {g : File Pos → File Pos'}

/-- **All tokens, moved, are read as before**, whatever the file held. -/
theorem carry_foldlM (hg : Carries f T g) {ts : List (Token Pos)} (hts : ∀ t ∈ ts, T t)
    (s : State Pos) :
    (ts.map (Token.move f)).foldlM step (s.carry f g) =
      carried f (State.carry f g) (ts.foldlM step s) := by
  induction ts generalizing s with
  | nil => rfl
  | cons t ts ih =>
    obtain ⟨ht, hts⟩ := List.forall_mem_cons.mp hts
    rw [List.map_cons, List.foldlM_cons, List.foldlM_cons, carry_step hg ht]
    cases step s t with
    | error e => rfl
    | ok s' => exact ih hts s'

theorem awaited_move (mode : Mode Pos) : (mode.move f).awaited = mode.awaited := by
  cases mode with
  | typeName purpose progress text => cases progress <;> rfl
  | _ => rfl

theorem carry_close (s : State Pos) : close (s.carry f g) = carried f g (close s) := by
  obtain ⟨file, scopes, mode⟩ := s
  simp only [close, State.carry, awaited_move]
  cases mode.awaited with
  | some what => rfl
  | none =>
    cases scopes with
    | nil => rfl
    | cons scope rest => cases scope <;> rfl

end Runs

end Reader

/-- What is read from the tokens on top of a file. -/
def readOnto (file : File Pos) (tokens : List (Token Pos)) : Except (Refusal Pos) (File Pos) := do
  Reader.close (← tokens.foldlM Reader.step { file })

/-- **Tokens are read alike when they are moved and the file is changed along.** -/
theorem carry_readOnto {f : Pos → Pos'} {T : Token Pos → Prop} {g : File Pos → File Pos'}
    (hg : Reader.Carries f T g) {ts : List (Token Pos)} (hts : ∀ t ∈ ts, T t) (file : File Pos) :
    readOnto (g file) (ts.map (Token.move f)) = Reader.carried f g (readOnto file ts) := by
  have hrun := Reader.carry_foldlM hg hts { file }
  have hstart : Reader.State.carry f g { file } = { file := g file } := rfl
  rw [hstart] at hrun
  simp only [readOnto, hrun]
  cases ts.foldlM Reader.step { file } with
  | error e => rfl
  | ok s => exact Reader.carry_close s

theorem carries_move : Reader.Carries f (fun _ => True) (File.move f) where
  package _ _ := rfl
  imports file path pos _ := by
    simp only [File.move, List.map_append, List.map_singleton]
    rfl
  decls _ _ := rfl

/-- **Moved tokens are read as before**, with the positions of imports and refusals moved
along. -/
theorem move_readTokens (ts : List (Token Pos)) :
    readTokens (ts.map (Token.move f)) =
      match readTokens ts with
      | .ok file => .ok (file.move f)
      | .error e => .error (e.move f) := by
  have hread := carry_readOnto (carries_move f) (fun t (_ : t ∈ ts) => trivial) {}
  refine Eq.trans hread ?_
  change Reader.carried f (File.move f) (readTokens ts) = _
  cases readTokens ts <;> rfl

end RpcBindings.Proto

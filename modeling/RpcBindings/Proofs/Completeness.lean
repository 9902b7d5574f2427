import RpcBindings.Proofs.Grammar
import RpcBindings.Proofs.Positions

/-! # The reader accepts the grammar

Every list of lexemes that the grammar derives is accepted by the reader, at whatever positions,
and gives the file that it was derived for (`exists_readTokens`).

The reader follows the grammar phrase by phrase (`Runs`).  What it does with a phrase does not
depend on the file read so far, and of the scopes that are open it depends only on the innermost
one, so each rule of the grammar becomes a statement about one run between two states that are
written out.
-/
namespace RpcBindings.Proto

/-! ## Runs of the reader -/

namespace Reader

/-- The reader gets from one state to the other by reading the lexemes.  Positions are left
out. -/
inductive Runs : State Unit → List Lexeme → State Unit → Prop
  | nil {s : State Unit} : Runs s [] s
  | cons {s s' s'' : State Unit} {x : Lexeme} {rest : List Lexeme} : step s ⟨x, ()⟩ = .ok s' →
      Runs s' rest s'' → Runs s (x :: rest) s''

theorem Runs.append {s s' s'' : State Unit} {xs ys : List Lexeme} (hx : Runs s xs s')
    (hy : Runs s' ys s'') : Runs s (xs ++ ys) s'' := by
  induction hx with
  | nil => exact hy
  | cons hstep _ ih => exact .cons hstep (ih hy)

theorem Runs.single {s s' : State Unit} {x : Lexeme} (hstep : step s ⟨x, ()⟩ = .ok s') :
    Runs s [x] s' :=
  .cons hstep .nil

/-- Two states that read a lexeme alike read everything alike from there. -/
theorem Runs.of_step_eq {s s' s'' : State Unit} {x : Lexeme} {rest : List Lexeme}
    (heq : step s ⟨x, ()⟩ = step s' ⟨x, ()⟩) (h : Runs s' (x :: rest) s'') :
    Runs s (x :: rest) s'' := by
  cases h with
  | cons hstep hrest => exact .cons (heq.trans hstep) hrest

theorem Runs.foldlM_eq {s s' : State Unit} {xs : List Lexeme} (h : Runs s xs s') :
    (xs.map (Token.mk · ())).foldlM step s = .ok s' := by
  induction h with
  | nil => rfl
  | cons hstep _ ih =>
    rw [List.map_cons, List.foldlM_cons, hstep]
    exact ih

variable {file : File Unit} {scopes : List (Scope Unit)}

/-! ## Skipped text is skipped -/

theorem step_block {x : Lexeme} {braces around : Nat} (hopen : x ≠ .symbol '{')
    (hclose : x ≠ .symbol '}') :
    step ⟨file, scopes, .block braces around⟩ ⟨x, ()⟩ =
      .ok ⟨file, scopes, .block braces around⟩ := by
  -- the braces are ruled out, so only the last case of the reader is left
  simp only [step, readBlock]
  rfl

/-- Inside a block, what has balanced braces is passed over. -/
theorem runs_braced {xs : List Lexeme} (h : Braced xs) (braces around : Nat) :
    Runs ⟨file, scopes, .block (braces + 1) around⟩ xs
      ⟨file, scopes, .block (braces + 1) around⟩ := by
  induction h generalizing braces with
  | nil => exact .nil
  | token hopen hclose _ ih => exact .cons (step_block hopen hclose) (ih braces)
  | block _ _ inner rest =>
    have hclose : step ⟨file, scopes, .block (braces + 1 + 1) around⟩ ⟨.symbol '}', ()⟩ =
        .ok ⟨file, scopes, .block (braces + 1) around⟩ := rfl
    exact (Runs.cons rfl ((inner (braces + 1)).append (.single hclose))).append (rest braces)

/-- A block ends at its balancing brace. -/
theorem runs_block {body : List Lexeme} (h : Braced body) (around : Nat) :
    Runs ⟨file, scopes, .block 1 around⟩ (body ++ [.symbol '}'])
      ⟨file, scopes, if around = 0 then .item else .statement around⟩ :=
  (runs_braced h 0 around).append (.single rfl)

theorem step_statement {x : Lexeme} {depth : Nat} (hopen : x ∉ openers) (hclose : x ∉ closers)
    (hmark : x ∉ marks) :
    step ⟨file, scopes, .statement depth⟩ ⟨x, ()⟩ = .ok ⟨file, scopes, .statement depth⟩ := by
  simp only [openers, closers, marks, List.mem_cons, List.not_mem_nil, or_false, not_or]
    at hopen hclose hmark
  obtain ⟨hround, hsquare, hangle⟩ := hopen
  obtain ⟨hround', hsquare', hangle'⟩ := hclose
  obtain ⟨hsemicolon, hbrace, hbrace'⟩ := hmark
  simp only [step, readStatement]
  rfl

theorem step_opener {x : Lexeme} {depth : Nat} (h : x ∈ openers) :
    step ⟨file, scopes, .statement depth⟩ ⟨x, ()⟩ =
      .ok ⟨file, scopes, .statement (depth + 1)⟩ := by
  simp only [openers, List.mem_cons, List.not_mem_nil, or_false] at h
  rcases h with rfl | rfl | rfl <;> rfl

theorem step_closer {x : Lexeme} {depth : Nat} (h : x ∈ closers) :
    step ⟨file, scopes, .statement (depth + 1)⟩ ⟨x, ()⟩ =
      .ok ⟨file, scopes, .statement depth⟩ := by
  simp only [closers, List.mem_cons, List.not_mem_nil, or_false] at h
  rcases h with rfl | rfl | rfl <;> rfl

/-- Balanced brackets lead back to the depth they started at. -/
theorem runs_bracketed {inside : Bool} {xs : List Lexeme} (h : Bracketed inside xs) (depth : Nat)
    (hdepth : inside = true → 0 < depth) :
    Runs ⟨file, scopes, .statement depth⟩ xs ⟨file, scopes, .statement depth⟩ := by
  induction h generalizing depth with
  | nil => exact .nil
  | token hopen hclose hmark _ ih =>
    exact .cons (step_statement hopen hclose hmark) (ih depth hdepth)
  | group hopen hclose _ _ inner rest =>
    have hinner := inner (depth + 1) fun _ => Nat.succ_pos depth
    exact .cons (step_opener hopen)
      (hinner.append (.cons (step_closer hclose) (rest depth hdepth)))
  | semicolon _ ih =>
    have hstep : step ⟨file, scopes, .statement depth⟩ ⟨.symbol ';', ()⟩ =
        .ok ⟨file, scopes, .statement depth⟩ := by
      simp [step, readStatement, State.go, Nat.ne_of_gt (hdepth rfl)]
    exact .cons hstep (ih depth hdepth)
  | block hinner _ ih =>
    have hblock := @runs_block file scopes _ hinner depth
    rw [if_neg (Nat.ne_of_gt (hdepth rfl))] at hblock
    exact (Runs.cons rfl hblock).append (ih depth hdepth)

theorem runs_statement {xs : List Lexeme} (h : Statement xs) :
    Runs ⟨file, scopes, .statement 0⟩ xs ⟨file, scopes, .item⟩ := by
  cases h with
  | semicolon hhead =>
    exact (runs_bracketed hhead 0 fun hfalse => nomatch hfalse).append (.single rfl)
  | block hhead hbody =>
    exact (runs_bracketed hhead 0 fun hfalse => nomatch hfalse).append
      (.cons rfl (runs_block hbody 0))

/-! ## Type names -/

section TypeName
variable {purpose : Purpose}

theorem runs_dots (path : List String) (text : String) :
    Runs ⟨file, scopes, .typeName purpose .named text⟩
      (path.flatMap fun s => [.symbol '.', .word s])
      ⟨file, scopes, .typeName purpose .named (text ++ String.ofList (Name.dotted path))⟩ := by
  induction path generalizing text with
  | nil =>
    have htext : text ++ String.ofList (Name.dotted []) = text := String.append_empty
    rw [htext]
    exact .nil
  | cons s path ih =>
    have htext : text ++ String.ofList (Name.dotted (s :: path)) =
        text ++ "." ++ s ++ String.ofList (Name.dotted path) := by
      apply String.toList_inj.mp
      simp [Name.dotted]
    rw [htext]
    exact .cons rfl (.cons rfl (ih _))

/-- The reader joins the segments that it reads. -/
theorem runs_dotted {first : String} {rest : List String} (h : first ≠ "" ∨ rest ≠ []) :
    Runs ⟨file, scopes, .typeName purpose .start ""⟩ (dottedLexemes (first :: rest))
      ⟨file, scopes, .typeName purpose .named
        (String.ofList (first.toList ++ Name.dotted rest))⟩ := by
  rw [dottedLexemes]
  split
  · next hfirst =>
    -- a leading dot, behind which the next segment is read like a first one
    obtain ⟨second, rest, rfl⟩ := List.exists_cons_of_ne_nil (h.resolve_left (· hfirst))
    have htext : String.ofList (first.toList ++ Name.dotted (second :: rest)) =
        "" ++ "." ++ second ++ String.ofList (Name.dotted rest) := by
      apply String.toList_inj.mp
      simp [hfirst, Name.dotted]
    rw [htext]
    exact .cons rfl (.cons rfl (runs_dots rest _))
  · have htext : String.ofList (first.toList ++ Name.dotted rest) =
        "" ++ first ++ String.ofList (Name.dotted rest) := by
      apply String.toList_inj.mp
      simp
    rw [htext]
    exact .cons rfl (runs_dots rest _)

theorem runs_typeName {type : String} (h : IsTypeName type) :
    Runs ⟨file, scopes, .typeName purpose .start ""⟩ (typeLexemes type)
      ⟨file, scopes, .typeName purpose .named type⟩ := by
  obtain ⟨first, rest, hsegments, hne, htype⟩ := h.exists_segments
  have hruns := @runs_dotted file scopes purpose first rest hne
  rwa [htype, ← hsegments] at hruns

end TypeName

/-! ## Items that declare nothing -/

/-- The kind of the innermost scope. -/
def placeOf : List (Scope Unit) → Place
  | [] => .file
  | .message .. :: _ => .message
  | .service .. :: _ => .service

theorem step_empty : step ⟨file, scopes, .item⟩ ⟨.symbol ';', ()⟩ = .ok ⟨file, scopes, .item⟩ := by
  cases scopes with
  | nil => rfl
  | cons scope rest => cases scope <;> rfl

/-- A statement is skipped from its first lexeme on. -/
theorem step_passes {x : Lexeme} (h : (placeOf scopes).Passes x) (hx : x ≠ .symbol '}') :
    step ⟨file, scopes, .item⟩ ⟨x, ()⟩ = step ⟨file, scopes, .statement 0⟩ ⟨x, ()⟩ := by
  cases scopes with
  | nil =>
    simp only [placeOf, Place.Passes, List.mem_cons, List.not_mem_nil, or_false] at h
    rcases h with rfl | rfl | rfl <;> rfl
  | cons scope rest =>
    cases scope with
    | message name members =>
      simp only [placeOf, Place.Passes, List.mem_cons, List.not_mem_nil, or_false, not_or] at h
      obtain ⟨hmessage, henum, hservice, honeof, hextend⟩ := h
      simp only [step, readItem, readMember]
      split
      · contradiction
      · rfl
      · simp only [Lexeme.word.injEq] at hmessage henum hservice honeof hextend
        rw [if_neg hmessage, if_neg henum, if_neg hservice, if_neg (not_or.mpr ⟨honeof, hextend⟩)]
        rfl
      · rfl
    | service pos name methods =>
      cases h
      rfl

theorem step_blockWord {word : String} (h : word ∈ (placeOf scopes).blockWords) :
    step ⟨file, scopes, .item⟩ ⟨.word word, ()⟩ =
      .ok ⟨file, scopes, .typeName .skippedBlock .start ""⟩ := by
  cases scopes with
  | nil =>
    rw [List.mem_singleton.mp h]
    rfl
  | cons scope rest =>
    cases scope with
    | message name members =>
      simp only [placeOf, Place.blockWords, List.mem_cons, List.not_mem_nil, or_false] at h
      rcases h with rfl | rfl <;> rfl
    | service pos name methods => cases h

/-- **What declares nothing leaves no trace.** -/
theorem runs_skipped {place : Place} {xs : List Lexeme} (h : Skipped place xs)
    (hplace : placeOf scopes = place) :
    Runs ⟨file, scopes, .item⟩ xs ⟨file, scopes, .item⟩ := by
  subst hplace
  cases h with
  | empty => exact .single step_empty
  | statement hx hstatement =>
    have hbrace := mt (congrArg some) hstatement.head?_ne
    exact .of_step_eq (step_passes hx hbrace) (runs_statement hstatement)
  | block hword htype hbody =>
    exact .cons (step_blockWord hword)
      ((runs_typeName htype).append (.cons rfl (runs_block hbody 0)))

/-! ## Methods -/

/-- A type name starts with a dot or with a word. -/
theorem typeLexemes_cons {type : String} (h : IsTypeName type) :
    ∃ x xs, typeLexemes type = x :: xs ∧ (x = .symbol '.' ∨ ∃ first, x = .word first) := by
  obtain ⟨first, rest, hsegments, hne, -⟩ := h.exists_segments
  rw [typeLexemes, hsegments, dottedLexemes]
  split
  · next hfirst =>
    obtain ⟨second, rest, rfl⟩ := List.exists_cons_of_ne_nil (hne.resolve_left (· hfirst))
    exact ⟨_, _, rfl, .inl rfl⟩
  · exact ⟨_, _, rfl, .inr ⟨first, rfl⟩⟩

/-- Where no stream is meant, the word `stream` can only be the whole type. -/
theorem eq_stream {type : String} {xs : List Lexeme} (h : FitsSide false type)
    (hlexemes : typeLexemes type = .word "stream" :: xs) : type = "stream" ∧ xs = [] := by
  obtain ⟨first, rest, hsegments, -, htype⟩ := h.1.exists_segments
  rw [typeLexemes, hsegments, dottedLexemes] at hlexemes
  split at hlexemes
  · cases rest <;> cases hlexemes
  · cases hlexemes
    cases rest with
    | nil => exact ⟨htype.symm, rfl⟩
    | cons next rest => exact absurd hsegments (h.2 rfl next rest)

/-- The parenthesis behind `stream` ends a type of that name. -/
theorem step_stream_end {side : Side} :
    step ⟨file, scopes, .rpcStream side⟩ ⟨.symbol ')', ()⟩ =
      step ⟨file, scopes, .typeName (side.purpose false) .named "stream"⟩ ⟨.symbol ')', ()⟩ := by
  cases side with
  | request name => rfl
  | response name stream type =>
    cases scopes with
    | nil => rfl
    | cons scope rest => cases scope <;> rfl

/-- A type is read up to its parenthesis, whether or not `stream` stands before it. -/
theorem runs_side {side : Side} {stream : Bool} {type : String} {s' : State Unit}
    (h : FitsSide stream type)
    (hend : step ⟨file, scopes, .typeName (side.purpose stream) .named type⟩ ⟨.symbol ')', ()⟩ =
      .ok s') :
    Runs ⟨file, scopes, .rpcParen side⟩ (sideLexemes stream type) s' := by
  obtain ⟨x, xs, hlexemes, hx⟩ := typeLexemes_cons h.1
  have hname : Runs ⟨file, scopes, .typeName (side.purpose stream) .start ""⟩
      (typeLexemes type ++ [.symbol ')']) s' := (runs_typeName h.1).append (.single hend)
  rw [hlexemes] at hname
  cases stream with
  | true =>
    have hstep : step ⟨file, scopes, .rpcStream side⟩ ⟨x, ()⟩ =
        step ⟨file, scopes, .typeName (side.purpose true) .start ""⟩ ⟨x, ()⟩ := by
      rcases hx with rfl | ⟨first, rfl⟩ <;> rfl
    rw [sideLexemes, hlexemes]
    exact .cons rfl (.cons rfl (.of_step_eq hstep hname))
  | false =>
    by_cases hword : x = .word "stream"
    · -- the type is `stream` itself, and only the parenthesis tells that
      subst hword
      obtain ⟨rfl, rfl⟩ := eq_stream h hlexemes
      rw [sideLexemes, hlexemes]
      exact .cons rfl (.cons rfl (.single (step_stream_end.trans hend)))
    · have hstep : step ⟨file, scopes, .rpcType side⟩ ⟨x, ()⟩ =
          step ⟨file, scopes, .typeName (side.purpose false) .start ""⟩ ⟨x, ()⟩ := by
        simp only [step, if_neg hword]
        rcases hx with rfl | ⟨first, rfl⟩ <;> rfl
      rw [sideLexemes, hlexemes]
      exact .cons rfl (.of_step_eq hstep hname)

/-- A method is added to the service that is open. -/
theorem runs_rpc {m : Rpc} {ending : List Lexeme} (h : m.WellTyped) (hending : RpcEnd ending)
    {name : String} {methods : List Rpc} :
    Runs ⟨file, .service () name methods :: scopes, .item⟩ (rpcLexemes m ++ ending)
      ⟨file, .service () name (methods ++ [m]) :: scopes, .item⟩ := by
  have hrequest : Runs ⟨file, .service () name methods :: scopes, .rpcParen (.request m.name)⟩
      (sideLexemes m.requestStream m.requestType)
      ⟨file, .service () name methods :: scopes,
        .rpcReturns m.name m.requestStream m.requestType⟩ := runs_side h.request rfl
  have hresponse : Runs ⟨file, .service () name methods :: scopes,
        .rpcParen (.response m.name m.requestStream m.requestType)⟩
      (sideLexemes m.responseStream m.responseType)
      ⟨file, .service () name (methods ++ [m]) :: scopes, .rpcEnd⟩ := runs_side h.response rfl
  have hend : Runs ⟨file, .service () name (methods ++ [m]) :: scopes, .rpcEnd⟩ ending
      ⟨file, .service () name (methods ++ [m]) :: scopes, .item⟩ := by
    cases hending with
    | semicolon => exact .single rfl
    | options hbody => exact .cons rfl (runs_block hbody 0)
  exact .append (.cons rfl (.cons rfl (hrequest.append (.cons rfl hresponse)))) hend

theorem runs_offers {offered : List Rpc} {xs : List Lexeme} (h : Offers offered xs)
    {name : String} {methods : List Rpc} :
    Runs ⟨file, .service () name methods :: scopes, .item⟩ xs
      ⟨file, .service () name (methods ++ offered) :: scopes, .item⟩ := by
  induction h generalizing methods with
  | nil =>
    rw [List.append_nil]
    exact .nil
  | skip hskipped _ ih => exact (runs_skipped hskipped rfl).append ih
  | @rpc m ending offered rest htyped hending _ ih =>
    have hrest := @ih (methods ++ [m])
    rw [List.append_assoc] at hrest
    rw [← List.append_assoc]
    exact (runs_rpc htyped hending).append hrest

/-! ## Declarations -/

theorem foldl_declare_message (decls : List Decl) {name : String} {members : List Decl} :
    decls.foldl State.declare ⟨file, .message name members :: scopes, .item⟩ =
      ⟨file, .message name (members ++ decls) :: scopes, .item⟩ := by
  induction decls generalizing members with
  | nil => rw [List.append_nil]; rfl
  | cons d decls ih =>
    rw [List.foldl_cons, List.append_cons]
    exact ih

theorem foldl_declare_file (decls : List Decl) :
    decls.foldl State.declare ⟨file, [], .item⟩ =
      ⟨{ file with decls := file.decls ++ decls }, [], .item⟩ := by
  induction decls generalizing file with
  | nil => rw [List.append_nil]; rfl
  | cons d decls ih =>
    rw [List.foldl_cons, List.append_cons]
    exact ih

theorem eq_nil_of_placeOf (h : placeOf scopes = .file) : scopes = [] := by
  cases scopes with
  | nil => rfl
  | cons scope rest => cases scope <;> cases h

theorem placeOf_declare (s : State Unit) (d : Decl) :
    placeOf (s.declare d).scopes = placeOf s.scopes := by
  obtain ⟨file, scopes, mode⟩ := s
  cases scopes with
  | nil => rfl
  | cons scope rest => cases scope <;> rfl

theorem runs_enum {name : String} {values : List Lexeme} (h : Braced values)
    (hplace : placeOf scopes ≠ .service) :
    Runs ⟨file, scopes, .item⟩ (.word "enum" :: .word name :: block values)
      (State.declare ⟨file, scopes, .item⟩ (.enum name)) := by
  cases scopes with
  | nil => exact .cons rfl (.cons rfl (.cons rfl (runs_block h 0)))
  | cons scope rest =>
    cases scope with
    | message outer members => exact .cons rfl (.cons rfl (.cons rfl (runs_block h 0)))
    | service pos outer methods => exact absurd rfl hplace

/-- A message is declared once its members are. -/
theorem runs_message {name : String} {members : List Decl} {body : List Lexeme}
    (h : Runs ⟨file, .message name [] :: scopes, .item⟩ body
      ⟨file, .message name members :: scopes, .item⟩) (hplace : placeOf scopes ≠ .service) :
    Runs ⟨file, scopes, .item⟩ (.word "message" :: .word name :: block body)
      (State.declare ⟨file, scopes, .item⟩ (.message name members)) := by
  have hclose : step ⟨file, .message name members :: scopes, .item⟩ ⟨.symbol '}', ()⟩ =
      .ok (State.declare ⟨file, scopes, .item⟩ (.message name members)) := rfl
  cases scopes with
  | nil => exact .cons rfl (.cons rfl (.cons rfl (h.append (.single hclose))))
  | cons scope rest =>
    cases scope with
    | message outer others => exact .cons rfl (.cons rfl (.cons rfl (h.append (.single hclose))))
    | service pos outer methods => exact absurd rfl hplace

theorem runs_service {name : String} {methods : List Rpc} {body : List Lexeme}
    (h : Offers methods body) :
    Runs ⟨file, [], .item⟩ (.word "service" :: .word name :: block body)
      (State.declare ⟨file, [], .item⟩ (.service name methods)) := by
  have hbody := @runs_offers file [] methods body h name []
  exact .cons rfl (.cons rfl (.cons rfl (hbody.append (.single rfl))))

/-- **The reader declares what the grammar derives**, in the scope that is open. -/
theorem runs_declares {place : Place} {decls : List Decl} {xs : List Lexeme}
    (h : Declares place decls xs) {s : State Unit} (hitem : s.mode = .item)
    (hplace : placeOf s.scopes = place) (hservice : place ≠ .service) :
    Runs s xs (decls.foldl State.declare s) := by
  induction h generalizing s with
  | nil => exact .nil
  | skip hskipped _ ih =>
    obtain ⟨file, scopes, mode⟩ := s
    cases hitem
    exact (runs_skipped hskipped hplace).append (ih rfl hplace hservice)
  | @message place name members decls body rest _ _ inner outer =>
    obtain ⟨file, scopes, mode⟩ := s
    cases hitem
    have hbody := @inner ⟨file, .message name [] :: scopes, .item⟩ rfl rfl (by decide)
    rw [foldl_declare_message] at hbody
    have hrest := outer (mode_declare ⟨file, scopes, .item⟩ (.message name members))
      ((placeOf_declare _ _).trans hplace) hservice
    exact (runs_message hbody (hplace ▸ hservice)).append hrest
  | @enum place name decls values rest hvalues _ ih =>
    obtain ⟨file, scopes, mode⟩ := s
    cases hitem
    have hrest := ih (mode_declare ⟨file, scopes, .item⟩ (.enum name))
      ((placeOf_declare _ _).trans hplace) hservice
    exact (runs_enum hvalues (hplace ▸ hservice)).append hrest
  | @service name methods decls body rest hbody _ ih =>
    obtain ⟨file, scopes, mode⟩ := s
    cases hitem
    obtain rfl : scopes = [] := eq_nil_of_placeOf hplace
    exact (runs_service hbody).append (ih rfl rfl hservice)

/-! ## Files -/

theorem runs_package {package : List String} (hne : package ≠ [])
    (h : ∀ s ∈ package, IsIdentifier s) :
    Runs ⟨file, [], .item⟩ (packageLexemes package)
      ⟨{ file with package := package }, [], .item⟩ := by
  obtain ⟨first, rest, rfl⟩ := List.exists_cons_of_ne_nil hne
  obtain ⟨hfirst, hrest⟩ := List.forall_mem_cons.mp h
  have hsegments : Name.segments (String.ofList (first.toList ++ Name.dotted rest)) =
      first :: rest := by
    rw [Name.segments, Text.pieces, String.toList_ofList,
      Name.splitOn_dotted hfirst.dotFree fun s hs => (hrest s hs).dotFree, List.map_map]
    simp
  have hend : step ⟨file, [], .typeName .package .named
        (String.ofList (first.toList ++ Name.dotted rest))⟩ ⟨.symbol ';', ()⟩ =
      .ok ⟨{ file with package := first :: rest }, [], .item⟩ := by
    rw [← hsegments]
    rfl
  exact .cons rfl ((runs_dotted (.inl hfirst.ne_empty)).append (.single hend))

theorem runs_import {modifier : List Lexeme} {path : String} (h : modifier ∈ importModifiers) :
    Runs ⟨file, [], .item⟩ (importLexemes modifier path)
      ⟨{ file with imports := file.imports ++ [⟨path, ()⟩] }, [], .item⟩ := by
  simp only [importModifiers, List.mem_cons, List.not_mem_nil, or_false] at h
  rcases h with rfl | rfl | rfl
  · exact .cons rfl (.cons rfl (.single rfl))
  · exact .cons rfl (.cons rfl (.cons rfl (.single rfl)))
  · exact .cons rfl (.cons rfl (.cons rfl (.single rfl)))

/-- The file with what a source contains added to it. -/
def adding (file : File Unit) (package paths : List String) (decls : List Decl) : File Unit :=
  { package := if package = [] then file.package else package
    imports := file.imports ++ paths.map (Import.mk · ())
    decls := file.decls ++ decls }

theorem adding_empty (package paths : List String) (decls : List Decl) :
    adding {} package paths decls = ⟨package, paths.map (Import.mk · ()), decls⟩ := by
  by_cases h : package = [] <;> simp [adding, h]

theorem runs_file {decls : List Decl} {items : List Lexeme} (h : Declares .file decls items) :
    Runs ⟨file, [], .item⟩ items ⟨{ file with decls := file.decls ++ decls }, [], .item⟩ := by
  have hruns := runs_declares h (s := ⟨file, [], .item⟩) rfl rfl (by decide)
  rwa [foldl_declare_file] at hruns

theorem runs_contains {package paths : List String} {decls : List Decl} {xs : List Lexeme}
    (h : Contains package paths decls xs) :
    Runs ⟨file, [], .item⟩ xs ⟨adding file package paths decls, [], .item⟩ := by
  induction h generalizing file with
  | decls hdecls =>
    have hruns := @runs_file file _ _ hdecls
    simpa [adding] using hruns
  | @package package paths decls decls' items rest hne hidents hdecls _ ih =>
    have hfile : adding { file with package := package, decls := file.decls ++ decls } [] paths
        decls' = adding file package paths (decls ++ decls') := by
      simp [adding, hne]
    rw [← hfile]
    exact (runs_file hdecls).append ((runs_package hne hidents).append ih)
  | @imported package paths path modifier decls decls' items rest hmodifier hdecls _ ih =>
    have hfile : adding { file with
          imports := file.imports ++ [⟨path, ()⟩], decls := file.decls ++ decls } package paths
        decls' = adding file package (path :: paths) (decls ++ decls') := by
      simp [adding]
    rw [← hfile]
    exact (runs_file hdecls).append ((runs_import hmodifier).append ih)

end Reader

/-- The files have the same package, import the same paths and declare the same. -/
structure File.Agrees {Pos Pos' : Type} (file : File Pos) (file' : File Pos') : Prop where
  package : file.package = file'.package
  imports : file.imports.map Import.path = file'.imports.map Import.path
  decls : file.decls = file'.decls

/-- **The reader accepts what the grammar derives**, at any positions, and gives the file it was
derived for. -/
theorem exists_readTokens {Pos Pos' : Type} {file : File Pos} {tokens : List (Token Pos')}
    (h : file.SpelledBy (tokens.map Token.lexeme)) :
    ∃ read, readTokens tokens = .ok read ∧ read.Agrees file := by
  have hruns := @Reader.runs_contains {} _ _ _ _ h
  rw [Reader.adding_empty] at hruns
  have hmap : tokens.map (Token.move fun _ => ()) =
      (tokens.map Token.lexeme).map (Token.mk · ()) := by
    rw [List.map_map]
    rfl
  have hbare : readTokens (tokens.map (Token.move fun _ => ())) =
      .ok ⟨file.package, (file.imports.map Import.path).map (Import.mk · ()), file.decls⟩ := by
    rw [hmap, readTokens, hruns.foldlM_eq]
    rfl
  rw [move_readTokens] at hbare
  cases hread : readTokens tokens with
  | error e =>
    rw [hread] at hbare
    cases hbare
  | ok read =>
    rw [hread] at hbare
    have hmoved := Except.ok.inj hbare
    have himports := congrArg (fun moved => moved.imports.map Import.path) hmoved
    refine ⟨read, rfl, congrArg File.package hmoved, ?_, congrArg File.decls hmoved⟩
    simpa [File.move, Function.comp_def, Import.move] using himports

end RpcBindings.Proto

import RpcBindings.Proofs.Lexing
import RpcBindings.Proto.Reader

/-! # The grammar of sources

What a source declares is said here by a grammar over lexemes.  A block is closed by its
balancing brace (`Braced`), and a statement ends behind all the brackets that it opens, at a
semicolon or with a block (`Statement`).  What declares nothing may stand between any two
declarations (`Skipped`), and what may be skipped depends on the scope.  Methods, declarations
and whole files are sequences with such items between them (`Offers`, `Declares`, `Contains`).

Names are words of any text here: that a word is an identifier is a matter of the lexer.  Files
whose names are identifiers, with messages and enums only in messages and with types that can be
written where they stand, are those that can be declared (`File.Declarable`).
-/
namespace RpcBindings.Proto

/-! ## Skipped text -/

/-- Lexemes between braces. -/
def block (inner : List Lexeme) : List Lexeme := .symbol '{' :: (inner ++ [.symbol '}'])

/-- Every brace has its partner. -/
inductive Braced : List Lexeme → Prop
  | nil : Braced []
  | token {x : Lexeme} {rest : List Lexeme} : x ≠ .symbol '{' → x ≠ .symbol '}' → Braced rest →
      Braced (x :: rest)
  | block {inner rest : List Lexeme} : Braced inner → Braced rest → Braced (block inner ++ rest)

/-- The lexemes that open a bracket in a statement. -/
def openers : List Lexeme := [.symbol '(', .symbol '[', .symbol '<']

/-- The lexemes that close a bracket in a statement.  Which bracket it was does not count. -/
def closers : List Lexeme := [.symbol ')', .symbol ']', .symbol '>']

/-- The other lexemes that mean something in a statement. -/
def marks : List Lexeme := [.symbol ';', .symbol '{', .symbol '}']

/-- Every bracket has its partner.  `inside` a bracket there may be semicolons and blocks; outside
they would end the statement. -/
inductive Bracketed : Bool → List Lexeme → Prop
  | nil {inside : Bool} : Bracketed inside []
  | token {inside : Bool} {x : Lexeme} {rest : List Lexeme} : x ∉ openers → x ∉ closers →
      x ∉ marks → Bracketed inside rest → Bracketed inside (x :: rest)
  | group {inside : Bool} {left right : Lexeme} {inner rest : List Lexeme} : left ∈ openers →
      right ∈ closers → Bracketed true inner → Bracketed inside rest →
      Bracketed inside (left :: (inner ++ right :: rest))
  | semicolon {rest : List Lexeme} : Bracketed true rest →
      Bracketed true (.symbol ';' :: rest)
  | block {inner rest : List Lexeme} : Braced inner → Bracketed true rest →
      Bracketed true (block inner ++ rest)

/-- A statement: balanced brackets, and then a semicolon or a block. -/
inductive Statement : List Lexeme → Prop
  | semicolon {head : List Lexeme} : Bracketed false head → Statement (head ++ [.symbol ';'])
  | block {head body : List Lexeme} : Bracketed false head → Braced body →
      Statement (head ++ block body)

/-- Lexemes that mean nothing in a block. -/
theorem Braced.of_plain {xs : List Lexeme} (h : ∀ x ∈ xs, x ≠ .symbol '{' ∧ x ≠ .symbol '}') :
    Braced xs := by
  induction xs with
  | nil => exact .nil
  | cons x xs ih =>
    obtain ⟨hx, hxs⟩ := List.forall_mem_cons.mp h
    exact .token hx.1 hx.2 (ih hxs)

/-- Lexemes that mean nothing in a statement may stand anywhere in it. -/
theorem Bracketed.plain {inside : Bool} {xs rest : List Lexeme}
    (h : ∀ x ∈ xs, x ∉ openers ∧ x ∉ closers ∧ x ∉ marks) (hrest : Bracketed inside rest) :
    Bracketed inside (xs ++ rest) := by
  induction xs with
  | nil => exact hrest
  | cons x xs ih =>
    obtain ⟨hx, hxs⟩ := List.forall_mem_cons.mp h
    exact .token hx.1 hx.2.1 hx.2.2 (ih hxs)

theorem Bracketed.of_plain {inside : Bool} {xs : List Lexeme}
    (h : ∀ x ∈ xs, x ∉ openers ∧ x ∉ closers ∧ x ∉ marks) : Bracketed inside xs := by
  rw [← List.append_nil xs]
  exact .plain h .nil

theorem Bracketed.head?_ne {inside : Bool} {xs : List Lexeme} (h : Bracketed inside xs) :
    xs.head? ≠ some (.symbol '}') := by
  rintro hhead
  cases h with
  | nil => cases hhead
  | token _ _ hmark _ =>
    cases hhead
    exact hmark (by decide)
  | group hopen _ _ _ =>
    cases hhead
    revert hopen
    decide
  | semicolon _ => cases hhead
  | block _ _ => cases hhead

/-- No statement starts with a closing brace. -/
theorem Statement.head?_ne {xs : List Lexeme} (h : Statement xs) :
    xs.head? ≠ some (.symbol '}') := by
  cases h with
  | @semicolon head hhead =>
    cases head with
    | nil => decide
    | cons x head => exact hhead.head?_ne
  | @block head body hhead hbody =>
    cases head with
    | nil => exact fun hhead => nomatch hhead
    | cons x head => exact hhead.head?_ne

/-! ## Type names -/

/-- The lexemes of a dotted name; an empty first segment stands for a leading dot. -/
def dottedLexemes : List String → List Lexeme
  | [] => []
  | first :: rest =>
    (if first = "" then [] else [.word first]) ++ rest.flatMap fun s => [.symbol '.', .word s]

/-- The lexemes of a type name. -/
def typeLexemes (type : String) : List Lexeme := dottedLexemes (Name.segments type)

/-- The text has the form `[.]ident{.ident}`. -/
def IsTypeName (type : String) : Prop :=
  ∃ path, path ≠ [] ∧ (∀ s ∈ path, IsIdentifier s) ∧
    (Name.segments type = path ∨ Name.segments type = "" :: path)

theorem IsIdentifier.ne_empty {w : String} (h : IsIdentifier w) : w ≠ "" := by
  rintro rfl
  obtain ⟨c, cs, hw, -⟩ := h
  cases hw

/-- The segments of a type name, joined again. -/
theorem IsTypeName.exists_segments {type : String} (h : IsTypeName type) :
    ∃ first rest, Name.segments type = first :: rest ∧ (first ≠ "" ∨ rest ≠ []) ∧
      String.ofList (first.toList ++ Name.dotted rest) = type := by
  obtain ⟨path, hpath, hidents, hsegments⟩ := h
  obtain ⟨first, rest, hcons⟩ := List.exists_cons_of_ne_nil (Name.segments_ne_nil type)
  refine ⟨first, rest, hcons, ?_, ?_⟩
  · rw [hcons] at hsegments
    rcases hsegments with rfl | hanchor
    · exact .inl (hidents first (List.mem_cons_self ..)).ne_empty
    · exact .inr fun hnil => hpath ((List.cons.inj hanchor).2.symm.trans hnil)
  · have hdotted := Name.dotted_segments type
    rw [hcons] at hdotted
    rw [← String.ofList_toList (s := type)]
    exact congrArg String.ofList (List.cons.inj hdotted).2

/-! ## What may be skipped -/

/-- The kinds of scopes. -/
inductive Place where
  /-- The top level of a file. -/
  | file
  /-- The body of a message. -/
  | message
  /-- The body of a service. -/
  | service
deriving DecidableEq

/-- The lexeme starts a statement that declares nothing there. -/
def Place.Passes (x : Lexeme) : Place → Prop
  | .file => x ∈ [.word "syntax", .word "edition", .word "option"]
  | .message =>
    x ∉ [.word "message", .word "enum", .word "service", .word "oneof", .word "extend"]
  | .service => x = .word "option"

instance (x : Lexeme) (place : Place) : Decidable (place.Passes x) :=
  match place with
  | .file => inferInstanceAs (Decidable (x ∈ _))
  | .message => inferInstanceAs (Decidable (x ∉ _))
  | .service => inferInstanceAs (Decidable (x = _))

/-- The words that stand before a type name and a block that declare nothing there. -/
def Place.blockWords : Place → List String
  | .file => ["extend"]
  | .message => ["oneof", "extend"]
  | .service => []

/-- An item that declares nothing. -/
inductive Skipped (place : Place) : List Lexeme → Prop
  | empty : Skipped place [.symbol ';']
  | statement {x : Lexeme} {rest : List Lexeme} : place.Passes x → Statement (x :: rest) →
      Skipped place (x :: rest)
  | block {word type : String} {body : List Lexeme} : word ∈ place.blockWords →
      IsTypeName type → Braced body →
      Skipped place (.word word :: (typeLexemes type ++ block body))

/-! ## Declarations -/

/-- The lexemes of a request or response. -/
def sideLexemes (stream : Bool) (type : String) : List Lexeme :=
  .symbol '(' :: ((if stream then [.word "stream"] else []) ++ typeLexemes type ++ [.symbol ')'])

/-- The lexemes of a method up to its end. -/
def rpcLexemes (m : Rpc) : List Lexeme :=
  .word "rpc" :: .word m.name :: (sideLexemes m.requestStream m.requestType ++
    .word "returns" :: sideLexemes m.responseStream m.responseType)

/-- The text is a type that can stand on a side of a method.  Behind the parenthesis the word
`stream` makes a stream unless that side ends there, so a relative name of more segments cannot
start with it. -/
def FitsSide (stream : Bool) (type : String) : Prop :=
  IsTypeName type ∧ (stream = false → ∀ next rest, Name.segments type ≠ "stream" :: next :: rest)

/-- Both types of the method can stand where they are written. -/
structure Rpc.WellTyped (m : Rpc) : Prop where
  request : FitsSide m.requestStream m.requestType
  response : FitsSide m.responseStream m.responseType

/-- The end of a method: a semicolon, or a block of options. -/
inductive RpcEnd : List Lexeme → Prop
  | semicolon : RpcEnd [.symbol ';']
  | options {body : List Lexeme} : Braced body → RpcEnd (block body)

/-- The body of a service and its methods. -/
inductive Offers : List Rpc → List Lexeme → Prop
  | nil : Offers [] []
  | skip {skipped : List Lexeme} {methods : List Rpc} {rest : List Lexeme} :
      Skipped .service skipped → Offers methods rest → Offers methods (skipped ++ rest)
  | rpc {m : Rpc} {ending : List Lexeme} {methods : List Rpc} {rest : List Lexeme} :
      m.WellTyped → RpcEnd ending → Offers methods rest →
      Offers (m :: methods) (rpcLexemes m ++ (ending ++ rest))

/-- Items of a file or message and the declarations among them.  Only a file holds services. -/
inductive Declares : Place → List Decl → List Lexeme → Prop
  | nil {place : Place} : Declares place [] []
  | skip {place : Place} {skipped : List Lexeme} {decls : List Decl} {rest : List Lexeme} :
      Skipped place skipped → Declares place decls rest → Declares place decls (skipped ++ rest)
  | message {place : Place} {name : String} {members decls : List Decl}
      {body rest : List Lexeme} : Declares .message members body → Declares place decls rest →
      Declares place (.message name members :: decls)
        (.word "message" :: .word name :: (block body ++ rest))
  | enum {place : Place} {name : String} {decls : List Decl} {values rest : List Lexeme} :
      Braced values → Declares place decls rest →
      Declares place (.enum name :: decls) (.word "enum" :: .word name :: (block values ++ rest))
  | service {name : String} {methods : List Rpc} {decls : List Decl} {body rest : List Lexeme} :
      Offers methods body → Declares .file decls rest →
      Declares .file (.service name methods :: decls)
        (.word "service" :: .word name :: (block body ++ rest))

/-- The lexemes of a package statement. -/
def packageLexemes (package : List String) : List Lexeme :=
  .word "package" :: (dottedLexemes package ++ [.symbol ';'])

/-- What may stand between `import` and its path. -/
def importModifiers : List (List Lexeme) := [[], [.word "public"], [.word "weak"]]

/-- The lexemes of an import. -/
def importLexemes (modifier : List Lexeme) (path : String) : List Lexeme :=
  .word "import" :: (modifier ++ [.literal path, .symbol ';'])

/-- A source with its package, the paths of its imports and its declarations.  The package and
the imports may stand anywhere between items of the top level. -/
inductive Contains : List String → List String → List Decl → List Lexeme → Prop
  | decls {decls : List Decl} {items : List Lexeme} : Declares .file decls items →
      Contains [] [] decls items
  | package {package paths : List String} {decls decls' : List Decl} {items rest : List Lexeme} :
      package ≠ [] → (∀ s ∈ package, IsIdentifier s) → Declares .file decls items →
      Contains [] paths decls' rest →
      Contains package paths (decls ++ decls') (items ++ (packageLexemes package ++ rest))
  | imported {package paths : List String} {path : String} {modifier : List Lexeme}
      {decls decls' : List Decl} {items rest : List Lexeme} : modifier ∈ importModifiers →
      Declares .file decls items → Contains package paths decls' rest →
      Contains package (path :: paths) (decls ++ decls')
        (items ++ (importLexemes modifier path ++ rest))

/-- The file is what the lexemes contain. -/
def File.SpelledBy {Pos : Type} (file : File Pos) (lexemes : List Lexeme) : Prop :=
  Contains file.package (file.imports.map Import.path) file.decls lexemes

/-! ## Files that can be declared -/

/-- The method has an identifier for a name, and types that can stand where they are written. -/
structure Rpc.Declarable (m : Rpc) : Prop extends m.WellTyped where
  name : IsIdentifier m.name

/-- A message or enum that can be declared in any scope of declarations. -/
inductive Decl.Nestable : Decl → Prop
  | message {name : String} {members : List Decl} : IsIdentifier name →
      (∀ d ∈ members, d.Nestable) → Nestable (.message name members)
  | enum {name : String} : IsIdentifier name → Nestable (.enum name)

/-- A declaration that can stand in a file. -/
inductive Decl.Declarable : Decl → Prop
  | nestable {d : Decl} : d.Nestable → d.Declarable
  | service {name : String} {methods : List Rpc} : IsIdentifier name →
      (∀ m ∈ methods, m.Declarable) → Declarable (.service name methods)

/-- Every part of the file can be declared.  Import paths can be any texts. -/
structure File.Declarable {Pos : Type} (file : File Pos) : Prop where
  package : ∀ s ∈ file.package, IsIdentifier s
  decls : ∀ d ∈ file.decls, d.Declarable

end RpcBindings.Proto

import RpcBindings.Name
import RpcBindings.Proto.File
import RpcBindings.Proto.Lexer
import RpcBindings.Text.Lines

/-!
# From tokens to declarations

The reader is a machine that eats one token at a time. Its state is the file read so far,
the scopes that are open, innermost first, and what it is in the middle of. Every token is
looked at once, so reading `a ++ b` is reading `a` and then `b`, and nested messages need
no recursion.

Statements that declare nothing are skipped token by token: a statement ends at a
semicolon outside all brackets or with the brace block that stands outside all brackets,
and a brace block ends at its balancing brace.

A refusal names the position of a token, or no position when the source ended too early.
-/
namespace RpcBindings.Proto

/-- A refusal at a token, or at the end of the source. -/
structure Refusal (Pos : Type) where
  /-- What is wrong. -/
  fault : SyntaxFault
  /-- The position of the token, if a token is to blame. -/
  pos : Option Pos
deriving DecidableEq

namespace Reader

/-- What a type name is read for. -/
inductive Purpose where
  /-- The name of the package. -/
  | package
  /-- The head of a block that is skipped. -/
  | skippedBlock
  /-- The request of a method. -/
  | request (name : String) (stream : Bool)
  /-- The response of a method whose request is known. -/
  | response (name : String) (requestStream : Bool) (requestType : String) (stream : Bool)
deriving DecidableEq

/-- How far a type name has been read. -/
inductive Progress where
  /-- Nothing yet: a dot or a word may follow. -/
  | start
  /-- Up to a dot: a word has to follow. -/
  | dotted
  /-- Up to a word: a dot goes on, anything else ends the name. -/
  | named
deriving DecidableEq

/-- Which side of a method a parenthesised type is. -/
inductive Side where
  /-- The request of the named method. -/
  | request (name : String)
  /-- The response of the named method, whose request is known. -/
  | response (name : String) (requestStream : Bool) (requestType : String)
deriving DecidableEq

/-- What the reader is in the middle of. -/
inductive Mode (Pos : Type) where
  /-- Between the items of the innermost scope. -/
  | item
  /-- In a skipped statement, inside `depth` brackets. -/
  | statement (depth : Nat)
  /-- In a skipped block, inside `braces` of its braces. The statement around it goes on
  when it is inside brackets. -/
  | block (braces : Nat) (around : Nat)
  /-- In a type name. -/
  | typeName (purpose : Purpose) (progress : Progress) (text : String)
  /-- Behind `import`. -/
  | importStart
  /-- Behind `import public` or `import weak`. -/
  | importPath
  /-- Behind an import path. -/
  | importEnd
  /-- Behind `message`. -/
  | messageName
  /-- Behind the name of a message. -/
  | messageBrace (name : String)
  /-- Behind `enum`. -/
  | enumName
  /-- Behind the name of an enum. -/
  | enumBrace (name : String)
  /-- Behind `service`, which stands at `pos`. -/
  | serviceName (pos : Pos)
  /-- Behind the name of a service. -/
  | serviceBrace (pos : Pos) (name : String)
  /-- Behind `rpc`. -/
  | rpcName
  /-- Before the parenthesis of a request or response. -/
  | rpcParen (side : Side)
  /-- Behind that parenthesis. -/
  | rpcType (side : Side)
  /-- Behind the word `stream` there, which may be a type of that name. -/
  | rpcStream (side : Side)
  /-- Before `returns`. -/
  | rpcReturns (name : String) (requestStream : Bool) (requestType : String)
  /-- Behind the response of a method. -/
  | rpcEnd
deriving DecidableEq

/-- A scope that is open. -/
inductive Scope (Pos : Type) where
  /-- A message with the declarations read so far. -/
  | message (name : String) (members : List Decl)
  /-- A service with the methods read so far and the position of its keyword. -/
  | service (pos : Pos) (name : String) (methods : List Rpc)

/-- Where the reader has got to. -/
structure State (Pos : Type) where
  /-- The file read so far. -/
  file : File Pos := {}
  /-- The open scopes, innermost first. -/
  scopes : List (Scope Pos) := []
  /-- What the reader is in the middle of. -/
  mode : Mode Pos := .item

variable {Pos : Type}

namespace State

/-- Goes on in a mode. -/
def go (s : State Pos) (mode : Mode Pos) : Except (Refusal Pos) (State Pos) :=
  .ok { s with mode := mode }

/-- Adds a finished declaration to the innermost scope. -/
def declare (s : State Pos) (d : Decl) : State Pos :=
  match s.scopes with
  | .message name members :: rest =>
    { s with mode := .item, scopes := .message name (members ++ [d]) :: rest }
  | _ => { s with mode := .item, file := { s.file with decls := s.file.decls ++ [d] } }

/-- Adds a finished method to the innermost service. -/
def addMethod (s : State Pos) (m : Rpc) : State Pos :=
  match s.scopes with
  | .service pos name methods :: rest =>
    { s with scopes := .service pos name (methods ++ [m]) :: rest }
  | _ => s

end State

theorem mode_declare (s : State Pos) (d : Decl) : (s.declare d).mode = .item := by
  unfold State.declare
  split <;> rfl

/-- The refusal of a token that is not the expected one. -/
def unexpected (t : Token Pos) (what : Expectation) : Except (Refusal Pos) (State Pos) :=
  .error ⟨.expected what, some t.pos⟩

/-- The description of a type name in messages. -/
def typeNameItem : Expectation := .item "type name"

/-- Reads a token of a skipped statement. -/
def readStatement (s : State Pos) (depth : Nat) (t : Token Pos) :
    Except (Refusal Pos) (State Pos) :=
  match t.lexeme with
  | .symbol '(' | .symbol '[' | .symbol '<' => s.go (.statement (depth + 1))
  | .symbol ')' | .symbol ']' | .symbol '>' => s.go (.statement (depth - 1))
  | .symbol ';' => s.go (if depth = 0 then .item else .statement depth)
  | .symbol '{' => s.go (.block 1 depth)
  | .symbol '}' =>
    if depth = 0 then .error ⟨.strayBrace, some t.pos⟩ else s.go (.statement depth)
  | _ => s.go (.statement depth)

/-- Reads a token of a skipped block. -/
def readBlock (s : State Pos) (braces around : Nat) (t : Token Pos) :
    Except (Refusal Pos) (State Pos) :=
  match t.lexeme with
  | .symbol '{' => s.go (.block (braces + 1) around)
  | .symbol '}' =>
    if braces ≤ 1 then s.go (if around = 0 then .item else .statement around)
    else s.go (.block (braces - 1) around)
  | _ => s.go (.block braces around)

/-- Reads the token behind a complete type name. -/
def endTypeName (s : State Pos) (purpose : Purpose) (text : String) (t : Token Pos) :
    Except (Refusal Pos) (State Pos) :=
  match purpose with
  | .package =>
    if t.lexeme = .symbol ';' then
      .ok { s with mode := .item, file := { s.file with package := Name.segments text } }
    else unexpected t (.symbol ';')
  | .skippedBlock =>
    if t.lexeme = .symbol '{' then s.go (.block 1 0) else unexpected t (.symbol '{')
  | .request name stream =>
    if t.lexeme = .symbol ')' then s.go (.rpcReturns name stream text)
    else unexpected t (.symbol ')')
  | .response name requestStream requestType stream =>
    if t.lexeme = .symbol ')' then
      (s.addMethod ⟨name, requestType, requestStream, text, stream⟩).go .rpcEnd
    else unexpected t (.symbol ')')

/-- Reads a token of a type name. -/
def readTypeName (s : State Pos) (purpose : Purpose) (progress : Progress) (text : String)
    (t : Token Pos) : Except (Refusal Pos) (State Pos) :=
  match progress, t.lexeme with
  | .start, .symbol '.' => s.go (.typeName purpose .dotted (text ++ "."))
  | .named, .symbol '.' => s.go (.typeName purpose .dotted (text ++ "."))
  | .named, _ => endTypeName s purpose text t
  | _, .word w => s.go (.typeName purpose .named (text ++ w))
  | _, _ => unexpected t typeNameItem

/-- The purpose of the type name on a side of a method. -/
def Side.purpose (stream : Bool) : Side → Purpose
  | .request name => .request name stream
  | .response name requestStream requestType =>
    .response name requestStream requestType stream

/-- Reads the token that starts an item at the top level. -/
def readTopLevel (s : State Pos) (t : Token Pos) : Except (Refusal Pos) (State Pos) :=
  match t.lexeme with
  | .word w =>
    if w = "package" then s.go (.typeName .package .start "")
    else if w = "import" then s.go .importStart
    else if w = "syntax" ∨ w = "edition" ∨ w = "option" then s.go (.statement 0)
    else if w = "extend" then s.go (.typeName .skippedBlock .start "")
    else if w = "message" then s.go .messageName
    else if w = "enum" then s.go .enumName
    else if w = "service" then s.go (.serviceName t.pos)
    else .error ⟨.unexpectedWord w, some t.pos⟩
  | .symbol ';' => s.go .item
  | _ => unexpected t (.item "a declaration")

/-- Reads the token that starts an item of a message. -/
def readMember (s : State Pos) (name : String) (members : List Decl)
    (rest : List (Scope Pos)) (t : Token Pos) : Except (Refusal Pos) (State Pos) :=
  match t.lexeme with
  | .symbol '}' => .ok ({ s with scopes := rest }.declare (.message name members))
  | .symbol ';' => s.go .item
  | .word w =>
    if w = "message" then s.go .messageName
    else if w = "enum" then s.go .enumName
    else if w = "service" then s.go (.serviceName t.pos)
    else if w = "oneof" ∨ w = "extend" then s.go (.typeName .skippedBlock .start "")
    else readStatement s 0 t
  | _ => readStatement s 0 t

/-- Reads the token that starts an item of a service. -/
def readServiceItem (s : State Pos) (pos : Pos) (name : String) (methods : List Rpc)
    (rest : List (Scope Pos)) (t : Token Pos) : Except (Refusal Pos) (State Pos) :=
  match t.lexeme with
  | .symbol '}' =>
    match rest with
    | [] => .ok ({ s with scopes := rest }.declare (.service name methods))
    | _ :: _ => .error ⟨.nestedService, some pos⟩
  | .symbol ';' => s.go .item
  | .word w =>
    if w = "rpc" then s.go .rpcName
    else if w = "option" then s.go (.statement 0)
    else unexpected t (.keyword "rpc")
  | _ => unexpected t (.keyword "rpc")

/-- Reads the token that starts an item. -/
def readItem (s : State Pos) (t : Token Pos) : Except (Refusal Pos) (State Pos) :=
  match s.scopes with
  | [] => readTopLevel s t
  | .message name members :: rest => readMember s name members rest t
  | .service pos name methods :: rest => readServiceItem s pos name methods rest t

/-- Reads a name and goes on with it. -/
def readName (s : State Pos) (what : String) (next : String → Mode Pos) (t : Token Pos) :
    Except (Refusal Pos) (State Pos) :=
  match t.lexeme with
  | .word w => s.go (next w)
  | _ => unexpected t (.item what)

/-- Reads the path of an import. -/
def readImportPath (s : State Pos) (t : Token Pos) : Except (Refusal Pos) (State Pos) :=
  match t.lexeme with
  | .literal path =>
    .ok { s with
      mode := .importEnd
      file := { s.file with imports := s.file.imports ++ [⟨path, t.pos⟩] } }
  | _ => unexpected t (.item "import path")

/-- Reads one token. -/
def step (s : State Pos) (t : Token Pos) : Except (Refusal Pos) (State Pos) :=
  match s.mode with
  | .item => readItem s t
  | .statement depth => readStatement s depth t
  | .block braces around => readBlock s braces around t
  | .typeName purpose progress text => readTypeName s purpose progress text t
  | .importStart =>
    if t.lexeme = .word "public" ∨ t.lexeme = .word "weak" then s.go .importPath
    else readImportPath s t
  | .importPath => readImportPath s t
  | .importEnd =>
    if t.lexeme = .symbol ';' then s.go .item else unexpected t (.symbol ';')
  | .messageName => readName s "message name" .messageBrace t
  | .messageBrace name =>
    if t.lexeme = .symbol '{' then
      .ok { s with mode := .item, scopes := .message name [] :: s.scopes }
    else unexpected t (.symbol '{')
  | .enumName => readName s "enum name" .enumBrace t
  | .enumBrace name =>
    if t.lexeme = .symbol '{' then (s.declare (.enum name)).go (.block 1 0)
    else unexpected t (.symbol '{')
  | .serviceName pos => readName s "service name" (.serviceBrace pos) t
  | .serviceBrace pos name =>
    if t.lexeme = .symbol '{' then
      .ok { s with mode := .item, scopes := .service pos name [] :: s.scopes }
    else unexpected t (.symbol '{')
  | .rpcName => readName s "method name" (fun name => .rpcParen (.request name)) t
  | .rpcParen side =>
    if t.lexeme = .symbol '(' then s.go (.rpcType side) else unexpected t (.symbol '(')
  | .rpcType side =>
    if t.lexeme = .word "stream" then s.go (.rpcStream side)
    else readTypeName s (side.purpose false) .start "" t
  | .rpcStream side =>
    match t.lexeme with
    | .word _ | .symbol '.' => readTypeName s (side.purpose true) .start "" t
    | _ => readTypeName s (side.purpose false) .named "stream" t
  | .rpcReturns name stream type =>
    if t.lexeme = .word "returns" then s.go (.rpcParen (.response name stream type))
    else unexpected t (.keyword "returns")
  | .rpcEnd =>
    if t.lexeme = .symbol '{' then s.go (.block 1 0)
    else if t.lexeme = .symbol ';' then s.go .item
    else unexpected t (.symbol ';')

/-- What has to follow a complete type name. -/
def Purpose.closer : Purpose → Expectation
  | .package => .symbol ';'
  | .skippedBlock => .symbol '{'
  | .request .. | .response .. => .symbol ')'

/-- What the reader waits for inside an item; between items it waits for nothing in
particular. -/
def Mode.awaited : Mode Pos → Option Expectation
  | .item => none
  | .statement _ => some (.symbol ';')
  | .block .. => some (.symbol '}')
  | .typeName purpose .named _ => some purpose.closer
  | .typeName .. => some typeNameItem
  | .importStart | .importPath => some (.item "import path")
  | .importEnd => some (.symbol ';')
  | .messageName => some (.item "message name")
  | .enumName => some (.item "enum name")
  | .serviceName _ => some (.item "service name")
  | .messageBrace _ | .enumBrace _ | .serviceBrace .. => some (.symbol '{')
  | .rpcName => some (.item "method name")
  | .rpcParen _ => some (.symbol '(')
  | .rpcType _ => some typeNameItem
  | .rpcStream side => some (side.purpose false).closer
  | .rpcReturns .. => some (.keyword "returns")
  | .rpcEnd => some (.symbol ';')

/-- The file once all tokens are read. -/
def close (s : State Pos) : Except (Refusal Pos) (File Pos) :=
  match s.mode.awaited, s.scopes with
  | some what, _ => .error ⟨.endOfFile what, none⟩
  | none, .message .. :: _ => .error ⟨.expected (.symbol '}'), none⟩
  | none, .service .. :: _ => .error ⟨.endOfFile (.symbol '}'), none⟩
  | none, [] => .ok s.file

end Reader

/-- The declarations that a list of tokens spells. -/
def readTokens {Pos : Type} (tokens : List (Token Pos)) : Except (Refusal Pos) (File Pos) := do
  Reader.close (← tokens.foldlM Reader.step {})

/-- The declarations of a source. A source that ends too early is refused at its end. -/
def parse (source : String) : Except SyntaxError (File Span) := do
  let tokens ← lex source.toList
  match readTokens tokens with
  | .ok file => .ok file
  | .error ⟨fault, some span⟩ => .error ⟨fault, span⟩
  | .error ⟨fault, none⟩ => .error ⟨fault, ⟨Text.byteLength source.toList, 0⟩⟩

end RpcBindings.Proto

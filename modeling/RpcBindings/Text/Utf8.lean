/-!
# Bytes read as text

`decode?` accepts exactly the well-formed UTF-8 texts. `decodeLossy` never fails: it
replaces every longest ill-formed run that could have started a character, and every other
stray byte, by the replacement character.
-/
namespace RpcBindings.Text

/-- The character that stands for bytes that are no text. -/
def replacement : Char := Char.ofNat 0xFFFD

/-- A continuation byte. -/
def isContinuation (b : Nat) : Bool :=
  0x80 ≤ b && b ≤ 0xBF

/-- The number of bytes of a character that starts with the byte `b`, with the range in
which the byte after it has to lie. A byte that starts no character has no entry. -/
def leadOf (b : Nat) : Option (Nat × Nat × Nat) :=
  if b < 0x80 then some (1, 0x80, 0xBF)
  else if 0xC2 ≤ b && b ≤ 0xDF then some (2, 0x80, 0xBF)
  else if b == 0xE0 then some (3, 0xA0, 0xBF)
  else if b == 0xED then some (3, 0x80, 0x9F)
  else if 0xE1 ≤ b && b ≤ 0xEF then some (3, 0x80, 0xBF)
  else if b == 0xF0 then some (4, 0x90, 0xBF)
  else if b == 0xF4 then some (4, 0x80, 0x8F)
  else if 0xF1 ≤ b && b ≤ 0xF3 then some (4, 0x80, 0xBF)
  else none

/-- The continuation bytes that a lead byte with `width` bytes and second byte between `lo`
and `hi` really has behind it, at most `width - 1` of them. -/
def continuations (width lo hi : Nat) (rest : List Nat) : List Nat :=
  match width, rest with
  | 0, _ => []
  | 1, _ => []
  | _, [] => []
  | width, b :: more =>
    if lo ≤ b && b ≤ hi then b :: (more.takeWhile isContinuation).take (width - 2) else []

/-- The code point spelled by a lead byte and its continuation bytes. -/
def codePoint (lead : Nat) (width : Nat) (behind : List Nat) : Nat :=
  let start :=
    match width with
    | 1 => lead
    | 2 => lead - 0xC0
    | 3 => lead - 0xE0
    | _ => lead - 0xF0
  behind.foldl (fun n b => n * 64 + (b - 0x80)) start

/-- Reads the next character: its code point if it is well formed, and how many bytes it
or the ill-formed run takes. -/
def nextScalar (lead : Nat) (rest : List Nat) : Option Char × Nat :=
  match leadOf lead with
  | none => (none, 1)
  | some (width, lo, hi) =>
    let behind := continuations width lo hi rest
    if behind.length + 1 == width then (some (Char.ofNat (codePoint lead width behind)), width)
    else (none, behind.length + 1)

/-- Reads characters until the bytes or the bound are used up. -/
def scalars (bound : Nat) (bytes : List Nat) : List (Option Char) :=
  match bound, bytes with
  | 0, _ => []
  | _, [] => []
  | bound + 1, b :: rest =>
    let (c, taken) := nextScalar b rest
    c :: scalars bound ((b :: rest).drop taken)

/-- The text that well-formed bytes spell. -/
def decode? (bytes : List UInt8) : Option String :=
  ((scalars bytes.length (bytes.map UInt8.toNat)).mapM id).map String.ofList

/-- The text of any bytes, with the replacement character for what is no text. -/
def decodeLossy (bytes : List UInt8) : String :=
  String.ofList ((scalars bytes.length (bytes.map UInt8.toNat)).map fun c => c.getD replacement)

end RpcBindings.Text

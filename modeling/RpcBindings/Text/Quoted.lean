import RpcBindings.Text.Unseen

/-!
# Quoted texts in the log

A text in the log stands between double quotes. Quotes, backslashes and the common control
characters are written as escapes of one letter, and every other character that does not
show by itself by its code point.
-/
namespace RpcBindings.Text

/-- A code point in braces, in hexadecimal. -/
def codePointEscape (c : Char) : List Char :=
  "\\u\x7b".toList ++ Nat.toDigits 16 c.toNat ++ ['}']

/-- A character inside quotes. -/
def escapeChar (c : Char) : List Char :=
  match c with
  | '"' => ['\\', '"']
  | '\\' => ['\\', '\\']
  | '\n' => ['\\', 'n']
  | '\r' => ['\\', 'r']
  | '\t' => ['\\', 't']
  | c =>
    if c.toNat = 0 then ['\\', '0']
    else if isUnseen c then codePointEscape c
    else [c]

/-- A text between quotes with its escapes. -/
def quoted (s : String) : String :=
  String.ofList ('"' :: s.toList.flatMap escapeChar ++ ['"'])

end RpcBindings.Text

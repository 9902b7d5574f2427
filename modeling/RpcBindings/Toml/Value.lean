/-!
# Values of a settings file

Settings are texts, whole numbers, arrays and tables; of the other TOML values it is only
known that they are there. A table remembers how it came about, because that decides
what may still be added to it:

* a table under a header of its own can get that header only once;
* a table that was made on the way to a deeper header may still get its own;
* a table made by a dotted key is extended by dotted keys only;
* an inline table is complete.
-/
namespace RpcBindings.Toml

/-- How a table came about. -/
inductive Origin where
  /-- By a header of its own. -/
  | header
  /-- On the way to a deeper header. -/
  | onTheWay
  /-- By a dotted key. -/
  | dotted
  /-- Between braces. -/
  | inline
deriving DecidableEq

/-- A value of a settings file. -/
inductive Value where
  /-- A text. -/
  | text (s : String)
  /-- A whole number. -/
  | integer (n : Int)
  /-- A value that no setting can have: a truth value, a number that is not whole or has no
  digits, a date or a time. -/
  | unused
  /-- An array. -/
  | array (items : List Value)
  /-- A table with its entries in order. -/
  | table (origin : Origin) (entries : List (String × Value))

/-- The entries of a table. -/
abbrev Entries := List (String × Value)

namespace Entries

/-- Puts a value in the place of the value of a key that is there. -/
def replace (entries : Entries) (key : String) (v : Value) : Entries :=
  entries.map fun e => if e.1 == key then (key, v) else e

/-- Adds a value under a dotted key. No key can be set twice. -/
def insert? (entries : Entries) (v : Value) : List String → Option Entries
  | [] => none
  | [key] => if (entries.lookup key).isSome then none else some (entries ++ [(key, v)])
  | key :: rest =>
    match entries.lookup key with
    | none => (insert? [] v rest).map fun inner => entries ++ [(key, .table .dotted inner)]
    | some (.table .dotted inner) =>
      (insert? inner v rest).map fun inner => entries.replace key (.table .dotted inner)
    | some _ => none

/-- Opens the table of a header. -/
def open? (entries : Entries) : List String → Option Entries
  | [] => none
  | [key] =>
    match entries.lookup key with
    | none => some (entries ++ [(key, .table .header [])])
    | some (.table .onTheWay inner) => some (entries.replace key (.table .header inner))
    | some _ => none
  | key :: rest =>
    match entries.lookup key with
    | none => (open? [] rest).map fun inner => entries ++ [(key, .table .onTheWay inner)]
    | some (.table .inline _) => none
    | some (.table origin inner) =>
      (open? inner rest).map fun inner => entries.replace key (.table origin inner)
    | some _ => none

/-- Adds a value under a dotted key to the table of a header that is open. -/
def insertUnder? (entries : Entries) (v : Value) (path : List String) :
    List String → Option Entries
  | [] => entries.insert? v path
  | key :: rest =>
    match entries.lookup key with
    | some (.table origin inner) =>
      (insertUnder? inner v path rest).map fun inner => entries.replace key (.table origin inner)
    | _ => none

end Entries

end RpcBindings.Toml

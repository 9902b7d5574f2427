/-!
# Lines of a text

A text is cut after every newline. A `row` keeps its newline, so the rows of a text
concatenate to the text; a `line` is a row without the newline and without one carriage
return right before it. Both views are used: rows carry byte offsets, lines carry
generated code.
-/
namespace RpcBindings.Text

/-- The rows of a text, each with the newline that ends it; only the last may lack one. -/
def rows : List Char → List (List Char)
  | [] => []
  | c :: cs =>
    if c = '\n' then [c] :: rows cs
    else match rows cs with
      | [] => [[c]]
      | row :: rest => (c :: row) :: rest

/-- A row without its newline. A carriage return belongs to the line end only when the
newline follows it. -/
def dropLineEnd (row : List Char) : List Char :=
  if row.getLast? = some '\n' then
    let body := row.dropLast
    if body.getLast? = some '\r' then body.dropLast else body
  else row

/-- The lines of a text. A final newline ends the last line and starts no new one. -/
def lines (text : String) : List String :=
  (rows text.toList).map fun row => String.ofList (dropLineEnd row)

/-- The number of bytes a list of characters takes in UTF-8. -/
def byteLength (cs : List Char) : Nat :=
  cs.foldr (fun c n => c.utf8Size + n) 0

/-- The byte offset of a line and a column, both counted from one and the column in bytes.
Line 0 is no line; a position behind the end is taken for the end. The sum is not held to 64
bits, which it needs more than only for a column that no text in memory has. -/
def offsetOf? (text : String) (line column : Nat) : Option Nat :=
  if line = 0 then none
  else
    let start := byteLength ((rows text.toList).take (line - 1)).flatten
    some (min (start + (column - 1)) (byteLength text.toList))

theorem rows_flatten (cs : List Char) : (rows cs).flatten = cs := by
  induction cs with
  | nil => rfl
  | cons c cs ih =>
    unfold rows
    split
    · simp [ih]
    · split <;> simp_all

@[simp]
theorem byteLength_nil : byteLength [] = 0 := rfl

@[simp]
theorem byteLength_cons (c : Char) (cs : List Char) :
    byteLength (c :: cs) = c.utf8Size + byteLength cs := rfl

@[simp]
theorem byteLength_append (xs ys : List Char) :
    byteLength (xs ++ ys) = byteLength xs + byteLength ys := by
  induction xs with
  | nil => simp
  | cons c xs ih => simp [ih, Nat.add_assoc]

end RpcBindings.Text

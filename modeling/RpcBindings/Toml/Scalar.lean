import RpcBindings.Text.Hex
import RpcBindings.Text.Split
import RpcBindings.Toml.Value

/-!
# Values without quotes

A value without quotes is a whole number, a number with a fraction or an exponent, a truth
value, a date or a time. Settings use whole numbers only, so of the other values it matters
that they are well written, and no more.

Digits may be grouped by single underscores. A date stands alone or before a time, and only
behind both may a distance from universal time follow; seconds may be missing.
-/
namespace RpcBindings.Toml

/-- The value of digits in a base, with single underscores between them. -/
def digits? (base : Nat) (cs : List Char) : Option Nat := do
  let groups := Text.splitOn '_' cs
  if groups.any List.isEmpty then none
  let digits ← groups.flatten.mapM Text.hexDigit?
  if digits.all (· < base) then some (digits.foldl (fun n d => n * base + d) 0) else none

/-- A number in base ten without a sign; no zero leads other digits. -/
def decimal? (cs : List Char) : Option Nat :=
  if cs.length > 1 && cs.head? == some '0' then none else digits? 10 cs

/-- The characters behind a sign, if there is one. -/
def unsigned : List Char → List Char
  | '+' :: rest => rest
  | '-' :: rest => rest
  | cs => cs

/-- The whole number that characters spell. -/
def integer? : List Char → Option Int
  | '0' :: 'x' :: rest => (digits? 16 rest).map Int.ofNat
  | '0' :: 'o' :: rest => (digits? 8 rest).map Int.ofNat
  | '0' :: 'b' :: rest => (digits? 2 rest).map Int.ofNat
  | '-' :: rest => (decimal? rest).map fun n => -Int.ofNat n
  | cs => (decimal? (unsigned cs)).map Int.ofNat

/-- Whether characters name a base and give no digits. Such a number is well written but
has no value. -/
def isBareRadix (cs : List Char) : Bool :=
  cs == ['0', 'x'] || cs == ['0', 'o'] || cs == ['0', 'b']

/-- The digits and underscores at the start, and what follows them. -/
def spanDigits (cs : List Char) : List Char × List Char :=
  cs.span fun c => c.isDigit || c == '_'

/-- Whether characters spell an exponent, from its letter on. -/
def isExponent : List Char → Bool
  | 'e' :: rest | 'E' :: rest => (digits? 10 (unsigned rest)).isSome
  | _ => false

/-- Whether characters spell a number with a fraction or an exponent. -/
def isFloat (cs : List Char) : Bool :=
  let (whole, rest) := spanDigits (unsigned cs)
  (decimal? whole).isSome &&
    match rest with
    | '.' :: rest =>
      let (fraction, rest) := spanDigits rest
      (digits? 10 fraction).isSome && (rest.isEmpty || isExponent rest)
    | rest => isExponent rest

/-- The number that exactly `count` digits at the start spell, and what follows them. -/
def fixed? (count : Nat) (cs : List Char) : Option (Nat × List Char) :=
  let (digits, rest) := cs.span Char.isDigit
  if digits.length = count then (digits? 10 digits).map (·, rest) else none

/-- What follows a character that has to stand at the start. -/
def after? (c : Char) : List Char → Option (List Char)
  | d :: rest => if d = c then some rest else none
  | [] => none

/-- The number of days in a month. -/
def daysIn (year month : Nat) : Nat :=
  if month = 2 then
    if year % 4 = 0 ∧ (year % 100 ≠ 0 ∨ year % 400 = 0) then 29 else 28
  else if month = 4 ∨ month = 6 ∨ month = 9 ∨ month = 11 then 30
  else 31

/-- What follows a date. -/
def afterDate? (cs : List Char) : Option (List Char) := do
  let (year, cs) ← fixed? 4 cs
  let (month, cs) ← fixed? 2 (← after? '-' cs)
  let (day, cs) ← fixed? 2 (← after? '-' cs)
  if 1 ≤ month ∧ month ≤ 12 ∧ 1 ≤ day ∧ day ≤ daysIn year month then some cs else none

/-- What follows an hour and a minute. -/
def afterMinute? (cs : List Char) : Option (List Char) := do
  let (hour, cs) ← fixed? 2 cs
  let (minute, cs) ← fixed? 2 (← after? ':' cs)
  if hour ≤ 23 ∧ minute ≤ 59 then some cs else none

/-- What follows a fraction of a second, from its point on. -/
def afterFraction? : List Char → Option (List Char)
  | '.' :: rest =>
    let (digits, rest) := rest.span Char.isDigit
    if digits.isEmpty then none else some rest
  | cs => some cs

/-- What follows a time. A minute may have a second more than usual. -/
def afterTime? (cs : List Char) : Option (List Char) := do
  match ← afterMinute? cs with
  | ':' :: rest =>
    let (second, rest) ← fixed? 2 rest
    if second ≤ 60 then afterFraction? rest else none
  | rest => some rest

/-- Whether characters spell a distance from universal time. -/
def isOffset : List Char → Bool
  | ['Z'] | ['z'] => true
  | '+' :: rest | '-' :: rest => afterMinute? rest == some []
  | _ => false

/-- Whether characters spell a date, a time or both. -/
def isDateTime (cs : List Char) : Bool :=
  match afterDate? cs with
  | some [] => true
  | some (c :: rest) =>
    (c == 'T' || c == 't' || c == ' ') &&
      match afterTime? rest with
      | some rest => rest.isEmpty || isOffset rest
      | none => false
  | none => afterTime? cs == some []

/-- The words that are values, behind a sign or not. -/
def isWord (cs : List Char) : Bool :=
  cs == "true".toList || cs == "false".toList
    || unsigned cs == "inf".toList || unsigned cs == "nan".toList

/-- The value that characters without quotes spell. -/
def scalar? (text : String) : Option Value :=
  let cs := text.toList
  match integer? cs with
  | some n => some (.integer n)
  | none =>
    if isWord cs || isBareRadix cs || isFloat cs || isDateTime cs then some .unused else none

end RpcBindings.Toml

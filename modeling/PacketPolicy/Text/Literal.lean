/-!
# Literals

Decimal numerals and quoted texts, written and read as lists of characters.
-/

namespace PacketPolicy

/-!
## Decimal numerals

Header integers are 64-bit words, so a numeral outside their range is no header
integer.
-/

namespace Decimal

/-- The numeral of a natural number, without leading zeros. -/
def ofNat (n : Nat) : List Char := Nat.toDigits 10 n

/-- The numeral of an integer; only negative numbers carry a sign. -/
def ofInt : Int → List Char
  | .ofNat n => ofNat n
  | .negSucc n => '-' :: ofNat (n + 1)

def text (n : Int) : String := String.ofList (ofInt n)

def natText (n : Nat) : String := String.ofList (ofNat n)

/-- A non-empty run of digits; leading zeros are allowed. -/
def nat? (cs : List Char) : Option Nat :=
  if cs ≠ [] ∧ cs.all Char.isDigit then some (Nat.ofDigitChars 10 cs 0) else none

/-- A run of digits after at most one sign. -/
def int? : List Char → Option Int
  | '+' :: cs => (nat? cs).map Int.ofNat
  | '-' :: cs => (nat? cs).map fun n => -Int.ofNat n
  | cs => (nat? cs).map Int.ofNat

/-- The word of an integer in the signed 64-bit range. -/
def word? (n : Int) : Option Int64 :=
  if Int64.minValue.toInt ≤ n ∧ n ≤ Int64.maxValue.toInt then some (Int64.ofInt n) else none

/-- A signed numeral in the signed 64-bit range. -/
def int64? (cs : List Char) : Option Int64 := (int? cs).bind word?

theorem nat?_ofNat (n : Nat) : nat? (ofNat n) = some n := by
  have digits : (Nat.toDigits 10 n).all Char.isDigit = true :=
    List.all_eq_true.2 fun _ h => Nat.isDigit_of_mem_toDigits (by decide) (by decide) h
  simp [nat?, ofNat, digits, Nat.ofDigitChars_ten_toDigits]

theorem word?_toInt (n : Int64) : word? n.toInt = some n := by
  rw [word?, if_pos ⟨Int64.minValue_le_toInt n, Int64.toInt_le n⟩, Int64.ofInt_toInt]

end Decimal

/-!
## Quoted text

A text is written between double quotes, with a backslash before each double
quote and each backslash of its own.
-/

namespace Quoted

/-- The characters between the quotes. -/
def escape : List Char → List Char
  | [] => []
  | c :: rest => if c = '"' ∨ c = '\\' then '\\' :: c :: escape rest else c :: escape rest

def text (s : String) : String := String.ofList ('"' :: escape s.toList ++ ['"'])

/-- Read up to and over the closing quote. A backslash that stands before another character
than a quote or a backslash is an ordinary character. Gives the text and what follows it, or
nothing if the closing quote is missing. -/
def read? : List Char → Option (List Char × List Char)
  | [] => none
  | '"' :: rest => some ([], rest)
  | '\\' :: c :: rest =>
    (read? rest).map fun r =>
      if c = '"' ∨ c = '\\' then (c :: r.1, r.2) else ('\\' :: c :: r.1, r.2)
  | c :: rest => if c = '\\' then none else (read? rest).map fun r => (c :: r.1, r.2)

end Quoted

end PacketPolicy

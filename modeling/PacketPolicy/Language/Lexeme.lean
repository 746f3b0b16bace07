import PacketPolicy.Ipv4

/-!
# Lexemes of policy text

Blanks and comments, words, numerals, quoted texts and networks, and the scans that
read them.
-/

namespace PacketPolicy

/-!
## Scans with committed failures

A scan reads a value off the front of a list of characters. A failure says
where reading stopped and what was expected there. An ordinary failure lets an
alternative be tried; a final one, raised after a point of commitment, does not.
-/

/-- What a reader of policy text was looking for. -/
inductive Expectation where
  | integer
  | pattern
  | assignment
  | policy
  deriving DecidableEq

def Expectation.describe : Expectation → String
  | .integer => "integer"
  | .pattern => "integer, address, prefix or string"
  | .assignment => "integer, address, string or none"
  | .policy => "policy"

inductive Reply (α : Type) where
  | done (value : α) (rest : List Char)
  | fail (final : Bool) (rest : List Char) (expected : List Expectation)
  deriving DecidableEq

def Scan (α : Type) : Type := List Char → Reply α

namespace Scan

variable {α β : Type}

instance : Monad Scan where
  pure a := fun s => .done a s
  bind p f := fun s =>
    match p s with
    | .done a rest => f a rest
    | .fail final rest expected => .fail final rest expected

/-- An ordinary failure at this place. -/
def mismatch : Scan α := fun s => .fail false s []

/-- A failure of `p` is final. -/
def commit (p : Scan α) : Scan α := fun s =>
  match p s with
  | .fail _ rest expected => .fail true rest expected
  | r => r

/-- A failure of `p` also says what was expected. -/
def expecting (e : Expectation) (p : Scan α) : Scan α := fun s =>
  match p s with
  | .fail final rest expected => .fail final rest (expected ++ [e])
  | r => r

/-- The second, from the same place, if the first fails and its failure is not final. -/
def either (p q : Scan α) : Scan α := fun s =>
  match p s with
  | .fail false _ _ => q s
  | r => r

/-- Nothing, without moving, if `p` fails and its failure is not final. -/
def optional (p : Scan α) : Scan (Option α) := fun s =>
  match p s with
  | .done a rest => .done (some a) rest
  | .fail false _ _ => .done none s
  | .fail true rest expected => .fail true rest expected

/-- As many times as `p` succeeds and moves on; the place is the one after the last success. -/
def many (p : Scan α) (s : List Char) : Reply (List α) :=
  match p s with
  | .done a rest =>
    if rest.length < s.length then
      match many p rest with
      | .done as rest => .done (a :: as) rest
      | .fail final rest expected => .fail final rest expected
    else .done [] s
  | .fail false _ _ => .done [] s
  | .fail true rest expected => .fail true rest expected
termination_by s.length

/-- Items with separators between them. A separator without an item after it is not read. -/
def separated (item : Scan α) (separator : Scan Unit) : Scan (List α) := do
  match ← optional item with
  | none => return []
  | some first => return first :: (← many (do separator; item))

def literal (t : List Char) : Scan Unit := fun s =>
  if t.isPrefixOf s then .done () (s.drop t.length) else .fail false s []

def char (c : Char) : Scan Unit := literal [c]

/-- What the partial reader `f` gives; if it gives nothing, a mismatch. -/
def reading (f : List Char → Option (α × List Char)) : Scan α := fun s =>
  match f s with
  | some (a, rest) => .done a rest
  | none => .fail false s []

end Scan

/-! ## Lexemes -/

namespace Lexeme

/-- Space, tab, line feed, form feed, carriage return. -/
def isBlank (c : Char) : Bool :=
  c = ' ' || c = '\t' || c = '\n' || c = '\x0c' || c = '\r'

mutual

/-- Skip blanks and comments. -/
def skip : List Char → List Char
  | [] => []
  | c :: rest =>
    if isBlank c then skip rest
    else if c = '#' then skipComment (c :: rest) rest
    else c :: rest

/-- Skip the rest of a comment that began at `start`. A comment ends before a line end, which
is a line feed with or without a carriage return before it; if it runs into a carriage return
alone, it is no comment. -/
def skipComment (start : List Char) : List Char → List Char
  | [] => []
  | c :: rest =>
    if c = '\n' then skip rest
    else if c = '\r' then
      match rest with
      | '\n' :: after => skip after
      | _ => start
    else skipComment start rest

end

def blanks : Scan Unit := fun s => .done () (skip s)

/-- A symbol, after blanks. -/
def symbol (c : Char) : Scan Unit := do
  blanks
  Scan.char c

/-- A symbol that has to follow, after blanks. -/
def required (c : Char) : Scan Unit := do
  blanks
  Scan.commit (Scan.char c)

def isWordStart (c : Char) : Bool := c.isAlpha || c = '_'

def isWordPart (c : Char) : Bool := c.isAlphanum || c = '_'

/-- A letter or underscore, and the letters, digits and underscores after it. -/
def word : Scan String :=
  Scan.reading fun s =>
    match s with
    | c :: rest =>
      if isWordStart c then
        some (String.ofList (c :: rest.takeWhile isWordPart), rest.dropWhile isWordPart)
      else none
    | [] => none

/-- A numeral without leading zeros, and its sign if it is not zero. -/
def digits? : List Char → Option (Int × List Char)
  | '0' :: rest => some (0, rest)
  | '+' :: rest => unsigned? rest
  | '-' :: rest => (unsigned? rest).map fun r => (-r.1, r.2)
  | s => unsigned? s
where
  /-- The digits of a positive number. -/
  unsigned? (s : List Char) : Option (Int × List Char) :=
    match s with
    | c :: _ =>
      if c.isDigit ∧ c ≠ '0' then
        some (Int.ofNat (Nat.ofDigitChars 10 (s.takeWhile Char.isDigit) 0),
          s.dropWhile Char.isDigit)
      else none
    | [] => none

/-- A numeral in the signed 64-bit range. -/
def integer : Scan Int64 :=
  Scan.reading fun s => do
    let (n, rest) ← digits? s
    return (← Decimal.word? n, rest)

def text : Scan String :=
  Scan.reading fun s =>
    match s with
    | '"' :: rest => (Quoted.read? rest).map fun r => (String.ofList r.1, r.2)
    | _ => none

def isNetworkPart (c : Char) : Bool := c.isDigit || c = '.' || c = '/'

/-- The longest run of digits, points and slashes has to be a network. -/
def network : Scan Ipv4.Network :=
  Scan.reading fun s => do
    return (← Ipv4.Network.ofChars? (s.takeWhile isNetworkPart), s.dropWhile isNetworkPart)

/-- A network of a single address. -/
def address : Scan Ipv4.Address :=
  Scan.reading fun s => do
    let n ← Ipv4.Network.ofChars? (s.takeWhile isNetworkPart)
    if n.length = 32 then return (n.address, s.dropWhile isNetworkPart) else none

end Lexeme

end PacketPolicy

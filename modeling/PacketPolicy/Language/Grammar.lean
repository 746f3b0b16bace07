import PacketPolicy.Header.Match
import PacketPolicy.Language.Lexeme

/-!
# Grammar of policy text

From loosest to tightest the operators are `|`, `&`, `>>`, `+` and `-`, and the
sign `~`. All binary operators group to the left.
-/

namespace PacketPolicy

/-!
## Policy expressions

What a policy text says, before it is known which subexpressions are filters.
-/

/-- The binary operators, tightest first. -/
inductive Operator where
  | parallel
  | difference
  | sequential
  | intersection
  | union
  deriving DecidableEq

namespace Operator

def symbol : Operator → String
  | .parallel => "+"
  | .difference => "-"
  | .sequential => ">>"
  | .intersection => "&"
  | .union => "|"

/-- How tightly an operator binds; a larger number binds tighter. -/
def level : Operator → Nat
  | .union => 0
  | .intersection => 1
  | .sequential => 2
  | .parallel => 3
  | .difference => 3

end Operator

/-- Fields stand in the order of the text, and a name may occur more than once. -/
inductive Expr where
  | identity
  | drop
  | controller
  | test (fields : List (String × Pattern))
  | modify (fields : List (String × Option Value))
  | forward (port : Int64)
  | exclusive (port : Int64)
  | link (l : Link)
  | when (condition body : Expr)
  | ite (condition body otherwise : Expr)
  | not (e : Expr)
  | binary (op : Operator) (left right : Expr)
  deriving DecidableEq

instance : Inhabited Expr := ⟨.identity⟩

/-! ## Scans of expressions -/

namespace Grammar

open Scan Lexeme

def integer : Scan Int64 := do
  blanks
  expecting .integer Lexeme.integer

def pattern : Scan Pattern := do
  blanks
  expecting .pattern <|
    either ((Pattern.exactly ∘ .text) <$> text) <|
    either (Pattern.ofNetwork <$> network) <|
      (Pattern.exactly ∘ .int) <$> Lexeme.integer

def assigned : Scan (Option Value) := do
  blanks
  expecting .assignment <|
    either ((fun _ => none) <$> literal ['n', 'o', 'n', 'e']) <|
    either ((some ∘ .text) <$> text) <|
    either ((some ∘ .address) <$> address) <|
      (some ∘ .int) <$> Lexeme.integer

/-- One `name=content` of a field list. -/
def field {α : Type} (content : Scan α) : Scan (String × α) := do
  blanks
  let name ← word
  required '='
  return (name, ← commit content)

def fields {α : Type} (content : Scan α) : Scan (List (String × α)) := do
  symbol '('
  let all ← separated (field content) (symbol ',')
  required ')'
  return all

/-- A parenthesised list of arguments. -/
def arguments {α : Type} (content : Scan α) : Scan α := do
  required '('
  let all ← commit content
  required ')'
  return all

def location : Scan Location := do
  let switch ← integer
  symbol ','
  return { switch, port := ← integer }

def link : Scan Link := do
  let source ← location
  symbol ','
  return { source, target := ← location }

/-- The arguments of a conditional. The last may be left out. -/
def conditional (policy : Scan Expr) : Scan Expr := do
  required '('
  let condition ← commit policy
  required ','
  let body ← commit policy
  let otherwise ← optional (do symbol ','; commit policy)
  required ')'
  return match otherwise with
    | none => .when condition body
    | some e => .ite condition body e

/-- What follows a word. A word without meaning is a final failure behind the word. -/
def call (policy : Scan Expr) : String → Scan Expr
  | "identity" => return .identity
  | "passthrough" => return .identity
  | "drop" => return .drop
  | "controller" => return .controller
  | "match" => .test <$> commit (fields pattern)
  | "modify" => .modify <$> commit (fields assigned)
  | "fwd" => .forward <$> arguments integer
  | "xfwd" => .exclusive <$> arguments integer
  | "link" => .link <$> arguments link
  | "if" => conditional policy
  | _ => commit mismatch

def parenthesised (policy : Scan Expr) : Scan Expr := do
  char '('
  let e ← policy
  required ')'
  return e

def primary (policy : Scan Expr) : Scan Expr := do
  blanks
  expecting .policy <| either (parenthesised policy) (word >>= call policy)

/-- Operands with operators between them. -/
def chain (operator : Scan Operator) (operand : Scan Expr) : Scan Expr := do
  let first ← operand
  let rest ← many do
    let op ← operator
    return (op, ← commit operand)
  return rest.foldl (fun acc r => .binary r.1 acc r.2) first

def operator (op : Operator) : Scan Operator := do
  blanks
  literal op.symbol.toList
  return op

/-- Plus or minus. -/
def additive : Scan Operator := do
  blanks
  either ((fun _ => .parallel) <$> char '+') ((fun _ => .difference) <$> char '-')

/-- An expression over given operands. -/
def expression (operand : Scan Expr) : Scan Expr := do
  blanks
  chain (operator .union) <| chain (operator .intersection) <|
    chain (operator .sequential) <| chain additive operand

/-- An operand with at most `depth` signs, parentheses and calls inside each other. -/
def operand : Nat → Scan Expr
  | 0 => mismatch
  | depth + 1 => do
    blanks
    match ← optional (char '~') with
    | some _ => .not <$> commit (operand depth)
    | none => primary (expression (operand depth))

/-- A whole text. Nothing is nested deeper than the text is long. -/
def policy : Scan Expr := fun s =>
  (do let e ← expression (operand (s.length + 1)); blanks; return e : Scan Expr) s

end Grammar

end PacketPolicy

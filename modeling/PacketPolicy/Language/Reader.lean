import PacketPolicy.Language.Grammar
import PacketPolicy.Policy.Printer

/-!
# From texts to policies

Reading a text gives an expression or a diagnostic. Building the policy of the
expression checks its types.
-/

namespace PacketPolicy

/-!
## Diagnostics

A text that is no policy expression is answered with a diagnostic: the place
where reading stopped, shown in its line, and what was expected there.
-/

/-- A text, the part of it that was not read, and what was expected there. -/
structure Diagnostic where
  source : List Char
  unread : List Char
  expected : List Expectation
  deriving DecidableEq

namespace Diagnostic

def byteSize (cs : List Char) : Nat := cs.foldl (fun n c => n + c.utf8Size) 0

/-- The part of the text that was read. -/
def consumed (d : Diagnostic) : List Char := d.source.take (d.source.length - d.unread.length)

/-- The line that a part of a text ends in. -/
def lastLine (cs : List Char) : List Char := (cs.reverse.takeWhile (· ≠ '\n')).reverse

/-- The first line of a text. -/
def firstLine (cs : List Char) : List Char := cs.takeWhile (· ≠ '\n')

def spaces (n : Nat) : String := String.ofList (List.replicate n ' ')

def expectation (d : Diagnostic) : String :=
  if d.expected.isEmpty then ""
  else "expected " ++ ", ".intercalate (d.expected.map Expectation.describe)

/-- A line, what stands in it before the marked place, and how far to indent the mark. -/
structure Place where
  number : Nat
  line : List Char
  column : Nat

/-- The place of a character is the number of characters before it in its line, or of bytes if it
takes more than one byte. The end of the text is one place behind the last character. -/
def place (d : Diagnostic) : Place :=
  match d.unread with
  | c :: _ =>
    let before := lastLine d.consumed
    { number := d.consumed.count '\n' + 1
      line := before ++ firstLine d.unread
      column := if c.utf8Size = 1 then before.length else byteSize before }
  | [] =>
    let initial := d.source.dropLast
    let before := lastLine initial
    { number := initial.count '\n' + 1
      line := before ++ firstLine (d.source.drop initial.length)
      column := before.length + 1 }

/-- A text of one line is shown as it is, with the mark indented by bytes; of a longer text the
line in question is shown with its number. -/
def render (d : Diagnostic) : String :=
  if '\n' ∈ d.source then
    let p := d.place
    let number := Decimal.natText p.number
    let margin := spaces number.length
    "parse error at line " ++ number ++ ", column " ++ Decimal.natText (p.column + 1) ++ "\n"
      ++ margin ++ " |\n"
      ++ number ++ " | " ++ String.ofList p.line ++ "\n"
      ++ margin ++ " | " ++ spaces p.column ++ "^\n" ++ d.expectation
  else
    String.ofList d.source ++ "\n" ++ spaces (byteSize d.consumed) ++ "^\n" ++ d.expectation

def message (d : Diagnostic) : String := "parse error: " ++ d.render

end Diagnostic

/-- The expression that a text stands for; the whole text has to be read. -/
def Expr.ofChars (cs : List Char) : Except Diagnostic Expr :=
  match Grammar.policy cs with
  | .done e [] => .ok e
  | .done _ rest => .error ⟨cs, rest, []⟩
  | .fail _ rest expected => .error ⟨cs, rest, expected⟩

def Expr.ofText (s : String) : Except Diagnostic Expr := Expr.ofChars s.toList

/-!
## Types

Building the policy of an expression checks that the operands of `~`, `&`, `|` and
`-` and the condition of `if` are filters, and that no field list is empty.
-/

namespace Expr

/-- The policy of an expression. In a conditional, faults are looked for in the last part first,
then in the condition, then in the first branch; elsewhere from left to right. -/
def toPolicy : Expr → Except PolicyError Policy
  | .identity => .ok .identity
  | .drop => .ok .drop
  | .controller => .ok .controller
  | .test fields => (Match.ofList? fields).elim (.error .emptyMatch) (.ok ∘ .test)
  | .modify fields =>
    (Modification.ofList? fields).elim (.error .emptyModification) (.ok ∘ .modify)
  | .forward port => .ok (.forward port)
  | .exclusive port => .ok (.exclusive port)
  | .link l => .ok (.link l)
  | .when c t => do
    let f ← Filter.ofPolicy (← c.toPolicy)
    return .ifElse f (← t.toPolicy) .identity
  | .ite c t e => do
    let otherwise ← e.toPolicy
    let f ← Filter.ofPolicy (← c.toPolicy)
    return .ifElse f (← t.toPolicy) otherwise
  | .not e => do return (← Filter.ofPolicy (← e.toPolicy)).not.policy
  | .binary .parallel l r => do return (← l.toPolicy).plus (← r.toPolicy)
  | .binary .sequential l r => do return (← l.toPolicy).andThen (← r.toPolicy)
  | .binary .difference l r => do
    let f ← Filter.ofPolicy (← l.toPolicy)
    return (f.minus (← Filter.ofPolicy (← r.toPolicy))).policy
  | .binary .intersection l r => do
    let f ← Filter.ofPolicy (← l.toPolicy)
    return (f.and (← Filter.ofPolicy (← r.toPolicy))).policy
  | .binary .union l r => do
    let f ← Filter.ofPolicy (← l.toPolicy)
    return (f.or (← Filter.ofPolicy (← r.toPolicy))).policy

end Expr

/-- Why a text is no policy. -/
inductive TextError where
  | malformed (d : Diagnostic)
  | illTyped (e : PolicyError)
  deriving DecidableEq

namespace Policy

/-- The written form of a policy without handles. -/
def text (p : Policy) : String := p.render fun _ => ""

def ofText (s : String) : Except TextError Policy :=
  match Expr.ofText s with
  | .error d => .error (.malformed d)
  | .ok e =>
    match e.toPolicy with
    | .error e => .error (.illTyped e)
    | .ok p => .ok p

end Policy

end PacketPolicy

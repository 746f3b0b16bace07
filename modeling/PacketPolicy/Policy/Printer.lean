import PacketPolicy.Policy.Filter
import PacketPolicy.Text.Outline

/-!
# Printing policies

The written form of a policy is read back by the policy language, sinks and handles
apart. Its outline shows how it is put together.
-/

namespace PacketPolicy

/-!
## Written form

The form of what a handle refers to is a parameter.
-/

namespace Policy

/-- Has to be parenthesised as an operand. -/
def isCompound : Policy → Bool
  | .parallel ps => ps.length > 1
  | .union ps => ps.length > 1
  | .sequential ps => ps.length > 1
  | .intersection ps => ps.length > 1
  | .difference _ _ => true
  | _ => false

/-- The written form of an operand. -/
def asOperand (p : Policy) (written : String) : String :=
  if p.isCompound then "(" ++ written ++ ")" else written

/-- The written form of a list of operands. -/
def joined (separator none : String) (operands : List String) : String :=
  if operands.isEmpty then none else separator.intercalate operands

mutual

/-- The written form, where `env` gives the form of what a handle refers to. -/
def render (env : Handle → String) : Policy → String
  | .identity => "identity"
  | .drop => "drop"
  | .test m => "match(" ++ m.render ++ ")"
  | .modify m => "modify(" ++ m.render ++ ")"
  | .controller => "controller"
  | .query s => s.render
  | .negate p => "~" ++ p.asOperand (render env p)
  | .parallel ps => joined " + " "drop" (renderOperands env ps)
  | .union ps => joined " | " "drop" (renderOperands env ps)
  | .sequential ps => joined " >> " "identity" (renderOperands env ps)
  | .intersection ps => joined " & " "identity" (renderOperands env ps)
  | .difference p q => p.asOperand (render env p) ++ " - " ++ q.asOperand (render env q)
  | .conditional c p q =>
    "if(" ++ render env c ++ ", " ++ render env p ++ ", " ++ render env q ++ ")"
  | .forward port => "fwd(" ++ Decimal.text port.toInt ++ ")"
  | .exclusive port => "xfwd(" ++ Decimal.text port.toInt ++ ")"
  | .link l => "link(" ++ ", ".intercalate (l.numbers.map fun n => Decimal.text n.toInt) ++ ")"
  | .dynamic h => "dynamic(" ++ env h ++ ")"

def renderOperands (env : Handle → String) : List Policy → List String
  | [] => []
  | p :: ps => p.asOperand (render env p) :: renderOperands env ps

end

theorem renderOperands_eq_map (env : Handle → String) (ps : List Policy) :
    renderOperands env ps = ps.map fun p => p.asOperand (render env p) := by
  induction ps with
  | nil => rfl
  | cons p ps ih => simp [renderOperands, ih]

end Policy

/-- What is wrong, with policies in the given written form. -/
def PolicyError.message (render : Policy → String) : PolicyError → String
  | .emptyMatch => "match requires at least one field"
  | .emptyModification => "modify requires at least one field"
  | .notAFilter p => "'" ++ render p ++ "' is not a filter"

/-!
## Outlines

A policy by its parts, with defined forms shown both as they were written and as
what they stand for.
-/

def Value.outline : Value → String
  | .int n => Outline.call "Int" [Decimal.text n.toInt]
  | .text s => Outline.call "String" [Outline.text s]
  | .address a => Outline.call "Ip" [a.render]

def Pattern.outline : Pattern → String
  | .exactly v => Outline.call "Exact" [v.outline]
  | .within n =>
    Outline.call "Prefix" [Outline.record "Ipv4Network"
      [("addr", n.address.render), ("prefix", Decimal.natText n.length)]]

def Match.outline (m : Match) : String :=
  Outline.record "HeaderMatch"
    [("fields", Outline.map (m.fields.entries.map fun e => (e.1, e.2.outline)))]

def Modification.outlineWrite : Option Value → String
  | none => "None"
  | some v => Outline.call "Some" [v.outline]

def Modification.outline (m : Modification) : String :=
  Outline.record "HeaderModify"
    [("fields", Outline.map (m.fields.entries.map fun e => (e.1, outlineWrite e.2)))]

def Link.outline (l : Link) : String :=
  Outline.record "Link" [("switch_out", Decimal.text l.source.switch.toInt),
    ("port_out", Decimal.text l.source.port.toInt),
    ("switch_in", Decimal.text l.target.switch.toInt),
    ("port_in", Decimal.text l.target.port.toInt)]

namespace Handle

/-- A handle by what it refers to, its kind, and whether its definition is observed. -/
def outline (h : Handle) (definition : String) (observed : Bool) : String :=
  let yesNo (b : Bool) := if b then "true" else "false"
  Outline.record "DynamicPolicy"
    [("policy", definition), ("filter", yesNo h.isFilter), ("attached", yesNo observed)]

end Handle

namespace Policy

def outlineTest (m : Match) : String := Outline.call "Match" [m.outline]

def outlineModify (m : Modification) : String := Outline.call "Modify" [m.outline]

def outlineNegate (p : String) : String := Outline.call "Negate" [p]

def outlineFilter (p : String) : String := Outline.call "Filter" [p]

def outlineList (name : String) (ps : List String) : String := Outline.call name [Outline.list ps]

/-- A defined form and what it stands for. -/
def outlineDefined (form expansion : String) : String :=
  Outline.call "Derived" [Outline.record "Derived" [("form", form), ("policy", expansion)]]

def outlineForward (port : Int64) : String :=
  outlineDefined (Outline.call "Forward" [Decimal.text port.toInt]) (outlineModify (.leaveBy port))

mutual

/-- The outline, where `sink` and `handle` give those of sinks and handles. -/
def outline (sink : Sink → String) (handle : Handle → String) : Policy → String
  | .identity => "Identity"
  | .drop => "Drop"
  | .test m => outlineTest m
  | .modify m => outlineModify m
  | .controller => "Controller"
  | .query s => Outline.call "Query" [sink s]
  | .negate p => outlineNegate (outline sink handle p)
  | .parallel ps => outlineList "Parallel" (outlines sink handle ps)
  | .union ps => outlineList "Union" (outlines sink handle ps)
  | .sequential ps => outlineList "Sequential" (outlines sink handle ps)
  | .intersection ps => outlineList "Intersection" (outlines sink handle ps)
  | .difference p q =>
    let p := outline sink handle p
    let q := outline sink handle q
    outlineDefined (Outline.call "Difference" [outlineFilter p, outlineFilter q])
      (outlineList "Intersection" [p, outlineNegate q])
  | .conditional c p q =>
    let c := outline sink handle c
    let p := outline sink handle p
    let q := outline sink handle q
    outlineDefined
      (Outline.record "Conditional"
        [("predicate", outlineFilter c), ("then", p), ("otherwise", q)])
      (outlineList "Parallel"
        [outlineList "Sequential" [c, p], outlineList "Sequential" [outlineNegate c, q]])
  | .forward port => outlineForward port
  | .exclusive port =>
    outlineDefined (Outline.call "ExclusiveForward" [Decimal.text port.toInt])
      (outlineList "Sequential"
        [outlineNegate (outlineTest (.int "inport" port)), outlineForward port])
  | .link l =>
    outlineDefined l.outline
      (outlineList "Sequential"
        [outlineTest (.atPort "outport" l.source), outlineModify (.comeInAt l.target)])
  | .dynamic h => Outline.call "Dynamic" [handle h]

def outlines (sink : Sink → String) (handle : Handle → String) : List Policy → List String
  | [] => []
  | p :: ps => outline sink handle p :: outlines sink handle ps

end

end Policy

end PacketPolicy

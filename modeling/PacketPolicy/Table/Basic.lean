import PacketPolicy.Header.Match
import PacketPolicy.Header.Modification

/-!
# Rule tables

A table is a list of rules, and the first rule whose predicate accepts a packet
decides what happens to it. A table need not accept every packet.
-/

namespace PacketPolicy

/-!
## Sinks and actions

A sink consumes packets for a query. It is known by its kind and its number; what
it holds is kept elsewhere. An action is what a rule does with a packet.
-/

inductive SinkKind where
  | forward
  | count
  deriving DecidableEq

structure Sink where
  kind : SinkKind
  id : Nat
  deriving DecidableEq

def Sink.render (s : Sink) : String :=
  match s.kind with
  | .forward => "fwd_bucket"
  | .count => "count_bucket"

inductive Action where
  | identity
  | drop
  | modify (m : Modification)
  | controller
  | query (s : Sink)
  deriving DecidableEq

namespace Action

instance : Inhabited Action := ⟨.drop⟩

/-- The packet leaves the table: nothing that comes after the action sees it. -/
def isTerminal : Action → Bool
  | .controller => true
  | .query _ => true
  | _ => false

/-- The packet that the action passes on, if it passes any on. -/
def output? : Action → Packet → Option Packet
  | .identity, pkt => some pkt
  | .modify m, pkt => some (m.apply pkt)
  | _, _ => none

/-- The sink that the action hands its packet to. -/
def sink? : Action → Option Sink
  | .query s => some s
  | _ => none

def render : Action → String
  | .identity => "identity"
  | .drop => "drop"
  | .modify m => "modify(" ++ m.render ++ ")"
  | .controller => "controller"
  | .query s => s.render

end Action

/-! ## Rules and lookups -/

structure Rule where
  predicate : Predicate
  actions : List Action
  deriving DecidableEq

namespace Rule

/-- What the actions pass on, taken together. -/
def outputs (r : Rule) (pkt : Packet) : PacketSet := .ofList (r.actions.filterMap (·.output? pkt))

/-- The sinks that the actions hand the packet to, one for each query action. -/
def sinks (r : Rule) : List Sink := r.actions.filterMap Action.sink?

def render (r : Rule) : String :=
  r.predicate.render ++ " -> [" ++ ", ".intercalate (r.actions.map Action.render) ++ "]"

end Rule

@[ext] structure Table where
  rules : List Rule
  deriving DecidableEq

namespace Table

instance : Inhabited Table := ⟨⟨[]⟩⟩

/-- One rule for every packet. -/
def single (a : Action) : Table := ⟨[⟨.identity, [a]⟩]⟩

def dropAll : Table := single .drop

def size (t : Table) : Nat := t.rules.length

/-- The first rule that accepts the packet, and the number of rules before it. -/
def find? (t : Table) (pkt : Packet) : Option (Nat × Rule) := go 0 t.rules
where
  /-- Search on, `n` rules down the table. -/
  go (n : Nat) : List Rule → Option (Nat × Rule)
    | [] => none
    | r :: rest => if r.predicate.accepts pkt then some (n, r) else go (n + 1) rest

/-- No rule accepts the packet. -/
structure NotTotal where
  packet : Packet
  deriving DecidableEq

def NotTotal.message (e : NotTotal) : String :=
  "classifier is not total: no rule matches packet " ++ e.packet.render

/-- What a lookup found and did: the position of the rule, the packets it passes on, and the
sinks that get the packet. -/
structure Report where
  index : Nat
  outputs : PacketSet
  fired : List Sink
  deriving DecidableEq

namespace Report

def render (r : Report) : String :=
  "rule: " ++ Decimal.natText r.index ++ ", outputs: ["
    ++ ", ".intercalate (r.outputs.listed.map Packet.render) ++ "]"

end Report

def lookup (t : Table) (pkt : Packet) : Except NotTotal Report :=
  match t.find? pkt with
  | some (index, r) => .ok { index, outputs := r.outputs pkt, fired := r.sinks }
  | none => .error ⟨pkt⟩

/-- A number in a column of at least three. -/
def column (n : Nat) : String :=
  let digits := Decimal.ofNat n
  String.ofList (List.replicate (3 - digits.length) ' ' ++ digits)

/-- A heading and one line for each rule, with its position. -/
def render (t : Table) : String :=
  "Classifier(" ++ Decimal.natText t.size ++ " rules)\n"
    ++ String.join (t.rules.mapIdx fun i r => "  " ++ column i ++ ": " ++ r.render ++ "\n")

end Table

end PacketPolicy

import PacketPolicy.Header.Packet

/-!
# Tests of packets

A pattern tests one header, and a match some of them. Predicates are closed under
conjunction, which matches are not.
-/

namespace PacketPolicy

/-!
## Patterns

A pattern says which values of one header are accepted: a single value, or every
address of a network. A pattern is canonical when it does not single out an
address by value and its network is normal; then different patterns accept
different values.
-/

inductive Pattern where
  | exactly (v : Value)
  | within (n : Ipv4.Network)
  deriving DecidableEq

namespace Pattern

/-- The addresses of a network, whatever its bits after the length. -/
def ofNetwork (n : Ipv4.Network) : Pattern := .within n.normalize

/-- The pattern of one value; an address is written as its own network. -/
def ofValue : Value → Pattern
  | .address a => .within (.host a)
  | v => .exactly v

def IsCanonical : Pattern → Prop
  | .exactly (.address _) => False
  | .exactly _ => True
  | .within n => n.IsNormal

instance : (p : Pattern) → Decidable p.IsCanonical
  | .exactly (.address _) => isFalse id
  | .exactly (.int _) => isTrue trivial
  | .exactly (.text _) => isTrue trivial
  | .within n => inferInstanceAs (Decidable n.IsNormal)

def accepts : Pattern → Value → Bool
  | .exactly v, w => v == w
  | .within n, .address a => n.contains a
  | .within _, _ => false

/-- The pattern of the values that both accept, if there are any. Of two networks one inside
the other, the inner one. -/
def meet? : Pattern → Pattern → Option Pattern
  | .exactly v, .exactly w => if v = w then some (.exactly v) else none
  | .within m, .within n =>
    if n.covers m then some (.within m) else if m.covers n then some (.within n) else none
  | .exactly v, .within n => if accepts (.within n) v then some (.exactly v) else none
  | .within m, .exactly w => if accepts (.within m) w then some (.exactly w) else none

/-- Every value that the second accepts, the first accepts. -/
def covers : Pattern → Pattern → Bool
  | .exactly v, .exactly w => v == w
  | .within m, .within n => m.covers n
  | .within m, .exactly w => accepts (.within m) w
  | .exactly _, .within _ => false

/-- A network of one address is written as that address. -/
def render : Pattern → String
  | .exactly v => v.render
  | .within n => if n.length = 32 then n.base.render else n.normalize.render

/-- Every text is a pattern: a 64-bit integer, else an address or network, else itself. -/
def ofText (s : String) : Pattern :=
  match Decimal.int64? s.toList with
  | some n => .exactly (.int n)
  | none =>
    match Ipv4.Network.ofText? s with
    | some n => .ofNetwork n
    | none => .exactly (.text s)

theorem isCanonical_ofNetwork (n : Ipv4.Network) : (ofNetwork n).IsCanonical :=
  n.isNormal_normalize

end Pattern

/-!
## Matches

A match constrains some headers by one pattern each and accepts the packets that
carry all those headers with accepted values. A match that constrains nothing
accepts every packet; the constructor `ofList?` refuses to build one.
-/

@[ext] structure Match where
  fields : SortedMap String Pattern
  deriving DecidableEq

namespace Match

instance : Inhabited Match := ⟨⟨.empty⟩⟩

/-- Nothing for no fields; of two patterns for one header the later stays. -/
def ofList? (fields : List (String × Pattern)) : Option Match :=
  if fields.isEmpty then none else some ⟨.ofList fields⟩

/-- The match of one header or more. -/
def ofHead (field : String) (p : Pattern) (rest : List (String × Pattern)) : Match :=
  ⟨.ofList ((field, p) :: rest)⟩

def single (field : String) (p : Pattern) : Match := ofHead field p []

/-- The packets whose header is an integer. -/
def int (field : String) (n : Int64) : Match := single field (.exactly (.int n))

/-- The packets that are at a location, their port being the one in the given header. -/
def atPort (port : String) (l : Location) : Match :=
  ofHead "switch" (.exactly (.int l.switch)) [(port, .exactly (.int l.port))]

def get? (m : Match) (field : String) : Option Pattern := m.fields.get? field

def accepts (m : Match) (pkt : Packet) : Bool :=
  m.fields.entries.all fun e => (pkt.get? e.1).any e.2.accepts

/-- The constraints of both, unless some header has no value that satisfies both. -/
def meet? (m n : Match) : Option Match :=
  (m.fields.mergeWith? Pattern.meet? n.fields).map Match.mk

/-- Every constraint of the first is implied by one of the second. -/
def covers (m n : Match) : Bool :=
  m.fields.entries.all fun e => (n.get? e.1).any e.2.covers

/-- Forget the constraints on some headers; nothing if no constraint is left. -/
def without? (m : Match) (fields : List String) : Option Match :=
  let left := fields.foldl SortedMap.erase m.fields
  if left.isEmpty then none else some ⟨left⟩

def IsCanonical (m : Match) : Prop :=
  m.fields.isEmpty = false ∧ ∀ e ∈ m.fields.entries, e.2.IsCanonical

instance (m : Match) : Decidable m.IsCanonical := inferInstanceAs (Decidable (_ ∧ _))

def render (m : Match) : String :=
  ", ".intercalate (m.fields.entries.map fun e => e.1 ++ "=" ++ e.2.render)

end Match

/-!
## Predicates

A predicate is a match, or accepts every packet, or none.
-/

inductive Predicate where
  | identity
  | drop
  | test (m : Match)
  deriving DecidableEq

namespace Predicate

instance : Inhabited Predicate := ⟨.identity⟩

def accepts : Predicate → Packet → Bool
  | .identity, _ => true
  | .drop, _ => false
  | .test m, pkt => m.accepts pkt

/-- The conjunction; matches that contradict each other give `drop`. -/
def meet : Predicate → Predicate → Predicate
  | .drop, _ => .drop
  | _, .drop => .drop
  | .identity, p => p
  | p, .identity => p
  | .test m, .test n => (m.meet? n).elim .drop .test

/-- Every packet that the second accepts, the first accepts. -/
def covers : Predicate → Predicate → Bool
  | .identity, _ => true
  | _, .drop => true
  | .drop, _ => false
  | .test _, .identity => false
  | .test m, .test n => m.covers n

def IsCanonical : Predicate → Prop
  | .test m => m.IsCanonical
  | _ => True

instance : (p : Predicate) → Decidable p.IsCanonical
  | .identity => isTrue trivial
  | .drop => isTrue trivial
  | .test m => inferInstanceAs (Decidable m.IsCanonical)

def render : Predicate → String
  | .identity => "identity"
  | .drop => "drop"
  | .test m => "match(" ++ m.render ++ ")"

end Predicate

end PacketPolicy

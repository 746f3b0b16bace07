import PacketPolicy.Header.Match

/-!
# Sinks

Packets wait in a buffer, in the order in which they came, until all of them are
taken out at once. A forward sink then delivers them, and a count sink counts them.
-/

namespace PacketPolicy

structure Buffer where
  packets : List Packet := []
  deriving DecidableEq

namespace Buffer

def insert (b : Buffer) (p : Packet) : Buffer := ⟨b.packets ++ [p]⟩

/-- All packets, and the empty buffer. -/
def drain (b : Buffer) : List Packet × Buffer := (b.packets, ⟨[]⟩)

def size (b : Buffer) : Nat := b.packets.length

end Buffer

/-!
## Forward sinks

A forward sink passes each of its packets to everyone who asked for them. Emptying
it takes two steps, between which more packets may come in: the packets are taken
out, and then delivered.
-/

structure ForwardSink where
  buffer : Buffer := {}
  /-- Who gets the packets, in the order of registration. -/
  callbacks : List String := []
  deriving DecidableEq

/-- A packet passed to one who asked for it. -/
structure Delivery where
  callback : String
  packet : Packet
  deriving DecidableEq

namespace ForwardSink

def register (s : ForwardSink) (callback : String) : ForwardSink :=
  { s with callbacks := s.callbacks ++ [callback] }

def insert (s : ForwardSink) (p : Packet) : ForwardSink := { s with buffer := s.buffer.insert p }

/-- Take all waiting packets out. -/
def drain (s : ForwardSink) : List Packet × ForwardSink :=
  let (batch, buffer) := s.buffer.drain
  (batch, { s with buffer })

/-- Each packet of a batch goes to each of those now registered. -/
def deliver (s : ForwardSink) (batch : List Packet) : List Delivery :=
  batch.flatMap fun p => s.callbacks.map fun c => ⟨c, p⟩

/-- Both steps, with nothing in between. Gives the number of packets. -/
def apply (s : ForwardSink) : Nat × ForwardSink × List Delivery :=
  let (batch, s) := s.drain
  (batch.length, s, s.deliver batch)

end ForwardSink

/-!
## Count sinks

A count sink totals packets and bytes. What reaches it as packets is added to the
persistent totals. What switches count by themselves is asked for in rounds: a
pull starts from the persistent totals and asks the switches, and each reply adds
the counts of the rules that belong to the sink. When the last reply of a round
is in, the totals are reported. Totals are 64-bit words and run over at the end.
-/

structure Counts where
  packets : UInt64 := 0
  bytes : UInt64 := 0
  deriving DecidableEq

namespace Counts

def add (a b : Counts) : Counts := ⟨a.packets + b.packets, a.bytes + b.bytes⟩

/-- The length that a header gives; none if it is missing, negative or no integer. -/
def headerLength (p : Packet) (field : String) : UInt64 :=
  match (p.get? field).bind Value.asInt? with
  | some n => .ofNat n.toNatClampNeg
  | none => 0

def ofPacket (p : Packet) : Counts :=
  ⟨1, headerLength p "header_len" + headerLength p "payload_len"⟩

end Counts

/-- How to ask for statistics: the switches from which replies are then expected. -/
structure StatsQuery where
  tag : String
  switches : List Int64
  deriving DecidableEq

/-- What a switch counted for one of its rules. The rule's predicate may be unknown. -/
structure FlowStat where
  predicate : Option Predicate
  counts : Counts
  deriving DecidableEq

structure CountSink where
  buffer : Buffer := {}
  /-- Who gets the totals, in the order of registration. -/
  callbacks : List String := []
  /-- The rules of the sink are being replaced; statistics have to wait. -/
  updating : Bool := false
  /-- The predicates of the rules whose counts belong to the sink. -/
  matched : List Predicate := []
  query : Option StatsQuery := none
  /-- The switches whose replies are awaited, as often as they are. -/
  outstanding : List Int64 := []
  current : Counts := {}
  persistent : Counts := {}
  deriving DecidableEq

/-- What a count sink does to others. -/
inductive CountEvent where
  | asked (tag : String)
  | reported (callback : String) (counts : Counts)
  deriving DecidableEq

namespace CountSink

def register (s : CountSink) (callback : String) : CountSink :=
  { s with callbacks := s.callbacks ++ [callback] }

def insert (s : CountSink) (p : Packet) : CountSink := { s with buffer := s.buffer.insert p }

/-- Take all waiting packets out. -/
def drain (s : CountSink) : List Packet × CountSink :=
  let (batch, buffer) := s.buffer.drain
  (batch, { s with buffer })

/-- Add a batch of packets to the persistent totals. -/
def fold (s : CountSink) (batch : List Packet) : CountSink :=
  { s with persistent := batch.foldl (fun acc p => acc.add (Counts.ofPacket p)) s.persistent }

/-- Take all waiting packets out and add them at once. Gives the number of packets. -/
def apply (s : CountSink) : Nat × CountSink :=
  let (batch, s) := s.drain
  (batch.length, s.fold batch)

/-- Forget the rules of the sink and the round that is going on. -/
def beginUpdate (s : CountSink) : CountSink :=
  { s with updating := true, matched := [], query := none, outstanding := [] }

def endUpdate (s : CountSink) : CountSink := { s with updating := false }

def addMatch (s : CountSink) (p : Predicate) : CountSink :=
  { s with matched := s.matched.insert p }

/-- The first query stays until the next update. -/
def setQuery (s : CountSink) (q : StatsQuery) : CountSink :=
  { s with query := s.query.or (some q) }

def addOutstanding (s : CountSink) (switch : Int64) : CountSink :=
  { s with outstanding := s.outstanding ++ [switch] }

def report (s : CountSink) : List CountEvent := s.callbacks.map fun c => .reported c s.current

/-- Start a round; without a query the totals are reported at once. -/
def pull (s : CountSink) : CountSink × List CountEvent :=
  let s := { s with current := s.persistent }
  match s.query with
  | some q => (q.switches.foldl addOutstanding { s with outstanding := [] }, [.asked q.tag])
  | none => (s, s.report)

/-- The counts of a rule belong to the sink if its predicate does, alone or on that switch. -/
def attributes (s : CountSink) (switch : Int64) (p : Predicate) : Bool :=
  p.meet (.test (.int "switch" switch)) ∈ s.matched || p ∈ s.matched

/-- What a reply adds to the totals. -/
def attributed (s : CountSink) (switch : Int64) (stats : List FlowStat) : List Counts :=
  (stats.filter fun stat => stat.predicate.any (s.attributes switch)).map FlowStat.counts

/-- Take a reply; one that is not awaited is ignored. The last one ends the round. -/
def reply (s : CountSink) (switch : Int64) (stats : List FlowStat) :
    CountSink × List CountEvent :=
  if switch ∈ s.outstanding then
    let s := { s with
      current := (s.attributed switch stats).foldl Counts.add s.current
      outstanding := s.outstanding.erase switch }
    (s, if s.outstanding.isEmpty then s.report else [])
  else (s, [])

/-- A call that waits for the end of an update: nothing, while there is one. -/
def whenIdle {α : Type} (s : CountSink) (call : CountSink → α) : Option α :=
  if s.updating then none else some (call s)

end CountSink

end PacketPolicy

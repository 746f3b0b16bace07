import PacketPolicy.Controller.Store
import PacketPolicy.Sinks

/-!
# The controller

The state that changes while a network runs: the definitions of handles, the
sinks with their waiting packets, the tables in force and the policies that
follow the network. Each step gives the next state and what others are told.
-/

namespace PacketPolicy

/-!
## Topology

What a snapshot of the network says: where packets leave it, and along which ports
of each switch a broadcast reaches every switch once. Three policies are made
from it: flooding, and the filters of packets that come in or leave at the edge.
-/

abbrev Ports := SortedSet Int64

structure SpanningTree where
  nodes : SortedMap Int64 Ports := .empty
  deriving DecidableEq

namespace SpanningTree

/-- Add ports to a switch. -/
def addNode (t : SpanningTree) (switch : Int64) (ports : List Int64) : SpanningTree :=
  ⟨t.nodes.insert switch (((t.nodes.get? switch).getD .empty).union (.ofList ports))⟩

def ofList (nodes : List (Int64 × List Int64)) : SpanningTree :=
  nodes.foldl (fun t n => t.addNode n.1 n.2) {}

/-- On each switch, forward to all its ports but the one that the packet came in by. -/
def flood (t : SpanningTree) : Policy :=
  .parallelOf <| t.nodes.entries.map fun n =>
    (Policy.test (.int "switch" n.1)).andThen (.parallelOf (n.2.toList.map .exclusive))

end SpanningTree

structure Topology where
  egress : SortedSet Location := .empty
  tree : SpanningTree := {}
  deriving DecidableEq

/-- The side of the network's edge that a filter looks at. -/
inductive Side where
  | ingress
  | egress
  deriving DecidableEq

/-- The header that holds the port. -/
def Side.port : Side → String
  | .ingress => "inport"
  | .egress => "outport"

/-- The packets at one of the locations. -/
def edgeFilter (side : Side) (locations : SortedSet Location) : Filter :=
  .unionOf (locations.toList.map fun l => .test (.atPort side.port l))

/-- A policy that follows the network. It remembers the part of the last snapshot that it was
made from. -/
inductive Reactive where
  | flood (last : Option SpanningTree)
  | edge (side : Side) (last : Option (SortedSet Location))
  deriving DecidableEq

namespace Reactive

/-- The new definition, if the snapshot differs from the last one in what matters. -/
def update (r : Reactive) (t : Topology) : Option (Policy × Reactive) :=
  match r with
  | .flood last => if last = some t.tree then none else some (t.tree.flood, .flood (some t.tree))
  | .edge side last =>
    if last = some t.egress then none
    else some ((edgeFilter side t.egress).policy, .edge side (some t.egress))

end Reactive

/-! ## States and steps -/

/-- What a step tells others, in order. -/
inductive Event where
  /-- A handle with this observer has a new definition, in its written form. -/
  | redefined (tag : String) (definition : String)
  /-- A table was compiled again and has this many rules. -/
  | recompiled (table : String) (rules : Nat)
  /-- A table could not be compiled again; the old one stays. -/
  | outdated (table : String) (e : CompileError)
  | delivered (d : Delivery)
  | counted (e : CountEvent)
  deriving DecidableEq

/-- A reactive policy and the handle under which it is used. -/
structure ReactivePolicy where
  handle : Handle
  source : Reactive
  deriving DecidableEq

structure Controller where
  store : Store := {}
  forwardSinks : List ForwardSink := []
  countSinks : List CountSink := []
  tables : SortedMap String Table := .empty
  reactive : List ReactivePolicy := []
  deriving DecidableEq

namespace Controller

instance : Inhabited Controller := ⟨{}⟩

variable (c : Controller)

/-! ### Sinks -/

def newSink (kind : SinkKind) : Sink × Controller :=
  match kind with
  | .forward =>
    (⟨.forward, c.forwardSinks.length⟩, { c with forwardSinks := c.forwardSinks ++ [{}] })
  | .count =>
    (⟨.count, c.countSinks.length⟩, { c with countSinks := c.countSinks ++ [{}] })

def forwardSink (s : Sink) : ForwardSink := c.forwardSinks[s.id]?.getD {}

def countSink (s : Sink) : CountSink := c.countSinks[s.id]?.getD {}

def setForwardSink (s : Sink) (f : ForwardSink) : Controller :=
  { c with forwardSinks := c.forwardSinks.set s.id f }

def setCountSink (s : Sink) (f : CountSink) : Controller :=
  { c with countSinks := c.countSinks.set s.id f }

def insert (s : Sink) (p : Packet) : Controller :=
  match s.kind with
  | .forward => c.setForwardSink s ((c.forwardSink s).insert p)
  | .count => c.setCountSink s ((c.countSink s).insert p)

def register (s : Sink) (callback : String) : Controller :=
  match s.kind with
  | .forward => c.setForwardSink s ((c.forwardSink s).register callback)
  | .count => c.setCountSink s ((c.countSink s).register callback)

/-- The number of packets that wait in a sink. -/
def buffered (s : Sink) : Nat :=
  match s.kind with
  | .forward => (c.forwardSink s).buffer.size
  | .count => (c.countSink s).buffer.size

/-- Empty a sink: deliver or count what waits in it. Gives the number of packets. -/
def apply (s : Sink) : Nat × Controller × List Event :=
  match s.kind with
  | .forward =>
    let (n, f, deliveries) := (c.forwardSink s).apply
    (n, c.setForwardSink s f, deliveries.map .delivered)
  | .count =>
    let (n, f) := (c.countSink s).apply
    (n, c.setCountSink s f, [])

/-- A call to a count sink that waits for the end of an update: nothing, while there is one. -/
def whenIdle (s : Sink) (call : CountSink → CountSink × List CountEvent) :
    Option (Controller × List Event) :=
  (c.countSink s).whenIdle fun f =>
    let (f, events) := call f
    (c.setCountSink s f, events.map .counted)

/-! ### Packets -/

/-- Each arrival is put into its sink. -/
def receive (arrivals : List Arrival) : Controller :=
  arrivals.foldl (fun c a => c.insert a.sink a.packet) c

/-- Evaluate a policy on a packet; what arrives at sinks waits there. -/
def eval (p : Policy) (pkt : Packet) : PacketSet × Controller :=
  let o := c.store.eval p pkt
  (o.outputs, c.receive o.arrivals.toList)

/-- Look a packet up in a table; the sinks of the rule get the packet. -/
def lookup (t : Table) (pkt : Packet) : Except Table.NotTotal (Table.Report × Controller) := do
  let r ← t.lookup pkt
  return (r, c.receive (r.fired.map (⟨·, pkt⟩)))

/-! ### Tables -/

def table? (name : String) : Option Table := c.tables.get? name

def setTable (name : String) (t : Table) : Controller :=
  { c with tables := c.tables.insert name t }

/-- Compile a policy into a table. -/
def compile (name : String) (settings : CompileSettings) (p : Policy) :
    Except CompileError (Table × Controller) := do
  let t ← c.store.compile settings p
  return (t, c.setTable name t)

/-! ### Definitions -/

def create (p : Policy) : Handle × Controller :=
  let (h, store) := c.store.create p
  (h, { c with store })

def createFilter (f : Filter) : Handle × Controller :=
  let (h, store) := c.store.createFilter f
  (h, { c with store })

def observe (h : Handle) (o : Observer) : Controller := { c with store := c.store.observe h o }

def unobserve (h : Handle) : Controller := { c with store := c.store.unobserve h }

/-- Compile a policy again into a table; if that fails, the table stays. -/
def recompile (table : String) (p : Policy) : Controller × List Event :=
  match c.compile table {} p with
  | .ok (t, c) => (c, [.recompiled table t.size])
  | .error e => (c, [.outdated table e])

/-- Tell the observer of a handle that its definition is new. -/
def notify (h : Handle) : Controller × List Event :=
  match c.store.observer h with
  | none => (c, [])
  | some (.log tag) => (c, [.redefined tag (c.store.render (c.store.definition h))])
  | some (.recompile table p) => c.recompile table p

/-- Give a handle a new definition and tell its observer. -/
def define (h : Handle) (p : Policy) : Controller × List Event :=
  { c with store := c.store.define h p : Controller }.notify h

/-- The same, if the handle may have that definition. A refusal is told to nobody else. -/
def redefine (h : Handle) (p : Policy) : Except PolicyError Unit × Controller × List Event :=
  let (answer, store) := c.store.redefine h p
  let c : Controller := { c with store }
  match answer with
  | .ok () => (answer, c.notify h)
  | .error _ => (answer, c, [])

/-- Compile a policy into a table, and compile it again whenever a handle that it now depends on
gets a new definition. Gives those handles. -/
def run (table : String) (p : Policy) : Except CompileError (List Handle × Controller) := do
  let (_, c) ← c.compile table {} p
  let handles := c.store.handles p
  return (handles, handles.foldl (fun c h => c.observe h (.recompile table p)) c)

/-! ### Policies that follow the network -/

/-- Flooding drops everything until the network is known. Gives the number of the policy. -/
def createFlood : Nat × Handle × Controller :=
  let (h, c) := c.create .drop
  (c.reactive.length, h, { c with reactive := c.reactive ++ [⟨h, .flood none⟩] })

/-- An edge filter accepts nothing until the network is known. -/
def createEdge (side : Side) : Nat × Handle × Controller :=
  let (h, c) := c.createFilter .drop
  (c.reactive.length, h, { c with reactive := c.reactive ++ [⟨h, .edge side none⟩] })

/-- Show a snapshot of the network to one reactive policy. -/
def setNetwork (i : Nat) (t : Topology) : Controller × List Event :=
  match c.reactive[i]? with
  | none => (c, [])
  | some r =>
    match r.source.update t with
    | none => (c, [])
    | some (p, source) =>
      { c with reactive := c.reactive.set i { r with source } : Controller }.define r.handle p

/-- Show a snapshot to some reactive policies, one after the other. -/
def setNetworks (t : Topology) : List Nat → Controller → Controller × List Event
  | [], c => (c, [])
  | i :: rest, c =>
    let (c, events) := c.setNetwork i t
    let (c, more) := setNetworks t rest c
    (c, events ++ more)

end Controller

/-!
## Outlines of sinks and handles

Sinks by how much they hold, and handles by what they refer to.
-/

def ForwardSink.outline (s : ForwardSink) : String :=
  Outline.partialRecord "FwdBucket" [("buffered", Decimal.natText s.buffer.size)]

def Counts.outline (c : Counts) : String :=
  Outline.record "Counts"
    [("packets", Decimal.natText c.packets.toNat), ("bytes", Decimal.natText c.bytes.toNat)]

def CountSink.outline (s : CountSink) : String :=
  Outline.partialRecord "CountBucket"
    [("buffered", Decimal.natText s.buffer.size), ("persistent", s.persistent.outline)]

namespace Controller

variable (c : Controller)

def outlineSink (s : Sink) : String :=
  match s.kind with
  | .forward => Outline.call "Forward" [(c.forwardSink s).outline]
  | .count => Outline.call "Count" [(c.countSink s).outline]

/-- A policy, given the outlines of what its handles refer to. -/
def outlineWith (env : Handle → String) (p : Policy) : String :=
  p.outline c.outlineSink fun h => h.outline (env h) (c.store.isObserved h)

def outlineHandle (h : Handle) : String :=
  h.outline (c.store.reading c.outlineWith "" (c.store.definition h)) (c.store.isObserved h)

end Controller

end PacketPolicy

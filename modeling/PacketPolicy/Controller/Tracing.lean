import PacketPolicy.Controller.State

/-!
# Evaluation step by step

A policy is run on a packet part by part, and notes are taken whenever a packet arrives
at a sink. The kind of the notes is the mode of the run: for its effect on sinks, for
its outputs alone, or to learn which sinks are reached. Where several packets are under
way they are taken one after the other, in any order; a schedule gives that order.
-/

namespace PacketPolicy

/-- What a run has noted of the packets that arrived at sinks. -/
inductive Notes where
  /-- Each packet at each sink, to be put into the sinks after the run. -/
  | live (arrivals : List Arrival)
  /-- Nothing. -/
  | dry
  /-- The sinks alone. -/
  | collect (sinks : List Sink)
  deriving DecidableEq

namespace Notes

/-- A packet arrives at a sink; what is noted already is not noted again. -/
def add (s : Sink) (p : Packet) : Notes → Notes
  | .live l => .live (if ⟨s, p⟩ ∈ l then l else l ++ [⟨s, p⟩])
  | .dry => .dry
  | .collect l => .collect (if s ∈ l then l else l ++ [s])

/-- What is to be put into sinks. -/
def arrivals : Notes → List Arrival
  | .live l => l
  | _ => []

/-- The sinks that were collected. -/
def reached : Notes → List Sink
  | .collect l => l
  | _ => []

end Notes

/-- In which order the packets of a set are taken. Each time that a set is gone through is a turn,
and the order may change from turn to turn. -/
structure Schedule where
  order : Nat → PacketSet → List Packet
  perm : ∀ turn s, (order turn s).Perm s.toList

/-- Packets are taken in their own order. -/
def Schedule.sorted : Schedule := ⟨fun _ s => s.toList, fun _ _ => .refl _⟩

structure Progress where
  notes : Notes
  /-- How many sets have been gone through. -/
  turns : Nat := 0

/-- One piece of work: the packets that it passes on, and the progress after it. -/
abbrev Work := Progress → PacketSet × Progress

/-- What is done with each packet. -/
abbrev Process := Packet → Work

namespace Work

/-- Pieces of work one after the other; what they pass on is put together. -/
def gather : List Work → PacketSet → Work
  | [], out, st => (out, st)
  | w :: rest, out, st =>
    let next := w st
    gather rest (out.union next.1) next.2

end Work

/-- What is done at one place of a sequence. -/
inductive Stage where
  /-- All packets go on. -/
  | skip
  /-- No packet goes on. -/
  | block
  | run (w : Process)

namespace Process

def pass : Process := fun p st => (.singleton p, st)

def stop : Process := fun _ st => (.empty, st)

def test (m : Match) : Process := fun p st =>
  (if m.accepts p then .singleton p else .empty, st)

def modify (m : Modification) : Process := fun p st => (.singleton (m.apply p), st)

def query (s : Sink) : Process := fun p st => (.empty, { st with notes := st.notes.add s p })

def negate (w : Process) : Process := fun p st =>
  let inner := w p st
  (if inner.1.isEmpty then .singleton p else .empty, inner.2)

def beside (ws : List Process) : Process := fun p => Work.gather (ws.map (· p)) .empty

/-- A turn: all packets of a set, in the order that the schedule gives. -/
def onAll (o : Schedule) (w : Process) (s : PacketSet) : Work := fun st =>
  Work.gather ((o.order st.turns s).map w) .empty { st with turns := st.turns + 1 }

/-- Each stage on what the one before it passes on, until nothing is. -/
def through (o : Schedule) : List Stage → PacketSet → Work
  | [], current, st => (current, st)
  | .skip :: rest, current, st => through o rest current st
  | .block :: _, _, st => (.empty, st)
  | .run w :: rest, current, st =>
    let next := onAll o w current st
    if next.1.isEmpty then next else through o rest next.1 next.2

def along (o : Schedule) (stages : List Stage) : Process := fun p => through o stages (.singleton p)

end Process

namespace Policy

/-- A policy that passes everything or nothing needs no turn in a sequence. -/
def stage (w : Process) : Policy → Stage
  | .identity => .skip
  | .drop => .block
  | _ => .run w

mutual

/-- What a policy does with each packet, where `env` tells what handles do. -/
def process (o : Schedule) (env : Handle → Process) : Policy → Process
  | .identity => .pass
  | .drop => .stop
  | .test m => .test m
  | .modify m => .modify m
  | .controller => .stop
  | .query s => .query s
  | .negate p => .negate (process o env p)
  | .parallel ps => .beside (processes o env ps)
  | .union ps => .beside (processes o env ps)
  | .sequential ps => .along o (stages o env ps)
  | .intersection ps => .along o (stages o env ps)
  | .difference p q =>
    .along o [p.stage (process o env p), .run (.negate (process o env q))]
  | .conditional c p q =>
    .beside [.along o [c.stage (process o env c), p.stage (process o env p)],
      .along o [.run (.negate (process o env c)), q.stage (process o env q)]]
  | .forward port => .modify (.leaveBy port)
  | .exclusive port =>
    .along o [.run (.negate (.test (.int "inport" port))), .run (.modify (.leaveBy port))]
  | .link l =>
    .along o [.run (.test (.atPort "outport" l.source)), .run (.modify (.comeInAt l.target))]
  | .dynamic h => env h

def processes (o : Schedule) (env : Handle → Process) : List Policy → List Process
  | [] => []
  | p :: ps => process o env p :: processes o env ps

def stages (o : Schedule) (env : Handle → Process) : List Policy → List Stage
  | [] => []
  | p :: ps => p.stage (process o env p) :: stages o env ps

end

end Policy

/-- What a policy does with each packet, handles followed. -/
def Store.process (s : Store) (o : Schedule) (p : Policy) : Process :=
  s.reading (Policy.process o) .stop p

/-- What comes of a run. -/
structure Traced where
  outputs : PacketSet
  notes : Notes
  controller : Controller

/-- Run a policy on a packet. The notes at the start choose the mode; after the run the noted
arrivals are put into their sinks. -/
def Controller.trace (c : Controller) (o : Schedule) (start : Notes) (p : Policy) (pkt : Packet) :
    Traced :=
  let r := c.store.process o p pkt { notes := start }
  { outputs := r.1, notes := r.2.notes, controller := c.receive r.2.notes.arrivals }

end PacketPolicy

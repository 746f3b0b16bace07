import PacketPolicy.Policy.Basic
import PacketPolicy.Table.Merge

/-!
# Terms

A term is a policy with everything spelled out: defined forms are replaced by what
they stand for, handles by what they refer to, and filters are combined like all
other policies. Evaluation and compilation work on terms.
-/

namespace PacketPolicy

inductive Term where
  | identity
  | drop
  | test (m : Match)
  | modify (m : Modification)
  | controller
  | query (s : Sink)
  | negate (t : Term)
  | parallel (ts : List Term)
  | sequential (ts : List Term)

instance : Inhabited Term := ⟨.drop⟩

namespace Policy

mutual

/-- The term of a policy, where `env` gives that of what a handle refers to. -/
def toTerm (env : Handle → Term) : Policy → Term
  | .identity => .identity
  | .drop => .drop
  | .test m => .test m
  | .modify m => .modify m
  | .controller => .controller
  | .query s => .query s
  | .negate p => .negate (toTerm env p)
  | .parallel ps => .parallel (toTerms env ps)
  | .union ps => .parallel (toTerms env ps)
  | .sequential ps => .sequential (toTerms env ps)
  | .intersection ps => .sequential (toTerms env ps)
  | .difference p q => .sequential [toTerm env p, .negate (toTerm env q)]
  | .conditional c p q =>
    .parallel [.sequential [toTerm env c, toTerm env p],
      .sequential [.negate (toTerm env c), toTerm env q]]
  | .forward port => .modify (.leaveBy port)
  | .exclusive port => .sequential [.negate (.test (.int "inport" port)), .modify (.leaveBy port)]
  | .link l => .sequential [.test (.atPort "outport" l.source), .modify (.comeInAt l.target)]
  | .dynamic h => env h

def toTerms (env : Handle → Term) : List Policy → List Term
  | [] => []
  | p :: ps => toTerm env p :: toTerms env ps

end

theorem toTerms_eq_map (env : Handle → Term) (ps : List Policy) :
    toTerms env ps = ps.map (toTerm env) := by
  induction ps with
  | nil => rfl
  | cons p ps ih => simp [toTerms, ih]

end Policy

/-!
## Evaluation

What a term makes of one packet: the packets that it passes on, and the packets
that arrive at sinks. Both are sets, so the order in which parts are evaluated
leaves no trace.
-/

namespace Sink

def kindRank : SinkKind → Nat
  | .forward => 0
  | .count => 1

/-- By kind, then by number. -/
instance : Ord Sink := ⟨compareLex (compareOn fun s => kindRank s.kind) (compareOn id)⟩

instance : Std.TransOrd Sink :=
  inferInstanceAs (Std.TransCmp (compareLex (compareOn fun s : Sink => kindRank s.kind)
    (compareOn id)))

instance : Std.LawfulEqOrd Sink where
  compare_self := Std.ReflCmp.compare_self
  eq_of_compare {a b} h := by
    obtain ⟨h₁, h₂⟩ := compareLex_eq_eq.1 h
    obtain ⟨k, i⟩ := a
    obtain ⟨l, j⟩ := b
    have hi : i = j := Std.LawfulEqOrd.eq_of_compare h₂
    have hk : kindRank k = kindRank l := Std.LawfulEqOrd.eq_of_compare h₁
    cases k <;> cases l <;> simp_all [kindRank]

end Sink

/-- A packet that arrives at a sink. -/
@[ext] structure Arrival where
  sink : Sink
  packet : Packet
  deriving DecidableEq

namespace Arrival

/-- By sink, then by packet. -/
instance : Ord Arrival := ⟨compareLex (compareOn sink) (compareOn packet)⟩

instance : Std.TransOrd Arrival :=
  inferInstanceAs (Std.TransCmp (compareLex (compareOn sink) (compareOn packet)))

instance : Std.LawfulEqOrd Arrival where
  compare_self := Std.ReflCmp.compare_self
  eq_of_compare h := by
    obtain ⟨h₁, h₂⟩ := compareLex_eq_eq.1 h
    exact Arrival.ext (Std.LawfulEqOrd.eq_of_compare h₁) (Std.LawfulEqOrd.eq_of_compare h₂)

end Arrival

@[ext] structure Outcome where
  outputs : PacketSet
  arrivals : SortedSet Arrival
  deriving DecidableEq

namespace Outcome

/-- Nothing passes, nothing arrives. -/
def none : Outcome := ⟨.empty, .empty⟩

/-- One packet passes. -/
def pass (p : Packet) : Outcome := ⟨.singleton p, .empty⟩

/-- One packet arrives at a sink. -/
def arrive (s : Sink) (p : Packet) : Outcome := ⟨.empty, .singleton ⟨s, p⟩⟩

def union (a b : Outcome) : Outcome := ⟨a.outputs.union b.outputs, a.arrivals.union b.arrivals⟩

/-- The outcomes for all packets of a set together. -/
def onAll (s : PacketSet) (f : Packet → Outcome) : Outcome :=
  s.toList.foldl (fun acc p => acc.union (f p)) none

/-- The sinks at which something arrives, each once. -/
def sinks (o : Outcome) : List Sink := (o.arrivals.toList.map Arrival.sink).eraseDups

end Outcome

namespace Term

mutual

def eval : Term → Packet → Outcome
  | .identity, p => .pass p
  | .drop, _ => .none
  | .test m, p => if m.accepts p then .pass p else .none
  | .modify m, p => .pass (m.apply p)
  | .controller, _ => .none
  | .query s, p => .arrive s p
  | .negate t, p =>
    let inner := eval t p
    { inner with outputs := if inner.outputs.isEmpty then .singleton p else .empty }
  | .parallel ts, p => evalBeside ts p
  | .sequential ts, p => evalAlong ts (.singleton p)

/-- All of some terms on one packet. -/
def evalBeside : List Term → Packet → Outcome
  | [], _ => .none
  | t :: ts, p => (eval t p).union (evalBeside ts p)

/-- Each of some terms on what the one before it passes; once nothing is passed, the rest is
left out. -/
def evalAlong : List Term → PacketSet → Outcome
  | [], current => ⟨current, .empty⟩
  | t :: ts, current =>
    let here := Outcome.onAll current (eval t)
    if here.outputs.isEmpty then here
    else
      let after := evalAlong ts here.outputs
      ⟨after.outputs, here.arrivals.union after.arrivals⟩

end

end Term

/-!
## Compilation

A term compiled into a rule table. A modification that a switch cannot carry out is
left to the controller. Only tables of filters can be negated.
-/

/-- The headers that a table may set, and whether shadowed rules are removed on the way. -/
structure CompileSettings where
  headers : HeaderSet := .compilable
  optimize : Bool := true
  deriving DecidableEq

/-- Why a term has no table: a negated rule begins with some other action than `identity` or
`drop`, or with none. -/
inductive CompileError where
  | notNegatable (first : Option Action)
  deriving DecidableEq

def CompileError.message : CompileError → String
  | .notNegatable first =>
    "cannot negate a classifier whose rule action is '" ++ first.elim "nothing" Action.render
      ++ "'; negation requires identity or drop"

namespace Rule

/-- Pass what the rule drops and drop what it passes. -/
def negate (r : Rule) : Except CompileError Rule :=
  match r.actions.head? with
  | some .identity => .ok ⟨r.predicate, [.drop]⟩
  | some .drop => .ok ⟨r.predicate, [.identity]⟩
  | first => .error (.notNegatable first)

end Rule

namespace Table

def negate (optimize : Bool) (t : Table) : Except CompileError Table := do
  return pruneIf optimize ⟨← t.rules.mapM Rule.negate⟩

/-- Merge tables from the left; of none, the given one. -/
def mergeAll (merge : Table → Table → Table) (unit : Table) : List Table → Table
  | [] => unit
  | t :: ts => ts.foldl merge t

end Table

namespace Term

mutual

def compile (c : CompileSettings) : Term → Except CompileError Table
  | .identity => .ok (.single .identity)
  | .drop => .ok .dropAll
  | .test m => .ok ⟨[⟨.test m, [.identity]⟩, ⟨.identity, [.drop]⟩]⟩
  | .modify m =>
    .ok (.single (if m.writesOutside c.headers then .controller else .modify m))
  | .controller => .ok (.single .controller)
  | .query s => .ok (.single (.query s))
  | .negate t => do (← compile c t).negate c.optimize
  | .parallel ts => return Table.mergeAll (.parallel c.optimize) .dropAll (← compileAll c ts)
  | .sequential ts =>
    return Table.mergeAll (.sequential c.optimize) (.single .identity) (← compileAll c ts)

def compileAll (c : CompileSettings) : List Term → Except CompileError (List Table)
  | [] => .ok []
  | t :: ts => return (← compile c t) :: (← compileAll c ts)

end

end Term

end PacketPolicy

import PacketPolicy.Table.Basic

/-!
# Policies

A policy says what becomes of a packet: a set of packets, and packets handed to
sinks. Filters are the policies that only pass packets on unchanged or drop them.

Five forms are defined by others (`expansion?`). They are kept as they were
written, because a policy is printed in the form it was written in.
-/

namespace PacketPolicy

/-- A reference to a definition that may be replaced. A handle made for filters only ever refers
to filters. -/
structure Handle where
  id : Nat
  isFilter : Bool
  deriving DecidableEq

inductive Policy where
  /-- Pass every packet. -/
  | identity
  /-- Pass no packet. -/
  | drop
  /-- Pass the packets that a match accepts. -/
  | test (m : Match)
  | modify (m : Modification)
  /-- Send every packet to the controller. -/
  | controller
  /-- Hand every packet to a sink. -/
  | query (s : Sink)
  /-- Pass the packets for which the operand passes nothing. -/
  | negate (p : Policy)
  /-- All of some policies side by side. -/
  | parallel (ps : List Policy)
  /-- All of some filters side by side. -/
  | union (ps : List Policy)
  /-- Each of some policies on what the one before it passes. -/
  | sequential (ps : List Policy)
  /-- Each of some filters on what the one before it passes. -/
  | intersection (ps : List Policy)
  /-- Pass what the first filter passes and the second does not. -/
  | difference (p q : Policy)
  /-- One policy on what a filter passes, another on the rest. -/
  | conditional (condition body otherwise : Policy)
  /-- Set the port to leave by. -/
  | forward (port : Int64)
  /-- Set the port to leave by, except for packets that came in by it. -/
  | exclusive (port : Int64)
  /-- Carry packets that leave by one end of a link to its other end. -/
  | link (l : Link)
  /-- What a handle currently refers to. -/
  | dynamic (h : Handle)

namespace Policy

instance : Inhabited Policy := ⟨.drop⟩

/-! ## Equality -/

mutual

/-- Structural equality; sinks and handles are compared by identity. -/
def beq : Policy → Policy → Bool
  | .identity, .identity => true
  | .drop, .drop => true
  | .test m, .test n => m == n
  | .modify m, .modify n => m == n
  | .controller, .controller => true
  | .query s, .query t => s == t
  | .negate p, .negate q => beq p q
  | .parallel ps, .parallel qs => beqAll ps qs
  | .union ps, .union qs => beqAll ps qs
  | .sequential ps, .sequential qs => beqAll ps qs
  | .intersection ps, .intersection qs => beqAll ps qs
  | .difference p q, .difference p' q' => beq p p' && beq q q'
  | .conditional c p q, .conditional c' p' q' => beq c c' && beq p p' && beq q q'
  | .forward m, .forward n => m == n
  | .exclusive m, .exclusive n => m == n
  | .link k, .link l => k == l
  | .dynamic h, .dynamic k => h == k
  | _, _ => false

def beqAll : List Policy → List Policy → Bool
  | [], [] => true
  | p :: ps, q :: qs => beq p q && beqAll ps qs
  | _, _ => false

end

mutual

theorem eq_of_beq : (p q : Policy) → beq p q = true → p = q
  | .identity, q, h | .drop, q, h | .test _, q, h | .modify _, q, h | .controller, q, h
  | .query _, q, h | .forward _, q, h | .exclusive _, q, h | .link _, q, h | .dynamic _, q, h => by
    cases q <;> simp_all [beq]
  | .negate p, q, h => by
    cases q <;> simp only [beq, Bool.false_eq_true] at h
    rw [eq_of_beq _ _ h]
  | .parallel ps, q, h | .union ps, q, h | .sequential ps, q, h | .intersection ps, q, h => by
    cases q <;> simp only [beq, Bool.false_eq_true] at h
    rw [eq_of_beqAll _ _ h]
  | .difference p q, r, h => by
    cases r <;> simp only [beq, Bool.false_eq_true, Bool.and_eq_true] at h
    rw [eq_of_beq _ _ h.1, eq_of_beq _ _ h.2]
  | .conditional c p q, r, h => by
    cases r <;> simp only [beq, Bool.false_eq_true, Bool.and_eq_true] at h
    rw [eq_of_beq _ _ h.1.1, eq_of_beq _ _ h.1.2, eq_of_beq _ _ h.2]

theorem eq_of_beqAll : (ps qs : List Policy) → beqAll ps qs = true → ps = qs
  | [], qs, h => by cases qs <;> simp_all [beqAll]
  | p :: ps, qs, h => by
    cases qs <;> simp only [beqAll, Bool.false_eq_true, Bool.and_eq_true] at h
    rw [eq_of_beq _ _ h.1, eq_of_beqAll _ _ h.2]

end

mutual

theorem beq_self : (p : Policy) → beq p p = true
  | .identity | .drop | .test _ | .modify _ | .controller | .query _ | .forward _
  | .exclusive _ | .link _ | .dynamic _ => by simp [beq]
  | .negate p => by simp [beq, beq_self p]
  | .parallel ps | .union ps | .sequential ps | .intersection ps => by
    simp [beq, beqAll_self ps]
  | .difference p q => by simp [beq, beq_self p, beq_self q]
  | .conditional c p q => by simp [beq, beq_self c, beq_self p, beq_self q]

theorem beqAll_self : (ps : List Policy) → beqAll ps ps = true
  | [] => rfl
  | p :: ps => by simp [beqAll, beq_self p, beqAll_self ps]

end

instance : DecidableEq Policy := fun p q =>
  decidable_of_iff (beq p q = true) ⟨eq_of_beq p q, fun h => h ▸ beq_self p⟩

/-! ## Defined forms -/

/-- What a defined form stands for. -/
def expansion? : Policy → Option Policy
  | .difference p q => some (.intersection [p, .negate q])
  | .conditional c p q =>
    some (.parallel [.sequential [c, p], .sequential [.negate c, q]])
  | .forward port => some (.modify (.leaveBy port))
  | .exclusive port => some (.sequential [.negate (.test (.int "inport" port)), .forward port])
  | .link l =>
    some (.sequential [.test (.atPort "outport" l.source), .modify (.comeInAt l.target)])
  | _ => none

/-! ## Filters -/

mutual

/-- The policy only passes packets on unchanged or drops them, whatever the handles in it come
to refer to. -/
def isFilter : Policy → Bool
  | .identity => true
  | .drop => true
  | .test _ => true
  | .modify _ => false
  | .controller => false
  | .query _ => false
  | .negate p => p.isFilter
  | .parallel ps => areFilters ps
  | .union ps => areFilters ps
  | .sequential ps => areFilters ps
  | .intersection ps => areFilters ps
  | .difference p q => p.isFilter && q.isFilter
  | .conditional c p q => c.isFilter && p.isFilter && q.isFilter
  | .forward _ => false
  | .exclusive _ => false
  | .link _ => false
  | .dynamic h => h.isFilter

def areFilters : List Policy → Bool
  | [] => true
  | p :: ps => p.isFilter && areFilters ps

end

theorem areFilters_eq_all (ps : List Policy) : areFilters ps = ps.all isFilter := by
  induction ps with
  | nil => rfl
  | cons p ps ih => simp [areFilters, ih]

/-- A defined form is a filter exactly when what it stands for is one. -/
theorem isFilter_of_expansion? {p q : Policy} (h : p.expansion? = some q) :
    q.isFilter = p.isFilter := by
  cases p <;> simp only [expansion?, Option.some.injEq, reduceCtorEq] at h <;> subst h <;>
    simp only [isFilter, areFilters, Bool.and_true, Bool.and_false]
  grind

end Policy

/-!
## Parts of a policy

All parts of a policy, each before the parts that it is made of. A defined form
is followed by what it stands for, and a handle by what it refers to.
-/

namespace Policy

/-- The kind of a policy by its outermost form. -/
def kind : Policy → String
  | .identity => "identity"
  | .drop => "drop"
  | .test _ => "match"
  | .modify _ => "modify"
  | .controller => "controller"
  | .query _ => "query"
  | .negate _ => "negate"
  | .parallel _ => "parallel"
  | .union _ => "union"
  | .sequential _ => "sequential"
  | .intersection _ => "intersection"
  | .difference _ _ | .conditional _ _ _ | .forward _ | .exclusive _ | .link _ => "derived"
  | .dynamic _ => "dynamic"

mutual

/-- All parts, where `env` gives those of what a handle refers to. -/
def parts (env : Handle → List Policy) : Policy → List Policy
  | .identity => [.identity]
  | .drop => [.drop]
  | .test m => [.test m]
  | .modify m => [.modify m]
  | .controller => [.controller]
  | .query s => [.query s]
  | .negate p => .negate p :: parts env p
  | .parallel ps => .parallel ps :: partsOfAll env ps
  | .union ps => .union ps :: partsOfAll env ps
  | .sequential ps => .sequential ps :: partsOfAll env ps
  | .intersection ps => .intersection ps :: partsOfAll env ps
  | .difference p q =>
    [.difference p q, .intersection [p, .negate q]] ++ parts env p
      ++ [.negate q] ++ parts env q
  | .conditional c p q =>
    [.conditional c p q, .parallel [.sequential [c, p], .sequential [.negate c, q]]]
      ++ [.sequential [c, p]] ++ parts env c ++ parts env p
      ++ [.sequential [.negate c, q], .negate c] ++ parts env c ++ parts env q
  | .forward port => [.forward port, .modify (.leaveBy port)]
  | .exclusive port =>
    [.exclusive port, .sequential [.negate (.test (.int "inport" port)), .forward port],
      .negate (.test (.int "inport" port)), .test (.int "inport" port),
      .forward port, .modify (.leaveBy port)]
  | .link l =>
    [.link l, .sequential [.test (.atPort "outport" l.source), .modify (.comeInAt l.target)],
      .test (.atPort "outport" l.source), .modify (.comeInAt l.target)]
  | .dynamic h => .dynamic h :: env h

def partsOfAll (env : Handle → List Policy) : List Policy → List Policy
  | [] => []
  | p :: ps => parts env p ++ partsOfAll env ps

end

theorem partsOfAll_eq_flatMap (env : Handle → List Policy) (ps : List Policy) :
    partsOfAll env ps = ps.flatMap (parts env) := by
  induction ps with
  | nil => rfl
  | cons p ps ih => simp [partsOfAll, ih]

/-- A defined form is followed by the parts of what it stands for. -/
theorem parts_of_expansion? (env : Handle → List Policy) {p q : Policy}
    (h : p.expansion? = some q) : parts env p = p :: parts env q := by
  cases p <;> simp only [expansion?, Option.some.injEq, reduceCtorEq] at h <;> subst h <;>
    simp [parts, partsOfAll]

def handle? : Policy → Option Handle
  | .dynamic h => some h
  | _ => none

def sink? : Policy → Option Sink
  | .query s => some s
  | _ => none

/-- The handles among some parts, each once, in the order of their first occurrence. -/
def handlesIn (parts : List Policy) : List Handle := (parts.filterMap handle?).eraseDups

/-- The sinks among some parts, each once, in the order of their first occurrence. -/
def sinksIn (parts : List Policy) : List Sink := (parts.filterMap sink?).eraseDups

end Policy

end PacketPolicy

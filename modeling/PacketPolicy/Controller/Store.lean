import PacketPolicy.Policy.Printer
import PacketPolicy.Term

/-!
# Definitions of handles

A store holds what each handle refers to and who is told when that changes. What
a policy means depends on the store, because handles refer to policies with
handles in turn; `reading` follows them. As long as no handle refers to itself,
directly or through others, no chain of handles is longer than the store.
-/

namespace PacketPolicy

/-- What happens when a handle gets a new definition: it is logged under a tag, or a policy is
compiled again into a table. -/
inductive Observer where
  | log (tag : String)
  | recompile (table : String) (p : Policy)
  deriving DecidableEq

/-- What a handle refers to, the kind of the handle, and who is told of a new definition. -/
structure Definition where
  policy : Policy
  isFilter : Bool
  observer : Option Observer := none
  deriving DecidableEq

/-- The definitions of handles, by number. -/
structure Store where
  definitions : List Definition := []
  deriving DecidableEq

namespace Store

instance : Inhabited Store := ⟨{}⟩

def size (s : Store) : Nat := s.definitions.length

def get? (s : Store) (h : Handle) : Option Definition := s.definitions[h.id]?

/-- What a handle refers to; one that was never given out drops everything. -/
def definition (s : Store) (h : Handle) : Policy := (s.get? h).elim .drop Definition.policy

/-- The handle was given out by this store. -/
def owns (s : Store) (h : Handle) : Bool := (s.get? h).any fun d => d.isFilter == h.isFilter

def observer (s : Store) (h : Handle) : Option Observer := (s.get? h).bind Definition.observer

def isObserved (s : Store) (h : Handle) : Bool := (s.observer h).isSome

/-- A new handle for any policy. -/
def create (s : Store) (p : Policy) : Handle × Store :=
  (⟨s.size, false⟩, ⟨s.definitions ++ [{ policy := p, isFilter := false }]⟩)

/-- A new handle for filters. -/
def createFilter (s : Store) (f : Filter) : Handle × Store :=
  (⟨s.size, true⟩, ⟨s.definitions ++ [{ policy := f.policy, isFilter := true }]⟩)

def modify (s : Store) (h : Handle) (f : Definition → Definition) : Store :=
  ⟨s.definitions.modify h.id f⟩

def define (s : Store) (h : Handle) (p : Policy) : Store := s.modify h ({ · with policy := p })

/-- A handle for filters takes filters only. Gives the answer and the store after it, also if the
definition is refused. -/
def redefine (s : Store) (h : Handle) (p : Policy) : Except PolicyError Unit × Store :=
  if h.isFilter && !p.isFilter then (.error (.notAFilter p), s) else (.ok (), s.define h p)

/-- The observer takes the place of one that was there. -/
def observe (s : Store) (h : Handle) (o : Observer) : Store :=
  s.modify h ({ · with observer := some o })

def unobserve (s : Store) (h : Handle) : Store := s.modify h ({ · with observer := none })

/-! ## Following handles -/

section Reading

variable {α : Type} (s : Store) (read : (Handle → α) → Policy → α) (stuck : α)

/-- What a handle reads as, if no more than `depth` handles lie between. -/
def unfold : Nat → Handle → α
  | 0, _ => stuck
  | depth + 1, h => read (unfold depth) (s.definition h)

/-- What a policy reads as, given how to read one from the readings of its handles. -/
def reading (p : Policy) : α := read (unfold s read stuck s.size) p

end Reading

/-- The policy with everything spelled out. -/
def term (s : Store) (p : Policy) : Term := s.reading Policy.toTerm .drop p

def render (s : Store) (p : Policy) : String := s.reading Policy.render "" p

/-- All parts of the policy, those of definitions included. -/
def parts (s : Store) (p : Policy) : List Policy := s.reading Policy.parts [] p

/-- The handles that the policy depends on, each once. -/
def handles (s : Store) (p : Policy) : List Handle := Policy.handlesIn (s.parts p)

/-- The sinks that the policy may reach, each once. -/
def sinks (s : Store) (p : Policy) : List Sink := Policy.sinksIn (s.parts p)

def eval (s : Store) (p : Policy) (pkt : Packet) : Outcome := (s.term p).eval pkt

def compile (s : Store) (c : CompileSettings) (p : Policy) : Except CompileError Table :=
  (s.term p).compile c

end Store

end PacketPolicy

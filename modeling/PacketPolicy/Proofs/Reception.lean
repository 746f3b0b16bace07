import PacketPolicy.Controller.State
import Mathlib.Tactic

/-!
# What sinks receive

A sink that receives arrivals gets the packets meant for it, in their order, and nothing
else about the controller changes. Arrivals in another order, or mixed with others in
another way, have the same effect if each sink gets the same packets.
-/

namespace PacketPolicy

/-- The packets that arrive at a sink. -/
def packetsFor (b : Sink) (arrivals : List Arrival) : List Packet :=
  arrivals.filterMap fun a => if a.sink = b then some a.packet else none

theorem packetsFor_cons (b : Sink) (a : Arrival) (l : List Arrival) :
    packetsFor b (a :: l) = if a.sink = b then a.packet :: packetsFor b l else packetsFor b l := by
  unfold packetsFor
  rw [List.filterMap_cons]
  split_ifs <;> rfl

theorem mem_packetsFor {b : Sink} {l : List Arrival} {p : Packet} :
    p ∈ packetsFor b l ↔ ⟨b, p⟩ ∈ l := by
  simp only [packetsFor, List.mem_filterMap, Option.ite_none_right_eq_some, Option.some.injEq]
  constructor
  · rintro ⟨a, ha, rfl, rfl⟩
    exact ha
  · intro h
    exact ⟨_, h, rfl, rfl⟩

theorem nodup_packetsFor {l : List Arrival} (h : l.Nodup) (b : Sink) : (packetsFor b l).Nodup := by
  refine h.filterMap ?_
  intro a a' p hp hp'
  simp only [Option.mem_def, Option.ite_none_right_eq_some, Option.some.injEq] at hp hp'
  exact Arrival.ext (hp.1.trans hp'.1.symm) (hp.2.trans hp'.2.symm)

/-- Of different arrivals that are all of one packet, a sink gets one at most. -/
theorem packetsFor_eq {l : List Arrival} (hnodup : l.Nodup) {pkt : Packet}
    (hpkt : ∀ a ∈ l, a.packet = pkt) (b : Sink) :
    packetsFor b l = if ⟨b, pkt⟩ ∈ l then [pkt] else [] := by
  have hsame : packetsFor b l = List.replicate (packetsFor b l).length pkt :=
    List.eq_replicate_of_mem fun p hp => hpkt _ (mem_packetsFor.1 hp)
  have hone : (packetsFor b l).length ≤ 1 :=
    List.nodup_replicate.1 (hsame ▸ nodup_packetsFor hnodup b)
  split_ifs with h
  · have hmem : packetsFor b l ≠ [] := List.ne_nil_of_mem (mem_packetsFor.2 h)
    have hlen : (packetsFor b l).length = 1 := by
      have := List.length_pos_of_ne_nil hmem
      omega
    rw [hsame, hlen, List.replicate_one]
  · refine List.eq_nil_iff_forall_not_mem.2 fun p hp => h ?_
    have hb := mem_packetsFor.1 hp
    obtain rfl : p = pkt := hpkt _ hb
    exact hb

theorem getElem?_set_update {α : Type} (l : List α) (i j : Nat) (d : α) (f : α → α) :
    (l.set i (f (l[i]?.getD d)))[j]? = if i = j then l[j]?.map f else l[j]? := by
  rw [List.getElem?_set]
  split_ifs with h hlt
  · subst h
    simp [hlt]
  · subst h
    simp [hlt]
  · rfl

/-- What is kept for a sink of either kind. -/
abbrev SinkState := ForwardSink ⊕ CountSink

namespace SinkState

def insert (p : Packet) : SinkState → SinkState := Sum.map (·.insert p) (·.insert p)

def insertAll (ps : List Packet) (f : SinkState) : SinkState := ps.foldl (fun f p => insert p f) f

/-- The packets that wait in a sink. -/
def waiting : SinkState → List Packet := Sum.elim (·.buffer.packets) (·.buffer.packets)

theorem waiting_insert (p : Packet) (f : SinkState) : waiting (insert p f) = waiting f ++ [p] := by
  cases f <;> rfl

theorem waiting_insertAll (ps : List Packet) (f : SinkState) :
    waiting (insertAll ps f) = waiting f ++ ps := by
  induction ps generalizing f with
  | nil => simp [insertAll]
  | cons p ps ih =>
    have hstep : insertAll (p :: ps) f = insertAll ps (insert p f) := rfl
    rw [hstep, ih, waiting_insert, List.append_assoc, List.singleton_append]

end SinkState

namespace Controller

variable (c : Controller)

/-- What the controller keeps for a sink, if it has that sink. -/
def sink? (b : Sink) : Option SinkState :=
  match b.kind with
  | .forward => c.forwardSinks[b.id]?.map .inl
  | .count => c.countSinks[b.id]?.map .inr

/-- The packets that wait in a sink, if the controller has that sink. -/
def waiting? (b : Sink) : Option (List Packet) := (c.sink? b).map SinkState.waiting

theorem sink?_insert (s b : Sink) (p : Packet) : (c.insert s p).sink? b =
    if s = b then (c.sink? b).map (SinkState.insert p) else c.sink? b := by
  obtain ⟨kind, id⟩ := s
  obtain ⟨kind', id'⟩ := b
  cases kind <;> cases kind'
  · have hset := getElem?_set_update c.forwardSinks id id' {} (·.insert p)
    refine (congrArg (Option.map Sum.inl) hset).trans ?_
    simp only [Sink.mk.injEq, true_and, sink?]
    split_ifs
    · simp [Function.comp_def, SinkState.insert]
    · rfl
  · rfl
  · rfl
  · have hset := getElem?_set_update c.countSinks id id' {} (·.insert p)
    refine (congrArg (Option.map Sum.inr) hset).trans ?_
    simp only [Sink.mk.injEq, true_and, sink?]
    split_ifs
    · simp [Function.comp_def, SinkState.insert]
    · rfl

/-- Each sink gets the packets that arrive at it. -/
theorem sink?_receive (l : List Arrival) (b : Sink) :
    (c.receive l).sink? b = (c.sink? b).map (SinkState.insertAll (packetsFor b l)) := by
  induction l generalizing c with
  | nil => exact Option.map_id'.symm
  | cons a l ih =>
    have hstep : c.receive (a :: l) = (c.insert a.sink a.packet).receive l := rfl
    rw [hstep, ih, sink?_insert, packetsFor_cons]
    split_ifs
    · rw [Option.map_map]
      rfl
    · rfl

theorem waiting?_receive (l : List Arrival) (b : Sink) :
    (c.receive l).waiting? b = (c.waiting? b).map (· ++ packetsFor b l) := by
  rw [waiting?, waiting?, sink?_receive, Option.map_map, Option.map_map]
  congr 1
  funext f
  exact SinkState.waiting_insertAll _ f

theorem insert_eq (s : Sink) (p : Packet) : c.insert s p =
    { c with
      forwardSinks := (c.insert s p).forwardSinks
      countSinks := (c.insert s p).countSinks } := by
  obtain ⟨kind, id⟩ := s
  cases kind <;> rfl

/-- Nothing but the sinks changes. -/
theorem receive_eq (l : List Arrival) : c.receive l =
    { c with
      forwardSinks := (c.receive l).forwardSinks
      countSinks := (c.receive l).countSinks } := by
  induction l generalizing c with
  | nil => rfl
  | cons a l ih =>
    have hstep : c.receive (a :: l) = (c.insert a.sink a.packet).receive l := rfl
    rw [hstep, ih, insert_eq]

/-- Sinks receive the same, whatever handles refer to. -/
theorem receive_withStore (s : Store) (l : List Arrival) :
    { c with store := s }.receive l = { c.receive l with store := s } := by
  induction l generalizing c with
  | nil => rfl
  | cons a l ih =>
    have hstep : { c with store := s }.insert a.sink a.packet =
        { c.insert a.sink a.packet with store := s } := by
      obtain ⟨⟨kind, id⟩, pkt⟩ := a
      cases kind <;> rfl
    exact (congrArg (·.receive l) hstep).trans (ih _)

/-- Only the packets for each sink matter. -/
theorem receive_congr {l k : List Arrival} (h : ∀ b, packetsFor b l = packetsFor b k) :
    c.receive l = c.receive k := by
  have hsink : ∀ b, (c.receive l).sink? b = (c.receive k).sink? b := by
    intro b
    rw [sink?_receive, sink?_receive, h b]
  have hforward : (c.receive l).forwardSinks = (c.receive k).forwardSinks := by
    refine List.ext_getElem? ?_
    intro i
    exact Option.map_injective Sum.inl_injective (hsink ⟨.forward, i⟩)
  have hcount : (c.receive l).countSinks = (c.receive k).countSinks := by
    refine List.ext_getElem? ?_
    intro i
    exact Option.map_injective Sum.inr_injective (hsink ⟨.count, i⟩)
  rw [receive_eq c l, receive_eq c k, hforward, hcount]

end Controller

end PacketPolicy

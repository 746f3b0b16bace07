import PacketPolicy.Proofs.Reception

/-!
# Nothing is lost in a sink

Emptying a sink takes two steps: one takes all waiting packets out, the other delivers
or counts them. Any number of threads may insert, register and empty at the same time, so
that several batches are under way at once. In every order of their steps each packet
waits, is under way or is done with, and is in one of these places only.
-/

namespace PacketPolicy

/-! ## Totals -/

/-- The length that a header declares: nothing if it is missing, negative or no integer. -/
def declaredLength (p : Packet) (field : String) : Int :=
  max 0 (((p.get? field).bind Value.asInt?).elim 0 Int64.toInt)

namespace Counts

/-- The sum of some counts; the words hold it modulo `2 ^ 64`. -/
def total (l : List Counts) : Counts where
  packets := .ofNat (l.map fun c => c.packets.toNat).sum
  bytes := .ofNat (l.map fun c => c.bytes.toNat).sum

theorem add_assoc (a b c : Counts) : (a.add b).add c = a.add (b.add c) := by
  simp only [add, UInt64.add_assoc]

theorem total_append (l k : List Counts) : total (l ++ k) = (total l).add (total k) := by
  simp only [total, add, List.map_append, List.sum_append, UInt64.ofNat_add]

theorem total_cons (c : Counts) (l : List Counts) : total (c :: l) = c.add (total l) := by
  simp only [total, add, List.map_cons, List.sum_cons, UInt64.ofNat_add, UInt64.ofNat_toNat]

theorem total_perm {l k : List Counts} (h : l.Perm k) : total l = total k := by
  simp only [total, (h.map _).sum_eq]

/-- Counts added one after the other, each addition running over by itself, come to their sum. -/
theorem foldl_add (l : List Counts) (c : Counts) : l.foldl add c = c.add (total l) := by
  induction l generalizing c with
  | nil => simp [total, add]
  | cons d l ih => rw [List.foldl_cons, ih, total_cons, add_assoc]

theorem headerLength_eq (p : Packet) (field : String) :
    ((headerLength p field).toNat : Int) = declaredLength p field := by
  rw [headerLength, declaredLength]
  cases (p.get? field).bind Value.asInt? with
  | none => rfl
  | some n =>
    have hlt := n.toNatClampNeg_lt
    rw [UInt64.toNat_ofNat', Nat.mod_eq_of_lt (by omega), Option.elim_some]
    exact (Int.ofNat_toNat _).trans (max_comm _ _)

/-- The lengths of one packet never run over. -/
theorem bytes_ofPacket (p : Packet) : ((ofPacket p).bytes.toNat : Int) =
    declaredLength p "header_len" + declaredLength p "payload_len" := by
  have hlt : ∀ field, declaredLength p field < 2 ^ 63 := by
    intro field
    rw [declaredLength]
    cases (p.get? field).bind Value.asInt? with
    | none => decide
    | some n =>
      have hn := n.toInt_lt
      exact max_lt (by decide) hn
  have hheader := hlt "header_len"
  have hpayload := hlt "payload_len"
  rw [← headerLength_eq] at hheader hpayload ⊢
  rw [← headerLength_eq, ofPacket, UInt64.toNat_add, Nat.mod_eq_of_lt (by omega), Nat.cast_add]

/-- The totals of some packets are their number and the sum of the lengths that they declare. -/
theorem toNat_total_ofPacket (ps : List Packet) :
    (total (ps.map ofPacket)).packets.toNat = ps.length % 2 ^ 64 ∧
      ((total (ps.map ofPacket)).bytes.toNat : Int) = (ps.map fun p =>
        declaredLength p "header_len" + declaredLength p "payload_len").sum % 2 ^ 64 := by
  have hones : (ps.map fun p => (ofPacket p).packets.toNat).sum = ps.length := by
    simp [ofPacket]
  have hbytes : ((ps.map fun p => (ofPacket p).bytes.toNat).sum : Int) =
      (ps.map fun p => declaredLength p "header_len" + declaredLength p "payload_len").sum := by
    simp only [← bytes_ofPacket, Nat.cast_list_sum, List.map_map, Function.comp_def]
  constructor
  · rw [total, UInt64.toNat_ofNat', List.map_map]
    exact congrArg (· % 2 ^ 64) hones
  · rw [total, UInt64.toNat_ofNat', List.map_map, Int.natCast_emod, ← hbytes]
    rfl

end Counts

/-! ## Steps of one sink -/

namespace SinkState

def fresh : SinkKind → SinkState
  | .forward => .inl {}
  | .count => .inr {}

def kind : SinkState → SinkKind := Sum.elim (fun _ => .forward) (fun _ => .count)

def callbacks : SinkState → List String := Sum.elim (·.callbacks) (·.callbacks)

def register (callback : String) : SinkState → SinkState :=
  Sum.map (·.register callback) (·.register callback)

/-- Take all waiting packets out. -/
def drain : SinkState → List Packet × SinkState
  | .inl f => (f.drain.1, .inl f.drain.2)
  | .inr k => (k.drain.1, .inr k.drain.2)

/-- Deliver a batch to those now registered, or count it. -/
def finish (batch : List Packet) : SinkState → SinkState × List Delivery
  | .inl f => (.inl f, f.deliver batch)
  | .inr k => (.inr (k.fold batch), [])

/-- Both steps, with nothing in between. Gives the number of packets. -/
def apply : SinkState → Nat × SinkState × List Delivery
  | .inl f => (f.apply.1, .inl f.apply.2.1, f.apply.2.2)
  | .inr k => (k.apply.1, .inr k.apply.2, [])

/-- What was counted so far; a forward sink counts nothing. -/
def totals : SinkState → Counts := Sum.elim (fun _ => {}) (·.persistent)

variable (f : SinkState)

theorem insert_spec (p : Packet) :
    (f.insert p).kind = f.kind ∧ (f.insert p).waiting = f.waiting ++ [p] ∧
      (f.insert p).callbacks = f.callbacks ∧ (f.insert p).totals = f.totals := by
  cases f <;> exact ⟨rfl, rfl, rfl, rfl⟩

theorem register_spec (callback : String) :
    (f.register callback).kind = f.kind ∧ (f.register callback).waiting = f.waiting ∧
      (f.register callback).callbacks = f.callbacks ++ [callback] ∧
      (f.register callback).totals = f.totals := by
  cases f <;> exact ⟨rfl, rfl, rfl, rfl⟩

theorem drain_spec :
    f.drain.1 = f.waiting ∧ f.drain.2.kind = f.kind ∧ f.drain.2.waiting = [] ∧
      f.drain.2.callbacks = f.callbacks ∧ f.drain.2.totals = f.totals := by
  cases f <;> exact ⟨rfl, rfl, rfl, rfl, rfl⟩

theorem finish_spec (batch : List Packet) :
    (f.finish batch).1.kind = f.kind ∧ (f.finish batch).1.waiting = f.waiting ∧
      (f.finish batch).1.callbacks = f.callbacks ∧
      (f.kind = .count →
        (f.finish batch).1.totals = f.totals.add (.total (batch.map .ofPacket))) ∧
      (f.kind = .forward →
        (f.finish batch).2 = batch.flatMap fun p => f.callbacks.map fun c => ⟨c, p⟩) := by
  cases f with
  | inl f => exact ⟨rfl, rfl, rfl, by rintro ⟨⟩, fun _ => rfl⟩
  | inr k =>
    refine ⟨rfl, rfl, rfl, fun _ => ?_, by rintro ⟨⟩⟩
    change batch.foldl (fun acc p => acc.add (.ofPacket p)) k.persistent = _
    rw [← List.foldl_map, Counts.foldl_add]
    rfl

end SinkState

/-- What happens to a sink. -/
inductive SinkEvent where
  | inserted (p : Packet)
  | registered (callback : String)
  | drained (batch : List Packet)
  | finished (batch : List Packet) (deliveries : List Delivery)

/-- A sink and the batches that were taken out of it and are not done with. -/
structure SharedSink where
  sink : SinkState
  pending : List (List Packet)

namespace SharedSink

/-- One thread takes one step; a batch under way may be finished at any time. -/
inductive Step : SharedSink → SinkEvent → SharedSink → Prop
  | insert {s : SharedSink} (p : Packet) :
      Step s (.inserted p) { s with sink := s.sink.insert p }
  | register {s : SharedSink} (callback : String) :
      Step s (.registered callback) { s with sink := s.sink.register callback }
  | drain {s : SharedSink} :
      Step s (.drained s.sink.drain.1) ⟨s.sink.drain.2, s.pending ++ [s.sink.drain.1]⟩
  | finish {sink : SinkState} (before : List (List Packet)) (batch : List Packet)
      (after : List (List Packet)) :
      Step ⟨sink, before ++ batch :: after⟩ (.finished batch (sink.finish batch).2)
        ⟨(sink.finish batch).1, before ++ after⟩

/-- The events, in their order, lead from one state to another. -/
inductive Run (s : SharedSink) : List SinkEvent → SharedSink → Prop
  | nil : Run s [] s
  | snoc {events : List SinkEvent} {e : SinkEvent} {t u : SharedSink} :
      Run s events t → Step t e u → Run s (events ++ [e]) u

theorem run_apply (s : SharedSink) :
    s.sink.apply.1 = s.sink.waiting.length ∧
      Run s [.drained s.sink.waiting, .finished s.sink.waiting s.sink.apply.2.2]
        { s with sink := s.sink.apply.2.1 } := by
  obtain ⟨sink, pending⟩ := s
  have hlast : Step ⟨sink.drain.2, pending ++ [sink.drain.1]⟩ _ _ := .finish pending sink.drain.1 []
  rw [List.append_nil] at hlast
  cases sink with
  | inl f => exact ⟨rfl, .snoc (.snoc .nil .drain) hlast⟩
  | inr k => exact ⟨rfl, .snoc (.snoc .nil .drain) hlast⟩

theorem Run.exists_last {s u : SharedSink} {events : List SinkEvent} {e : SinkEvent}
    (h : Run s (events ++ [e]) u) : ∃ t, Run s events t ∧ Step t e u := by
  generalize hall : events ++ [e] = all at h
  cases h with
  | nil => simp at hall
  | snoc hrun hstep =>
    obtain ⟨rfl, he⟩ := List.append_inj' hall rfl
    obtain rfl := List.singleton_inj.1 he
    exact ⟨_, hrun, hstep⟩

theorem Run.exists_front {s u : SharedSink} {before after : List SinkEvent}
    (h : Run s (before ++ after) u) : ∃ t, Run s before t := by
  induction after using List.reverseRecOn generalizing u with
  | nil => exact ⟨u, by simpa using h⟩
  | append_singleton after e ih =>
    rw [← List.append_assoc] at h
    obtain ⟨t, ht, -⟩ := h.exists_last
    exact ih ht

end SharedSink

/-! ## The ledger of a run -/

/-- What a run of a sink amounts to. -/
structure Ledger where
  inserted : List Packet := []
  registered : List String := []
  drained : List (List Packet) := []
  finished : List (List Packet) := []

namespace Ledger

def record (l : Ledger) : SinkEvent → Ledger
  | .inserted p => { l with inserted := l.inserted ++ [p] }
  | .registered callback => { l with registered := l.registered ++ [callback] }
  | .drained batch => { l with drained := l.drained ++ [batch] }
  | .finished batch _ => { l with finished := l.finished ++ [batch] }

def ofEvents (events : List SinkEvent) : Ledger := events.foldl record {}

theorem ofEvents_snoc (events : List SinkEvent) (e : SinkEvent) :
    ofEvents (events ++ [e]) = (ofEvents events).record e := by
  simp [ofEvents]

end Ledger

/-! ## Every packet is somewhere -/

namespace SharedSink

open scoped List

/-- The ledger agrees with the state: packets wait in the order of their insertion behind those
taken out, and each batch taken out is under way or done with. -/
structure Balanced (kind : SinkKind) (l : Ledger) (s : SharedSink) : Prop where
  kind_eq : s.sink.kind = kind
  inserted : l.inserted = l.drained.flatten ++ s.sink.waiting
  drained : l.drained.Perm (s.pending ++ l.finished)
  registered : s.sink.callbacks = l.registered
  counted : kind = .count → s.sink.totals = .total (l.finished.flatten.map .ofPacket)

theorem balanced_fresh (kind : SinkKind) : Balanced kind {} ⟨.fresh kind, []⟩ := by
  cases kind <;> exact ⟨rfl, rfl, .nil, rfl, fun _ => rfl⟩

theorem Balanced.step {kind : SinkKind} {l : Ledger} {s u : SharedSink} {e : SinkEvent}
    (hs : Balanced kind l s) (h : Step s e u) : Balanced kind (l.record e) u := by
  cases h with
  | insert p =>
    obtain ⟨hkind, hwaiting, hcallbacks, htotals⟩ := s.sink.insert_spec p
    refine ⟨hkind.trans hs.kind_eq, ?_, hs.drained, hcallbacks.trans hs.registered,
      fun hcount => htotals.trans (hs.counted hcount)⟩
    rw [hwaiting, ← List.append_assoc, Ledger.record, ← hs.inserted]
  | register callback =>
    obtain ⟨hkind, hwaiting, hcallbacks, htotals⟩ := s.sink.register_spec callback
    refine ⟨hkind.trans hs.kind_eq, ?_, hs.drained, ?_,
      fun hcount => htotals.trans (hs.counted hcount)⟩
    · rw [hwaiting]
      exact hs.inserted
    · rw [hcallbacks, hs.registered, Ledger.record]
  | drain =>
    obtain ⟨hbatch, hkind, hwaiting, hcallbacks, htotals⟩ := s.sink.drain_spec
    refine ⟨hkind.trans hs.kind_eq, ?_, ?_, hcallbacks.trans hs.registered,
      fun hcount => htotals.trans (hs.counted hcount)⟩
    · simp [Ledger.record, hwaiting, hbatch, hs.inserted]
    · calc l.drained ++ [s.sink.drain.1]
        _ ~ s.pending ++ l.finished ++ [s.sink.drain.1] := hs.drained.append_right _
        _ ~ s.pending ++ [s.sink.drain.1] ++ l.finished := by
          rw [List.append_assoc, List.append_assoc]
          exact List.perm_append_comm.append_left _
  | @finish sink before batch after =>
    obtain ⟨hkind, hwaiting, hcallbacks, htotals, -⟩ := sink.finish_spec batch
    refine ⟨hkind.trans hs.kind_eq, ?_, ?_, hcallbacks.trans hs.registered, ?_⟩
    · rw [hwaiting]
      exact hs.inserted
    -- the batch moves from those under way to those done with
    · calc l.drained
        _ ~ before ++ batch :: after ++ l.finished := hs.drained
        _ ~ batch :: (before ++ after ++ l.finished) := List.perm_middle.append_right _
        _ ~ before ++ after ++ l.finished ++ [batch] := (List.perm_append_singleton _ _).symm
        _ = before ++ after ++ (l.finished ++ [batch]) := List.append_assoc _ _ _
    · intro hcount
      have hbefore : sink.totals = .total (l.finished.flatten.map .ofPacket) := hs.counted hcount
      rw [htotals (hs.kind_eq.trans hcount), hbefore, ← Counts.total_append, ← List.map_append]
      simp [Ledger.record]

theorem Run.balanced {kind : SinkKind} {events : List SinkEvent} {s : SharedSink}
    (h : Run ⟨.fresh kind, []⟩ events s) : Balanced kind (.ofEvents events) s := by
  induction h with
  | nil => exact balanced_fresh kind
  | snoc _ hstep ih =>
    rw [Ledger.ofEvents_snoc]
    exact ih.step hstep

/-- Whatever the threads do and in whatever order, no packet is lost and none is dealt with twice:
each inserted one waits, is under way, or was delivered or counted. Counts are words, so totals are
those modulo `2 ^ 64`. -/
theorem inserted_perm_waiting_pending_finished {kind : SinkKind} {events : List SinkEvent}
    {s : SharedSink} (h : Run ⟨.fresh kind, []⟩ events s) :
    (Ledger.ofEvents events).inserted =
      (Ledger.ofEvents events).drained.flatten ++ s.sink.waiting ∧
    (Ledger.ofEvents events).drained ~ s.pending ++ (Ledger.ofEvents events).finished ∧
    (Ledger.ofEvents events).inserted ~
      s.sink.waiting ++ s.pending.flatten ++ (Ledger.ofEvents events).finished.flatten ∧
    ((Ledger.ofEvents events).inserted.Nodup →
      (s.sink.waiting ++ s.pending.flatten ++ (Ledger.ofEvents events).finished.flatten).Nodup) ∧
    (s.pending = [] →
      (Ledger.ofEvents events).drained ~ (Ledger.ofEvents events).finished) ∧
    (kind = .count → s.pending = [] →
      s.sink.totals.packets.toNat = (Ledger.ofEvents events).drained.flatten.length % 2 ^ 64 ∧
      (s.sink.totals.bytes.toNat : Int) = ((Ledger.ofEvents events).drained.flatten.map fun p =>
        declaredLength p "header_len" + declaredLength p "payload_len").sum % 2 ^ 64) ∧
    (kind = .forward → ∀ before batch deliveries after,
      events = before ++ .finished batch deliveries :: after →
      deliveries = batch.flatMap fun p =>
        (Ledger.ofEvents before).registered.map fun c => ⟨c, p⟩) ∧
    s.sink.apply.1 = s.sink.waiting.length ∧
    Run s [.drained s.sink.waiting, .finished s.sink.waiting s.sink.apply.2.2]
      { s with sink := s.sink.apply.2.1 } := by
  have hs := h.balanced
  have hplaces : (Ledger.ofEvents events).inserted ~
      s.sink.waiting ++ s.pending.flatten ++ (Ledger.ofEvents events).finished.flatten := by
    rw [hs.inserted, List.append_assoc, ← List.flatten_append]
    exact (hs.drained.flatten.append_right _).trans List.perm_append_comm
  have hdone : s.pending = [] →
      (Ledger.ofEvents events).drained ~ (Ledger.ofEvents events).finished := by
    intro hpending
    simpa [hpending] using hs.drained
  refine ⟨hs.inserted, hs.drained, hplaces, hplaces.nodup_iff.1, hdone, ?_, ?_, s.run_apply⟩
  · intro hcount hpending
    rw [hs.counted hcount, ← Counts.total_perm ((hdone hpending).flatten.map _)]
    exact Counts.toNat_total_ofPacket _
  · rintro hforward before batch deliveries after rfl
    -- the state in which the batch was delivered knows who was registered by then
    rw [List.append_cons] at h
    obtain ⟨t, ht⟩ := h.exists_front
    obtain ⟨u, hu, hstep⟩ := ht.exists_last
    have hu' := hu.balanced
    cases hstep with
    | @finish sink =>
      obtain ⟨-, -, -, -, hdeliveries⟩ := sink.finish_spec batch
      rw [hdeliveries (hu'.kind_eq.trans hforward), ← hu'.registered]

/-- A batch overtakes another in a count sink; a callback is registered while a batch of a forward
sink is under way. -/
theorem inserted_perm_waiting_pending_finished_overtaken :
    ∃ p q : Packet, p = .ofList [("header_len", .int 40), ("payload_len", .int 60)] ∧
      q = .ofList [("header_len", .int 14), ("payload_len", .int (-5))] ∧
      (∃ s, Run ⟨.fresh .count, []⟩ [.inserted p, .drained [p], .inserted q, .drained [q],
        .finished [q] [], .finished [p] []] s ∧
        s.sink.totals.packets.toNat = 2 ∧ (s.sink.totals.bytes.toNat : Int) = 114) ∧
      ∃ s deliveries, Run ⟨.fresh .forward, []⟩ [.registered "a", .inserted p, .drained [p],
        .registered "b", .inserted q, .finished [p] deliveries] s ∧
        deliveries = [⟨"a", p⟩, ⟨"b", p⟩] ∧ s.sink.waiting = [q] := by
  let p : Packet := .ofList [("header_len", .int 40), ("payload_len", .int 60)]
  let q : Packet := .ofList [("header_len", .int 14), ("payload_len", .int (-5))]
  have hcount : Run ⟨.fresh .count, []⟩ _ _ :=
    ((((((Run.nil).snoc (.insert p)).snoc .drain).snoc (.insert q)).snoc .drain).snoc
      (.finish [[p]] [q] [])).snoc (.finish [] [p] [])
  have hforward : Run ⟨.fresh .forward, []⟩ _ _ :=
    ((((((Run.nil).snoc (.register "a")).snoc (.insert p)).snoc .drain).snoc
      (.register "b")).snoc (.insert q)).snoc (.finish [] [p] [])
  obtain ⟨-, -, -, -, -, htotals, -, -⟩ := inserted_perm_waiting_pending_finished hcount
  obtain ⟨-, -, -, -, -, -, hdeliveries, -⟩ := inserted_perm_waiting_pending_finished hforward
  obtain ⟨hpackets, hbytes⟩ := htotals rfl rfl
  exact ⟨p, q, rfl, rfl, ⟨_, hcount, hpackets, hbytes.trans (by decide +kernel)⟩, _, _, hforward,
    hdeliveries rfl _ [p] _ [] rfl, rfl⟩

end SharedSink

end PacketPolicy

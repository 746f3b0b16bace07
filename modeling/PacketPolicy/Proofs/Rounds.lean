import PacketPolicy.Proofs.Accounting

/-!
# Rounds of statistics

A pull asks some switches for what they counted, one of them perhaps several times, and
each reply that is awaited adds to the totals. Whatever else comes in between, packets or
replies that nobody asked for, the totals are those at the pull and what the accepted
replies add, and they are reported once, with the last awaited reply. So the order of the
replies makes no difference to a round that is complete.
-/

namespace PacketPolicy

/-- What a switch answers when it is asked for statistics. -/
structure StatsReply where
  switch : Int64
  stats : List FlowStat

/-- The calls that leave a round as it is or carry it on. -/
inductive RoundCall where
  | insert (p : Packet)
  | apply
  | reply (r : StatsReply)

namespace RoundCall

def reply? : RoundCall → Option StatsReply
  | .reply r => some r
  | _ => none

/-- The replies among some calls, in their order. -/
def replies (calls : List RoundCall) : List StatsReply := calls.filterMap reply?

end RoundCall

/-! ## Replies that are accepted -/

namespace StatsReply

/-- The replies of a switch are accepted as long as there are fewer of them than the switch was
asked for. -/
def accept (asked : List Int64) (accepted : List StatsReply) : RoundCall → List StatsReply
  | .reply r =>
    if (accepted.map switch).count r.switch < asked.count r.switch then accepted ++ [r]
    else accepted
  | _ => accepted

def accepted (asked : List Int64) (calls : List RoundCall) : List StatsReply :=
  calls.foldl (accept asked) []

/-- Someone was asked, and everyone has answered as often as they were asked. -/
def Complete (asked : List Int64) (accepted : List StatsReply) : Prop :=
  asked ≠ [] ∧ (accepted.map switch).Perm asked

instance (asked : List Int64) (accepted : List StatsReply) : Decidable (Complete asked accepted) :=
  inferInstanceAs (Decidable (_ ∧ _))

theorem accepted_snoc (asked : List Int64) (calls : List RoundCall) (c : RoundCall) :
    accepted asked (calls ++ [c]) = accept asked (accepted asked calls) c := by
  simp [accepted]

/-- While a reply is awaited, the round is not complete. -/
theorem not_complete_of_count_lt {asked : List Int64} {accepted : List StatsReply} {x : Int64}
    (h : (accepted.map switch).count x < asked.count x) : ¬ Complete asked accepted := by
  rintro ⟨-, hperm⟩
  rw [hperm.count_eq] at h
  exact lt_irrefl _ h

/-- A round that is complete was completed by one reply, and no reply was accepted after it. -/
theorem exists_last_reply {asked : List Int64} {calls : List RoundCall}
    (h : Complete asked (accepted asked calls)) :
    ∃ before r after, calls = before ++ .reply r :: after ∧
      ¬ Complete asked (accepted asked before) ∧
      accepted asked (before ++ [.reply r]) = accepted asked before ++ [r] ∧
      accepted asked calls = accepted asked before ++ [r] := by
  induction calls using List.reverseRecOn with
  | nil => exact absurd h.2.symm.eq_nil h.1
  | append_singleton calls c ih =>
    rw [accepted_snoc] at h ⊢
    by_cases hsame : accept asked (accepted asked calls) c = accepted asked calls
    · rw [hsame] at h ⊢
      obtain ⟨before, r, after, rfl, hrest⟩ := ih h
      exact ⟨before, r, after ++ [c], by simp, hrest⟩
    · cases c with
      | insert p => exact absurd rfl hsame
      | apply => exact absurd rfl hsame
      | reply r =>
        rw [accept] at hsame
        split_ifs at hsame with hlt
        · have hsnoc : accept asked (accepted asked calls) (.reply r) =
              accepted asked calls ++ [r] := if_pos hlt
          exact ⟨calls, r, [], rfl, not_complete_of_count_lt hlt,
            (accepted_snoc _ _ _).trans hsnoc, hsnoc⟩
        · exact absurd rfl hsame

/-- Replies that are no more than were asked for are all accepted. -/
theorem accepted_eq_replies {asked : List Int64} {calls : List RoundCall}
    (h : ∀ x, ((RoundCall.replies calls).map switch).count x ≤ asked.count x) :
    accepted asked calls = RoundCall.replies calls := by
  induction calls using List.reverseRecOn with
  | nil => rfl
  | append_singleton calls c ih =>
    have hsnoc : RoundCall.replies (calls ++ [c]) =
        RoundCall.replies calls ++ c.reply?.toList := by
      cases c <;> simp [RoundCall.replies, RoundCall.reply?]
    rw [hsnoc] at h ⊢
    have hbefore : accepted asked calls = RoundCall.replies calls := by
      apply ih
      intro x
      have hx := h x
      rw [List.map_append, List.count_append] at hx
      omega
    rw [accepted_snoc, hbefore]
    cases c with
    | insert p => simp [accept, RoundCall.reply?]
    | apply => simp [accept, RoundCall.reply?]
    | reply r =>
      have hr := h r.switch
      simp only [RoundCall.reply?, Option.toList_some, List.map_append, List.map_cons,
        List.map_nil, List.count_append, List.count_singleton_self] at hr
      have hlt : ((RoundCall.replies calls).map switch).count r.switch <
          asked.count r.switch := by omega
      simp [accept, RoundCall.reply?, hlt]

end StatsReply

/-! ## What replies add -/

namespace FlowStat

/-- The entry is about a rule of the sink: its predicate is known and is one of those given, as it
is or on the switch alone. -/
def Belongs (matched : List Predicate) (switch : Int64) (stat : FlowStat) : Prop :=
  ∃ p, stat.predicate = some p ∧
    (p ∈ matched ∨ p.meet (.test (.int "switch" switch)) ∈ matched)

instance (matched : List Predicate) (switch : Int64) (stat : FlowStat) :
    Decidable (Belongs matched switch stat) :=
  decidable_of_iff (stat.predicate.any fun p =>
    p ∈ matched || p.meet (.test (.int "switch" switch)) ∈ matched) (by
      simp [Option.any_eq_true, Belongs])

end FlowStat

namespace StatsReply

/-- The entries of replies that are about rules of the sink. -/
def entries (matched : List Predicate) (rs : List StatsReply) : List FlowStat :=
  rs.flatMap fun r => r.stats.filter (FlowStat.Belongs matched r.switch)

theorem entries_append (matched : List Predicate) (rs rs' : List StatsReply) :
    entries matched (rs ++ rs') = entries matched rs ++ entries matched rs' :=
  List.flatMap_append

theorem entries_perm (matched : List Predicate) {rs rs' : List StatsReply} (h : rs.Perm rs') :
    (entries matched rs).Perm (entries matched rs') :=
  h.flatMap_right _

end StatsReply

namespace Counts

/-- The packets of the totals together with those that some entries count. -/
def packetsWith (c : Counts) (entries : List FlowStat) : Nat :=
  c.packets.toNat + (entries.map fun e => e.counts.packets.toNat).sum

/-- The same for bytes. -/
def bytesWith (c : Counts) (entries : List FlowStat) : Nat :=
  c.bytes.toNat + (entries.map fun e => e.counts.bytes.toNat).sum

/-- The totals together with what some entries count, modulo `2 ^ 64`. -/
def plus (c : Counts) (entries : List FlowStat) : Counts :=
  ⟨.ofNat (c.packetsWith entries), .ofNat (c.bytesWith entries)⟩

/-- Words can hold the totals together with what the entries count. -/
def Fits (c : Counts) (entries : List FlowStat) : Prop :=
  c.packetsWith entries < 2 ^ 64 ∧ c.bytesWith entries < 2 ^ 64

theorem plus_eq_total (c : Counts) (es : List FlowStat) :
    c.plus es = total (c :: es.map FlowStat.counts) := by
  simp [plus, packetsWith, bytesWith, total, Function.comp_def]

theorem plus_nil (c : Counts) : c.plus [] = c := by
  simp [plus, packetsWith, bytesWith]

theorem plus_append (c : Counts) (es fs : List FlowStat) :
    c.plus (es ++ fs) = (c.plus es).plus fs := by
  rw [plus_eq_total, plus_eq_total, plus_eq_total, total_cons (total _), ← total_append,
    List.map_append, List.cons_append]

theorem plus_perm (c : Counts) {es fs : List FlowStat} (h : es.Perm fs) :
    c.plus es = c.plus fs := by
  rw [plus_eq_total, plus_eq_total]
  exact total_perm ((h.map _).cons c)

theorem foldl_add_counts (es : List FlowStat) (c : Counts) :
    (es.map FlowStat.counts).foldl add c = c.plus es := by
  rw [foldl_add, plus_eq_total, total_cons]

/-- Totals that words can hold are exact. -/
theorem toNat_plus_of_fits {c : Counts} {es : List FlowStat} (h : c.Fits es) :
    (c.plus es).packets.toNat = c.packetsWith es ∧ (c.plus es).bytes.toNat = c.bytesWith es := by
  rw [plus, UInt64.toNat_ofNat', UInt64.toNat_ofNat']
  exact ⟨Nat.mod_eq_of_lt h.1, Nat.mod_eq_of_lt h.2⟩

end Counts

namespace CountSink

theorem attributed_eq (s : CountSink) (switch : Int64) (stats : List FlowStat) :
    s.attributed switch stats =
      (stats.filter (FlowStat.Belongs s.matched switch)).map FlowStat.counts := by
  unfold attributed
  congr 2
  funext stat
  rw [Bool.eq_iff_iff, Option.any_eq_true, decide_eq_true_iff]
  simp [FlowStat.Belongs, attributes, or_comm]

/-! ## One call -/

/-- A call and what it tells others; nothing while the call has to wait. -/
def perform (s : CountSink) : RoundCall → Option (CountSink × List CountEvent)
  | .insert p => some (s.insert p, [])
  | .apply => some (s.apply.2, [])
  | .reply r => s.whenIdle (·.reply r.switch r.stats)

/-- A sink in the middle of a round: the round started at the first sink, which asked some
switches, and some replies were accepted since. -/
structure InRound (start : CountSink) (asked : List Int64) (accepted : List StatsReply)
    (s : CountSink) : Prop where
  updating : s.updating = false
  matched : s.matched = start.matched
  callbacks : s.callbacks = start.callbacks
  awaited : (accepted.map StatsReply.switch ++ s.outstanding).Perm asked
  current : s.current = start.persistent.plus (StatsReply.entries start.matched accepted)

theorem foldl_addOutstanding (switches : List Int64) (s : CountSink) :
    switches.foldl addOutstanding s = { s with outstanding := s.outstanding ++ switches } := by
  induction switches generalizing s with
  | nil => simp
  | cons x switches ih =>
    rw [List.foldl_cons, ih]
    simp [addOutstanding]

/-- A pull with a query tells nobody the totals, and starts a round. -/
theorem whenIdle_pull {s : CountSink} {q : StatsQuery} (hidle : s.updating = false)
    (hquery : s.query = some q) :
    ∃ t, s.whenIdle pull = some (t, [.asked q.tag]) ∧ InRound s q.switches [] t := by
  refine ⟨{ s with current := s.persistent, outstanding := q.switches }, ?_, ?_⟩
  · simp [whenIdle, hidle, pull, hquery, foldl_addOutstanding]
  · exact ⟨hidle, rfl, rfl, .refl _, s.persistent.plus_nil.symm⟩

/-- What was reported to others once some replies were accepted. -/
def reports (start : CountSink) (asked : List Int64) (accepted : List StatsReply) :
    List CountEvent :=
  if StatsReply.Complete asked accepted then
    start.callbacks.map fun c =>
      .reported c (start.persistent.plus (StatsReply.entries start.matched accepted))
  else []

/-- The order of the accepted replies does not show in what is reported. -/
theorem reports_perm (start : CountSink) (asked : List Int64) {rs rs' : List StatsReply}
    (h : rs.Perm rs') : start.reports asked rs = start.reports asked rs' := by
  have hswitches := h.map StatsReply.switch
  have hcomplete : StatsReply.Complete asked rs ↔ StatsReply.Complete asked rs' :=
    and_congr_right fun _ => ⟨hswitches.symm.trans, hswitches.trans⟩
  have htotals := start.persistent.plus_perm (StatsReply.entries_perm start.matched h)
  simp only [reports, hcomplete, htotals]

namespace InRound

variable {start s : CountSink} {asked : List Int64} {accepted : List StatsReply}

theorem mem_outstanding_iff (h : InRound start asked accepted s) {x : Int64} :
    x ∈ s.outstanding ↔ (accepted.map StatsReply.switch).count x < asked.count x := by
  rw [← h.awaited.count_eq x, List.count_append, ← List.count_pos_iff]
  omega

theorem outstanding_eq_nil_iff (h : InRound start asked accepted s) :
    s.outstanding = [] ↔ (accepted.map StatsReply.switch).Perm asked := by
  constructor
  · intro hnil
    simpa [hnil] using h.awaited
  · intro hperm
    have hlen := h.awaited.length_eq
    rw [List.length_append, hperm.length_eq] at hlen
    exact List.eq_nil_of_length_eq_zero (by omega)

/-- A reply that nobody asked for changes nothing. -/
theorem perform_ignored (h : InRound start asked accepted s) {r : StatsReply}
    (hr : ¬ (accepted.map StatsReply.switch).count r.switch < asked.count r.switch) :
    s.perform (.reply r) = some (s, []) := by
  have hmem : r.switch ∉ s.outstanding := fun hmem => hr (h.mem_outstanding_iff.1 hmem)
  simp [perform, whenIdle, h.updating, reply, hmem]

/-- A reply that is awaited is added, and the last of them ends the round. -/
theorem perform_accepted (h : InRound start asked accepted s) {r : StatsReply}
    (hr : (accepted.map StatsReply.switch).count r.switch < asked.count r.switch) :
    ∃ t, s.perform (.reply r) = some (t, start.reports asked (accepted ++ [r])) ∧
      InRound start asked (accepted ++ [r]) t := by
  have hmem : r.switch ∈ s.outstanding := h.mem_outstanding_iff.2 hr
  have hasked : asked ≠ [] := by
    rintro rfl
    simp at hr
  let t : CountSink := { s with
    current := (s.attributed r.switch r.stats).foldl Counts.add s.current
    outstanding := s.outstanding.erase r.switch }
  have ht : InRound start asked (accepted ++ [r]) t := by
    refine ⟨h.updating, h.matched, h.callbacks, ?_, ?_⟩
    · refine List.Perm.trans ?_ h.awaited
      rw [List.map_append, List.append_assoc]
      exact (List.perm_cons_erase hmem).symm.append_left _
    · change (s.attributed r.switch r.stats).foldl Counts.add s.current = _
      rw [attributed_eq, Counts.foldl_add_counts, h.matched, h.current, ← Counts.plus_append,
        StatsReply.entries_append]
      simp [StatsReply.entries]
  have hperform : s.perform (.reply r) =
      some (t, if t.outstanding.isEmpty then t.report else []) := by
    simp [perform, whenIdle, h.updating, reply, hmem, t]
  refine ⟨t, ?_, ht⟩
  have hcomplete : t.outstanding.isEmpty = true ↔
      StatsReply.Complete asked (accepted ++ [r]) := by
    rw [List.isEmpty_iff, ht.outstanding_eq_nil_iff]
    exact (and_iff_right hasked).symm
  rw [hperform, reports]
  simp only [hcomplete, report, ht.callbacks, ht.current]

/-- No call has to wait, and each tells others what is new. -/
theorem perform (h : InRound start asked accepted s) (c : RoundCall) :
    ∃ t more, s.perform c = some (t, more) ∧
      InRound start asked (StatsReply.accept asked accepted c) t ∧
      start.reports asked accepted ++ more =
        start.reports asked (StatsReply.accept asked accepted c) := by
  cases c with
  | insert p =>
    exact ⟨_, _, rfl, ⟨h.updating, h.matched, h.callbacks, h.awaited, h.current⟩,
      List.append_nil _⟩
  | apply =>
    exact ⟨_, _, rfl, ⟨h.updating, h.matched, h.callbacks, h.awaited, h.current⟩,
      List.append_nil _⟩
  | reply r =>
    rw [StatsReply.accept]
    split_ifs with hr
    · obtain ⟨t, ht, hround⟩ := h.perform_accepted hr
      refine ⟨t, _, ht, hround, ?_⟩
      -- a reply is still awaited, so nothing was reported before
      have hbefore : start.reports asked accepted = [] :=
        if_neg (StatsReply.not_complete_of_count_lt hr)
      rw [hbefore, List.nil_append]
    · exact ⟨s, [], h.perform_ignored hr, h, List.append_nil _⟩

end InRound

/-! ## Whole rounds -/

/-- Calls one after the other, and all that they tell others. -/
def performAll (s : CountSink) (calls : List RoundCall) : Option (CountSink × List CountEvent) :=
  calls.foldlM (fun now c => (now.1.perform c).map fun next => (next.1, now.2 ++ next.2)) (s, [])

theorem performAll_snoc {s t u : CountSink} {calls : List RoundCall} {c : RoundCall}
    {events more : List CountEvent} (hcalls : s.performAll calls = some (t, events))
    (hc : t.perform c = some (u, more)) :
    s.performAll (calls ++ [c]) = some (u, events ++ more) := by
  unfold performAll at *
  rw [List.foldlM_append, hcalls]
  simp [hc]

theorem InRound.performAll {start t : CountSink} {asked : List Int64}
    (h : InRound start asked [] t) (calls : List RoundCall) :
    ∃ u, t.performAll calls =
        some (u, start.reports asked (StatsReply.accepted asked calls)) ∧
      InRound start asked (StatsReply.accepted asked calls) u := by
  induction calls using List.reverseRecOn with
  | nil =>
    have hnone : start.reports asked [] = [] :=
      if_neg fun hcomplete => hcomplete.1 hcomplete.2.symm.eq_nil
    exact ⟨t, by rw [StatsReply.accepted, List.foldl_nil, hnone]; rfl, h⟩
  | append_singleton calls c ih =>
    obtain ⟨u, hu, hround⟩ := ih
    obtain ⟨v, more, hv, hnext, hreports⟩ := hround.perform c
    rw [StatsReply.accepted_snoc, ← hreports]
    exact ⟨v, performAll_snoc hu hv, hnext⟩

/-- If there is one reply for each question, all replies are accepted. -/
theorem InRound.performAll_of_perm {start t : CountSink} {asked : List Int64}
    (h : InRound start asked [] t) {calls : List RoundCall}
    (hasked : ((RoundCall.replies calls).map StatsReply.switch).Perm asked) :
    ∃ u, t.performAll calls = some (u, start.reports asked (RoundCall.replies calls)) ∧
      InRound start asked (RoundCall.replies calls) u := by
  have hall : StatsReply.accepted asked calls = RoundCall.replies calls :=
    StatsReply.accepted_eq_replies fun x => (hasked.count_eq x).le
  rw [← hall]
  exact h.performAll calls

open StatsReply RoundCall

/-- Replies are accepted one for each question, whatever comes in between, and the totals are
reported once, with the last of them. They do not depend on the order of the calls, and are exact if
they fit into words. -/
theorem round_reports_once {s : CountSink} {q : StatsQuery} (hidle : s.updating = false)
    (hquery : s.query = some q) :
    ∃ t, s.whenIdle pull = some (t, [.asked q.tag]) ∧
      (∀ calls, ∃ u,
        t.performAll calls = some (u, if Complete q.switches (accepted q.switches calls) then
          s.callbacks.map (.reported · u.current) else []) ∧
        u.current = s.persistent.plus (entries s.matched (accepted q.switches calls)) ∧
        (s.persistent.Fits (entries s.matched (accepted q.switches calls)) →
          u.current.packets.toNat =
            s.persistent.packetsWith (entries s.matched (accepted q.switches calls)) ∧
          u.current.bytes.toNat =
            s.persistent.bytesWith (entries s.matched (accepted q.switches calls))) ∧
        ∀ r, (r.switch ∈ u.outstanding ↔
            ((accepted q.switches calls).map StatsReply.switch).count r.switch <
              q.switches.count r.switch) ∧
          (r.switch ∉ u.outstanding → u.perform (.reply r) = some (u, [])) ∧
          (r.switch ∈ u.outstanding → ∃ v,
            u.perform (.reply r) = some (v,
              if Complete q.switches (accepted q.switches calls ++ [r]) then
                s.callbacks.map (.reported · v.current) else []) ∧
            v.current = u.current.plus (entries s.matched [r]))) ∧
      (∀ calls, Complete q.switches (accepted q.switches calls) →
        ∃ before r after, calls = before ++ .reply r :: after ∧
          ¬ Complete q.switches (accepted q.switches before) ∧
          accepted q.switches (before ++ [.reply r]) = accepted q.switches before ++ [r] ∧
          accepted q.switches calls = accepted q.switches before ++ [r]) ∧
      ∀ calls calls', (replies calls).Perm (replies calls') →
        ((replies calls).map StatsReply.switch).Perm q.switches →
        ∃ u u' events, t.performAll calls = some (u, events) ∧
          t.performAll calls' = some (u', events) ∧ u'.current = u.current ∧
          u.current = s.persistent.plus (entries s.matched (replies calls)) ∧
          events = if q.switches = [] then [] else s.callbacks.map (.reported · u.current) := by
  obtain ⟨t, hpull, ht⟩ := whenIdle_pull hidle hquery
  refine ⟨t, hpull, ?_, fun _ => StatsReply.exists_last_reply, ?_⟩
  · intro calls
    obtain ⟨u, hu, hround⟩ := ht.performAll calls
    have hexact := @Counts.toNat_plus_of_fits s.persistent
      (entries s.matched (accepted q.switches calls))
    rw [← hround.current] at hexact
    refine ⟨u, by rw [hu, reports, ← hround.current], hround.current, hexact, fun r => ?_⟩
    refine ⟨hround.mem_outstanding_iff, ?_, ?_⟩
    · intro hr
      exact hround.perform_ignored (mt hround.mem_outstanding_iff.2 hr)
    · intro hr
      obtain ⟨v, hv, hnext⟩ := hround.perform_accepted (hround.mem_outstanding_iff.1 hr)
      refine ⟨v, by rw [hv, reports, ← hnext.current], ?_⟩
      rw [hnext.current, hround.current, ← Counts.plus_append, StatsReply.entries_append]
  · intro calls calls' hperm hasked
    have hasked' := (hperm.map StatsReply.switch).symm.trans hasked
    obtain ⟨u, hu, hround⟩ := ht.performAll_of_perm hasked
    obtain ⟨u', hu', hround'⟩ := ht.performAll_of_perm hasked'
    rw [s.reports_perm q.switches hperm.symm] at hu'
    refine ⟨u, u', _, hu, hu', ?_, hround.current, ?_⟩
    · rw [hround'.current, hround.current,
        s.persistent.plus_perm (StatsReply.entries_perm s.matched hperm)]
    · rw [reports, ← hround.current]
      split_ifs with hcomplete hnone hnone
      · exact absurd hnone hcomplete.1
      · rfl
      · rfl
      · exact absurd ⟨hnone, hasked⟩ hcomplete

/-- One switch is asked twice. Both of its replies come last in one run, and one of them comes first
in the other, where also a packet is counted, a switch answers that was not asked, and one switch
answers once too often. -/
theorem round_reports_once_repeated :
    ∃ (s t u u' : CountSink) (one two again : StatsReply), s.updating = false ∧
      s.query = some ⟨"ask", [1, 2, 1]⟩ ∧ s.callbacks = ["log"] ∧ s.persistent = ⟨3, 300⟩ ∧
      s.matched = [.test (.int "dstport" 80),
        Predicate.meet (.test (.int "dstport" 22)) (.test (.int "switch" 2))] ∧
      one = ⟨1, [⟨some (.test (.int "dstport" 80)), ⟨1, 10⟩⟩, ⟨none, ⟨7, 70⟩⟩]⟩ ∧
      two = ⟨2, [⟨some (.test (.int "dstport" 22)), ⟨2, 20⟩⟩]⟩ ∧
      again = ⟨1, [⟨some (.test (.int "dstport" 22)), ⟨5, 50⟩⟩]⟩ ∧
      s.whenIdle pull = some (t, [.asked "ask"]) ∧
      t.performAll [.reply two, .reply one, .reply again] =
        some (u, [.reported "log" ⟨6, 330⟩]) ∧
      t.performAll [.reply one, .insert .empty, .reply ⟨9, one.stats⟩, .apply, .reply two,
        .reply again, .reply one] = some (u', [.reported "log" ⟨6, 330⟩]) ∧
      u.current = ⟨6, 330⟩ ∧ u'.current = ⟨6, 330⟩ := by
  let s : CountSink :=
    { callbacks := ["log"], query := some ⟨"ask", [1, 2, 1]⟩, persistent := ⟨3, 300⟩
      matched := [.test (.int "dstport" 80),
        Predicate.meet (.test (.int "dstport" 22)) (.test (.int "switch" 2))] }
  let one : StatsReply := ⟨1, [⟨some (.test (.int "dstport" 80)), ⟨1, 10⟩⟩, ⟨none, ⟨7, 70⟩⟩]⟩
  let two : StatsReply := ⟨2, [⟨some (.test (.int "dstport" 22)), ⟨2, 20⟩⟩]⟩
  let again : StatsReply := ⟨1, [⟨some (.test (.int "dstport" 22)), ⟨5, 50⟩⟩]⟩
  obtain ⟨t, hpull, hrun, -, -⟩ := round_reports_once (s := s) rfl rfl
  obtain ⟨u, hu, hcurrent, -⟩ := hrun [.reply two, .reply one, .reply again]
  obtain ⟨u', hu', hcurrent', -⟩ := hrun [.reply one, .insert .empty, .reply ⟨9, one.stats⟩, .apply,
    .reply two, .reply again, .reply one]
  have htotals : u.current = ⟨6, 330⟩ := hcurrent.trans (by decide +kernel)
  have htotals' : u'.current = ⟨6, 330⟩ := hcurrent'.trans (by decide +kernel)
  rw [if_pos (by decide +kernel), htotals] at hu
  rw [if_pos (by decide +kernel), htotals'] at hu'
  exact ⟨s, t, u, u', one, two, again, rfl, rfl, rfl, rfl, rfl, rfl, rfl, rfl, hpull, hu, hu',
    htotals, htotals'⟩

end CountSink

end PacketPolicy

import PacketPolicy.Controller.Tracing
import PacketPolicy.Proofs.Meaning
import PacketPolicy.Proofs.Terminals

/-!
# Modes of evaluation

Running a policy step by step follows its meaning in every mode and under every schedule
(`Process.Realizes`): what passes is what the meaning says, and the notes grow by the
arrivals of the meaning, each kind of notes in its own way. Hence the modes have the same
outputs, and they differ in what becomes of sinks alone.
-/

namespace PacketPolicy

/-! ## Notes that grow -/

namespace Notes

/-- The second notes are the first ones and some arrivals, nothing being noted twice. -/
def Grow (a : Set Arrival) : Notes → Notes → Prop
  | .live l, .live k => (l.Nodup → k.Nodup) ∧ ∀ x, x ∈ k ↔ x ∈ l ∨ x ∈ a
  | .dry, .dry => True
  | .collect l, .collect k => (l.Nodup → k.Nodup) ∧ ∀ b, b ∈ k ↔ b ∈ l ∨ ∃ q, ⟨b, q⟩ ∈ a
  | _, _ => False

theorem grow_refl (n : Notes) : Grow ∅ n n := by
  cases n <;> simp [Grow]

theorem Grow.trans {a b : Set Arrival} {n m k : Notes} (hnm : Grow a n m) (hmk : Grow b m k) :
    Grow (a ∪ b) n k := by
  cases n <;> cases m <;> simp only [Grow] at hnm <;> cases k <;> simp only [Grow] at hmk ⊢
  · refine ⟨hmk.1 ∘ hnm.1, fun x => ?_⟩
    rw [hmk.2, hnm.2, Set.mem_union, or_assoc]
  · refine ⟨hmk.1 ∘ hnm.1, fun x => ?_⟩
    simp only [hmk.2, hnm.2, Set.mem_union, exists_or, or_assoc]

/-- A member put at the end of a list unless it is there. -/
theorem nodup_and_mem_of_append {α : Type} [DecidableEq α] (l : List α) (a : α) :
    (l.Nodup → (if a ∈ l then l else l ++ [a]).Nodup) ∧
      ∀ x, x ∈ (if a ∈ l then l else l ++ [a]) ↔ x ∈ l ∨ x = a := by
  split_ifs with h
  · exact ⟨id, fun x => ⟨.inl, fun hx => hx.elim id fun hx => hx ▸ h⟩⟩
  · exact ⟨fun hl => hl.concat h |> (by simpa using ·), fun x => by simp⟩

theorem grow_add (s : Sink) (p : Packet) (n : Notes) : Grow {⟨s, p⟩} n (n.add s p) := by
  cases n with
  | live l => exact nodup_and_mem_of_append l ⟨s, p⟩
  | dry => trivial
  | collect l =>
    obtain ⟨hnodup, hmem⟩ := nodup_and_mem_of_append l s
    refine ⟨hnodup, fun b => (hmem b).trans ?_⟩
    simp

end Notes

/-! ## Runs that follow a meaning -/

/-- Whatever was done before, the work passes on what the meaning says, and notes its arrivals. -/
def Work.Yields (w : Work) (m : Meaning) : Prop :=
  ∀ st, (∀ q, q ∈ (w st).1 ↔ q ∈ m.out) ∧ st.notes.Grow m.arr (w st).2.notes

/-- The process does to each packet what the behavior says. -/
def Process.Realizes (w : Process) (d : Behavior) : Prop := ∀ p, Work.Yields (w p) (d p)

theorem Work.yields_gather {ws : List Work} {ms : List Meaning}
    (h : List.Forall₂ Work.Yields ws ms) (s : PacketSet) :
    (gather ws s).Yields
      ⟨{q | q ∈ s ∨ ∃ m ∈ ms, q ∈ m.out}, {x | ∃ m ∈ ms, x ∈ m.arr}⟩ := by
  induction h generalizing s with
  | nil =>
    intro st
    exact ⟨by simp [gather], by simpa [gather] using st.notes.grow_refl⟩
  | @cons w m ws ms hw _ ih =>
    intro st
    obtain ⟨hout, hgrow⟩ := hw st
    obtain ⟨hrest, hmore⟩ := ih (s.union (w st).1) (w st).2
    have harr : {x | ∃ k ∈ m :: ms, x ∈ k.arr} = m.arr ∪ {x | ∃ k ∈ ms, x ∈ k.arr} := by
      ext x
      simp
    refine ⟨fun q => (hrest q).trans ?_, ?_⟩
    · simp [hout, or_assoc]
    · simp only [harr]
      exact hgrow.trans hmore

namespace Process

variable {o : Schedule} {w : Process} {d : Behavior}

theorem realizes_pass : pass.Realizes .identity := fun _ st =>
  ⟨fun _ => SortedSet.mem_singleton, st.notes.grow_refl⟩

theorem realizes_stop : stop.Realizes .drop := fun _ st =>
  ⟨fun q => iff_of_false (SortedSet.not_mem_empty q) id, st.notes.grow_refl⟩

theorem realizes_test (m : Match) : (test m).Realizes (.test m) := by
  intro p st
  refine ⟨fun q => ?_, st.notes.grow_refl⟩
  simp only [test, Behavior.test, Set.mem_ofPred_eq]
  split_ifs with h <;> simp [h]

theorem realizes_modify (m : Modification) : (modify m).Realizes (.modify m) := fun _ st =>
  ⟨fun _ => SortedSet.mem_singleton, st.notes.grow_refl⟩

theorem realizes_query (s : Sink) : (query s).Realizes (.query s) := fun p st =>
  ⟨fun q => iff_of_false (SortedSet.not_mem_empty q) id, st.notes.grow_add s p⟩

theorem Realizes.isEmpty_iff (h : w.Realizes d) (p : Packet) (st : Progress) :
    (w p st).1.isEmpty = true ↔ (d p).out = ∅ := by
  obtain ⟨hout, -⟩ := h p st
  rw [Set.eq_empty_iff_forall_notMem, SortedSet.isEmpty_iff]
  constructor
  · intro hempty q hq
    rw [← hout, hempty] at hq
    exact SortedSet.not_mem_empty q hq
  · intro hnone
    exact SortedSet.ext_mem fun q =>
      iff_of_false (fun hq => hnone q ((hout q).1 hq)) (SortedSet.not_mem_empty q)

theorem Realizes.negate (h : w.Realizes d) : (negate w).Realizes d.negate := by
  intro p st
  refine ⟨fun q => ?_, (h p st).2⟩
  simp only [Process.negate, Behavior.negate, h.isEmpty_iff p st, Set.mem_ofPred_eq]
  split_ifs with hempty <;> simp [hempty]

theorem realizes_beside {ws : List Process} {ds : List Behavior}
    (h : List.Forall₂ Realizes ws ds) : (beside ws).Realizes (.beside ds) := by
  intro p
  have hat : List.Forall₂ Work.Yields (ws.map (· p)) (ds.map (· p)) := by
    rw [List.forall₂_map_left_iff, List.forall₂_map_right_iff]
    exact h.imp fun _ _ hw => hw p
  simpa [Behavior.beside, Process.beside] using Work.yields_gather hat .empty

/-- The order in which a turn takes the packets makes no difference. -/
theorem Realizes.onAll (h : w.Realizes d) (s : PacketSet) :
    Work.Yields (onAll o w s) (d.onAll s) := by
  intro st
  have hat : List.Forall₂ Work.Yields ((o.order st.turns s).map w)
      ((o.order st.turns s).map d) := by
    rw [List.forall₂_map_left_iff, List.forall₂_map_right_iff]
    exact List.forall₂_same.2 fun p _ => h p
  have hmem : ∀ p, p ∈ o.order st.turns s ↔ p ∈ s := fun p => (o.perm st.turns s).mem_iff
  have hyields := Work.yields_gather hat .empty { st with turns := st.turns + 1 }
  simpa [hmem, Behavior.onAll, Process.onAll] using hyields

end Process

namespace Stage

/-- The stage does what the behavior says. -/
inductive Realizes : Stage → Behavior → Prop
  | skip : Realizes .skip .identity
  | block : Realizes .block .drop
  | run {w : Process} {d : Behavior} : w.Realizes d → Realizes (.run w) d

end Stage

namespace Process

variable {o : Schedule}

/-- The packets of a set on their way through some stages. The shortcuts leave out nothing. -/
theorem yields_through {stages : List Stage} {ds : List Behavior}
    (h : List.Forall₂ Stage.Realizes stages ds) (s : PacketSet) :
    Work.Yields (through o stages s) ((Behavior.along ds).onAll s) := by
  induction h generalizing s with
  | nil =>
    intro st
    refine ⟨by simp [through, Behavior.along, Behavior.onAll, Behavior.identity], ?_⟩
    simpa [through, Behavior.along, Behavior.onAll, Behavior.identity]
      using st.notes.grow_refl
  | @cons stage d stages ds hstage _ ih =>
    have hcons : Behavior.along (d :: ds) = d.andThen (Behavior.along ds) := rfl
    rw [hcons]
    cases hstage with
    | skip =>
      rw [Behavior.identity_andThen]
      exact ih s
    | block =>
      intro st
      rw [Behavior.drop_andThen]
      refine ⟨by simp [through, Behavior.onAll, Behavior.drop], ?_⟩
      simpa [through, Behavior.onAll, Behavior.drop] using st.notes.grow_refl
    | @run w _ hw =>
      intro st
      obtain ⟨hout, hgrow⟩ := hw.onAll (o := o) s st
      rw [Behavior.onAll_andThen d _ hout, through]
      split_ifs with hempty
      · -- nothing is passed on, so later stages would neither pass nor note anything
        rw [SortedSet.isEmpty_iff.1 hempty]
        exact ⟨by simp [Behavior.onAll], by simpa [Behavior.onAll] using hgrow⟩
      · obtain ⟨hrest, hmore⟩ := ih (Process.onAll o w s st).1 (Process.onAll o w s st).2
        exact ⟨hrest, hgrow.trans hmore⟩

theorem realizes_along {stages : List Stage} {ds : List Behavior}
    (h : List.Forall₂ Stage.Realizes stages ds) : (along o stages).Realizes (.along ds) := by
  intro p
  have hyields := yields_through (o := o) h (.singleton p)
  rwa [Behavior.onAll_singleton] at hyields

theorem realizes_pair {x y : Stage} {d e : Behavior} (hx : x.Realizes d) (hy : y.Realizes e) :
    (along o [x, y]).Realizes (d.andThen e) := by
  rw [← Behavior.along_pair]
  exact realizes_along (.cons hx (.cons hy .nil))

end Process

/-! ## Policies and stores -/

namespace Policy

theorem processes_eq_map (o : Schedule) (env : Handle → Process) (ps : List Policy) :
    processes o env ps = ps.map (process o env) := by
  induction ps with
  | nil => rfl
  | cons p ps ih => simp [processes, ih]

theorem stages_eq_map (o : Schedule) (env : Handle → Process) (ps : List Policy) :
    stages o env ps = ps.map fun p => p.stage (process o env p) := by
  induction ps with
  | nil => rfl
  | cons p ps ih => simp [stages, ih]

theorem realizes_stage {den : Handle → Behavior} {w : Process} {p : Policy}
    (h : w.Realizes (p.denote den)) : (p.stage w).Realizes (p.denote den) := by
  cases p with
  | identity => exact .skip
  | drop => exact .block
  | _ => exact .run h

theorem realizes_process {o : Schedule} {env : Handle → Process} {den : Handle → Behavior}
    (henv : ∀ h, (env h).Realizes (den h)) (p : Policy) :
    (p.process o env).Realizes (p.denote den) := by
  induction p using inductionOn with
  | step p ih =>
    have hprocesses : List.Forall₂ Process.Realizes (processes o env p.operands)
        (denoteAll den p.operands) := by
      rw [processes_eq_map, denoteAll_eq_map, List.forall₂_map_left_iff,
        List.forall₂_map_right_iff]
      exact List.forall₂_same.2 ih
    have hstages : List.Forall₂ Stage.Realizes (stages o env p.operands)
        (denoteAll den p.operands) := by
      rw [stages_eq_map, denoteAll_eq_map, List.forall₂_map_left_iff, List.forall₂_map_right_iff]
      exact List.forall₂_same.2 fun q hq => realizes_stage (ih q hq)
    cases p with
    | identity => exact Process.realizes_pass
    | drop => exact Process.realizes_stop
    | test m => exact Process.realizes_test m
    | modify m => exact Process.realizes_modify m
    | controller => exact Process.realizes_stop
    | query s => exact Process.realizes_query s
    | negate p => exact (ih p (by simp [operands])).negate
    | parallel ps => exact Process.realizes_beside hprocesses
    | union ps => exact Process.realizes_beside hprocesses
    | sequential ps => exact Process.realizes_along hstages
    | intersection ps => exact Process.realizes_along hstages
    | difference p q =>
      have hp := realizes_stage (ih p (by simp [operands]))
      have hq := (ih q (by simp [operands])).negate
      exact Process.realizes_pair hp (.run hq)
    | conditional c p q =>
      have hc := ih c (by simp [operands])
      have hp := realizes_stage (ih p (by simp [operands]))
      have hq := realizes_stage (ih q (by simp [operands]))
      exact Process.realizes_beside (.cons (Process.realizes_pair (realizes_stage hc) hp)
        (.cons (Process.realizes_pair (.run hc.negate) hq) .nil))
    | forward port => exact Process.realizes_modify _
    | exclusive port =>
      exact Process.realizes_pair (.run (Process.realizes_test _).negate)
        (.run (Process.realizes_modify _))
    | link l =>
      exact Process.realizes_pair (.run (Process.realizes_test _))
        (.run (Process.realizes_modify _))
    | dynamic h => exact henv h

end Policy

theorem Store.realizes_process (s : Store) (o : Schedule) (p : Policy) :
    (s.process o p).Realizes (s.denote p) :=
  reading_rel Process.realizes_stop (fun henv => Policy.realizes_process henv) s p

/-! ## Sinks -/

namespace Controller

/-- The second controller is the first one after arrivals: each sink got its packets, one copy of
each, and nothing else has changed. -/
def Delivered (a : Set Arrival) (c c' : Controller) : Prop :=
  (∀ b, ∃ l : List Packet, l.Nodup ∧ (∀ q, q ∈ l ↔ ⟨b, q⟩ ∈ a) ∧
    c'.sink? b = (c.sink? b).map (SinkState.insertAll l)) ∧
  c' = { c with forwardSinks := c'.forwardSinks, countSinks := c'.countSinks }

theorem delivered_receive (c : Controller) {l : List Arrival} {a : Set Arrival} (hnodup : l.Nodup)
    (hmem : ∀ x, x ∈ l ↔ x ∈ a) : Delivered a c (c.receive l) :=
  ⟨fun b => ⟨packetsFor b l, nodup_packetsFor hnodup b,
    fun _ => mem_packetsFor.trans (hmem _), c.sink?_receive l b⟩, c.receive_eq l⟩

theorem Delivered.exists_waiting {a : Set Arrival} {c c' : Controller} (h : Delivered a c c')
    {b : Sink} {l : List Packet} (hb : c.waiting? b = some l) :
    ∃ k : List Packet, k.Nodup ∧ (∀ q, q ∈ k ↔ ⟨b, q⟩ ∈ a) ∧ c'.waiting? b = some (l ++ k) := by
  obtain ⟨k, hnodup, hmem, hsink⟩ := h.1 b
  obtain ⟨f, hf, rfl⟩ := Option.map_eq_some_iff.1 hb
  refine ⟨k, hnodup, hmem, ?_⟩
  rw [waiting?, hsink, hf, Option.map_some, Option.map_some, SinkState.waiting_insertAll]

variable (c : Controller) (o : Schedule) (p : Policy) (pkt : Packet)

theorem delivered_trace :
    Delivered (c.store.denote p pkt).arr c (c.trace o (.live []) p pkt).controller := by
  obtain ⟨-, hgrow⟩ := c.store.realizes_process o p pkt { notes := .live [] }
  rw [trace]
  generalize (c.store.process o p pkt { notes := .live [] }).2.notes = n at hgrow
  cases n with
  | live l =>
    obtain ⟨hnodup, hmem⟩ := hgrow
    exact c.delivered_receive (hnodup .nil) fun x => (hmem x).trans (or_iff_right List.not_mem_nil)
  | dry | collect l => exact hgrow.elim

theorem delivered_eval : Delivered (c.store.denote p pkt).arr c (c.eval p pkt).2 :=
  c.delivered_receive (SortedSet.nodup_toList _) fun x =>
    SortedSet.mem_toList.trans ((c.store.means_term p pkt).2 x)

/-- A run that only collects sinks does so completely, and no sink receives anything. -/
theorem trace_collect : (c.trace o (.collect []) p pkt).controller = c ∧
    (c.trace o (.collect []) p pkt).notes.reached.Nodup ∧
    ∀ b, b ∈ (c.trace o (.collect []) p pkt).notes.reached ↔
      ∃ q, ⟨b, q⟩ ∈ (c.store.denote p pkt).arr := by
  obtain ⟨-, hgrow⟩ := c.store.realizes_process o p pkt { notes := .collect [] }
  rw [trace]
  generalize (c.store.process o p pkt { notes := .collect [] }).2.notes = n at hgrow
  cases n with
  | collect k =>
    obtain ⟨hnodup, hmem⟩ := hgrow
    exact ⟨rfl, hnodup .nil, fun b => (hmem b).trans (or_iff_right List.not_mem_nil)⟩
  | live k | dry => exact hgrow.elim

theorem controller_trace_dry : (c.trace o .dry p pkt).controller = c := by
  obtain ⟨-, hgrow⟩ := c.store.realizes_process o p pkt { notes := .dry }
  rw [trace]
  generalize (c.store.process o p pkt { notes := .dry }).2.notes = n at hgrow
  cases n with
  | dry => rfl
  | live k | collect k => exact hgrow.elim

/-- A run follows the meaning of the policy in every mode and in every order of packets, and only a
run for the effect on sinks delivers anything. Handles mean what they stand for, if none refers to
itself. -/
theorem modes_follow_meaning :
    (∀ start q, q ∈ (c.trace o start p pkt).outputs ↔ q ∈ (c.store.denote p pkt).out) ∧
    Delivered (c.store.denote p pkt).arr c (c.trace o (.live []) p pkt).controller ∧
    (c.trace o .dry p pkt).controller = c ∧
    ((c.trace o (.collect []) p pkt).controller = c ∧
      (c.trace o (.collect []) p pkt).notes.reached.Nodup ∧
      ∀ b, b ∈ (c.trace o (.collect []) p pkt).notes.reached ↔
        ∃ q, ⟨b, q⟩ ∈ (c.store.denote p pkt).arr) ∧
    ((∀ q, q ∈ (c.eval p pkt).1 ↔ q ∈ (c.store.denote p pkt).out) ∧
      Delivered (c.store.denote p pkt).arr c (c.eval p pkt).2 ∧
      (c.store.eval p pkt).sinks.Nodup ∧
      ∀ b, b ∈ (c.store.eval p pkt).sinks ↔ ∃ q, ⟨b, q⟩ ∈ (c.store.denote p pkt).arr) ∧
    (c.store.Acyclic → c.store.Closed → ∀ h, c.store.owns h = true →
      c.store.denote (.dynamic h) = c.store.denote (c.store.definition h)) := by
  obtain ⟨hout, harr⟩ := c.store.means_term p pkt
  refine ⟨fun start q => (c.store.realizes_process o p pkt { notes := start }).1 q,
    c.delivered_trace o p pkt, c.controller_trace_dry o p pkt, c.trace_collect o p pkt,
    ⟨hout, c.delivered_eval p pkt, nodup_eraseDups _, ?_⟩,
    fun hs hclosed h hown => Store.denote_dynamic hs hclosed hown⟩
  intro b
  exact Outcome.mem_sinks.trans (exists_congr fun q => harr _)

/-- Two packets reach one sink by a handle and by the policy itself, and another sink within a
negation. -/
theorem modes_follow_meaning_two_packets :
    ∃ (c : Controller) (p : Policy) (h : Handle) (b b' : Sink) (q r : Packet), q ≠ r ∧ b ≠ b' ∧
      p = .sequential [.parallel [.forward 1, .forward 2],
        .parallel [.dynamic h, .query b, .negate (.query b')]] ∧
      c.store.Acyclic ∧ c.store.Closed ∧
      c.store.denote (.dynamic h) = c.store.denote (.query b) ∧
      ∀ o : Schedule,
        (∀ start, (c.trace o start p .empty).outputs.toList.Perm [q, r]) ∧
        (∃ l, l.Perm [q, r] ∧ c.waiting? b = some [] ∧
          (c.trace o (.live []) p .empty).controller.waiting? b = some l) ∧
        (c.trace o .dry p .empty).controller = c ∧
        (c.trace o (.collect []) p .empty).notes.reached.Perm [b, b'] := by
  let b : Sink := ⟨.count, 0⟩
  let b' : Sink := ⟨.forward, 0⟩
  let h : Handle := ⟨0, false⟩
  let c : Controller :=
    { store := ⟨[⟨.query b, false, none⟩]⟩, forwardSinks := [{}], countSinks := [{}] }
  let p : Policy := .sequential [.parallel [.forward 1, .forward 2],
    .parallel [.dynamic h, .query b, .negate (.query b')]]
  let q : Packet := (Modification.leaveBy 1).apply .empty
  let r : Packet := (Modification.leaveBy 2).apply .empty
  have hsettled : ∀ k j, ¬ c.store.Refers k j := by
    rintro ⟨_ | i, kind⟩ j hj
    · have hquery : (Policy.query b).Mentions j := hj
      simp [Policy.Mentions, Policy.ownParts, Policy.parts] at hquery
    · have hdrop : Policy.drop.Mentions j := hj
      simp [Policy.Mentions, Policy.ownParts, Policy.parts] at hdrop
  have hacyclic : c.store.Acyclic := Store.acyclic_of_lt fun k j hj => absurd hj (hsettled k j)
  have hclosed : c.store.Closed := fun k j hj => absurd hj (hsettled k j)
  have houtputs : (c.eval p .empty).1.toList = [q, r] := by decide +kernel
  have hwaiting : (c.eval p .empty).2.waiting? b = some [q, r] := by decide +kernel
  have hsinks : (c.store.eval p .empty).sinks.Perm [b, b'] := by decide +kernel
  refine ⟨c, p, h, b, b', q, r, by decide, by decide, rfl, hacyclic, hclosed, ?_, fun o => ?_⟩
  · exact (modes_follow_meaning c .sorted p .empty).2.2.2.2.2 hacyclic hclosed h rfl
  obtain ⟨hout, hlive, hdry, ⟨-, hreached, hmem⟩, ⟨hout', hlive', hnodup, hmem'⟩, -⟩ :=
    modes_follow_meaning c o p .empty
  refine ⟨fun start => ?_, ?_, hdry, ?_⟩
  · rw [← houtputs]
    refine (List.perm_ext_iff_of_nodup (SortedSet.nodup_toList _) (SortedSet.nodup_toList _)).2 ?_
    intro x
    rw [SortedSet.mem_toList, SortedSet.mem_toList, hout, hout']
  · obtain ⟨k, hk, hmemk, hgot⟩ := hlive.exists_waiting (b := b) (l := []) rfl
    obtain ⟨k', hk', hmemk', hgot'⟩ := hlive'.exists_waiting (b := b) (l := []) rfl
    obtain rfl : [q, r] = k' := Option.some.inj (hwaiting.symm.trans hgot')
    refine ⟨k, (List.perm_ext_iff_of_nodup hk hk').2 fun x => ?_, rfl, hgot⟩
    rw [hmemk, hmemk']
  · refine ((List.perm_ext_iff_of_nodup hreached hnodup).2 fun x => ?_).trans hsinks
    rw [hmem, hmem']

end Controller

end PacketPolicy

import PacketPolicy.Proofs.Correctness
import PacketPolicy.Proofs.Filters
import PacketPolicy.Proofs.Reception

/-!
# Where packets end

If only filters are negated, the winning rule of a compiled table hands its packet to the
sinks and to the controller exactly where evaluation would bring a packet there. Each
sink gets the packet once, however many ways lead to it.
-/

namespace PacketPolicy

namespace Table

theorem endsIn_single {a x : Action} {pkt : Packet} : (single a).EndsIn pkt x ↔ x = a := by
  simp [EndsIn, verdict_single]

theorem not_endsIn_of_twofold {t : Table} (ht : t.AllActions Action.Twofold) {x : Action}
    (hx : x.isTerminal = true) {pkt : Packet} : ¬ t.EndsIn pkt x := by
  rintro ⟨actions, hverdict, hmem⟩
  obtain ⟨r, hr, rfl⟩ := exists_mem_of_verdict hverdict
  rcases ht r hr with htwo | htwo
  · rw [htwo, List.mem_singleton] at hmem
    subst hmem
    cases hx
  · rw [htwo, List.mem_singleton] at hmem
    subst hmem
    cases hx

end Table

namespace Term

variable {c : CompileSettings}

theorem IsFilter.twofold {t : Term} (ht : IsFilter t) {a : Table} (h : Compiles c t a) :
    a.AllActions Action.Twofold := by
  obtain ⟨b, hb, htwo⟩ := ht.compiles c
  obtain rfl : a = b := Except.ok.inj (h.compile_eq.symm.trans hb.compile_eq)
  exact htwo

theorem IsFilter.endsIn_iff {t : Term} (ht : IsFilter t) {a : Table} (h : Compiles c t a)
    {x : Action} (hx : x.isTerminal = true) {pkt : Packet} :
    a.EndsIn pkt x ↔ ∃ q, Arrives (ofAction x) (t.restrict c.headers) pkt q := by
  rw [ht.restrict]
  exact iff_of_false (Table.not_endsIn_of_twofold (ht.twofold h) hx)
    fun ⟨_, harr⟩ => ht.not_arrives hx harr

/-- A packet's way through the table of a term ends in an action exactly if evaluation brings some
packet to that action, where other modifications than those of the headers count as the
controller. -/
theorem Compiles.endsIn {t : Term} {a : Table} (h : Compiles c t a) (hwell : WellNegated t)
    {x : Action} (hx : x.isTerminal = true) (pkt : Packet) :
    a.EndsIn pkt x ↔ ∃ q, Arrives (ofAction x) (t.restrict c.headers) pkt q := by
  have hsingle : ∀ (y : Action) {pkt : Packet}, (Table.single y).EndsIn pkt x ↔
      ∃ q, Arrives (ofAction x) (ofAction y) pkt q := by
    simp [Table.endsIn_single, arrives_ofAction_iff]
  induction h generalizing pkt with
  | identity => exact IsFilter.identity.endsIn_iff .identity hx
  | drop => exact IsFilter.drop.endsIn_iff .drop hx
  | test m => exact (IsFilter.test m).endsIn_iff (.test m) hx
  | modify m =>
    rw [restrict]
    split_ifs
    · exact hsingle .controller
    · exact hsingle (.modify m)
  | controller => exact hsingle .controller
  | query s => exact hsingle (.query s)
  | negate ha hneg _ =>
    cases hwell with
    | negate hfilter => exact hfilter.negate.endsIn_iff (.negate ha hneg) hx
  | parallelNil => exact (IsFilter.parallel (by simp)).endsIn_iff .parallelNil hx
  | parallelOne _ ih =>
    refine (ih (hwell.of_mem_operands List.mem_cons_self) pkt).trans ?_
    simp [restrict_parallel, arrives_parallel_iff]
  | @parallelSnoc ts t _ _ _ _ _ iha ihb =>
    have hinit : WellNegated (.parallel ts) :=
      .parallel fun u hu => hwell.of_mem_operands (List.mem_append_left _ hu)
    have hlast : WellNegated t := hwell.of_mem_operands (List.mem_append_right _ List.mem_cons_self)
    refine (Table.endsIn_parallel _ (Action.ne_drop_of_isTerminal hx)).trans ?_
    simp only [iha hinit, ihb hlast, restrict_parallel, List.map_append, List.map_singleton,
      arrives_parallel_snoc, exists_or]
  | sequentialNil => exact (IsFilter.sequential (by simp)).endsIn_iff .sequentialNil hx
  | sequentialOne _ ih =>
    refine (ih (hwell.of_mem_operands List.mem_cons_self) pkt).trans (exists_congr fun q => ?_)
    rw [restrict_sequential, List.map_singleton, arrives_sequential_one]
  | @sequentialSnoc ts t _ _ _ ha hb iha ihb =>
    have hinit : WellNegated (.sequential ts) :=
      .sequential fun u hu => hwell.of_mem_operands (List.mem_append_left _ hu)
    have hlast : WellNegated t := hwell.of_mem_operands (List.mem_append_right _ List.mem_cons_self)
    refine (Table.endsIn_sequential _ hb.regular.total hx).trans ?_
    simp only [iha hinit, ha.passes, ihb hlast, restrict_sequential, List.map_append,
      List.map_singleton, arrives_sequential_snoc, exists_or]
    refine or_congr_right ?_
    rw [exists_comm]
    simp only [exists_and_left]

/-! ## Sinks behind filters -/

/-- The term is a part of the other. -/
inductive Has (x : Term) : Term → Prop
  | here : Has x x
  | negate {t} : Has x t → Has x (.negate t)
  | parallel {ts t} : t ∈ ts → Has x t → Has x (.parallel ts)
  | sequential {ts t} : t ∈ ts → Has x t → Has x (.sequential ts)

theorem Arrives.has {x t : Term} {p q : Packet} (h : Arrives x t p q) : Has x t := by
  induction h with
  | here => exact .here
  | negate _ ih => exact .negate ih
  | parallel ht _ ih => exact .parallel ht ih
  | sequential _ _ ih => exact .sequential (by simp) ih

/-- What comes before a part with a sink, one after the other, is a filter. -/
def SinksAfterFilters (t : Term) : Prop :=
  ∀ before u after b, Has (.sequential (before ++ u :: after)) t → Has (.query b) u →
    ∀ v ∈ before, IsFilter v

theorem SinksAfterFilters.eq_of_arrives {t : Term} (ht : SinksAfterFilters t) {b : Sink}
    {p q : Packet} (h : Arrives (.query b) t p q) : q = p := by
  induction h with
  | here => rfl
  | negate _ ih =>
    apply ih
    intro before u after b hu
    exact ht before u after b (.negate hu)
  | parallel hmem _ ih =>
    apply ih
    intro before u after b hu
    exact ht before u after b (.parallel hmem hu)
  | @sequential before u after p r q hr harr ih =>
    have hfilter : IsFilter (.sequential before) := .sequential (ht before u after b .here harr.has)
    have hrp : r = p := hfilter.eq_of_mem_outputs hr
    rw [← hrp]
    apply ih
    intro before' u' after' b' hu
    exact ht before' u' after' b' (.sequential (by simp) hu)

end Term

/-! ## Lookups -/

namespace Rule

theorem count_sinks (r : Rule) (b : Sink) : r.sinks.count b = r.actions.count (.query b) := by
  unfold sinks
  induction r.actions with
  | nil => rfl
  | cons x actions ih =>
    cases x <;> simp [List.filterMap_cons, Action.sink?, List.count_cons, ih]

theorem mem_sinks {r : Rule} {b : Sink} : b ∈ r.sinks ↔ .query b ∈ r.actions := by
  rw [← List.count_pos_iff, count_sinks, List.count_pos_iff]

theorem nodup_sinks {r : Rule} (h : Action.Orderly r.actions) : r.sinks.Nodup := by
  rw [List.nodup_iff_count_le_one]
  intro b
  rw [count_sinks]
  exact h.ends_once (.query b) rfl

/-- Each sink of a rule gets the packet once. -/
theorem packetsFor_sinks {r : Rule} (h : Action.Orderly r.actions) (pkt : Packet) {l : List Sink}
    (hl : ∀ b, .query b ∈ r.actions ↔ b ∈ l) (b : Sink) :
    packetsFor b (r.sinks.map (⟨·, pkt⟩)) = if b ∈ l then [pkt] else [] := by
  have hnodup : (r.sinks.map (⟨·, pkt⟩ : Sink → Arrival)).Nodup :=
    (nodup_sinks h).map fun _ _ he => congrArg Arrival.sink he
  have hpkt : ∀ a ∈ r.sinks.map (⟨·, pkt⟩ : Sink → Arrival), a.packet = pkt := by simp
  rw [packetsFor_eq hnodup hpkt b]
  simp [mem_sinks, hl]

end Rule

theorem SortedSet.nodup_toList {κ : Type} [Ord κ] [Std.ReflOrd κ] (s : SortedSet κ) :
    s.toList.Nodup := by
  refine s.sorted.imp fun {a b} hlt he => ?_
  rw [he, Std.ReflOrd.compare_self] at hlt
  cases hlt

namespace Outcome

theorem mem_sinks {o : Outcome} {b : Sink} : b ∈ o.sinks ↔ ∃ q, ⟨b, q⟩ ∈ o.arrivals := by
  simp only [sinks, List.mem_eraseDups, List.mem_map, SortedSet.mem_toList]
  constructor
  · rintro ⟨a, ha, rfl⟩
    exact ⟨a.packet, ha⟩
  · rintro ⟨q, hq⟩
    exact ⟨_, hq, rfl⟩

theorem packetsFor_arrivals {o : Outcome} {pkt : Packet} (h : ∀ a ∈ o.arrivals, a.packet = pkt)
    (b : Sink) : packetsFor b o.arrivals.toList = if b ∈ o.sinks then [pkt] else [] := by
  have hmem : ⟨b, pkt⟩ ∈ o.arrivals.toList ↔ b ∈ o.sinks := by
    rw [mem_sinks, SortedSet.mem_toList]
    constructor
    · intro hb
      exact ⟨pkt, hb⟩
    · rintro ⟨q, hq⟩
      obtain rfl : q = pkt := h _ hq
      exact hq
  rw [packetsFor_eq (SortedSet.nodup_toList _) h b]
  simp only [hmem]

end Outcome

namespace Store

/-- The table of a policy and its winning rule, with all the places where the packet ends. -/
theorem exists_winning_rule {s : Store} {c : CompileSettings} {p : Policy}
    (hfilters : s.NegatesFilters (s.parts p))
    (hmodify : ∀ m, .modify m ∈ s.parts p → m.writesOutside c.headers = false) (pkt : Packet) :
    ∃ t, s.compile c p = .ok t ∧ ∃ i r, t.find? pkt = some (i, r) ∧ Action.Orderly r.actions ∧
      ∀ x : Action, x.isTerminal = true →
        (x ∈ r.actions ↔ ∃ q, Term.Arrives (Term.ofAction x) (s.term p) pkt q) := by
  have hwell := (s.carried_typed.term hfilters).1
  obtain ⟨t, hcomp⟩ := hwell.compiles c
  obtain ⟨actions, hverdict⟩ := hcomp.regular.total pkt
  obtain ⟨i, r, hfind, hr, -, rfl⟩ := Table.find?_of_verdict hverdict
  refine ⟨t, hcomp.compile_eq, i, r, hfind, hcomp.regular.actions r hr, ?_⟩
  intro x hx
  have hends := hcomp.endsIn hwell hx pkt
  rw [restrict_term_of_parts hmodify] at hends
  simpa [Table.EndsIn, hverdict] using hends

end Store

namespace Controller

theorem lookup_of_find? {k : Controller} {t : Table} {pkt : Packet} {i : Nat} {r : Rule}
    (h : t.find? pkt = some (i, r)) :
    k.lookup t pkt = .ok ({ index := i, outputs := r.outputs pkt, fired := r.sinks },
      k.receive (r.sinks.map (⟨·, pkt⟩))) := by
  rw [lookup, Table.lookup_of_find? h]
  rfl

/-- If only filters are negated and only headers of the table are set, the winning rule names the
sinks and the controller exactly as evaluation reaches them. The effect is the same where evaluation
brings only the packet itself to sinks. -/
theorem lookup_reaches_terminals (k : Controller) {c : CompileSettings} {p : Policy}
    (hnegate : ∀ q, .negate q ∈ k.store.parts p → q.isFilter = true)
    (hdynamic : ∀ h, .dynamic h ∈ k.store.parts p → h.isFilter = true →
      (k.store.definition h).isFilter = true)
    (hmodify : ∀ m, .modify m ∈ k.store.parts p → m.writesOutside c.headers = false)
    (pkt : Packet) :
    ∃ t, k.store.compile c p = .ok t ∧ ∃ i r, t.find? pkt = some (i, r) ∧
      (∀ b, .query b ∈ r.actions ↔ b ∈ (k.store.eval p pkt).sinks) ∧
      (∀ b ∈ (k.store.eval p pkt).sinks, r.actions.count (.query b) = 1) ∧
      (.controller ∈ r.actions ↔ ∃ q, Term.Arrives .controller (k.store.term p) pkt q) ∧
      ∃ report after, k.lookup t pkt = .ok (report, after) ∧
        (∀ b, after.waiting? b = (k.waiting? b).map
          (· ++ if b ∈ (k.store.eval p pkt).sinks then [pkt] else [])) ∧
        ((∀ a ∈ (k.store.eval p pkt).arrivals, a.packet = pkt) → after = (k.eval p pkt).2) ∧
        (Term.SinksAfterFilters (k.store.term p) →
          ∀ a ∈ (k.store.eval p pkt).arrivals, a.packet = pkt) := by
  obtain ⟨t, hcompile, i, r, hfind, hord, hends⟩ :=
    Store.exists_winning_rule ⟨hnegate, hdynamic⟩ hmodify pkt
  have hquery : ∀ b, .query b ∈ r.actions ↔ b ∈ (k.store.eval p pkt).sinks := by
    intro b
    rw [hends (.query b) rfl, Outcome.mem_sinks]
    exact exists_congr fun q => (Term.mem_arrivals_iff _ _).symm
  have hpackets := Rule.packetsFor_sinks hord pkt hquery
  refine ⟨t, hcompile, i, r, hfind, hquery, ?_, hends .controller rfl, _, _,
    lookup_of_find? hfind, ?_, ?_, ?_⟩
  · intro b hb
    have hpos := List.count_pos_iff.2 ((hquery b).2 hb)
    have hone := hord.ends_once (.query b) rfl
    omega
  · intro b
    rw [waiting?_receive, hpackets]
  · intro hsame
    apply receive_congr
    intro b
    rw [hpackets, Outcome.packetsFor_arrivals hsame]
  · intro hsinks a ha
    exact hsinks.eq_of_arrives ((Term.mem_arrivals_iff _ _).1 ha)

/-- Two ways lead to one sink and none to the other; the packet is put into the first once. -/
theorem lookup_reaches_terminals_two_ways :
    ∃ (k : Controller) (p : Policy), k.store = ⟨[⟨.test (.int "inport" 1), true, none⟩]⟩ ∧
      k.forwardSinks = [{}] ∧ k.countSinks = [{}] ∧
      p = .parallel [.sequential [.negate (.dynamic ⟨0, true⟩), .query ⟨.count, 0⟩],
        .sequential [.dynamic ⟨0, true⟩, .parallel [.query ⟨.forward, 0⟩, .forward 2]],
        .query ⟨.forward, 0⟩] ∧
      ∃ t report after, k.store.compile {} p = .ok t ∧
        k.lookup t (.ofList [("inport", .int 1)]) = .ok (report, after) ∧
        after.waiting? ⟨.forward, 0⟩ = some [.ofList [("inport", .int 1)]] ∧
        after.waiting? ⟨.count, 0⟩ = some [] ∧
        after = (k.eval p (.ofList [("inport", .int 1)])).2 := by
  let k : Controller :=
    { store := ⟨[⟨.test (.int "inport" 1), true, none⟩]⟩, forwardSinks := [{}], countSinks := [{}] }
  let p : Policy := .parallel [.sequential [.negate (.dynamic ⟨0, true⟩), .query ⟨.count, 0⟩],
    .sequential [.dynamic ⟨0, true⟩, .parallel [.query ⟨.forward, 0⟩, .forward 2]],
    .query ⟨.forward, 0⟩]
  have hparts : (∀ q, .negate q ∈ k.store.parts p → q.isFilter = true) ∧
      (∀ h, .dynamic h ∈ k.store.parts p → h.isFilter = true →
        (k.store.definition h).isFilter = true) ∧
      ∀ m, .modify m ∈ k.store.parts p → m = .leaveBy 2 := by
    simp [k, p, Store.parts, Store.reading, Store.unfold, Store.size, Store.definition, Store.get?,
      Policy.parts, Policy.partsOfAll, Policy.isFilter]
  have hmodify : ∀ m, .modify m ∈ k.store.parts p → m.writesOutside .compilable = false := by
    intro m hm
    rw [hparts.2.2 m hm]
    decide +kernel
  obtain ⟨t, hcompile, -, -, -, -, -, -, report, after, hlookup, hwaiting, hsame, -⟩ :=
    lookup_reaches_terminals (c := {}) k hparts.1 hparts.2.1 hmodify (.ofList [("inport", .int 1)])
  refine ⟨k, p, rfl, rfl, rfl, rfl, t, report, after, hcompile, hlookup, ?_, ?_,
    hsame (by decide +kernel)⟩
  · rw [hwaiting]
    decide +kernel
  · rw [hwaiting]
    decide +kernel

end Controller

end PacketPolicy

import PacketPolicy.Proofs.FilterAlgebra
import PacketPolicy.Proofs.Reactivity

/-!
# Filters at the edge of the network

An edge filter accepts the packets that are at one of the network's locations, where the
port is the one that the packet came in by or the one that it leaves by. The filter is a
union of matches that is left out for no location and collapses for one; what it accepts
is the same. As long as the handle is left to the network, the locations are those of the
last snapshot.
-/

namespace PacketPolicy

theorem Side.port_ne_switch (side : Side) : side.port ≠ "switch" := by
  cases side <;> decide

/-- A match on each of the locations: one of them accepts the packet. -/
theorem any_accepts_atPort_iff {side : Side} {locations : SortedSet Location} {pkt : Packet} :
    (locations.toList.any fun l => (Match.atPort side.port l).accepts pkt) = true ↔
      ∃ s p, ⟨s, p⟩ ∈ locations ∧ pkt.get? "switch" = some (.int s) ∧
        pkt.get? side.port = some (.int p) := by
  simp only [List.any_eq_true, SortedSet.mem_toList, Match.accepts_atPort_iff side.port_ne_switch]
  constructor
  · rintro ⟨l, hl, hat⟩
    exact ⟨l.switch, l.port, hl, hat⟩
  · rintro ⟨s, p, hl, hat⟩
    exact ⟨⟨s, p⟩, hl, hat⟩

/-- An edge filter is a gate that is open to the packets at its locations. -/
theorem effect_edgeFilter (env : Handle → Term) (side : Side) (locations : SortedSet Location)
    (pkt : Packet) : Policy.effect env (edgeFilter side locations).policy pkt =
      .gate (locations.toList.any fun l => (Match.atPort side.port l).accepts pkt) pkt := by
  rw [edgeFilter, Filter.effect_unionOf]
  induction locations.toList with
  | nil => rfl
  | cons l rest ih =>
    have htest : Policy.effect env (Filter.test (.atPort side.port l)).policy pkt =
        .gate ((Match.atPort side.port l).accepts pkt) pkt := Policy.effect_test env _ pkt
    rw [List.map_cons, List.map_cons, Policy.effect_parallel_cons, htest, ih, Outcome.gate_union,
      List.any_cons]

/-- Before the first snapshot the gate is shut. -/
theorem Reactive.effect_edge (env : Handle → Term) (side : Side)
    (last : Option (SortedSet Location)) (pkt : Packet) :
    Policy.effect env (Reactive.edge side last).policy pkt =
      .gate (last.any fun locations =>
        locations.toList.any fun l => (Match.atPort side.port l).accepts pkt) pkt := by
  cases last with
  | none => rfl
  | some locations => exact effect_edgeFilter env side locations pkt

/-- A filter has a table, and the table gives what the filter gives. -/
theorem Term.IsFilter.exists_table {s : Store} {p : Policy} (h : (s.term p).IsFilter)
    (k : CompileSettings) : ∃ a, s.compile k p = .ok a ∧
      ∀ pkt, (a.lookup pkt).map Table.Report.outputs = .ok (s.eval p pkt).outputs := by
  obtain ⟨a, ha, -⟩ := h.compiles k
  exact ⟨a, ha.compile_eq, ha.outputs_lookup (h.restrict k.headers)⟩

namespace Controller

/-- As long as nobody redefines its handle, an edge filter, its negation and their tables follow the
locations of the last snapshot, and only snapshots with other locations are announced. -/
theorem edge_follows_last_locations {start c c' d : Controller} {before cmds : List Command}
    {side : Side} {i : Nat} {h : Handle} (hstore : start.store.definitions = [])
    (hreactive : start.reactive = []) (hbefore : Run (fun _ => True) start before c)
    (hnew : c.createEdge side = (i, h, c')) (hrun : Run (fun _ => True) c' cmds d)
    (hkept : ∀ p, .redefine h p ∉ cmds) (o : Schedule) :
    ∃ f : Filter, f.policy = .dynamic h ∧
      (lastShown i cmds = none → ∀ pkt, ¬ d.Accepts o f pkt) ∧
      (∀ t, lastShown i cmds = some t → ∀ pkt, d.Accepts o f pkt ↔
        ∃ s p, ⟨s, p⟩ ∈ t.egress ∧ pkt.get? "switch" = some (.int s) ∧
          pkt.get? side.port = some (.int p)) ∧
      (∀ pkt, d.Accepts o f.not pkt ↔ ¬ d.Accepts o f pkt) ∧
      (∀ g, g = f ∨ g = f.not →
        (∀ pkt, d.outcome o g.policy pkt = if d.Accepts o g pkt then .pass pkt else .none) ∧
        ∀ k, ∃ a, d.store.compile k g.policy = .ok a ∧
          ∀ pkt, (a.lookup pkt).map Table.Report.outputs =
            .ok (d.outcome o g.policy pkt).outputs) ∧
      d.Announces i h (fun t => (lastShown i cmds).map Topology.egress = some t.egress)
        fun t => (edgeFilter side t.egress).policy := by
  obtain ⟨hc', hfresh⟩ := (hbefore.sound (sound_of_empty hstore hreactive)).createEdge side
  rw [hnew] at hc' hfresh
  have hd : d.Sound := hrun.sound hc'
  have hkeeps : d.Keeps i h (.edge side ((lastShown i cmds).map Topology.egress)) :=
    hrun.keeps (r := .edge side none) hc' hfresh hkept
  have hkind : h.isFilter = true := (hd.reactive _ (List.mem_of_getElem? hkeeps.listed)).2
  let f : Filter := .dynamic h hkind
  have hcovers : d.store.Covers f.policy := by
    intro k hk
    rw [Policy.mentions_dynamic.1 hk]
    exact hkeeps.owns hd
  have hterm : (d.store.term f.policy).IsFilter := hd.isFilter_term f hcovers
  have hgate : ∀ pkt, d.store.eval f.policy pkt = .gate _ pkt := fun pkt =>
    (d.outcome_eq o f.policy pkt).symm.trans <|
      (congrFun (hkeeps.outcome_eq hd o) pkt).trans (Reactive.effect_edge _ side _ pkt)
  have hnot : ∀ pkt, d.store.eval f.not.policy pkt = .gate _ pkt := fun pkt =>
    Filter.effect_not_of_gate (f := f) (hgate pkt)
  have haccepts := fun pkt => d.accepts_iff o (hgate pkt)
  refine ⟨f, rfl, ?_, ?_, ?_, ?_, ?_⟩
  · intro hlast pkt
    rw [haccepts, hlast]
    exact Bool.false_ne_true
  · intro t hlast pkt
    rw [haccepts, hlast]
    exact any_accepts_atPort_iff
  · intro pkt
    rw [d.accepts_iff o (hnot pkt), haccepts, Bool.not_eq_true', Bool.not_eq_true]
  · intro g hg
    have hfilter : (d.store.term g.policy).IsFilter := by
      rcases hg with rfl | rfl
      · exact hterm
      · exact hterm.negate
    constructor
    · intro pkt
      obtain ⟨passed, hpassed⟩ : ∃ passed, d.store.eval g.policy pkt = .gate passed pkt := by
        rcases hg with rfl | rfl
        · exact ⟨_, hgate pkt⟩
        · exact ⟨_, hnot pkt⟩
      simp only [outcome_eq, hpassed, d.accepts_iff o hpassed, Outcome.gate]
    · intro k
      obtain ⟨a, ha, hlookup⟩ := hfilter.exists_table k
      refine ⟨a, ha, fun pkt => ?_⟩
      rw [hlookup, outcome_eq]
  · have hknown : (fun t : Topology => (lastShown i cmds).map Topology.egress = some t.egress) =
        fun t => (lastShown i cmds).map (Reactive.edge side none).view =
          some ((Reactive.edge side none).view t) := by
      funext t
      cases lastShown i cmds <;> simp [Reactive.view]
    rw [hknown]
    exact Keeps.announces (r := .edge side none) hkeeps hd

/-- Shown a location, then none: the filter on the way out accepts packets there only in between,
and the same location again is news. -/
theorem edge_follows_last_locations_withdrawn :
    ∃ (c' seen d : Controller) (t : Topology) (f : Filter) (h : Handle) (pkt : Packet),
      ({} : Controller).createEdge .egress = (0, h, c') ∧ f.policy = .dynamic h ∧
      Run (fun _ => True) c' [.observe h (.log "edge"), .setNetwork 0 t] seen ∧
      Run (fun _ => True) c' [.observe h (.log "edge"), .setNetwork 0 t, .setNetwork 0 {}] d ∧
      seen.Accepts .sorted f pkt ∧ ¬ d.Accepts .sorted f pkt ∧ d.Accepts .sorted f.not pkt ∧
      seen.setNetwork 0 t = (seen, []) ∧ ∃ e, (d.setNetwork 0 t).2 = [e] := by
  let c' : Controller := (({} : Controller).createEdge .egress).2.2
  let h : Handle := ⟨0, true⟩
  let t : Topology := { egress := .ofList [⟨1, 2⟩, ⟨1, 2⟩] }
  let watch : Command := .observe h (.log "edge")
  let seen : Controller := ((c'.perform watch).1.perform (.setNetwork 0 t)).1
  let d : Controller := (seen.perform (.setNetwork 0 {})).1
  let pkt : Packet := (Packet.empty.set "switch" (.int 1)).set "outport" (.int 2)
  have hnew : ({} : Controller).createEdge .egress = (0, h, c') := rfl
  have hwatch : watch.Admissible c' := trivial
  have hseen : Run (fun _ => True) c' [watch, .setNetwork 0 t] seen :=
    .snoc (.snoc .nil hwatch trivial) (by decide +kernel : 0 < _) trivial
  have hrun : Run (fun _ => True) c' [watch, .setNetwork 0 t, .setNetwork 0 {}] d :=
    .snoc hseen (by decide +kernel : 0 < _) trivial
  obtain ⟨f, hf, -, hbetween, -, -, hknown⟩ :=
    edge_follows_last_locations rfl rfl .nil hnew hseen (by simp [watch]) .sorted
  obtain ⟨g, hg, -, hafter, hnot, -, hnews⟩ :=
    edge_follows_last_locations rfl rfl .nil hnew hrun (by simp [watch]) .sorted
  obtain rfl : f = g := by
    cases f
    cases g
    cases hf.trans hg.symm
    rfl
  have hgone : ¬ d.Accepts .sorted f pkt := by
    rw [hafter {} rfl]
    rintro ⟨s, p, hmem, -⟩
    exact SortedSet.not_mem_empty _ hmem
  refine ⟨c', seen, d, t, f, h, pkt, hnew, hf, hseen, hrun, ?_, hgone, (hnot pkt).2 hgone,
    hknown.repeated t rfl, ?_⟩
  · exact (hbetween t rfl pkt).2 ⟨1, 2, by decide +kernel, by decide +kernel, by decide +kernel⟩
  · obtain ⟨e, he, -⟩ := hnews.once t (.log "edge") (by decide +kernel) (by decide +kernel)
    exact ⟨e, he⟩

end Controller

end PacketPolicy

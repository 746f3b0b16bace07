import PacketPolicy.Proofs.Reactivity

/-!
# Flooding

A spanning tree is the set of its switches with the ports that stay on the tree, in
whatever order and however often they were added. Flooding sends a packet out of every
such port of its switch but the one that it came in by. The policy is a sum that is left
out for no switch and for no port, and collapses for one, and none of this shows in what
it does. As long as the handle is left to the network, flooding goes along the tree of the
last snapshot.
-/

namespace PacketPolicy

/-! ## Trees -/

namespace SpanningTree

/-- The switch is on the tree. -/
def HasSwitch (t : SpanningTree) (switch : Int64) : Prop := (t.nodes.get? switch).isSome = true

/-- The port of the switch is on the tree. -/
def HasPort (t : SpanningTree) (switch port : Int64) : Prop :=
  ∃ ports, t.nodes.get? switch = some ports ∧ port ∈ ports

variable {t u : SpanningTree} {s n p : Int64} {ports : List Int64}

theorem hasSwitch_addNode : (t.addNode n ports).HasSwitch s ↔ s = n ∨ t.HasSwitch s := by
  rw [HasSwitch, addNode, SortedMap.get?_insert]
  split_ifs with h <;> simp [h, HasSwitch]

theorem hasPort_addNode :
    (t.addNode n ports).HasPort s p ↔ (s = n ∧ p ∈ ports) ∨ t.HasPort s p := by
  rw [HasPort, addNode, SortedMap.get?_insert]
  split_ifs with h
  · subst h
    simp only [Option.some.injEq, exists_eq_left', SortedSet.mem_union, SortedSet.mem_ofList,
      true_and, HasPort]
    cases t.nodes.get? s <;> simp [or_comm]
  · simp [h, HasPort]

/-- A tree holds what was added to it. -/
theorem has_ofList (nodes : List (Int64 × List Int64)) :
    (∀ s, (ofList nodes).HasSwitch s ↔ ∃ ports, (s, ports) ∈ nodes) ∧
      ∀ s p, (ofList nodes).HasPort s p ↔ ∃ ports, (s, ports) ∈ nodes ∧ p ∈ ports := by
  induction nodes using List.reverseRecOn with
  | nil => simp [ofList, HasSwitch, HasPort]
  | append_singleton nodes node ih =>
    have hsnoc : ofList (nodes ++ [node]) = (ofList nodes).addNode node.1 node.2 :=
      List.foldl_concat _ _ _ _
    rw [hsnoc]
    constructor
    · intro s
      rw [hasSwitch_addNode, ih.1]
      grind
    · intro s p
      rw [hasPort_addNode, ih.2]
      grind

/-- Trees with the same switches and ports are equal. -/
theorem eq_iff : t = u ↔
    (∀ s, t.HasSwitch s ↔ u.HasSwitch s) ∧ ∀ s p, t.HasPort s p ↔ u.HasPort s p := by
  constructor
  · rintro rfl
    exact ⟨fun _ => .rfl, fun _ _ => .rfl⟩
  · rintro ⟨hswitch, hport⟩
    have hnodes : t.nodes = u.nodes := by
      apply SortedMap.ext_get?
      intro s
      have hswitch := hswitch s
      have hport := hport s
      unfold HasSwitch at hswitch
      unfold HasPort at hport
      cases ht : t.nodes.get? s with
      | none =>
        rw [ht] at hswitch
        exact (Option.not_isSome_iff_eq_none.1 fun hu => absurd (hswitch.2 hu) (by simp)).symm
      | some left =>
        rw [ht] at hswitch hport
        obtain ⟨right, hu⟩ := Option.isSome_iff_exists.1 (hswitch.1 rfl)
        rw [hu] at hport ⊢
        congr 1
        apply SortedSet.ext_mem
        simpa using hport
    cases t
    cases u
    exact congrArg mk hnodes

end SpanningTree

/-! ## What flooding does -/

namespace Policy

variable (env : Handle → Term)

/-- A sum passes on what its summands do. -/
theorem means_parallelOf {α : Type} {f : α → Policy} {A : α → Set Packet} {l : List α}
    {pkt : Packet} (h : ∀ a ∈ l, (effect env (f a) pkt).Means ⟨A a, ∅⟩) :
    (effect env (.parallelOf (l.map f)) pkt).Means ⟨{q | ∃ a ∈ l, q ∈ A a}, ∅⟩ := by
  rw [effect_parallelOf]
  induction l with
  | nil =>
    have hnone : {q | ∃ a ∈ [], q ∈ A a} = ∅ := by simp
    rw [hnone]
    exact Outcome.means_none
  | cons a l ih =>
    obtain ⟨ha, hl⟩ := List.forall_mem_cons.1 h
    have hcons : {q | ∃ b ∈ a :: l, q ∈ A b} = A a ∪ {q | ∃ b ∈ l, q ∈ A b} := by
      ext q
      simp
    rw [hcons, List.map_cons, effect_parallel_cons]
    exact ha.union (ih hl)

/-- A test in front of a policy shuts it off from other packets. -/
theorem means_test_andThen {m : Match} {p : Policy} {A : Set Packet} {pkt : Packet}
    (h : (effect env p pkt).Means ⟨A, ∅⟩) :
    (effect env ((Policy.test m).andThen p) pkt).Means
      ⟨{q | m.accepts pkt = true ∧ q ∈ A}, ∅⟩ := by
  have htest : effect env (.test m) pkt = .gate (m.accepts pkt) pkt := effect_test env m pkt
  rw [effect_andThen, htest, Outcome.gate_andThen]
  cases m.accepts pkt with
  | false => simpa using Outcome.means_none
  | true => simpa using h

theorem means_exclusive (port : Int64) (pkt : Packet) :
    (effect env (.exclusive port) pkt).Means
      ⟨{q | pkt.get? "inport" ≠ some (.int port) ∧ q = pkt.set "outport" (.int port)}, ∅⟩ := by
  rw [← denote_exclusive fun _ => .drop]
  exact Term.means_pair (Term.means_test _).negate (Term.means_modify _) pkt

end Policy

/-- What becomes of a packet: it leaves by every port of its switch that is on the tree, but for
the one that it came in by. -/
theorem SpanningTree.means_flood (env : Handle → Term) (t : SpanningTree) (pkt : Packet) :
    (Policy.effect env t.flood pkt).Means
      ⟨{q | ∃ s p, t.HasPort s p ∧ pkt.get? "switch" = some (.int s) ∧
        pkt.get? "inport" ≠ some (.int p) ∧ q = pkt.set "outport" (.int p)}, ∅⟩ := by
  have hports : ∀ s p, t.HasPort s p ↔ ∃ n ∈ t.nodes.entries, n.1 = s ∧ p ∈ n.2 := by
    intro s p
    constructor
    · rintro ⟨ports, hget, hp⟩
      exact ⟨(s, ports), SortedMap.mem_entries.2 hget, rfl, hp⟩
    · rintro ⟨n, hn, rfl, hp⟩
      exact ⟨n.2, SortedMap.mem_entries.1 hn, hp⟩
  have hsum := Policy.means_parallelOf env (l := t.nodes.entries) fun n _ =>
    Policy.means_test_andThen env (m := .int "switch" n.1)
      (Policy.means_parallelOf env (l := n.2.toList) fun p _ => Policy.means_exclusive env p pkt)
  have hset : {q | ∃ s p, t.HasPort s p ∧ pkt.get? "switch" = some (.int s) ∧
      pkt.get? "inport" ≠ some (.int p) ∧ q = pkt.set "outport" (.int p)} =
      {q | ∃ n ∈ t.nodes.entries, q ∈ {q | (Match.int "switch" n.1).accepts pkt = true ∧
        q ∈ {q | ∃ p ∈ n.2.toList, q ∈ {q | pkt.get? "inport" ≠ some (.int p) ∧
          q = pkt.set "outport" (.int p)}}}} := by
    ext q
    simp only [hports, Match.accepts_int_iff, Set.mem_ofPred_eq, SortedSet.mem_toList]
    constructor
    · rintro ⟨_, p, ⟨n, hn, rfl, hp⟩, hswitch, hport, hq⟩
      exact ⟨n, hn, hswitch, p, hp, hport, hq⟩
    · rintro ⟨n, hn, hswitch, p, hp, hport, hq⟩
      exact ⟨n.1, p, ⟨n, hn, rfl, hp⟩, hswitch, hport, hq⟩
  rw [hset]
  exact hsum

/-! ## Tables -/

theorem Modification.writesOutside_leaveBy {headers : HeaderSet} (h : "outport" ∈ headers)
    (port : Int64) : (leaveBy port).writesOutside headers = false := by
  have hnames : (leaveBy port).names = ["outport"] := rfl
  simp [writesOutside, hnames, h]

/-- Flooding sets the port to leave by and nothing else. -/
theorem SpanningTree.within_flood {headers : HeaderSet} (h : "outport" ∈ headers)
    (t : SpanningTree) :
    t.flood.PartsAll fun q => ∀ m, q = .modify m → m.writesOutside headers = false := by
  refine .parallelOf (by simp) (by simp) (List.forall_mem_map.2 fun n _ => ?_)
  refine .append (fun _ _ => rfl) (by simp) (Policy.eq_or_factors_eq _) (Policy.eq_or_factors_eq _)
    (fun env q hq => ?_) ?_
  · simp [Policy.parts] at hq
    simp [hq]
  · refine .parallelOf (by simp) (by simp) (List.forall_mem_map.2 fun port _ env q hq => ?_)
    simp only [Policy.parts, List.mem_cons, List.not_mem_nil, or_false] at hq
    rintro m rfl
    obtain rfl : m = .leaveBy port := by simpa using hq
    exact Modification.writesOutside_leaveBy h port

/-- Flooding has a table, and the table gives what the policy gives. -/
theorem Controller.Keeps.exists_table_flood {c : Controller} {i : Nat} {h : Handle}
    {last : Option SpanningTree} (hkeeps : c.Keeps i h (.flood last)) (hc : c.Sound)
    {k : CompileSettings} (hport : "outport" ∈ k.headers) :
    ∃ a, c.store.compile k (.dynamic h) = .ok a ∧
      ∀ pkt, (a.lookup pkt).map Table.Report.outputs =
        .ok (c.store.eval (.dynamic h) pkt).outputs := by
  obtain ⟨a, ha⟩ := (Reactive.flood last).settled_policy.exists_compiles c.store k
  have hwithin : (c.store.term (Reactive.flood last).policy).restrict k.headers =
      c.store.term (Reactive.flood last).policy := by
    apply Store.restrict_term_of_parts
    intro m hm
    cases last with
    | none => simp [Reactive.policy, Store.parts, Store.reading, Policy.parts] at hm
    | some t => exact t.within_flood hport _ _ hm m rfl
  rw [← hkeeps.term_eq hc] at ha hwithin
  exact ⟨a, ha.compile_eq, ha.outputs_lookup hwithin⟩

namespace Controller

/-- As long as nobody redefines its handle, a flooding policy and its tables follow the spanning
tree of the last snapshot, and only snapshots with another tree are announced. -/
theorem flood_follows_last_tree {start c c' d : Controller} {before cmds : List Command} {i : Nat}
    {h : Handle} (hstore : start.store.definitions = []) (hreactive : start.reactive = [])
    (hbefore : Run (fun _ => True) start before c) (hnew : c.createFlood = (i, h, c'))
    (hrun : Run (fun _ => True) c' cmds d) (hkept : ∀ p, .redefine h p ∉ cmds) (o : Schedule) :
    (lastShown i cmds = none → ∀ pkt, d.outcome o (.dynamic h) pkt = .none) ∧
    (∀ t, lastShown i cmds = some t → ∀ pkt,
      (∀ q, q ∈ (d.outcome o (.dynamic h) pkt).outputs ↔
        ∃ s p, t.tree.HasPort s p ∧ pkt.get? "switch" = some (.int s) ∧
          pkt.get? "inport" ≠ some (.int p) ∧ q = pkt.set "outport" (.int p)) ∧
      (d.outcome o (.dynamic h) pkt).arrivals = .empty) ∧
    (∀ k : CompileSettings, "outport" ∈ k.headers → ∃ a, d.store.compile k (.dynamic h) = .ok a ∧
      ∀ pkt, (a.lookup pkt).map Table.Report.outputs =
        .ok (d.outcome o (.dynamic h) pkt).outputs) ∧
    d.Announces i h (fun t => (lastShown i cmds).map Topology.tree = some t.tree)
      (fun t => t.tree.flood) ∧
    (∀ nodes, (∀ s, (SpanningTree.ofList nodes).HasSwitch s ↔ ∃ ports, (s, ports) ∈ nodes) ∧
      ∀ s p, (SpanningTree.ofList nodes).HasPort s p ↔ ∃ ports, (s, ports) ∈ nodes ∧ p ∈ ports) ∧
    ∀ t u : SpanningTree, t = u ↔
      (∀ s, t.HasSwitch s ↔ u.HasSwitch s) ∧ ∀ s p, t.HasPort s p ↔ u.HasPort s p := by
  obtain ⟨hc', hfresh⟩ := (hbefore.sound (sound_of_empty hstore hreactive)).createFlood
  rw [hnew] at hc' hfresh
  have hd : d.Sound := hrun.sound hc'
  have hkeeps : d.Keeps i h (.flood ((lastShown i cmds).map Topology.tree)) :=
    hrun.keeps (r := .flood none) hc' hfresh hkept
  have houtcome := hkeeps.outcome_eq hd o
  refine ⟨?_, ?_, ?_, ?_, SpanningTree.has_ofList, fun t u => SpanningTree.eq_iff⟩
  · intro hlast pkt
    rw [houtcome, hlast]
    rfl
  · intro t hlast pkt
    rw [houtcome, hlast]
    obtain ⟨houtputs, harrivals⟩ := t.tree.means_flood _ pkt
    exact ⟨houtputs, SortedSet.ext_mem fun x => (harrivals x).trans (by simp)⟩
  · intro k hport
    obtain ⟨a, ha, hlookup⟩ := hkeeps.exists_table_flood hd hport
    refine ⟨a, ha, fun pkt => ?_⟩
    rw [hlookup, outcome_eq]
  · have hknown : (fun t : Topology => (lastShown i cmds).map Topology.tree = some t.tree) =
        fun t => (lastShown i cmds).map (Reactive.flood none).view =
          some ((Reactive.flood none).view t) := by
      funext t
      cases lastShown i cmds <;> simp [Reactive.view]
    rw [hknown]
    exact Keeps.announces (r := .flood none) hkeeps hd

/-- A switch that is added twice and one without ports: the tree is the one in which each is added
once, so that the snapshot with that tree goes unnoticed, also if the rest of it is new. -/
theorem flood_follows_last_tree_regrown :
    ∃ (c' d : Controller) (t u : Topology) (h : Handle) (pkt : Packet),
      t.tree = .ofList [(2, []), (1, [2, 1]), (1, [3, 2])] ∧
      u.tree = .ofList [(1, [1, 2, 3]), (2, [])] ∧ t.egress ≠ u.egress ∧
      ({} : Controller).createFlood = (0, h, c') ∧
      Run (fun _ => True) c'
        [.observe h (.log "flood"), .setNetwork 0 {}, .setNetwork 0 t] d ∧
      (∀ q, q ∈ (d.outcome .sorted (.dynamic h) pkt).outputs ↔
        q = pkt.set "outport" (.int 2) ∨ q = pkt.set "outport" (.int 3)) ∧
      d.setNetwork 0 u = (d, []) ∧
      ∃ e, (d.setNetwork 0 {}).2 = [e] := by
  let c' : Controller := ({} : Controller).createFlood.2.2
  let t : Topology := { tree := .ofList [(2, []), (1, [2, 1]), (1, [3, 2])] }
  let u : Topology :=
    { tree := .ofList [(1, [1, 2, 3]), (2, [])], egress := .ofList [⟨1, 1⟩] }
  let d : Controller :=
    (((c'.perform (.observe ⟨0, false⟩ (.log "flood"))).1.perform (.setNetwork 0 {})).1.perform
      (.setNetwork 0 t)).1
  let pkt : Packet := (Packet.empty.set "switch" (.int 1)).set "inport" (.int 1)
  let watch : Command := .observe ⟨0, false⟩ (.log "flood")
  have hwatch : watch.Admissible c' := trivial
  have hrun : Run (fun _ => True) c' [watch, .setNetwork 0 {}, .setNetwork 0 t] d :=
    .snoc (.snoc (.snoc .nil hwatch trivial) (by decide +kernel : 0 < _) trivial)
      (by decide +kernel : 0 < _) trivial
  have hnew : ({} : Controller).createFlood = (0, ⟨0, false⟩, c') := rfl
  obtain ⟨-, houtputs, -, hannounces, hports, -⟩ :=
    flood_follows_last_tree rfl rfl .nil hnew hrun (by simp [watch]) .sorted
  refine ⟨c', d, t, u, ⟨0, false⟩, pkt, rfl, rfl, by decide +kernel, hnew, hrun, ?_, ?_, ?_⟩
  · intro q
    have hswitch : pkt.get? "switch" = some (.int 1) := by decide +kernel
    have hinport : pkt.get? "inport" = some (.int 1) := by decide +kernel
    rw [(houtputs t rfl pkt).1 q, hswitch, hinport]
    simp only [t, (hports _).2]
    constructor
    · rintro ⟨s, p, ⟨ports, hmem, hp⟩, ⟨⟩, hne, rfl⟩
      have hp : p = 1 ∨ p = 2 ∨ p = 3 := by
        simp only [List.mem_cons, Prod.mk.injEq, List.not_mem_nil] at hmem
        grind
      obtain rfl | rfl | rfl := hp
      · exact absurd rfl hne
      · exact .inl rfl
      · exact .inr rfl
    · rintro (rfl | rfl)
      · exact ⟨1, 2, ⟨[2, 1], by simp, by simp⟩, rfl, by simp, rfl⟩
      · exact ⟨1, 3, ⟨[3, 2], by simp, by simp⟩, rfl, by simp, rfl⟩
  · exact hannounces.repeated u (by decide +kernel)
  · obtain ⟨e, he, -⟩ := hannounces.once {} (.log "flood") (by decide +kernel) (by decide +kernel)
    exact ⟨e, he⟩

end Controller

end PacketPolicy

import PacketPolicy.Proofs.Terminals

/-!
# Lookups in merged tables

What a lookup reports is read off the verdict of the table, and the verdict of a merged
table is known from those of its parts. So a lookup in a merged table is described by
lookups in the parts. The tables side by side are any tables, with rules for no packet,
without rules for some packets, or with actions that occur more than once; a table after
an action has to accept every packet, and so has the second of two tables one after the
other.
-/

namespace PacketPolicy

namespace Table

/-- What is read off the first rule that accepts the packet. -/
theorem findSome?_eq_map_find? {α : Type} (read : Rule → α) (t : Table) (pkt : Packet) :
    (t.rules.findSome? fun r => if r.predicate.accepts pkt then some (read r) else none) =
      (t.find? pkt).map fun found => read found.2 := by
  have hgo : ∀ (l : List Rule) (n : Nat),
      (l.findSome? fun r => if r.predicate.accepts pkt then some (read r) else none) =
        (find?.go pkt n l).map fun found => read found.2 := by
    intro l
    induction l with
    | nil => intro n; rfl
    | cons r rest ih =>
      intro n
      rw [List.findSome?_cons, find?.go]
      by_cases hr : r.predicate.accepts pkt = true
      · rw [if_pos hr, if_pos hr, Option.map_some]
      · rw [if_neg hr, if_neg hr, ih (n + 1)]
  exact hgo t.rules 0

theorem verdict_eq_map_find? (t : Table) (pkt : Packet) :
    t.verdict pkt = (t.find? pkt).map fun found => found.2.actions :=
  findSome?_eq_map_find? Rule.actions t pkt

theorem verdict_of_find? {t : Table} {pkt : Packet} {i : Nat} {r : Rule}
    (h : t.find? pkt = some (i, r)) : t.verdict pkt = some r.actions := by
  rw [verdict_eq_map_find?, h, Option.map_some]

theorem lookup_eq_error_iff {t : Table} {pkt : Packet} {e : NotTotal} :
    t.lookup pkt = .error e ↔ t.verdict pkt = none ∧ e = ⟨pkt⟩ := by
  rw [verdict_eq_map_find?, lookup]
  cases t.find? pkt <;> simp [eq_comm]

theorem total_iff {t : Table} :
    t.Total ↔ ∀ pkt, ∃ r ∈ t.rules, r.predicate.accepts pkt = true := by
  refine forall_congr' fun pkt => ?_
  rw [← Option.isSome_iff_exists, verdict, List.findSome?_isSome_iff]
  refine exists_congr fun r => and_congr_right fun _ => ?_
  rw [Rule.fire?]
  split_ifs with h <;> simp [h]

/-! ## Reports -/

/-- The report of a rule that does these actions to the packet. -/
def Report.Tells (x : Report) (actions : List Action) (pkt : Packet) : Prop :=
  x.outputs = .ofList (actions.filterMap (·.output? pkt)) ∧
    x.fired = actions.filterMap Action.sink?

namespace Report.Tells

variable {x y : Report} {actions : List Action} {pkt : Packet}

theorem mem_outputs (h : x.Tells actions pkt) {q : Packet} :
    q ∈ x.outputs ↔ Action.Passes actions pkt q := by
  rw [h.1, SortedSet.mem_ofList, List.mem_filterMap, Action.Passes]

theorem mem_fired (h : x.Tells actions pkt) {k : Sink} : k ∈ x.fired ↔ .query k ∈ actions := by
  rw [h.2]
  exact Rule.mem_sinks (r := ⟨.identity, actions⟩)

theorem nodup_fired (h : x.Tells actions pkt) (hord : Action.Orderly actions) :
    x.fired.Nodup := by
  rw [h.2]
  exact Rule.nodup_sinks (r := ⟨.identity, actions⟩) hord

end Report.Tells

theorem exists_lookup {t : Table} {pkt : Packet} {actions : List Action}
    (h : t.verdict pkt = some actions) :
    ∃ x, t.lookup pkt = .ok x ∧ x.Tells actions pkt := by
  obtain ⟨i, r, hfind, -, -, rfl⟩ := find?_of_verdict h
  exact ⟨_, lookup_of_find? hfind, rfl, rfl⟩

theorem exists_verdict {t : Table} {pkt : Packet} {x : Report} (h : t.lookup pkt = .ok x) :
    ∃ actions, t.verdict pkt = some actions ∧ x.Tells actions pkt := by
  cases hfind : t.find? pkt with
  | none =>
    rw [lookup, hfind] at h
    cases h
  | some found =>
    rw [lookup_of_find? hfind] at h
    obtain rfl := Except.ok.inj h
    exact ⟨_, verdict_of_find? hfind, rfl, rfl⟩

/-- Tables that do the same to a packet report the same, but for the position of the rule. -/
theorem exists_lookup_of_verdict_eq {t u : Table} {pkt : Packet} {x : Report}
    (h : u.verdict pkt = t.verdict pkt) (hx : t.lookup pkt = .ok x) :
    ∃ z, u.lookup pkt = .ok z ∧ z.outputs = x.outputs ∧ z.fired = x.fired := by
  obtain ⟨actions, hverdict, hx⟩ := exists_verdict hx
  obtain ⟨z, hz, htells⟩ := exists_lookup (h.trans hverdict)
  exact ⟨z, hz, htells.1.trans hx.1.symm, htells.2.trans hx.2.symm⟩

/-- What is said of a report is said of the actions that it tells. -/
theorem exists_lookup_iff {t : Table} {pkt : Packet} {P : Report → Prop} {Q : List Action → Prop}
    (h : ∀ {x actions}, x.Tells actions pkt → (P x ↔ Q actions)) :
    (∃ x, t.lookup pkt = .ok x ∧ P x) ↔ ∃ actions, t.verdict pkt = some actions ∧ Q actions := by
  constructor
  · rintro ⟨x, hx, hP⟩
    obtain ⟨actions, hverdict, htells⟩ := exists_verdict hx
    exact ⟨actions, hverdict, (h htells).1 hP⟩
  · rintro ⟨actions, hverdict, hQ⟩
    obtain ⟨x, hx, htells⟩ := exists_lookup hverdict
    exact ⟨x, hx, (h htells).2 hQ⟩

theorem passes_iff_lookup {t : Table} {pkt q : Packet} :
    t.Passes pkt q ↔ ∃ x, t.lookup pkt = .ok x ∧ q ∈ x.outputs :=
  (exists_lookup_iff fun h => h.mem_outputs).symm

theorem endsIn_query_iff_lookup {t : Table} {pkt : Packet} {k : Sink} :
    t.EndsIn pkt (.query k) ↔ ∃ x, t.lookup pkt = .ok x ∧ k ∈ x.fired :=
  (exists_lookup_iff fun h => h.mem_fired).symm

/-! ## Side by side -/

/-- A lookup in two tables side by side does what a lookup in each does, if both accept the packet,
and fires each sink once. If only one accepts it, that one decides. -/
theorem lookup_parallel (optimize : Bool) (a b : Table) (pkt : Packet) :
    (∀ x y, a.lookup pkt = .ok x → b.lookup pkt = .ok y →
      ∃ z, (parallel optimize a b).lookup pkt = .ok z ∧
        z.outputs = x.outputs.union y.outputs ∧ z.fired.Nodup ∧
        ∀ k, k ∈ z.fired ↔ k ∈ x.fired ∨ k ∈ y.fired) ∧
    (∀ x e, a.lookup pkt = .ok x → b.lookup pkt = .error e →
      ∃ z, (parallel optimize a b).lookup pkt = .ok z ∧
        z.outputs = x.outputs ∧ z.fired = x.fired ∧
        (parallel optimize a b).verdict pkt = a.verdict pkt) ∧
    (∀ e y, a.lookup pkt = .error e → b.lookup pkt = .ok y →
      ∃ z, (parallel optimize a b).lookup pkt = .ok z ∧
        z.outputs = y.outputs ∧ z.fired = y.fired ∧
        (parallel optimize a b).verdict pkt = b.verdict pkt) ∧
    (∀ e e', a.lookup pkt = .error e → b.lookup pkt = .error e' →
      (parallel optimize a b).lookup pkt = .error ⟨pkt⟩) := by
  have hmerged := verdict_parallel optimize a b pkt
  refine ⟨?_, ?_, ?_, ?_⟩
  · intro x y hx hy
    obtain ⟨as, ha, hx⟩ := exists_verdict hx
    obtain ⟨bs, hb, hy⟩ := exists_verdict hy
    rw [ha, hb, Option.merge_some_some] at hmerged
    obtain ⟨z, hz, htells⟩ := exists_lookup hmerged
    refine ⟨z, hz, ?_, htells.nodup_fired (Action.orderly_union as bs), ?_⟩
    · apply SortedSet.ext_mem
      intro q
      rw [htells.mem_outputs, Action.passes_union, SortedSet.mem_union, hx.mem_outputs,
        hy.mem_outputs]
    · intro k
      rw [htells.mem_fired, Action.mem_union (by simp), hx.mem_fired, hy.mem_fired]
  · intro x e hx hy
    rw [(lookup_eq_error_iff.1 hy).1, Option.merge_none_right] at hmerged
    obtain ⟨z, hz, houtputs, hfired⟩ := exists_lookup_of_verdict_eq hmerged hx
    exact ⟨z, hz, houtputs, hfired, hmerged⟩
  · intro e y hx hy
    rw [(lookup_eq_error_iff.1 hx).1, Option.merge_none_left] at hmerged
    obtain ⟨z, hz, houtputs, hfired⟩ := exists_lookup_of_verdict_eq hmerged hy
    exact ⟨z, hz, houtputs, hfired, hmerged⟩
  · intro e e' hx hy
    rw [(lookup_eq_error_iff.1 hx).1, (lookup_eq_error_iff.1 hy).1, Option.merge_none_left]
      at hmerged
    exact lookup_eq_error_iff.2 ⟨hmerged, rfl⟩

/-- Two tables that leave out some packets, with an empty and a repeated action list. -/
theorem lookup_parallel_partial :
    ∃ a b : Table,
      a = ⟨[⟨.test (.int "inport" 1), [.query ⟨.count, 0⟩, .identity, .query ⟨.count, 0⟩]⟩]⟩ ∧
      b = ⟨[⟨.test (.int "vlan" 2), [.query ⟨.count, 0⟩, .query ⟨.forward, 0⟩]⟩,
        ⟨.test (.int "vlan" 3), []⟩]⟩ ∧
      (∃ z, (parallel true a b).lookup (.ofList [("inport", .int 1), ("vlan", .int 2)]) = .ok z ∧
        z.outputs = .singleton (.ofList [("inport", .int 1), ("vlan", .int 2)]) ∧
        z.fired.Nodup ∧ ⟨.count, 0⟩ ∈ z.fired ∧ ⟨.forward, 0⟩ ∈ z.fired) ∧
      (∃ z, (parallel true a b).lookup (.ofList [("inport", .int 1)]) = .ok z ∧
        z.fired = [⟨.count, 0⟩, ⟨.count, 0⟩]) ∧
      (∃ z, (parallel true a b).lookup (.ofList [("vlan", .int 3)]) = .ok z ∧
        z.outputs = .empty ∧ z.fired = []) ∧
      (parallel false a b).lookup .empty = .error ⟨.empty⟩ := by
  let a : Table :=
    ⟨[⟨.test (.int "inport" 1), [.query ⟨.count, 0⟩, .identity, .query ⟨.count, 0⟩]⟩]⟩
  let b : Table := ⟨[⟨.test (.int "vlan" 2), [.query ⟨.count, 0⟩, .query ⟨.forward, 0⟩]⟩,
    ⟨.test (.int "vlan" 3), []⟩]⟩
  refine ⟨a, b, rfl, rfl, ?_, ?_, ?_, ?_⟩
  · obtain ⟨z, hz, houtputs, hnodup, hfired⟩ :=
      (lookup_parallel true a b (.ofList [("inport", .int 1), ("vlan", .int 2)])).1 _ _ rfl rfl
    exact ⟨z, hz, houtputs.trans (by decide +kernel), hnodup, (hfired _).2 (by decide +kernel),
      (hfired _).2 (by decide +kernel)⟩
  · obtain ⟨z, hz, -, hfired, -⟩ :=
      (lookup_parallel true a b (.ofList [("inport", .int 1)])).2.1 _ _ rfl rfl
    exact ⟨z, hz, hfired.trans (by decide +kernel)⟩
  · obtain ⟨z, hz, houtputs, hfired, -⟩ :=
      (lookup_parallel true a b (.ofList [("vlan", .int 3)])).2.2.1 _ _ rfl rfl
    exact ⟨z, hz, houtputs.trans (by decide +kernel), hfired.trans (by decide +kernel)⟩
  · exact (lookup_parallel false a b .empty).2.2.2 _ _ rfl rfl

/-! ## After an action -/

section After

variable {a : Action} {pkt q : Packet}

/-- What is told of the actions after another is told of them on the packet it passes on. -/
theorem Report.tells_followedBy (h : a.output? pkt = some q) {x : Report} {actions : List Action} :
    x.Tells (a.followedBy actions) pkt ↔ x.Tells actions q := by
  rw [Tells, Tells, Action.followedBy_eq_map h, List.filterMap_map, List.filterMap_map]
  simp only [Function.comp_def, Action.output?_andThen h, Action.sink?_andThen h]

/-- The rule that wins in the pushed table is made from the one that wins in the table. -/
theorem find?_push (h : a.output? pkt = some q) {t : Table} {i : Nat} {r : Rule}
    (hfind : t.find? q = some (i, r)) :
    ∃ j, (push a t).find? pkt = some (j, ⟨r.predicate.before a, a.followedBy r.actions⟩) := by
  have hsearch : ((⟨pushRules a t.rules⟩ : Table).find? pkt).map (fun found => found.2) =
      some ⟨r.predicate.before a, a.followedBy r.actions⟩ := by
    rw [← findSome?_eq_map_find? fun r => r, findSome?_pushRules]
    simp only [Predicate.accepts_before, h, Option.elim_some]
    rw [findSome?_eq_map_find? fun r => Rule.mk (r.predicate.before a) (a.followedBy r.actions),
      hfind, Option.map_some]
  obtain ⟨⟨j, s⟩, hj, rfl⟩ := Option.map_eq_some_iff.1 hsearch
  have hne : pushRules a t.rules ≠ [] := by
    intro hnil
    rw [hnil] at hj
    cases hj
  exact ⟨j, by rw [push_of_ne_nil hne, hj]⟩

end After

/-- Pushing a table behind an action moves its tests before the action. The rule that wins is made
from the one that wins for the packet passed on, and gives the same outputs and sinks. -/
theorem lookup_push (a : Action) (pkt : Packet) :
    (∀ q, (a = .identity ∧ q = pkt ∨ ∃ m, a = .modify m ∧ q = m.apply pkt) →
      (∀ p : Predicate, p.accepts q = true ↔ (p.before a).accepts pkt = true) ∧
      ∀ t : Table, (∀ p, ∃ r ∈ t.rules, r.predicate.accepts p = true) →
        ∃ i r j x y, t.find? q = some (i, r) ∧ t.lookup q = .ok y ∧
          (push a t).find? pkt = some (j, ⟨r.predicate.before a, a.followedBy r.actions⟩) ∧
          (push a t).lookup pkt = .ok x ∧ x.outputs = y.outputs ∧ x.fired = r.sinks) ∧
    (a = .drop → ∀ t : Table, ∃ x, (push a t).lookup pkt = .ok x ∧
      x.outputs = .empty ∧ x.fired = []) ∧
    ((a = .controller ∨ ∃ s, a = .query s) →
      ∀ t : Table, (∀ p, ∃ r ∈ t.rules, r.predicate.accepts p = true) →
        ∃ i r, (push a t).find? pkt = some (i, r) ∧ r.actions = [a]) ∧
    (∀ m n : Modification, (m.andThen n).apply pkt = n.apply (m.apply pkt)) ∧
    ∀ l m n : Modification, (l.andThen m).andThen n = l.andThen (m.andThen n) := by
  refine ⟨?_, ?_, ?_, fun m n => m.apply_andThen n pkt, Modification.andThen_assoc⟩
  · intro q hq
    have hpassed : a.output? pkt = some q := Action.output?_eq_some_iff.2 hq
    constructor
    · intro p
      rw [Predicate.accepts_before, hpassed, Option.elim_some]
    · intro t ht
      obtain ⟨actions, hverdict⟩ := total_iff.2 ht q
      obtain ⟨i, r, hfind, -⟩ := find?_of_verdict hverdict
      obtain ⟨j, hpushed⟩ := find?_push hpassed hfind
      obtain ⟨x, hx, htells⟩ := exists_lookup (verdict_of_find? hpushed)
      obtain ⟨houtputs, hfired⟩ := (Report.tells_followedBy hpassed).1 htells
      exact ⟨i, r, j, x, _, hfind, lookup_of_find? hfind, hpushed, hx, houtputs, hfired⟩
  · rintro rfl t
    rw [push_drop]
    exact ⟨_, rfl, rfl, rfl⟩
  · intro ha t ht
    have hterminal : a.isTerminal = true := by
      obtain rfl | ⟨s, rfl⟩ := ha <;> rfl
    rw [push_of_isTerminal hterminal (total_iff.2 ht).rules_ne_nil]
    exact ⟨0, _, rfl, rfl⟩

/-- A modification that writes an address and removes a port: it violates the first two rules,
meets one half of the third, and makes the fourth a rule for all packets. The third wins, and
overwrites what was written. -/
theorem lookup_push_overwritten :
    ∃ (t : Table) (m : Modification) (pkt : Packet),
      t = ⟨[⟨.test (.int "outport" 1), [.controller]⟩,
        ⟨.test (.single "dst" (.within ⟨.ofOctets 10 0 1 0, 24, by decide⟩)), [.drop]⟩,
        ⟨.test (.ofHead "dst" (.within ⟨.ofOctets 10 0 0 0, 24, by decide⟩)
          [("switch", .exactly (.int 1))]),
          [.query ⟨.count, 0⟩, .modify (.ofHead "dst" none [("outport", some (.int 3))])]⟩,
        ⟨.test (.single "dst" (.within ⟨.ofOctets 10 0 0 0, 24, by decide⟩)), [.identity]⟩,
        ⟨.identity, [.controller]⟩]⟩ ∧
      m = .ofHead "dst" (some (.address (.ofOctets 10 0 0 9))) [("outport", none)] ∧
      pkt = .ofList [("outport", .int 1), ("switch", .int 1)] ∧
      (push (.modify m) t).size = 2 ∧
      (∃ x, (push (.modify m) t).lookup pkt = .ok x ∧
        x.outputs = .singleton (.ofList [("outport", .int 3), ("switch", .int 1)]) ∧
        x.fired = [⟨.count, 0⟩]) ∧
      (∃ x, (push .drop t).lookup pkt = .ok x ∧ x.outputs = .empty ∧ x.fired = []) ∧
      ∃ i r, (push (.query ⟨.forward, 0⟩) t).find? pkt = some (i, r) ∧
        r.actions = [.query ⟨.forward, 0⟩] := by
  let t : Table := ⟨[⟨.test (.int "outport" 1), [.controller]⟩,
    ⟨.test (.single "dst" (.within ⟨.ofOctets 10 0 1 0, 24, by decide⟩)), [.drop]⟩,
    ⟨.test (.ofHead "dst" (.within ⟨.ofOctets 10 0 0 0, 24, by decide⟩)
      [("switch", .exactly (.int 1))]),
      [.query ⟨.count, 0⟩, .modify (.ofHead "dst" none [("outport", some (.int 3))])]⟩,
    ⟨.test (.single "dst" (.within ⟨.ofOctets 10 0 0 0, 24, by decide⟩)), [.identity]⟩,
    ⟨.identity, [.controller]⟩]⟩
  let m : Modification := .ofHead "dst" (some (.address (.ofOctets 10 0 0 9))) [("outport", none)]
  let pkt : Packet := .ofList [("outport", .int 1), ("switch", .int 1)]
  have ht : ∀ p, ∃ r ∈ t.rules, r.predicate.accepts p = true :=
    fun p => ⟨⟨.identity, [.controller]⟩, by simp [t], rfl⟩
  refine ⟨t, m, pkt, rfl, rfl, rfl, by decide +kernel, ?_,
    (lookup_push .drop pkt).2.1 rfl t,
    (lookup_push (.query ⟨.forward, 0⟩) pkt).2.2.1 (.inr ⟨_, rfl⟩) t ht⟩
  obtain ⟨i, r, j, x, y, hfind, hy, -, hx, houtputs, hfired⟩ :=
    ((lookup_push (.modify m) pkt).1 _ (.inr ⟨m, rfl, rfl⟩)).2 t ht
  have hwins : (t.find? (m.apply pkt)).map (fun found => found.2.sinks) = some [⟨.count, 0⟩] := by
    decide +kernel
  have hpassed : (t.lookup (m.apply pkt)).map Report.outputs =
      .ok (.singleton (.ofList [("outport", .int 3), ("switch", .int 1)])) := by
    decide +kernel
  rw [hfind] at hwins
  rw [hy] at hpassed
  exact ⟨x, hx, houtputs.trans (Except.ok.inj hpassed), hfired.trans (Option.some.inj hwins)⟩

/-! ## One after the other -/

/-- Several actions side by side name each sink once. -/
theorem orderly_unionAll {ls : List (List Action)} (h : 1 < ls.length) :
    Action.Orderly (unionAll ls) := by
  obtain ⟨init, last, rfl⟩ : ∃ init last, ls = init ++ [last] :=
    List.eq_nil_or_concat' ls |>.resolve_left (by rintro rfl; simp at h)
  cases init with
  | nil => simp at h
  | cons first rest =>
    rw [List.cons_append, unionAll, List.foldl_concat]
    exact Action.orderly_union _ _

/-- If the second table accepts every packet, a lookup in the tables one after the other does what a
lookup in the second does with all that the first passes on. Of several actions, each sink is fired
once. -/
theorem lookup_sequential (optimize : Bool) (a : Table) {b : Table}
    (hb : ∀ p, ∃ r ∈ b.rules, r.predicate.accepts p = true) (pkt : Packet) :
    (∀ e, a.lookup pkt = .error e → (sequential optimize a b).lookup pkt = .error ⟨pkt⟩) ∧
    ∀ i r, a.find? pkt = some (i, r) →
      ∃ z, (sequential optimize a b).lookup pkt = .ok z ∧
        (∀ q, q ∈ z.outputs ↔
          ∃ p, Action.Passes r.actions pkt p ∧ ∃ y, b.lookup p = .ok y ∧ q ∈ y.outputs) ∧
        (∀ k, k ∈ z.fired ↔ .query k ∈ r.actions ∨
          ∃ p, Action.Passes r.actions pkt p ∧ ∃ y, b.lookup p = .ok y ∧ k ∈ y.fired) ∧
        (1 < r.actions.length → z.fired.Nodup) := by
  have htotal := total_iff.2 hb
  have hmerged := verdict_sequential optimize a htotal pkt
  constructor
  · intro e he
    rw [(lookup_eq_error_iff.1 he).1, Option.map_none] at hmerged
    exact lookup_eq_error_iff.2 ⟨hmerged, rfl⟩
  · intro i r hfind
    rw [verdict_of_find? hfind, Option.map_some] at hmerged
    obtain ⟨z, hz, htells⟩ := exists_lookup hmerged
    refine ⟨z, hz, ?_, ?_, ?_⟩
    · intro q
      rw [htells.mem_outputs, passes_sequenced htotal]
      simp only [passes_iff_lookup]
    · intro k
      rw [htells.mem_fired, mem_sequenced rfl htotal]
      simp only [endsIn_query_iff_lookup]
    · intro hlength
      exact htells.nodup_fired (orderly_unionAll (by simpa using hlength))

/-- The actions of one rule pass a packet on in two ways; the second table fires a sink for one of
them that the rule fires too. -/
theorem lookup_sequential_two_ways :
    ∃ (a b : Table) (pkt : Packet),
      a = ⟨[⟨.test (.int "inport" 1), [.identity, .modify (.leaveBy 2), .query ⟨.count, 0⟩]⟩]⟩ ∧
      b = ⟨[⟨.test (.int "outport" 2), [.query ⟨.count, 0⟩, .identity]⟩, ⟨.identity, [.drop]⟩]⟩ ∧
      pkt = .ofList [("inport", .int 1)] ∧
      (∃ z, (sequential true a b).lookup pkt = .ok z ∧
        .ofList [("inport", .int 1), ("outport", .int 2)] ∈ z.outputs ∧ ⟨.count, 0⟩ ∈ z.fired ∧
        z.fired.Nodup) ∧
      (sequential false a b).lookup .empty = .error ⟨.empty⟩ := by
  let a : Table :=
    ⟨[⟨.test (.int "inport" 1), [.identity, .modify (.leaveBy 2), .query ⟨.count, 0⟩]⟩]⟩
  let b : Table :=
    ⟨[⟨.test (.int "outport" 2), [.query ⟨.count, 0⟩, .identity]⟩, ⟨.identity, [.drop]⟩]⟩
  let pkt : Packet := .ofList [("inport", .int 1)]
  have hb : ∀ p, ∃ r ∈ b.rules, r.predicate.accepts p = true :=
    fun p => ⟨⟨.identity, [.drop]⟩, by simp [b], rfl⟩
  obtain ⟨z, hz, houtputs, hfired, hnodup⟩ := (lookup_sequential true a hb pkt).2 0 _ rfl
  refine ⟨a, b, pkt, rfl, rfl, rfl, ⟨z, hz, ?_, ?_, hnodup (by decide)⟩,
    (lookup_sequential false a hb .empty).1 _ rfl⟩
  · exact (houtputs _).2
      ⟨_, ⟨.modify (.leaveBy 2), by simp, rfl⟩, _, rfl, by decide +kernel⟩
  · exact (hfired _).2 (.inl (by simp))

end Table

end PacketPolicy

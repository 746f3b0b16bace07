import PacketPolicy.Proofs.Evaluation
import PacketPolicy.Proofs.Restriction
import PacketPolicy.Proofs.Shape

/-!
# Correctness of compilation

A compiled table passes on what the term passes on, where modifications that the table
may not make are left to the controller.
-/

namespace PacketPolicy

namespace Table

theorem exists_mem_of_verdict {t : Table} {pkt : Packet} {actions : List Action}
    (h : t.verdict pkt = some actions) : ∃ r ∈ t.rules, r.actions = actions := by
  obtain ⟨_, r, -, hr, -, hactions⟩ := find?_of_verdict h
  exact ⟨r, hr, hactions⟩

theorem passes_single {a : Action} {pkt q : Packet} :
    (single a).Passes pkt q ↔ a.output? pkt = some q := by
  simp [Passes, verdict_single, Action.Passes]

theorem verdict_test (m : Match) (pkt : Packet) :
    (⟨[⟨.test m, [.identity]⟩, ⟨.identity, [.drop]⟩]⟩ : Table).verdict pkt =
      some [if m.accepts pkt then .identity else .drop] := by
  cases h : m.accepts pkt <;> simp [verdict, Rule.fire?, Predicate.accepts, h]

theorem passes_test {m : Match} {pkt q : Packet} :
    (⟨[⟨.test m, [.identity]⟩, ⟨.identity, [.drop]⟩]⟩ : Table).Passes pkt q ↔
      m.accepts pkt = true ∧ q = pkt := by
  rw [Passes, verdict_test]
  split_ifs with h <;> simp [Action.Passes, h, eq_comm]

/-! ## Negation -/

theorem verdict_negate {optimize : Bool} {a b : Table} (h : a.negate optimize = .ok b)
    (pkt : Packet) : b.verdict pkt = (a.verdict pkt).map Action.flip := by
  obtain ⟨-, rfl⟩ := negate_eq_ok_iff.1 h
  rw [verdict_pruneIf, verdict, verdict, List.findSome?_map, List.map_findSome?]
  congr 1
  funext r
  simp only [Function.comp_apply, Rule.fire?]
  split_ifs <;> rfl

theorem passes_flip {actions : List Action} (hneg : Action.Negatable actions)
    (hord : Action.Orderly actions) {pkt q : Packet} :
    Action.Passes (Action.flip actions) pkt q ↔ q = pkt ∧ ∀ r, ¬ Action.Passes actions pkt r := by
  rcases hneg with hhead | hhead
  · have hpass : Action.Passes actions pkt pkt := ⟨.identity, List.mem_of_mem_head? hhead, rfl⟩
    refine iff_of_false ?_ fun h => h.2 pkt hpass
    simp [Action.flip, hhead, Action.Passes]
  · obtain rfl := hord.drop_alone (List.mem_of_mem_head? hhead)
    simp [Action.flip, Action.Passes, eq_comm]

theorem Regular.passes_negate {optimize : Bool} {a b : Table} (ha : a.Regular)
    (h : a.negate optimize = .ok b) {pkt q : Packet} :
    b.Passes pkt q ↔ q = pkt ∧ ∀ r, ¬ a.Passes pkt r := by
  obtain ⟨actions, hverdict⟩ := ha.total pkt
  obtain ⟨r, hr, rfl⟩ := exists_mem_of_verdict hverdict
  have hneg := (negate_eq_ok_iff.1 h).1 r hr
  simpa [Passes, verdict_negate h, hverdict] using passes_flip hneg (ha.actions r hr)

/-! ## Lookup -/

theorem Total.outputs_lookup {t : Table} (ht : t.Total) {pkt : Packet} {s : PacketSet}
    (hs : ∀ q, t.Passes pkt q ↔ q ∈ s) : (t.lookup pkt).map Report.outputs = .ok s := by
  obtain ⟨actions, hverdict⟩ := ht pkt
  obtain ⟨i, r, hfind, -, -, rfl⟩ := find?_of_verdict hverdict
  rw [lookup_of_find? hfind]
  refine congrArg Except.ok (SortedSet.ext_mem fun q => ?_)
  rw [← hs, Rule.outputs, SortedSet.mem_ofList, List.mem_filterMap]
  simp [Passes, hverdict, Action.Passes]

end Table

namespace Term

/-- The table of a term passes on what the term does, restricted to the headers of the table. -/
theorem Compiles.passes {c : CompileSettings} {t : Term} {a : Table} (h : Compiles c t a)
    {pkt q : Packet} : a.Passes pkt q ↔ q ∈ ((t.restrict c.headers).eval pkt).outputs := by
  induction h generalizing pkt q with
  | identity => exact Table.passes_single.trans (mem_outputs_ofAction (x := .identity)).symm
  | drop => exact Table.passes_single.trans (mem_outputs_ofAction (x := .drop)).symm
  | test m => exact Table.passes_test.trans mem_outputs_test.symm
  | modify m =>
    rw [Table.passes_single, restrict]
    split_ifs
    · exact (mem_outputs_ofAction (x := .controller)).symm
    · exact (mem_outputs_ofAction (x := .modify m)).symm
  | controller => exact Table.passes_single.trans (mem_outputs_ofAction (x := .controller)).symm
  | query s => exact Table.passes_single.trans (mem_outputs_ofAction (x := .query s)).symm
  | negate ha hneg ih =>
    rw [ha.regular.passes_negate hneg, restrict, mem_outputs_negate]
    simp only [ih]
  | parallelNil => exact Table.passes_single.trans (mem_outputs_ofAction (x := .drop)).symm
  | parallelOne _ ih => simp [restrict_parallel, mem_outputs_parallel, ih]
  | parallelSnoc _ _ _ iha ihb =>
    rw [Table.passes_parallel, iha, ihb]
    simp [restrict_parallel, mem_outputs_parallel, or_and_right, exists_or]
  | sequentialNil => exact Table.passes_single.trans (mem_outputs_ofAction (x := .identity)).symm
  | sequentialOne _ ih => simp [restrict_sequential, mem_outputs_sequential_one, ih]
  | sequentialSnoc _ _ hb iha ihb =>
    rw [Table.passes_sequential _ hb.regular.total]
    simp [restrict_sequential, mem_outputs_sequential_snoc, iha, ihb]

end Term

namespace Store

theorem restrict_term_of_parts {s : Store} {headers : HeaderSet} {p : Policy}
    (h : ∀ m, .modify m ∈ s.parts p → m.writesOutside headers = false) :
    (s.term p).restrict headers = s.term p :=
  (s.carried_restrict headers).term h

/-- A lookup in a compiled table succeeds and gives what the policy gives, if modifications of
headers that the table may not set are left to the controller. If there are none, it gives what
the policy itself gives. -/
theorem outputs_lookup_of_compile {s : Store} {c : CompileSettings} {p : Policy} {t : Table}
    (h : s.compile c p = .ok t) (pkt : Packet) :
    (t.lookup pkt).map Table.Report.outputs =
        .ok ((s.restrict c.headers).eval (p.restrict c.headers) pkt).outputs ∧
      ((∀ m, .modify m ∈ s.parts p → m.writesOutside c.headers = false) →
        (t.lookup pkt).map Table.Report.outputs = .ok (s.eval p pkt).outputs) := by
  have hcomp := Term.compile_eq_ok_iff.1 h
  have hlookup : (t.lookup pkt).map Table.Report.outputs =
      .ok (((s.term p).restrict c.headers).eval pkt).outputs :=
    hcomp.regular.total.outputs_lookup fun _ => hcomp.passes
  constructor
  · rw [eval, term_restrict]
    exact hlookup
  · intro hwithin
    rw [restrict_term_of_parts hwithin] at hlookup
    exact hlookup

/-- A packet on port 1 goes through a definition that would also unset a header that no switch
sets; without that modification the table gives what the policy gives. -/
theorem outputs_lookup_of_compile_dynamic :
    (∃ s p t, s = Store.mk [⟨.parallel [.forward 2, .modify (.single "tag" none)], false, none⟩] ∧
      p = .conditional (.test (.int "inport" 1)) (.dynamic ⟨0, false⟩) .controller ∧
      s.compile {} p = .ok t ∧
      (t.lookup (.ofList [("inport", .int 1)])).map Table.Report.outputs =
        .ok ((s.restrict .compilable).eval (p.restrict .compilable)
          (.ofList [("inport", .int 1)])).outputs) ∧
    ∃ s p t, s = Store.mk [⟨.parallel [.forward 2, .identity], false, none⟩] ∧
      p = .conditional (.test (.int "inport" 1)) (.dynamic ⟨0, false⟩) .controller ∧
      s.compile {} p = .ok t ∧
      (∀ m, .modify m ∈ s.parts p → m.writesOutside .compilable = false) ∧
      (t.lookup (.ofList [("inport", .int 1)])).map Table.Report.outputs =
        .ok (s.eval p (.ofList [("inport", .int 1)])).outputs := by
  refine ⟨⟨_, _, _, rfl, rfl, rfl, (outputs_lookup_of_compile (c := {}) rfl _).1⟩, ?_⟩
  let s := Store.mk [⟨.parallel [.forward 2, .identity], false, none⟩]
  let p : Policy := .conditional (.test (.int "inport" 1)) (.dynamic ⟨0, false⟩) .controller
  have hparts : ∀ m, .modify m ∈ s.parts p → m = .leaveBy 2 := by
    simp [s, p, parts, reading, unfold, size, definition, get?, Policy.parts, Policy.partsOfAll]
  have hwithin : ∀ m, .modify m ∈ s.parts p → m.writesOutside .compilable = false := by
    intro m hm
    rw [hparts m hm]
    decide +kernel
  exact ⟨s, p, _, rfl, rfl, rfl, hwithin, (outputs_lookup_of_compile (c := {}) rfl _).2 hwithin⟩

end Store

end PacketPolicy

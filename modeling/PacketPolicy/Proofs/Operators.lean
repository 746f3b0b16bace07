import PacketPolicy.Proofs.FilterTyping
import PacketPolicy.Proofs.Modes

/-!
# The algebra of policies

Policies side by side and one after the other obey the laws of an idempotent semiring, and
a conditional runs the branch that its filter chooses and no other. The operators flatten
lists and a run takes shortcuts, but neither shows in the outcome: each operator has the
combination of the outcomes of its operands as its outcome, and the laws are those of
outcomes. One law holds of outputs alone, because what has arrived at a sink stays there
even if `drop` follows.
-/

namespace PacketPolicy

/-! ## Outcomes -/

namespace Outcome

theorem union_comm (a b : Outcome) : a.union b = b.union a := by
  apply ext_mem <;> simp [or_comm]

@[simp] theorem union_self (o : Outcome) : o.union o = o := by
  apply ext_mem <;> simp

theorem union_andThen (a b : Outcome) (f : Packet → Outcome) :
    (a.union b).andThen f = (a.andThen f).union (b.andThen f) := by
  apply ext_mem
  · intro q
    simp only [mem_outputs_andThen, mem_outputs_union, or_and_right, exists_or]
  · intro x
    simp only [mem_arrivals_andThen, mem_arrivals_union, mem_outputs_union, or_and_right, exists_or]
    exact or_or_or_comm

theorem andThen_union (o : Outcome) (f g : Packet → Outcome) :
    (o.andThen fun p => (f p).union (g p)) = (o.andThen f).union (o.andThen g) := by
  apply ext_mem
  · intro q
    simp only [mem_outputs_andThen, mem_outputs_union, and_or_left, exists_or]
  · intro x
    simp only [mem_arrivals_andThen, mem_arrivals_union, and_or_left, exists_or]
    exact or_or_distrib_left

theorem outputs_andThen_none (o : Outcome) : (o.andThen fun _ => none).outputs = .empty := by
  apply SortedSet.ext_mem
  simp [none]

/-- What becomes of a packet at a test: it passes, or nothing does. -/
def gate (passed : Bool) (pkt : Packet) : Outcome := if passed then pass pkt else none

@[simp] theorem gate_andThen (passed : Bool) (pkt : Packet) (f : Packet → Outcome) :
    (gate passed pkt).andThen f = if passed then f pkt else none := by
  cases passed with
  | false => exact none_andThen f
  | true => exact pass_andThen pkt f

theorem outputs_gate_eq_iff {passed : Bool} {pkt : Packet} :
    (gate passed pkt).outputs = .singleton pkt ↔ passed = true := by
  cases passed with
  | false =>
    refine iff_of_false (fun h => ?_) Bool.false_ne_true
    have hmem : pkt ∈ (gate false pkt).outputs := h ▸ SortedSet.mem_singleton.2 rfl
    exact SortedSet.not_mem_empty pkt hmem
  | true => exact iff_of_true rfl rfl

end Outcome

/-! ## Effects -/

namespace Policy

section

variable (env : Handle → Term) (p : Policy) (ps : List Policy)

theorem effect_parallelOf : effect env (parallelOf ps) = effect env (.parallel ps) := by
  simpa using
    (joins_parallel env).collapse id parallelOf rfl (fun _ => rfl) (by simp [parallelOf]) ps

theorem effect_sequentialOf : effect env (sequentialOf ps) = effect env (.sequential ps) := by
  simpa using
    (joins_sequential env).collapse id sequentialOf rfl (fun _ => rfl) (by simp [sequentialOf]) ps

theorem effect_foldl_plus : effect env (ps.foldl plus p) = effect env (.parallel (p :: ps)) := by
  simpa using (joins_parallel env).foldl id plus (fun p q => funext (effect_plus env p q)) p ps

theorem effect_foldl_andThen :
    effect env (ps.foldl andThen p) = effect env (.sequential (p :: ps)) := by
  simpa using
    (joins_sequential env).foldl id andThen (fun p q => funext (effect_andThen env p q)) p ps

/-- The unit in front of some operands changes nothing. -/
theorem effect_parallel_drop_cons :
    effect env (.parallel (.drop :: ps)) = effect env (.parallel ps) := by
  funext pkt
  rw [effect_parallel_cons]
  exact Outcome.none_union _

theorem effect_sequential_identity_cons :
    effect env (.sequential (.identity :: ps)) = effect env (.sequential ps) := by
  funext pkt
  rw [effect_sequential_cons]
  exact Outcome.pass_andThen pkt _

end

/-- The laws of an idempotent semiring, for what is seen of policies. -/
structure SemiringLaws {α : Type} (view : Policy → α) : Prop where
  plus_assoc : ∀ p q r : Policy, view ((p.plus q).plus r) = view (p.plus (q.plus r))
  plus_comm : ∀ p q : Policy, view (p.plus q) = view (q.plus p)
  plus_self : ∀ p : Policy, view (p.plus p) = view p
  plus_drop : ∀ p : Policy, view (p.plus .drop) = view p
  andThen_assoc : ∀ p q r : Policy, view ((p.andThen q).andThen r) = view (p.andThen (q.andThen r))
  identity_andThen : ∀ p : Policy, view (.andThen .identity p) = view p
  andThen_identity : ∀ p : Policy, view (p.andThen .identity) = view p
  drop_andThen : ∀ p : Policy, view (.andThen .drop p) = view .drop
  plus_andThen : ∀ p q r : Policy,
    view ((p.plus q).andThen r) = view ((p.andThen r).plus (q.andThen r))
  andThen_plus : ∀ p q r : Policy,
    view (p.andThen (q.plus r)) = view ((p.andThen q).plus (p.andThen r))

theorem semiringLaws_effect (env : Handle → Term) : SemiringLaws (effect env) where
  plus_assoc p q r := by
    funext pkt
    simp only [effect_plus, Outcome.union_assoc]
  plus_comm p q := by
    funext pkt
    rw [effect_plus, effect_plus, Outcome.union_comm]
  plus_self p := by
    funext pkt
    rw [effect_plus, Outcome.union_self]
  plus_drop p := by
    funext pkt
    rw [effect_plus]
    exact Outcome.union_none _
  andThen_assoc p q r := by
    funext pkt
    rw [effect_andThen, effect_andThen, effect_andThen, Outcome.andThen_assoc]
    exact congrArg (Outcome.andThen _) (funext fun pkt => (effect_andThen env q r pkt).symm)
  identity_andThen p := by
    funext pkt
    rw [effect_andThen]
    exact Outcome.pass_andThen pkt _
  andThen_identity p := by
    funext pkt
    rw [effect_andThen]
    exact Outcome.andThen_pass _
  drop_andThen p := by
    funext pkt
    rw [effect_andThen]
    exact Outcome.none_andThen _
  plus_andThen p q r := by
    funext pkt
    simp only [effect_andThen, effect_plus, Outcome.union_andThen]
  andThen_plus p q r := by
    funext pkt
    rw [effect_plus, effect_andThen, effect_andThen, effect_andThen, ← Outcome.andThen_union]
    exact congrArg (Outcome.andThen _) (funext (effect_plus env q r))

section

variable {env : Handle → Term} {p : Policy} {pkt : Packet} {passed : Bool}

theorem effect_negate_of_gate (h : effect env p pkt = .gate passed pkt) :
    effect env (.negate p) pkt = .gate (!passed) pkt := by
  simp only [effect, toTerm, Term.eval] at h ⊢
  rw [h]
  cases passed <;> rfl

/-- A test chooses one branch of a conditional, and nothing of the other one is left. -/
theorem effect_conditional_of_gate (h : effect env p pkt = .gate passed pkt) (q r : Policy) :
    effect env (.conditional p q r) pkt =
      if passed then effect env q pkt else effect env r pkt := by
  rw [effect_conditional, effect_negate_of_gate h, h, Outcome.gate_andThen, Outcome.gate_andThen]
  cases passed with
  | false => exact Outcome.none_union _
  | true => exact Outcome.union_none _

end

end Policy

/-! ## Runs -/

/-- A filter is a test, if the handles for filters behind it refer to filters. -/
theorem Store.exists_eval_eq_gate {s : Store} {p : Policy} (hp : p.isFilter = true)
    (hs : s.HoldsFilters (s.parts p)) (pkt : Packet) :
    ∃ passed, s.eval p pkt = .gate passed pkt := by
  have hterm : (s.term p).IsFilter := s.carried_filter.term hs hp
  rcases hterm.eval_eq pkt with hnone | hpass
  · exact ⟨false, hnone⟩
  · exact ⟨true, hpass⟩

namespace Controller

variable (c : Controller) (o : Schedule)

/-- What comes of running a policy for its effect: the packets that are passed on, and the noted
arrivals. -/
def outcome (p : Policy) (pkt : Packet) : Outcome :=
  let t := c.trace o (.live []) p pkt
  ⟨t.outputs, .ofList t.notes.arrivals⟩

theorem mem_arrivals_trace (p : Policy) (pkt : Packet) (x : Arrival) :
    x ∈ (c.trace o (.live []) p pkt).notes.arrivals ↔ x ∈ (c.store.denote p pkt).arr := by
  obtain ⟨-, hgrow⟩ := c.store.realizes_process o p pkt { notes := .live [] }
  rw [trace]
  generalize (c.store.process o p pkt { notes := .live [] }).2.notes = n at hgrow
  cases n with
  | live l => exact (hgrow.2 x).trans (or_iff_right List.not_mem_nil)
  | dry | collect l => exact hgrow.elim

/-- Neither the order of packets nor a shortcut shows in the outcome. -/
theorem outcome_eq (p : Policy) (pkt : Packet) : c.outcome o p pkt = c.store.eval p pkt := by
  obtain ⟨hout, harr⟩ := c.store.means_term p pkt
  obtain ⟨hrun, -⟩ := c.store.realizes_process o p pkt { notes := .live [] }
  apply Outcome.ext_mem
  · intro q
    exact (hrun q).trans (hout q).symm
  · intro x
    exact SortedSet.mem_ofList.trans ((c.mem_arrivals_trace o p pkt x).trans (harr x).symm)

theorem outcome_eq_effect (p : Policy) :
    c.outcome o p = p.effect (c.store.unfold Policy.toTerm .drop c.store.size) :=
  funext (c.outcome_eq o p)

/-- A run of the filter passes the packet on, and nothing else. -/
def Accepts (f : Filter) (pkt : Packet) : Prop :=
  (c.outcome o f.policy pkt).outputs = .singleton pkt

instance (f : Filter) (pkt : Packet) : Decidable (c.Accepts o f pkt) :=
  inferInstanceAs (Decidable (_ = _))

theorem accepts_iff {f : Filter} {pkt : Packet} {passed : Bool}
    (h : c.store.eval f.policy pkt = .gate passed pkt) : c.Accepts o f pkt ↔ passed = true := by
  rw [Accepts, outcome_eq, h, Outcome.outputs_gate_eq_iff]

theorem outcome_ifElse {f : Filter} (hf : c.store.HoldsFilters (c.store.parts f.policy))
    (p q : Policy) (pkt : Packet) : c.outcome o (.ifElse f p q) pkt =
      if c.Accepts o f pkt then c.outcome o p pkt else c.outcome o q pkt := by
  obtain ⟨passed, hpassed⟩ := Store.exists_eval_eq_gate f.isFilter hf pkt
  simp only [c.accepts_iff o hpassed, outcome_eq]
  exact Policy.effect_conditional_of_gate hpassed p q

/-- Up to their outcomes, policies are an idempotent semiring with the units `drop` and `identity`;
only that `drop` after a policy leaves nothing holds of outputs alone. A conditional chooses one
branch, and lists repeat the operators. -/
theorem operators_form_semiring :
    (∀ (p q : Policy) (pkt : Packet),
      c.outcome o (p.plus q) pkt = (c.outcome o p pkt).union (c.outcome o q pkt) ∧
      c.outcome o (p.andThen q) pkt = (c.outcome o p pkt).andThen (c.outcome o q)) ∧
    (∀ f : Filter, c.store.HoldsFilters (c.store.parts f.policy) → ∀ p q pkt,
      c.outcome o (.ifElse f p q) pkt =
        if c.Accepts o f pkt then c.outcome o p pkt else c.outcome o q pkt) ∧
    (∀ ps, c.outcome o (.parallelOf ps) = c.outcome o (ps.foldl .plus .drop) ∧
      c.outcome o (.sequentialOf ps) = c.outcome o (ps.foldl .andThen .identity)) ∧
    (∀ p ps, c.outcome o (.parallelOf (p :: ps)) = c.outcome o (ps.foldl .plus p) ∧
      c.outcome o (.sequentialOf (p :: ps)) = c.outcome o (ps.foldl .andThen p)) ∧
    Policy.SemiringLaws (c.outcome o) ∧
    ∀ (p : Policy) (pkt : Packet), (c.outcome o (p.andThen .drop) pkt).outputs = .empty := by
  have heffect : c.outcome o = Policy.effect _ := funext (c.outcome_eq_effect o)
  refine ⟨?_, fun f => c.outcome_ifElse o, ?_, ?_, ?_, ?_⟩
  · intro p q pkt
    rw [heffect]
    exact ⟨Policy.effect_plus _ p q pkt, Policy.effect_andThen _ p q pkt⟩
  · intro ps
    rw [heffect, Policy.effect_foldl_plus, Policy.effect_foldl_andThen, Policy.effect_parallelOf,
      Policy.effect_sequentialOf, Policy.effect_parallel_drop_cons,
      Policy.effect_sequential_identity_cons]
    exact ⟨rfl, rfl⟩
  · intro p ps
    rw [heffect, Policy.effect_foldl_plus, Policy.effect_foldl_andThen, Policy.effect_parallelOf,
      Policy.effect_sequentialOf]
    exact ⟨rfl, rfl⟩
  · rw [heffect]
    exact Policy.semiringLaws_effect _
  · intro p pkt
    rw [heffect, Policy.effect_andThen]
    exact Outcome.outputs_andThen_none _

/-- A handle for filters chooses between two branches that end in one sink each. -/
theorem operators_form_semiring_choice :
    ∃ (c : Controller) (f : Filter) (p q : Policy) (pkt : Packet),
      c.store = ⟨[⟨.test (.int "inport" 1), true, none⟩]⟩ ∧ f.policy = .dynamic ⟨0, true⟩ ∧
      p = .query ⟨.count, 0⟩ ∧ q = .sequential [.forward 2, .query ⟨.forward, 0⟩] ∧
      pkt = .ofList [("inport", .int 3)] ∧ c.store.HoldsFilters (c.store.parts f.policy) ∧
      ∀ o, ¬ c.Accepts o f pkt ∧ c.outcome o (.ifElse f p q) pkt = c.outcome o q pkt ∧
        (c.outcome o (.ifElse f p q) pkt).sinks = [⟨.forward, 0⟩] := by
  let c : Controller := { store := ⟨[⟨.test (.int "inport" 1), true, none⟩]⟩ }
  let f : Filter := .dynamic ⟨0, true⟩ rfl
  let p : Policy := .query ⟨.count, 0⟩
  let q : Policy := .sequential [.forward 2, .query ⟨.forward, 0⟩]
  let pkt : Packet := .ofList [("inport", .int 3)]
  have hf : c.store.HoldsFilters (c.store.parts f.policy) := by
    simp [c, f, Store.HoldsFilters, Store.parts, Store.reading, Store.unfold, Store.size,
      Store.definition, Store.get?, Filter.dynamic, Policy.parts, Policy.isFilter]
  refine ⟨c, f, p, q, pkt, rfl, rfl, rfl, rfl, rfl, hf, fun o => ?_⟩
  have hrefused : ¬ c.Accepts o f pkt := by
    rw [Accepts, outcome_eq]
    decide +kernel
  have hchosen := (c.operators_form_semiring o).2.1 f hf p q pkt
  rw [if_neg hrefused] at hchosen
  refine ⟨hrefused, hchosen, ?_⟩
  rw [hchosen, outcome_eq]
  decide +kernel

end Controller

end PacketPolicy

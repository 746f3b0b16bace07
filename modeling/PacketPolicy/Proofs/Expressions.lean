import PacketPolicy.Proofs.Compilability
import PacketPolicy.Proofs.FilterAlgebra
import PacketPolicy.Proofs.RoundTrip

/-!
# Types and meanings of expressions

Whether an expression is one for a filter, whether it is well typed and which packets become
of a packet are said here of the expression itself. Building the policy decides the first two
from policies that are already flattened and merged, and still agrees: it succeeds exactly for
the well-typed expressions, and a run of what it builds passes on what the expression says.
-/

namespace PacketPolicy

namespace Expr

/-! ## Types -/

/-- The form of the expression is that of a filter. -/
def isFilter : Expr → Bool
  | .identity | .drop | .test _ | .not _ => true
  | .controller | .modify _ | .forward _ | .exclusive _ | .link _ => false
  | .when _ t => t.isFilter
  | .ite _ t e => t.isFilter && e.isFilter
  | .binary .parallel l r | .binary .sequential l r => l.isFilter && r.isFilter
  | .binary .difference _ _ | .binary .intersection _ _ | .binary .union _ _ => true

/-- Conditions and operands of Boolean operators are filters, and no list of fields is empty. -/
def wellTyped : Expr → Bool
  | .identity | .drop | .controller | .forward _ | .exclusive _ | .link _ => true
  | .test fields => !fields.isEmpty
  | .modify fields => !fields.isEmpty
  | .when c t => c.wellTyped && c.isFilter && t.wellTyped
  | .ite c t e => c.wellTyped && c.isFilter && t.wellTyped && e.wellTyped
  | .not e => e.wellTyped && e.isFilter
  | .binary .parallel l r | .binary .sequential l r => l.wellTyped && r.wellTyped
  | .binary .difference l r | .binary .intersection l r | .binary .union l r =>
    l.wellTyped && l.isFilter && r.wellTyped && r.isFilter

/-! ## Meanings -/

/-- What a list of fields says of a header. Of two entries the later one counts. -/
def setting? {α : Type} (fields : List (String × α)) (field : String) : Option α :=
  (fields.reverse.find? fun e => field = e.1).map Prod.snd

/-- The packets that become of a packet. -/
def denote : Expr → Packet → Set Packet
  | .identity, pkt => {pkt}
  | .drop, _ => ∅
  | .controller, _ => ∅
  | .test fields, pkt =>
    {q | q = pkt ∧ ∀ field pattern, setting? fields field = some pattern →
      ∃ v, pkt.get? field = some v ∧ pattern.accepts v = true}
  | .modify fields, pkt =>
    {q | ∀ field, q.get? field = (setting? fields field).getD (pkt.get? field)}
  | .forward port, pkt => {pkt.set "outport" (.int port)}
  | .exclusive port, pkt =>
    {q | pkt.get? "inport" ≠ some (.int port) ∧ q = pkt.set "outport" (.int port)}
  | .link l, pkt =>
    {q | (pkt.get? "switch" = some (.int l.source.switch) ∧
        pkt.get? "outport" = some (.int l.source.port)) ∧
      q = ((pkt.set "switch" (.int l.target.switch)).set "inport" (.int l.target.port)).unset
        "outport"}
  | .when c t, pkt =>
    {q | pkt ∈ c.denote pkt ∧ q ∈ t.denote pkt ∨ pkt ∉ c.denote pkt ∧ q = pkt}
  | .ite c t e, pkt =>
    {q | pkt ∈ c.denote pkt ∧ q ∈ t.denote pkt ∨ pkt ∉ c.denote pkt ∧ q ∈ e.denote pkt}
  | .not e, pkt => {pkt} \ e.denote pkt
  | .binary .parallel l r, pkt => l.denote pkt ∪ r.denote pkt
  | .binary .sequential l r, pkt => {q | ∃ p ∈ l.denote pkt, q ∈ r.denote p}
  | .binary .difference l r, pkt => l.denote pkt \ r.denote pkt
  | .binary .intersection l r, pkt => l.denote pkt ∩ r.denote pkt
  | .binary .union l r, pkt => l.denote pkt ∪ r.denote pkt

variable {e : Expr} {p : Policy} {f : Filter}

/-! ## Building policies is checking types -/

/-- Flattening and merging do not turn filters into other policies, nor others into filters. -/
theorem Elaborates.isFilter_eq (h : e.Elaborates p) : p.isFilter = e.isFilter := by
  induction h with
  | identity | drop | controller | test | modify | forward | exclusive | link => rfl
  | @when _ _ _ f _ _ _ iht =>
    rw [Policy.ifElse, Policy.isFilter, f.isFilter, iht]
    simp [isFilter, Policy.isFilter]
  | @ite _ _ _ _ _ f _ _ _ _ iht ihe =>
    rw [Policy.ifElse, Policy.isFilter, f.isFilter, iht, ihe]
    simp [isFilter]
  | @not _ f => exact f.not.isFilter
  | parallel _ _ ihl ihr => rw [Policy.isFilter_plus, ihl, ihr, isFilter]
  | sequential _ _ ihl ihr => rw [Policy.isFilter_andThen, ihl, ihr, isFilter]
  | @difference _ _ f g => exact (f.minus g).isFilter
  | @intersection _ _ f g => exact (f.and g).isFilter
  | @union _ _ f g => exact (f.or g).isFilter

theorem Elaborates.isFilter_expr (h : e.Elaborates f.policy) : e.isFilter = true :=
  h.isFilter_eq.symm.trans f.isFilter

/-- What is built from an expression for a filter is one. -/
theorem Elaborates.exists_filter (h : e.Elaborates p) (he : e.isFilter = true) :
    ∃ f : Filter, e.Elaborates f.policy :=
  ⟨⟨p, h.isFilter_eq.trans he⟩, h⟩

theorem Elaborates.wellTyped (h : e.Elaborates p) : e.wellTyped = true := by
  induction h with
  | identity | drop | controller | forward | exclusive | link => rfl
  | test hm | modify hm =>
    simpa [Expr.wellTyped] using (Option.ite_none_left_eq_some.1 hm).1
  | when hc _ ihc iht => simp [Expr.wellTyped, ihc, iht, hc.isFilter_expr]
  | ite hc _ _ ihc iht ihe => simp [Expr.wellTyped, ihc, iht, ihe, hc.isFilter_expr]
  | not h ih => simp [Expr.wellTyped, ih, h.isFilter_expr]
  | parallel _ _ ihl ihr | sequential _ _ ihl ihr => simp [Expr.wellTyped, ihl, ihr]
  | difference hl hr ihl ihr | intersection hl hr ihl ihr | union hl hr ihl ihr =>
    simp [Expr.wellTyped, ihl, ihr, hl.isFilter_expr, hr.isFilter_expr]

theorem wellTyped_binary_iff {op : Operator} {l r : Expr} : (binary op l r).wellTyped = true ↔
    l.wellTyped = true ∧ r.wellTyped = true ∧
      (op.onFilters = true → l.isFilter = true ∧ r.isFilter = true) := by
  cases op <;> simp [Expr.wellTyped, Operator.onFilters] <;> tauto

theorem exists_elaborates (h : e.wellTyped = true) : ∃ p, e.Elaborates p := by
  induction e with
  | identity => exact ⟨_, .identity⟩
  | drop => exact ⟨_, .drop⟩
  | controller => exact ⟨_, .controller⟩
  | forward port => exact ⟨_, .forward port⟩
  | exclusive port => exact ⟨_, .exclusive port⟩
  | link l => exact ⟨_, .link l⟩
  | test fields => exact ⟨_, .test (if_neg (by simpa [wellTyped] using h))⟩
  | modify fields => exact ⟨_, .modify (if_neg (by simpa [wellTyped] using h))⟩
  | when c t ihc iht =>
    simp only [wellTyped, Bool.and_eq_true] at h
    obtain ⟨⟨hc, hfilter⟩, ht⟩ := h
    obtain ⟨_, hc⟩ := ihc hc
    obtain ⟨f, hf⟩ := hc.exists_filter hfilter
    obtain ⟨p, hp⟩ := iht ht
    exact ⟨_, .when hf hp⟩
  | ite c t e ihc iht ihe =>
    simp only [wellTyped, Bool.and_eq_true] at h
    obtain ⟨⟨⟨hc, hfilter⟩, ht⟩, he⟩ := h
    obtain ⟨_, hc⟩ := ihc hc
    obtain ⟨f, hf⟩ := hc.exists_filter hfilter
    obtain ⟨p, hp⟩ := iht ht
    obtain ⟨q, hq⟩ := ihe he
    exact ⟨_, .ite hf hp hq⟩
  | not e ih =>
    simp only [wellTyped, Bool.and_eq_true] at h
    obtain ⟨_, he⟩ := ih h.1
    obtain ⟨f, hf⟩ := he.exists_filter h.2
    exact ⟨_, .not hf⟩
  | binary op l r ihl ihr =>
    obtain ⟨hl, hr, hfilters⟩ := wellTyped_binary_iff.1 h
    obtain ⟨p, hp⟩ := ihl hl
    obtain ⟨q, hq⟩ := ihr hr
    rw [← hp.isFilter_eq, ← hq.isFilter_eq] at hfilters
    obtain ⟨s, hs, -⟩ := exists_elaborates_binary op hp hq hfilters
    exact ⟨s, hs⟩

end Expr

/-! ## What is built does what the expression says -/

namespace Outcome

variable {a b : Outcome} {A B C : Set Packet} {passed left right : Bool} {pkt : Packet}

/-- A gate lets the packet pass if it is open. -/
theorem means_gate_iff :
    (gate passed pkt).Means ⟨A, ∅⟩ ↔ ∀ q, q ∈ A ↔ q = pkt ∧ passed = true := by
  have harrivals : ∀ x, x ∉ (gate passed pkt).arrivals := by
    cases passed <;> exact SortedSet.not_mem_empty
  have houtputs : ∀ q, q ∈ (gate passed pkt).outputs ↔ q = pkt ∧ passed = true := by
    cases passed <;> simp [gate, pass, none]
  simp only [Means, houtputs, harrivals, Set.mem_empty_iff_false, implies_true, and_true]
  exact forall_congr' fun q => Iff.comm

theorem Means.branch (hc : (gate passed pkt).Means ⟨C, ∅⟩) (ha : a.Means ⟨A, ∅⟩)
    (hb : b.Means ⟨B, ∅⟩) :
    (if passed then a else b).Means ⟨{q | pkt ∈ C ∧ q ∈ A ∨ pkt ∉ C ∧ q ∈ B}, ∅⟩ := by
  have hpkt : pkt ∈ C ↔ passed = true := by simp [means_gate_iff.1 hc]
  cases passed with
  | false => simpa [hpkt] using hb
  | true => simpa [hpkt] using ha

theorem Means.gate_not (ha : (gate passed pkt).Means ⟨A, ∅⟩) :
    (gate (!passed) pkt).Means ⟨{pkt} \ A, ∅⟩ := by
  rw [means_gate_iff] at ha ⊢
  intro q
  cases passed <;> simp [ha]

/-- A second gate lets those through that have a property, if it says so of the packet. -/
theorem Means.gate_sep {P : Packet → Prop} (ha : (gate left pkt).Means ⟨A, ∅⟩)
    (hright : right = true ↔ P pkt) : (gate (left && right) pkt).Means ⟨{q ∈ A | P q}, ∅⟩ := by
  rw [means_gate_iff] at ha ⊢
  intro q
  rw [Bool.and_eq_true, hright, Set.mem_sep_iff, ha]
  constructor
  · rintro ⟨⟨rfl, hleft⟩, hq⟩
    exact ⟨rfl, hleft, hq⟩
  · rintro ⟨rfl, hleft, hq⟩
    exact ⟨⟨rfl, hleft⟩, hq⟩

theorem Means.gate_diff (ha : (gate left pkt).Means ⟨A, ∅⟩) (hb : (gate right pkt).Means ⟨B, ∅⟩) :
    (gate (left && !right) pkt).Means ⟨A \ B, ∅⟩ :=
  ha.gate_sep (by simp [means_gate_iff.1 hb])

theorem Means.gate_inter (ha : (gate left pkt).Means ⟨A, ∅⟩) (hb : (gate right pkt).Means ⟨B, ∅⟩) :
    (gate (left && right) pkt).Means ⟨A ∩ B, ∅⟩ :=
  ha.gate_sep (by simp [means_gate_iff.1 hb])

end Outcome

namespace Expr

variable {e : Expr} {p : Policy} {f : Filter}

/-- What is built from an expression for a filter is a test. -/
theorem Elaborates.exists_eval_eq_gate (h : e.Elaborates f.policy) (s : Store) (pkt : Packet) :
    ∃ passed, s.eval f.policy pkt = .gate passed pkt := by
  exact Store.exists_eval_eq_gate f.isFilter (h.settled.negatesFilters s).2 pkt

theorem behavior_test {fields : List (String × Pattern)} {m : Match}
    (h : Match.ofList? fields = some m) (pkt : Packet) :
    Behavior.test m pkt = ⟨denote (.test fields) pkt, ∅⟩ := by
  have hget : ∀ field, m.get? field = setting? fields field := by
    rw [Match.ofList?, Option.ite_none_left_eq_some] at h
    obtain ⟨-, ⟨⟩⟩ := h
    exact SortedMap.get?_ofList fields
  simp only [Behavior.test, denote, Match.accepts_iff, hget]

theorem behavior_modify {fields : List (String × Option Value)} {m : Modification}
    (h : Modification.ofList? fields = some m) (pkt : Packet) :
    Behavior.modify m pkt = ⟨denote (.modify fields) pkt, ∅⟩ := by
  have hget : ∀ field, m.get? field = setting? fields field := by
    rw [Modification.ofList?, Option.ite_none_left_eq_some] at h
    obtain ⟨-, ⟨⟩⟩ := h
    exact SortedMap.get?_ofList fields
  rw [Behavior.modify, denote, Meaning.mk.injEq]
  refine ⟨?_, rfl⟩
  ext q
  simp only [Set.mem_singleton_iff, Set.mem_ofPred_eq, ← hget, ← Modification.get?_apply]
  exact ⟨fun h _ => h ▸ rfl, Packet.ext_get?⟩

theorem Elaborates.means_eval (h : e.Elaborates p) (s : Store) (pkt : Packet) :
    (s.eval p pkt).Means ⟨e.denote pkt, ∅⟩ := by
  have hleaf : ∀ {p : Policy} {pkt : Packet} {packets : Set Packet},
      s.denote p pkt = ⟨packets, ∅⟩ → (s.eval p pkt).Means ⟨packets, ∅⟩ :=
    fun {p pkt _} h => h ▸ s.means_term p pkt
  -- The packet varies because the second operand of `>>` sees what the first passes on. Operands
  -- that are filters are gates, and their meanings say when these are open.
  induction h generalizing pkt with
  | identity | drop | controller => exact hleaf rfl
  | test hm => exact hleaf (behavior_test hm pkt)
  | modify hm => exact hleaf (behavior_modify hm pkt)
  | forward port => exact hleaf rfl
  | exclusive port => exact hleaf (Policy.denote_exclusive (fun _ => .drop) port pkt)
  | link l => exact hleaf (Policy.denote_link (fun _ => .drop) l pkt)
  | @when c t p f hc _ ihc iht =>
    obtain ⟨passed, hf⟩ := hc.exists_eval_eq_gate s pkt
    have heval : s.eval (.ifElse f p .identity) pkt = _ :=
      Policy.effect_conditional_of_gate hf p .identity
    have hidentity : (s.eval .identity pkt).Means ⟨{pkt}, ∅⟩ := hleaf rfl
    rw [heval]
    exact (hf ▸ ihc pkt).branch (iht pkt) hidentity
  | @ite c t e p q f hc _ _ ihc iht ihe =>
    obtain ⟨passed, hf⟩ := hc.exists_eval_eq_gate s pkt
    have heval : s.eval (.ifElse f p q) pkt = _ := Policy.effect_conditional_of_gate hf p q
    rw [heval]
    exact (hf ▸ ihc pkt).branch (iht pkt) (ihe pkt)
  | @not _ f he ih =>
    obtain ⟨passed, hf⟩ := he.exists_eval_eq_gate s pkt
    have heval : s.eval f.not.policy pkt = _ := Filter.effect_not_of_gate hf
    rw [heval]
    exact (hf ▸ ih pkt).gate_not
  | @parallel _ _ p q _ _ ihl ihr =>
    have heval : s.eval (p.plus q) pkt = _ := Policy.effect_plus _ p q pkt
    rw [heval]
    exact (ihl pkt).union (ihr pkt)
  | @sequential _ _ p q _ _ ihl ihr =>
    have heval : s.eval (p.andThen q) pkt = _ := Policy.effect_andThen _ p q pkt
    rw [heval]
    exact (ihl pkt).andThen ihr
  | @difference _ _ f g hl hr ihl ihr =>
    obtain ⟨_, hf⟩ := hl.exists_eval_eq_gate s pkt
    obtain ⟨_, hg⟩ := hr.exists_eval_eq_gate s pkt
    have heval : s.eval (f.minus g).policy pkt = _ := Filter.effect_minus_of_gate hf hg
    rw [heval]
    exact (hf ▸ ihl pkt).gate_diff (hg ▸ ihr pkt)
  | @intersection _ _ f g hl hr ihl ihr =>
    obtain ⟨_, hf⟩ := hl.exists_eval_eq_gate s pkt
    obtain ⟨_, hg⟩ := hr.exists_eval_eq_gate s pkt
    have heval : s.eval (f.and g).policy pkt = _ := Filter.effect_and_of_gate hf hg
    rw [heval]
    exact (hf ▸ ihl pkt).gate_inter (hg ▸ ihr pkt)
  | @union _ _ f g _ _ ihl ihr =>
    have heval : s.eval (f.or g).policy pkt = _ := Filter.effect_or _ f g pkt
    rw [heval]
    exact (ihl pkt).union (ihr pkt)

/-- Building a policy checks types: it succeeds exactly for the well-typed expressions and gives
filters for those of their form. What it builds does what the expression says, in every state and
order. -/
theorem toPolicy_checks_types (e : Expr) :
    ((∃ p, e.toPolicy = .ok p) ↔ e.wellTyped = true) ∧
    ∀ p, e.toPolicy = .ok p → p.isFilter = e.isFilter ∧
      ∀ (c : Controller) (o : Schedule) (pkt : Packet),
        (c.outcome o p pkt).Means ⟨e.denote pkt, ∅⟩ := by
  simp only [toPolicy_eq_ok_iff]
  refine ⟨⟨?_, exists_elaborates⟩, ?_⟩
  · rintro ⟨p, hp⟩
    exact hp.wellTyped
  · intro p hp
    refine ⟨hp.isFilter_eq, fun c o pkt => ?_⟩
    rw [c.outcome_eq o]
    exact hp.means_eval c.store pkt

/-- Two matches that become one, in a conditional without a second branch. -/
theorem toPolicy_checks_types_fused :
    ∃ (e : Expr) (p : Policy) (pkt : Packet),
      e = .when (.binary .intersection (.test [("inport", .exactly (.int 1))])
        (.test [("switch", .exactly (.int 7))])) (.forward 2) ∧
      pkt = .ofList [("inport", .int 1), ("switch", .int 7)] ∧
      e.toPolicy = .ok p ∧ p.isFilter = false ∧
      ∀ (c : Controller) (o : Schedule),
        pkt.set "outport" (.int 2) ∈ (c.outcome o p pkt).outputs := by
  let e : Expr := .when (.binary .intersection (.test [("inport", .exactly (.int 1))])
    (.test [("switch", .exactly (.int 7))])) (.forward 2)
  let pkt : Packet := .ofList [("inport", .int 1), ("switch", .int 7)]
  obtain ⟨p, hp⟩ := (toPolicy_checks_types e).1.2 rfl
  obtain ⟨hfilter, hmeans⟩ := (toPolicy_checks_types e).2 p hp
  refine ⟨e, p, pkt, rfl, rfl, hp, hfilter, fun c o => ?_⟩
  have htest : ∀ (field : String) (v : Value), pkt.get? field = some v →
      pkt ∈ denote (.test [(field, .exactly v)]) pkt := by
    intro field v hv
    refine ⟨rfl, fun name pattern h => ?_⟩
    obtain ⟨rfl, rfl⟩ : name = field ∧ .exactly v = pattern := by simpa [setting?] using h
    exact ⟨v, hv, Pattern.accepts_exactly_iff.2 rfl⟩
  have hcondition : pkt.get? "inport" = some (.int 1) ∧ pkt.get? "switch" = some (.int 7) := by
    decide +kernel
  rw [(hmeans c o pkt).1]
  exact .inl ⟨⟨htest _ _ hcondition.1, htest _ _ hcondition.2⟩, rfl⟩

end Expr

end PacketPolicy

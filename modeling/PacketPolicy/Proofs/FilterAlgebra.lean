import PacketPolicy.Proofs.Operators

/-!
# Filters as a Boolean algebra

A filter is a test, and the operators on filters are the Boolean operations on what the
tests accept. It makes no difference that two matches become one, that lists become flat,
or that a difference is spelled out: the operators are known by their effects, and the
effect of a test is a gate that is open or shut.
-/

namespace PacketPolicy

theorem Outcome.gate_union (a b : Bool) (pkt : Packet) :
    (gate a pkt).union (gate b pkt) = gate (a || b) pkt := by
  cases a with
  | false => exact none_union _
  | true =>
    cases b with
    | false => exact union_none _
    | true => exact union_self _

namespace Filter

open Policy

section

variable (env : Handle → Term) (f : Filter) (fs : List Filter)

theorem effect_unionOf :
    effect env (unionOf fs).policy = effect env (.parallel (fs.map policy)) :=
  (joins_parallel env).collapse policy (fun fs => (unionOf fs).policy) rfl (fun _ => rfl)
    (fun _ _ _ => rfl) fs

theorem effect_intersectionOf :
    effect env (intersectionOf fs).policy = effect env (.sequential (fs.map policy)) :=
  (joins_sequential env).collapse policy (fun fs => (intersectionOf fs).policy) rfl (fun _ => rfl)
    (fun _ _ _ => rfl) fs

theorem effect_foldl_or :
    effect env (fs.foldl or f).policy = effect env (.parallel ((f :: fs).map policy)) :=
  (joins_parallel env).foldl policy or (fun f g => funext (effect_or env f g)) f fs

theorem effect_foldl_and :
    effect env (fs.foldl and f).policy = effect env (.sequential ((f :: fs).map policy)) :=
  (joins_sequential env).foldl policy and (fun f g => funext (effect_and env f g)) f fs

end

/-! ## Gates -/

variable {env : Handle → Term} {f g : Filter} {fs : List Filter} {pkt : Packet} {a b : Bool}

theorem effect_or_of_gate (hf : effect env f.policy pkt = .gate a pkt)
    (hg : effect env g.policy pkt = .gate b pkt) :
    effect env (f.or g).policy pkt = .gate (a || b) pkt := by
  rw [effect_or, hf, hg, Outcome.gate_union]

theorem effect_and_of_gate (hf : effect env f.policy pkt = .gate a pkt)
    (hg : effect env g.policy pkt = .gate b pkt) :
    effect env (f.and g).policy pkt = .gate (a && b) pkt := by
  rw [effect_and, hf, Outcome.gate_andThen, hg]
  cases a <;> rfl

theorem effect_minus_of_gate (hf : effect env f.policy pkt = .gate a pkt)
    (hg : effect env g.policy pkt = .gate b pkt) :
    effect env (f.minus g).policy pkt = .gate (a && !b) pkt := by
  rw [minus, effect_difference, hf, Outcome.gate_andThen, effect_negate_of_gate hg]
  cases a <;> rfl

theorem effect_not_of_gate (hf : effect env f.policy pkt = .gate a pkt) :
    effect env f.not.policy pkt = .gate (!a) pkt :=
  effect_negate_of_gate hf

variable {passed : Filter → Bool}

theorem effect_unionOf_of_gate (h : ∀ f ∈ fs, effect env f.policy pkt = .gate (passed f) pkt) :
    effect env (unionOf fs).policy pkt = .gate (fs.any passed) pkt := by
  rw [effect_unionOf]
  induction fs with
  | nil => rfl
  | cons f fs ih =>
    obtain ⟨hf, hfs⟩ := List.forall_mem_cons.1 h
    rw [List.map_cons, effect_parallel_cons, hf, ih hfs, Outcome.gate_union, List.any_cons]

theorem effect_intersectionOf_of_gate
    (h : ∀ f ∈ fs, effect env f.policy pkt = .gate (passed f) pkt) :
    effect env (intersectionOf fs).policy pkt = .gate (fs.all passed) pkt := by
  rw [effect_intersectionOf]
  induction fs with
  | nil => rfl
  | cons f fs ih =>
    obtain ⟨hf, hfs⟩ := List.forall_mem_cons.1 h
    rw [List.map_cons, effect_sequential_cons, hf, Outcome.gate_andThen, ih hfs, List.all_cons]
    cases passed f <;> rfl

end Filter

namespace Controller

/-- Filters are tests, and the operators on them are the Boolean operations on what the tests
accept, also for lists of filters. A conjunction runs like the one filter after the other. -/
theorem filters_form_boolean_algebra (c : Controller) (o : Schedule) :
    (∀ p : Policy, p.isFilter = true → c.store.HoldsFilters (c.store.parts p) → ∀ pkt,
      c.outcome o p pkt = .none ∨ c.outcome o p pkt = .pass pkt) ∧
    (∀ f g : Filter, c.store.HoldsFilters (c.store.parts f.policy) →
      c.store.HoldsFilters (c.store.parts g.policy) → ∀ pkt,
      (c.Accepts o (f.and g) pkt ↔ c.Accepts o f pkt ∧ c.Accepts o g pkt) ∧
      (c.Accepts o (f.or g) pkt ↔ c.Accepts o f pkt ∨ c.Accepts o g pkt) ∧
      (c.Accepts o (f.minus g) pkt ↔ c.Accepts o f pkt ∧ ¬ c.Accepts o g pkt) ∧
      (c.Accepts o f.not pkt ↔ ¬ c.Accepts o f pkt)) ∧
    (∀ fs : List Filter, (∀ f ∈ fs, c.store.HoldsFilters (c.store.parts f.policy)) → ∀ pkt,
      (c.Accepts o (.unionOf fs) pkt ↔ ∃ f ∈ fs, c.Accepts o f pkt) ∧
      (c.Accepts o (.intersectionOf fs) pkt ↔ ∀ f ∈ fs, c.Accepts o f pkt)) ∧
    (∀ fs, c.outcome o (Filter.unionOf fs).policy = c.outcome o (fs.foldl Filter.or .drop).policy ∧
      c.outcome o (Filter.intersectionOf fs).policy =
        c.outcome o (fs.foldl Filter.and .identity).policy) ∧
    (∀ f fs,
      c.outcome o (Filter.unionOf (f :: fs)).policy = c.outcome o (fs.foldl Filter.or f).policy ∧
      c.outcome o (Filter.intersectionOf (f :: fs)).policy =
        c.outcome o (fs.foldl Filter.and f).policy) ∧
    ∀ f g : Filter, c.outcome o (f.and g).policy = c.outcome o (f.policy.andThen g.policy) := by
  have hgate : ∀ f : Filter, c.store.HoldsFilters (c.store.parts f.policy) → ∀ pkt,
      c.store.eval f.policy pkt = .gate (decide (c.Accepts o f pkt)) pkt := by
    intro f hf pkt
    obtain ⟨passed, hpassed⟩ := Store.exists_eval_eq_gate f.isFilter hf pkt
    simp only [hpassed, c.accepts_iff o hpassed, Bool.decide_eq_true]
  have heffect : ∀ p, c.outcome o p = Policy.effect _ p := c.outcome_eq_effect o
  refine ⟨?_, ?_, ?_, ?_, ?_, ?_⟩
  · intro p hp hholds pkt
    obtain ⟨passed, hpassed⟩ := Store.exists_eval_eq_gate hp hholds pkt
    rw [outcome_eq, hpassed]
    cases passed with
    | false => exact .inl rfl
    | true => exact .inr rfl
  · intro f g hf hg pkt
    have hf := hgate f hf pkt
    have hg := hgate g hg pkt
    have hand : c.store.eval (f.and g).policy pkt = _ := Filter.effect_and_of_gate hf hg
    have hor : c.store.eval (f.or g).policy pkt = _ := Filter.effect_or_of_gate hf hg
    have hminus : c.store.eval (f.minus g).policy pkt = _ := Filter.effect_minus_of_gate hf hg
    have hnot : c.store.eval f.not.policy pkt = _ := Filter.effect_not_of_gate hf
    rw [c.accepts_iff o hand, c.accepts_iff o hor, c.accepts_iff o hminus, c.accepts_iff o hnot]
    simp
  · intro fs hfs pkt
    have hall := fun f hf => hgate f (hfs f hf) pkt
    have hunion : c.store.eval (Filter.unionOf fs).policy pkt = _ :=
      Filter.effect_unionOf_of_gate hall
    have hintersection : c.store.eval (Filter.intersectionOf fs).policy pkt = _ :=
      Filter.effect_intersectionOf_of_gate hall
    rw [c.accepts_iff o hunion, c.accepts_iff o hintersection]
    simp
  · intro fs
    rw [heffect, heffect, heffect, heffect, Filter.effect_unionOf, Filter.effect_intersectionOf,
      Filter.effect_foldl_or, Filter.effect_foldl_and]
    exact ⟨(Policy.effect_parallel_drop_cons _ _).symm,
      (Policy.effect_sequential_identity_cons _ _).symm⟩
  · intro f fs
    rw [heffect, heffect, heffect, heffect, Filter.effect_unionOf, Filter.effect_intersectionOf,
      Filter.effect_foldl_or, Filter.effect_foldl_and]
    exact ⟨rfl, rfl⟩
  · intro f g
    rw [heffect, heffect]
    funext pkt
    rw [Filter.effect_and, Policy.effect_andThen]

/-- A handle for filters that accepts the packet, and two matches that become one and do not. -/
theorem filters_form_boolean_algebra_fused :
    ∃ (c : Controller) (f g : Filter) (pkt : Packet),
      c.store = ⟨[⟨.test (.int "vlan" 1), true, none⟩]⟩ ∧ f.policy = .dynamic ⟨0, true⟩ ∧
      g = .and (.test (.int "inport" 1)) (.test (.int "vlan" 2)) ∧
      g = .test (.ofHead "inport" (.exactly (.int 1)) [("vlan", .exactly (.int 2))]) ∧
      pkt = .ofList [("inport", .int 1), ("vlan", .int 1)] ∧
      c.store.HoldsFilters (c.store.parts f.policy) ∧
      c.store.HoldsFilters (c.store.parts g.policy) ∧
      ∀ o, (c.outcome o f.policy pkt = .none ∨ c.outcome o f.policy pkt = .pass pkt) ∧
        c.Accepts o f pkt ∧ ¬ c.Accepts o g pkt ∧ ¬ c.Accepts o (f.and g) pkt ∧
        c.Accepts o (f.or g) pkt ∧ c.Accepts o (f.minus g) pkt ∧ c.Accepts o g.not pkt ∧
        c.Accepts o (.unionOf [g, f, g]) pkt ∧ ¬ c.Accepts o (.intersectionOf [f, g]) pkt := by
  let c : Controller := { store := ⟨[⟨.test (.int "vlan" 1), true, none⟩]⟩ }
  let f : Filter := .dynamic ⟨0, true⟩ rfl
  let g : Filter := .test (.ofHead "inport" (.exactly (.int 1)) [("vlan", .exactly (.int 2))])
  let pkt : Packet := .ofList [("inport", .int 1), ("vlan", .int 1)]
  have hf : c.store.HoldsFilters (c.store.parts f.policy) := by
    simp [c, f, Store.HoldsFilters, Store.parts, Store.reading, Store.unfold, Store.size,
      Store.definition, Store.get?, Filter.dynamic, Policy.parts, Policy.isFilter]
  have hg : c.store.HoldsFilters (c.store.parts g.policy) := by
    simp [c, g, Store.HoldsFilters, Store.parts, Store.reading, Filter.test, Policy.parts]
  refine ⟨c, f, g, pkt, rfl, rfl, by decide +kernel, rfl, rfl, hf, hg, fun o => ?_⟩
  obtain ⟨htest, hboolean, hlists, -⟩ := c.filters_form_boolean_algebra o
  have hpasses : c.Accepts o f pkt := by
    rw [Accepts, outcome_eq]
    decide +kernel
  have hrefused : ¬ c.Accepts o g pkt := by
    rw [Accepts, outcome_eq]
    decide +kernel
  obtain ⟨hand, hor, hminus, -⟩ := hboolean f g hf hg pkt
  obtain ⟨-, -, -, hnot⟩ := hboolean g g hg hg pkt
  obtain ⟨hunion, -⟩ := hlists [g, f, g] (by simp [hf, hg]) pkt
  obtain ⟨-, hintersection⟩ := hlists [f, g] (by simp [hf, hg]) pkt
  exact ⟨htest _ f.isFilter hf pkt, hpasses, hrefused, fun h => hrefused (hand.1 h).2,
    hor.2 (.inl hpasses), hminus.2 ⟨hpasses, hrefused⟩, hnot.2 hrefused,
    hunion.2 ⟨f, by simp, hpasses⟩, fun h => hrefused (hintersection.1 h g (by simp))⟩

end Controller

end PacketPolicy

import PacketPolicy.Policy.Basic

/-!
# Operators on policies and filters

The operators keep lists flat: a sum of sums is one sum. The Boolean operators
are defined on filters only, and give filters.
-/

namespace PacketPolicy

/-- Why a policy cannot be built. -/
inductive PolicyError where
  | emptyMatch
  | emptyModification
  | notAFilter (p : Policy)
  deriving DecidableEq

namespace Policy

/-- What a policy runs side by side. -/
def summands : Policy → List Policy
  | .parallel ps => ps
  | p => [p]

/-- What a policy runs one after the other. -/
def factors : Policy → List Policy
  | .sequential ps => ps
  | p => [p]

theorem eq_or_summands_eq (p : Policy) : p = .parallel p.summands ∨ p.summands = [p] := by
  cases p <;> simp [summands]

theorem eq_or_factors_eq (p : Policy) : p = .sequential p.factors ∨ p.factors = [p] := by
  cases p <;> simp [factors]

/-- Two policies side by side. -/
def plus (p q : Policy) : Policy := .parallel (p.summands ++ q.summands)

/-- One policy and then another. -/
def andThen (p q : Policy) : Policy := .sequential (p.factors ++ q.factors)

/-- Some policies side by side; none of them drop everything. -/
def parallelOf : List Policy → Policy
  | [] => .drop
  | [p] => p
  | ps => .parallel ps

/-- Some policies one after the other; none of them pass everything. -/
def sequentialOf : List Policy → Policy
  | [] => .identity
  | [p] => p
  | ps => .sequential ps

end Policy

/-- A policy that only passes packets on unchanged or drops them. -/
structure Filter where
  policy : Policy
  isFilter : policy.isFilter = true
  deriving DecidableEq

namespace Filter

def ofPolicy (p : Policy) : Except PolicyError Filter :=
  if h : p.isFilter = true then .ok ⟨p, h⟩ else .error (.notAFilter p)

def identity : Filter := ⟨.identity, rfl⟩

def drop : Filter := ⟨.drop, rfl⟩

def test (m : Match) : Filter := ⟨.test m, rfl⟩

def dynamic (h : Handle) (isFilter : h.isFilter = true) : Filter := ⟨.dynamic h, isFilter⟩

/-- What a filter runs side by side. -/
def disjuncts (f : Filter) : List Policy :=
  match f.policy with
  | .union ps => ps
  | p => [p]

/-- What a filter runs one after the other. -/
def conjuncts (f : Filter) : List Policy :=
  match f.policy with
  | .intersection ps => ps
  | p => [p]

theorem eq_or_disjuncts_eq (f : Filter) :
    f.policy = .union f.disjuncts ∨ f.disjuncts = [f.policy] := by
  unfold disjuncts
  split
  · next e => exact .inl e
  · exact .inr rfl

theorem eq_or_conjuncts_eq (f : Filter) :
    f.policy = .intersection f.conjuncts ∨ f.conjuncts = [f.policy] := by
  unfold conjuncts
  split
  · next e => exact .inl e
  · exact .inr rfl

theorem all_disjuncts (f : Filter) : f.disjuncts.all Policy.isFilter = true := by
  have h := f.isFilter
  rcases f.eq_or_disjuncts_eq with e | e
  · rwa [e, Policy.isFilter, Policy.areFilters_eq_all] at h
  · simpa [e] using h

theorem all_conjuncts (f : Filter) : f.conjuncts.all Policy.isFilter = true := by
  have h := f.isFilter
  rcases f.eq_or_conjuncts_eq with e | e
  · rwa [e, Policy.isFilter, Policy.areFilters_eq_all] at h
  · simpa [e] using h

/-- Either of two filters. -/
def or (f g : Filter) : Filter where
  policy := .union (f.disjuncts ++ g.disjuncts)
  isFilter := by
    rw [Policy.isFilter, Policy.areFilters_eq_all, List.all_append, f.all_disjuncts,
      g.all_disjuncts]
    rfl

/-- Both of two filters, as a list of filters. -/
def conjoin (f g : Filter) : Filter where
  policy := .intersection (f.conjuncts ++ g.conjuncts)
  isFilter := by
    rw [Policy.isFilter, Policy.areFilters_eq_all, List.all_append, f.all_conjuncts,
      g.all_conjuncts]
    rfl

/-- Both of two filters. Two matches become one, or `drop` if they contradict each other. -/
def and (f g : Filter) : Filter :=
  match f.policy, g.policy with
  | .test m, .test n => (m.meet? n).elim drop test
  | _, _ => conjoin f g

/-- The one filter without the other. -/
def minus (f g : Filter) : Filter :=
  ⟨.difference f.policy g.policy, by simp [Policy.isFilter, f.isFilter, g.isFilter]⟩

def not (f : Filter) : Filter := ⟨.negate f.policy, f.isFilter⟩

theorem areFilters_map (fs : List Filter) : Policy.areFilters (fs.map policy) = true := by
  rw [Policy.areFilters_eq_all, List.all_map, List.all_eq_true]
  exact fun f _ => f.isFilter

/-- Any of some filters; of none, `drop`. -/
def unionOf : List Filter → Filter
  | [] => drop
  | [f] => f
  | fs => ⟨.union (fs.map policy), areFilters_map fs⟩

/-- All of some filters; of none, `identity`. -/
def intersectionOf : List Filter → Filter
  | [] => identity
  | [f] => f
  | fs => ⟨.intersection (fs.map policy), areFilters_map fs⟩

end Filter

namespace Policy

/-- One policy on what a filter passes, another on the rest. -/
def ifElse (f : Filter) (p q : Policy) : Policy := .conditional f.policy p q

end Policy

end PacketPolicy

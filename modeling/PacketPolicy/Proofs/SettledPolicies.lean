import PacketPolicy.Policy.Filter
import PacketPolicy.Proofs.Filters

/-!
# Settled policies

A policy is settled if nothing in it is left to a handle and only filters are negated. So
its meaning does not depend on a store, and it has a table in every store. The operators
build settled policies from settled ones.
-/

namespace PacketPolicy

namespace Policy

/-- The policy is no handle, and no negation of other than a filter. -/
def SettledNode : Policy → Prop
  | .negate p => p.isFilter = true
  | .dynamic _ => False
  | _ => True

/-- Only filters are negated in the policy, and nothing is left to a handle. -/
def Settled (p : Policy) : Prop := p.PartsAll SettledNode

namespace Settled

variable {p q : Policy} {ps : List Policy} {f g : Filter}

theorem of_operands (ps : List Policy) (hp : ∀ env, parts env p = p :: partsOfAll env ps)
    (hnode : SettledNode p) (h : ∀ q ∈ ps, Settled q) : Settled p :=
  (partsAll_iff hp).2 ⟨hnode, h⟩

theorem drop : Settled .drop := of_operands [] (fun _ => rfl) trivial (by simp)

theorem test (m : Match) : Settled (.test m) := of_operands [] (fun _ => rfl) trivial (by simp)

theorem modify (m : Modification) : Settled (.modify m) :=
  of_operands [] (fun _ => rfl) trivial (by simp)

theorem parallel (h : ∀ p ∈ ps, Settled p) : Settled (.parallel ps) :=
  of_operands ps (fun _ => rfl) trivial h

theorem sequential (h : ∀ p ∈ ps, Settled p) : Settled (.sequential ps) :=
  of_operands ps (fun _ => rfl) trivial h

theorem intersection (h : ∀ p ∈ ps, Settled p) : Settled (.intersection ps) :=
  of_operands ps (fun _ => rfl) trivial h

theorem negate (hfilter : p.isFilter = true) (h : Settled p) : Settled (.negate p) :=
  of_operands [p] (fun env => by simp [parts, partsOfAll]) hfilter (by simpa using h)

/-- A defined form is settled if what it stands for is. -/
theorem defined (hexp : p.expansion? = some q) (h : Settled q) : Settled p := by
  refine of_operands [q] (fun env => ?_) ?_ (by simpa using h)
  · rw [parts_of_expansion? env hexp]
    simp [partsOfAll]
  · cases p <;> cases hexp <;> trivial

theorem forward (port : Int64) : Settled (.forward port) := defined rfl (modify _)

theorem exclusive (port : Int64) : Settled (.exclusive port) := by
  have hnot : Settled (.negate (.test (.int "inport" port))) := negate rfl (test _)
  exact defined rfl (sequential (by simp [hnot, forward]))

theorem link (l : Link) : Settled (.link l) := defined rfl (sequential (by simp [test, modify]))

theorem plus (hp : Settled p) (hq : Settled q) : Settled (p.plus q) :=
  .append (fun _ _ => rfl) trivial p.eq_or_summands_eq q.eq_or_summands_eq hp hq

theorem andThen (hp : Settled p) (hq : Settled q) : Settled (p.andThen q) :=
  .append (fun _ _ => rfl) trivial p.eq_or_factors_eq q.eq_or_factors_eq hp hq

theorem or (hf : Settled f.policy) (hg : Settled g.policy) : Settled (f.or g).policy :=
  .append (fun _ _ => rfl) trivial f.eq_or_disjuncts_eq g.eq_or_disjuncts_eq hf hg

theorem and (hf : Settled f.policy) (hg : Settled g.policy) : Settled (f.and g).policy := by
  unfold Filter.and
  split
  · next m n _ _ =>
    cases m.meet? n with
    | none => exact drop
    | some k => exact test k
  · exact .append (fun _ _ => rfl) trivial f.eq_or_conjuncts_eq g.eq_or_conjuncts_eq hf hg

theorem ifElse (hf : Settled f.policy) (hp : Settled p) (hq : Settled q) :
    Settled (.ifElse f p q) := by
  have hthen : Settled (.sequential [f.policy, p]) := sequential (by simp [hf, hp])
  have helse : Settled (.sequential [.negate f.policy, q]) :=
    sequential (by simp [negate f.isFilter hf, hq])
  exact defined rfl (parallel (by simp [hthen, helse]))

theorem parallelOf (h : ∀ p ∈ ps, Settled p) : Settled (.parallelOf ps) :=
  PartsAll.parallelOf trivial trivial h

theorem unionOf {fs : List Filter} (h : ∀ f ∈ fs, Settled f.policy) :
    Settled (Filter.unionOf fs).policy := by
  match fs with
  | [] => exact drop
  | [f] => exact h f (by simp)
  | f :: g :: fs => exact of_operands _ (fun _ => rfl) trivial (List.forall_mem_map.2 h)

theorem negatesFilters (h : Settled p) (s : Store) : s.NegatesFilters (s.parts p) :=
  ⟨fun _ hq => h _ _ hq, fun _ hh => (h _ _ hh).elim⟩

/-- A settled policy has a table in every store. -/
theorem exists_compiles (h : Settled p) (s : Store) (c : CompileSettings) :
    ∃ a, Term.Compiles c (s.term p) a :=
  (s.carried_typed.term (h.negatesFilters s)).1.compiles c

end Settled

end Policy

end PacketPolicy

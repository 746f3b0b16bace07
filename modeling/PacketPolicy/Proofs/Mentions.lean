import PacketPolicy.Proofs.PolicyParts

/-!
# What a policy mentions

The parts that stand in a policy itself, before any handle is followed. What a policy
reads as, its term, its written form or the list of its parts, depends on the readings
of the handles among them and of no others. Whether it is a filter can be told from
these parts alone.
-/

namespace PacketPolicy

namespace Policy

/-- The policies that a policy is directly made of. -/
def operands : Policy → List Policy
  | .negate p => [p]
  | .parallel ps | .union ps | .sequential ps | .intersection ps => ps
  | .difference p q => [p, q]
  | .conditional c p q => [c, p, q]
  | _ => []

theorem sizeOf_lt_of_mem_operands {p q : Policy} (h : q ∈ p.operands) : sizeOf q < sizeOf p := by
  cases p <;> simp only [operands, List.mem_cons, List.not_mem_nil, or_false] at h
  case parallel | union | sequential | intersection =>
    have hlist := List.sizeOf_lt_of_mem h
    simp only [parallel.sizeOf_spec, union.sizeOf_spec, sequential.sizeOf_spec,
      intersection.sizeOf_spec]
    omega
  case negate => simp [h]
  case difference => rcases h with rfl | rfl <;> simp +arith
  case conditional => rcases h with rfl | rfl | rfl <;> simp +arith

/-- What holds of a policy if it holds of its operands holds of all policies. -/
@[elab_as_elim] theorem inductionOn {motive : Policy → Prop} (p : Policy)
    (step : ∀ p, (∀ q ∈ p.operands, motive q) → motive p) : motive p :=
  step p fun q hq =>
    have := sizeOf_lt_of_mem_operands hq
    inductionOn q step
termination_by sizeOf p

/-- The parts that stand in the policy itself. -/
def ownParts (p : Policy) : List Policy := p.parts fun _ => []

/-- The handle stands in the policy itself. -/
def Mentions (p : Policy) (h : Handle) : Prop := .dynamic h ∈ p.ownParts

theorem mentions_iff {p : Policy} {h : Handle} :
    p.Mentions h ↔ p = .dynamic h ∨ ∃ q ∈ p.operands, q.Mentions h := by
  cases p <;> simp [Mentions, ownParts, parts, operands, mem_partsOfAll]
  all_goals grind

theorem mentions_dynamic {h k : Handle} : (dynamic h).Mentions k ↔ k = h := by
  simp [Mentions, ownParts, parts]

/-- Following handles adds the parts of what the mentioned ones refer to. -/
theorem mem_parts {env : Handle → List Policy} {p q : Policy} :
    q ∈ parts env p ↔ q ∈ p.ownParts ∨ ∃ h, p.Mentions h ∧ q ∈ env h := by
  induction p using inductionOn with
  | step p ih =>
    have hmentions : ∀ h, p.Mentions h ↔ _ := fun _ => mentions_iff
    simp only [hmentions]
    cases p <;>
      simp only [parts, ownParts, operands, mem_partsOfAll, List.mem_append, List.mem_cons] at ih ⊢
    all_goals grind

/-- The part changes no packet and sends none away, where `kind` tells the handles for filters. -/
def isHarmless (kind : Handle → Bool) : Policy → Bool
  | .modify _ | .controller | .query _ => false
  | .dynamic h => kind h
  | _ => true

/-- A policy is a filter exactly if all parts that stand in it are harmless. -/
theorem isFilter_iff_ownParts {p : Policy} :
    p.isFilter = true ↔ ∀ q ∈ p.ownParts, isHarmless Handle.isFilter q = true := by
  induction p using inductionOn with
  | step p ih =>
    cases p
    case negate | parallel | union | sequential | intersection | difference | conditional =>
      simp only [isFilter, areFilters_eq_all, List.all_eq_true, Bool.and_eq_true, operands,
        ownParts, parts, mem_partsOfAll, List.mem_append, List.mem_cons] at ih ⊢
      grind [isHarmless]
    all_goals simp [isFilter, ownParts, parts, isHarmless]

/-! ## Readings -/

/-- The reading of a policy depends on the readings of those handles only that it mentions. -/
def Local {α : Type} (read : (Handle → α) → Policy → α) : Prop :=
  ∀ {env env' : Handle → α} (p : Policy), (∀ h, p.Mentions h → env h = env' h) →
    read env p = read env' p

/-- A reading is local if it depends on the readings of the operands, and of a handle on its own. -/
theorem local_of_operands {α : Type} {read : (Handle → α) → Policy → α}
    (h : ∀ {env env' : Handle → α} (p : Policy), (∀ k, p = .dynamic k → env k = env' k) →
      (∀ q ∈ p.operands, read env q = read env' q) → read env p = read env' p) : Local read := by
  intro env env' p
  induction p using inductionOn with
  | step p ih =>
    intro hp
    refine h p (fun k hk => hp k (mentions_iff.2 (.inl hk))) fun q hq => ?_
    exact ih q hq fun k hk => hp k (mentions_iff.2 (.inr ⟨q, hq, hk⟩))

theorem local_toTerm : Local toTerm := by
  apply local_of_operands
  intro env env' p hself hoperands
  cases p <;> simp_all [toTerm, toTerms_eq_map, operands]

theorem local_render : Local render := by
  apply local_of_operands
  intro env env' p hself hoperands
  have hwritten : p.operands.map (fun q => q.asOperand (render env q)) =
      p.operands.map fun q => q.asOperand (render env' q) :=
    List.map_congr_left fun q hq => congrArg q.asOperand (hoperands q hq)
  cases p
  case parallel | union | sequential | intersection =>
    rw [render, render, renderOperands_eq_map, renderOperands_eq_map]
    exact congrArg (joined _ _) hwritten
  all_goals simp_all [render, operands]

theorem local_parts : Local parts := by
  apply local_of_operands
  intro env env' p hself hoperands
  have hall : partsOfAll env p.operands = partsOfAll env' p.operands := by
    rw [partsOfAll_eq_flatMap, partsOfAll_eq_flatMap]
    exact List.flatMap_congr hoperands
  cases p
  case parallel | union | sequential | intersection => exact congrArg (List.cons _) hall
  all_goals simp_all [parts, operands]

end Policy
end PacketPolicy

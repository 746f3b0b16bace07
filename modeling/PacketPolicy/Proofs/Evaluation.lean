import PacketPolicy.Term
import Mathlib.Tactic

/-!
# Evaluation as relations

Which packets a term passes on, and which packets arrive where inside it. `Arrives`
follows a packet to a part of the term, and the arrivals that evaluation collects are
those at queries.
-/

namespace PacketPolicy

namespace SortedSet

theorem isEmpty_iff {κ : Type} [Ord κ] [Std.TransOrd κ] [Std.LawfulEqOrd κ] {s : SortedSet κ} :
    s.isEmpty = true ↔ s = empty := by
  rw [isEmpty, List.isEmpty_iff, ← toList_inj]
  rfl

end SortedSet

namespace Outcome

@[simp] theorem mem_outputs_union {a b : Outcome} {q : Packet} :
    q ∈ (a.union b).outputs ↔ q ∈ a.outputs ∨ q ∈ b.outputs := SortedSet.mem_union

@[simp] theorem mem_arrivals_union {a b : Outcome} {x : Arrival} :
    x ∈ (a.union b).arrivals ↔ x ∈ a.arrivals ∨ x ∈ b.arrivals := SortedSet.mem_union

/-- What holds of a union if it holds of one side holds of many outcomes together if it holds of one
of them. -/
theorem foldl_union_iff {P : Outcome → Prop} (hP : ∀ {a b : Outcome}, P (a.union b) ↔ P a ∨ P b)
    {f : Packet → Outcome} {l : List Packet} {o : Outcome} :
    P (l.foldl (fun acc p => acc.union (f p)) o) ↔ P o ∨ ∃ p ∈ l, P (f p) := by
  induction l generalizing o with
  | nil => simp
  | cons p l ih => simp [ih, hP, or_assoc]

@[simp] theorem mem_outputs_onAll {s : PacketSet} {f : Packet → Outcome} {q : Packet} :
    q ∈ (onAll s f).outputs ↔ ∃ p ∈ s, q ∈ (f p).outputs := by
  rw [onAll, foldl_union_iff (P := (q ∈ outputs ·)) mem_outputs_union]
  simp [none]

@[simp] theorem mem_arrivals_onAll {s : PacketSet} {f : Packet → Outcome} {a : Arrival} :
    a ∈ (onAll s f).arrivals ↔ ∃ p ∈ s, a ∈ (f p).arrivals := by
  rw [onAll, foldl_union_iff (P := (a ∈ arrivals ·)) mem_arrivals_union]
  simp [none]

@[simp] theorem onAll_empty (f : Packet → Outcome) : onAll .empty f = none := rfl

end Outcome

namespace Term

/-! ## Lists of terms -/

@[simp] theorem evalAlong_empty (ts : List Term) : evalAlong ts .empty = .none := by
  cases ts <;> rfl

/-- Leaving out the rest once nothing is passed on makes no difference. -/
theorem evalAlong_cons (t : Term) (ts : List Term) (s : PacketSet) :
    evalAlong (t :: ts) s =
      ⟨(evalAlong ts (Outcome.onAll s (eval t)).outputs).outputs,
        (Outcome.onAll s (eval t)).arrivals.union
          (evalAlong ts (Outcome.onAll s (eval t)).outputs).arrivals⟩ := by
  rw [evalAlong]
  split
  · next hempty =>
    have hnone := SortedSet.isEmpty_iff.1 hempty
    rw [hnone, evalAlong_empty]
    exact Outcome.ext hnone rfl
  · rfl

theorem mem_outputs_evalAlong_snoc {ts : List Term} {t : Term} {s : PacketSet} {q : Packet} :
    q ∈ (evalAlong (ts ++ [t]) s).outputs ↔
      ∃ r ∈ (evalAlong ts s).outputs, q ∈ (eval t r).outputs := by
  induction ts generalizing s with
  | nil => simp [evalAlong_cons, evalAlong]
  | cons u ts ih => simp [evalAlong_cons, ih]

theorem mem_outputs_evalBeside {ts : List Term} {p q : Packet} :
    q ∈ (evalBeside ts p).outputs ↔ ∃ t ∈ ts, q ∈ (eval t p).outputs := by
  induction ts with
  | nil => simp [evalBeside, Outcome.none]
  | cons t ts ih => simp [evalBeside, ih]

/-! ## What a term passes on -/

theorem mem_outputs_negate {t : Term} {p q : Packet} :
    q ∈ (eval (.negate t) p).outputs ↔ q = p ∧ ∀ r, r ∉ (eval t p).outputs := by
  simp only [eval]
  split
  · next hempty => simp [SortedSet.isEmpty_iff.1 hempty]
  · next hne =>
    refine iff_of_false (SortedSet.not_mem_empty q) fun h => hne ?_
    exact SortedSet.isEmpty_iff.2 (SortedSet.ext_mem (by simpa using h.2))

theorem mem_outputs_parallel {ts : List Term} {p q : Packet} :
    q ∈ (eval (.parallel ts) p).outputs ↔ ∃ t ∈ ts, q ∈ (eval t p).outputs :=
  mem_outputs_evalBeside

theorem mem_outputs_sequential_nil {p q : Packet} :
    q ∈ (eval (.sequential []) p).outputs ↔ q = p :=
  SortedSet.mem_singleton

theorem mem_outputs_sequential_snoc {ts : List Term} {t : Term} {p q : Packet} :
    q ∈ (eval (.sequential (ts ++ [t])) p).outputs ↔
      ∃ r ∈ (eval (.sequential ts) p).outputs, q ∈ (eval t r).outputs :=
  mem_outputs_evalAlong_snoc

theorem mem_outputs_sequential_one {t : Term} {p q : Packet} :
    q ∈ (eval (.sequential [t]) p).outputs ↔ q ∈ (eval t p).outputs := by
  have h : q ∈ (eval (.sequential ([] ++ [t])) p).outputs ↔ _ := mem_outputs_sequential_snoc
  simpa [mem_outputs_sequential_nil] using h

/-! ## Where packets arrive -/

/-- When the term is evaluated on the first packet, the second arrives at the part `x` of it. -/
inductive Arrives (x : Term) : Term → Packet → Packet → Prop
  | here (p : Packet) : Arrives x x p p
  | negate {t p q} : Arrives x t p q → Arrives x (.negate t) p q
  | parallel {ts t p q} : t ∈ ts → Arrives x t p q → Arrives x (.parallel ts) p q
  | sequential {before t after p r q} : r ∈ (eval (.sequential before) p).outputs →
      Arrives x t r q → Arrives x (.sequential (before ++ t :: after)) p q

/-- The term that is one action. -/
def ofAction : Action → Term
  | .identity => .identity
  | .drop => .drop
  | .modify m => .modify m
  | .controller => .controller
  | .query s => .query s

theorem mem_outputs_ofAction {x : Action} {p q : Packet} :
    q ∈ (eval (ofAction x) p).outputs ↔ x.output? p = some q := by
  cases x <;>
    simp [ofAction, eval, Outcome.pass, Outcome.none, Outcome.arrive, Action.output?, eq_comm]

theorem mem_outputs_test {m : Match} {p q : Packet} :
    q ∈ (eval (.test m) p).outputs ↔ m.accepts p = true ∧ q = p := by
  rw [eval]
  split_ifs with h <;> simp [h, Outcome.pass, Outcome.none]

section Arrives

variable {x : Action} {t : Term} {ts : List Term} {p q : Packet}

theorem ofAction_injective : Function.Injective ofAction := by
  intro x y h
  cases x <;> cases y <;> simp_all [ofAction]

theorem arrives_ofAction_iff {y : Action} :
    Arrives (ofAction x) (ofAction y) p q ↔ x = y ∧ q = p := by
  constructor
  · intro h
    generalize hy : ofAction y = t at h
    cases h with
    | here => exact ⟨(ofAction_injective hy).symm, rfl⟩
    | negate => cases y <;> cases hy
    | parallel => cases y <;> cases hy
    | sequential => cases y <;> cases hy
  · rintro ⟨rfl, rfl⟩
    exact .here _

theorem arrives_negate_iff :
    Arrives (ofAction x) (.negate t) p q ↔ Arrives (ofAction x) t p q := by
  constructor
  · intro h
    generalize hx : ofAction x = y at h ⊢
    cases h with
    | here => cases x <;> cases hx
    | negate h => exact h
  · exact .negate

theorem arrives_parallel_iff :
    Arrives (ofAction x) (.parallel ts) p q ↔ ∃ t ∈ ts, Arrives (ofAction x) t p q := by
  constructor
  · intro h
    generalize hx : ofAction x = y at h ⊢
    cases h with
    | here => cases x <;> cases hx
    | parallel ht h => exact ⟨_, ht, h⟩
  · rintro ⟨t, ht, h⟩
    exact .parallel ht h

theorem arrives_sequential_iff :
    Arrives (ofAction x) (.sequential ts) p q ↔ ∃ before t after, ts = before ++ t :: after ∧
      ∃ r ∈ (eval (.sequential before) p).outputs, Arrives (ofAction x) t r q := by
  constructor
  · intro h
    generalize hx : ofAction x = y at h ⊢
    cases h with
    | here => cases x <;> cases hx
    | sequential hr h => exact ⟨_, _, _, rfl, _, hr, h⟩
  · rintro ⟨before, t, after, rfl, r, hr, h⟩
    exact .sequential hr h

theorem arrives_parallel_snoc : Arrives (ofAction x) (.parallel (ts ++ [t])) p q ↔
    Arrives (ofAction x) (.parallel ts) p q ∨ Arrives (ofAction x) t p q := by
  simp only [arrives_parallel_iff, List.mem_append, List.mem_singleton, or_and_right, exists_or,
    exists_eq_left]

theorem arrives_sequential_snoc : Arrives (ofAction x) (.sequential (ts ++ [t])) p q ↔
    Arrives (ofAction x) (.sequential ts) p q ∨
      ∃ r ∈ (eval (.sequential ts) p).outputs, Arrives (ofAction x) t r q := by
  simp only [arrives_sequential_iff]
  constructor
  · rintro ⟨before, u, after, hts, h⟩
    -- the part is the last one or comes before it
    cases after using List.reverseRecOn with
    | nil =>
      obtain ⟨rfl, hu⟩ := List.append_inj' hts rfl
      obtain rfl := List.singleton_inj.1 hu
      exact .inr h
    | append_singleton after v _ =>
      rw [← List.cons_append, ← List.append_assoc] at hts
      obtain ⟨hts, -⟩ := List.append_inj' hts rfl
      exact .inl ⟨before, u, after, hts, h⟩
  · rintro (⟨before, u, after, rfl, h⟩ | h)
    · exact ⟨before, u, after ++ [t], by simp, h⟩
    · exact ⟨ts, t, [], rfl, h⟩

theorem arrives_sequential_one :
    Arrives (ofAction x) (.sequential [t]) p q ↔ Arrives (ofAction x) t p q := by
  have h : Arrives (ofAction x) (.sequential ([] ++ [t])) p q ↔ _ := arrives_sequential_snoc
  have hnil : ¬ Arrives (ofAction x) (.sequential []) p q := by simp [arrives_sequential_iff]
  simpa [hnil, mem_outputs_sequential_nil] using h

end Arrives

mutual

/-- Evaluation collects what arrives at queries. -/
theorem mem_arrivals_iff {b : Sink} {q : Packet} : (t : Term) → (p : Packet) →
    (⟨b, q⟩ ∈ (eval t p).arrivals ↔ Arrives (.query b) t p q)
  | .identity, p | .drop, p | .modify _, p | .controller, p => by
    refine iff_of_false (SortedSet.not_mem_empty _) ?_
    rintro ⟨⟩
  | .test m, p => by
    refine iff_of_false ?_ (by rintro ⟨⟩)
    rw [eval]
    split_ifs <;> exact SortedSet.not_mem_empty _
  | .query s, p => by
    rw [eval, Outcome.arrive, SortedSet.mem_singleton]
    constructor
    · rintro ⟨⟩
      exact .here _
    · rintro ⟨⟩
      rfl
  | .negate t, p => by
    exact (mem_arrivals_iff t p).trans (arrives_negate_iff (x := .query b)).symm
  | .parallel ts, p => by
    exact (mem_arrivals_evalBeside ts p).trans (arrives_parallel_iff (x := .query b)).symm
  | .sequential ts, p => by
    exact (mem_arrivals_evalAlong ts (.singleton p)).trans
      (arrives_sequential_iff (x := .query b)).symm

theorem mem_arrivals_evalBeside {b : Sink} {q : Packet} : (ts : List Term) → (p : Packet) →
    (⟨b, q⟩ ∈ (evalBeside ts p).arrivals ↔ ∃ t ∈ ts, Arrives (.query b) t p q)
  | [], p => by simp [evalBeside, Outcome.none]
  | t :: ts, p => by
    simp [evalBeside, mem_arrivals_iff t p, mem_arrivals_evalBeside ts p]

theorem mem_arrivals_evalAlong {b : Sink} {q : Packet} : (ts : List Term) → (s : PacketSet) →
    (⟨b, q⟩ ∈ (evalAlong ts s).arrivals ↔ ∃ before t after, ts = before ++ t :: after ∧
      ∃ r ∈ (evalAlong before s).outputs, Arrives (.query b) t r q)
  | [], s => by simp [evalAlong]
  | t :: ts, s => by
    have hafter := mem_arrivals_evalAlong ts (Outcome.onAll s (eval t)).outputs (b := b) (q := q)
    rw [evalAlong_cons, SortedSet.mem_union, Outcome.mem_arrivals_onAll, hafter]
    constructor
    · rintro (⟨r, hr, h⟩ | ⟨before, u, after, rfl, r, hr, h⟩)
      · exact ⟨[], t, ts, rfl, r, hr, (mem_arrivals_iff t r).1 h⟩
      · exact ⟨t :: before, u, after, rfl, r, by rwa [evalAlong_cons], h⟩
    · rintro ⟨before, u, after, hts, r, hr, h⟩
      cases before with
      | nil =>
        obtain ⟨rfl, rfl⟩ := List.cons.inj hts
        exact .inl ⟨r, hr, (mem_arrivals_iff t r).2 h⟩
      | cons v before =>
        obtain ⟨rfl, rfl⟩ := List.cons.inj hts
        exact .inr ⟨before, u, after, rfl, r, by rwa [evalAlong_cons] at hr, h⟩

end

end Term

end PacketPolicy

import PacketPolicy.Proofs.Lookups
import PacketPolicy.Proofs.Shadowing

/-!
# Which rules remain

Pruning compares a rule with the rules kept so far. A rule that was not kept is covered by
one that was, so this is the same as comparing with all rules that stand before it, and
what remains are the rules that no rule before them covers.
-/

namespace PacketPolicy

namespace Table

/-- Looking at the kept rules is as good as looking at all. -/
theorem covered_aboveAfter_iff {l : List Rule} {p : Predicate} :
    Covered (aboveAfter [] l) p ↔ Covered (l.map Rule.predicate) p := by
  constructor
  · intro h
    apply h.mono
    rw [aboveAfter, List.append_nil]
    exact ((unshadowed_sublist [] l).map Rule.predicate).subset
  · rintro ⟨q, hq, hcovers⟩
    obtain ⟨r, hr, rfl⟩ := List.mem_map.1 hq
    exact (covered_of_mem hr []).of_covers hcovers

/-- Some rule of the list covers the rule. -/
def isShadowedBy (l : List Rule) (r : Rule) : Bool := l.any fun s => s.predicate.covers r.predicate

theorem isShadowedBy_iff {l : List Rule} {r : Rule} :
    isShadowedBy l r = true ↔ Covered (l.map Rule.predicate) r.predicate := by
  simp [isShadowedBy, Covered]

theorem unshadowed_concat (l : List Rule) (r : Rule) :
    unshadowed [] (l ++ [r]) = unshadowed [] l ++ if isShadowedBy l r then [] else [r] := by
  rw [unshadowed_append]
  congr 1
  by_cases h : isShadowedBy l r = true
  · rw [if_pos h, unshadowed_cons_of_covered (covered_aboveAfter_iff.2 (isShadowedBy_iff.1 h))]
    rfl
  · rw [if_neg h, unshadowed_cons_of_not_covered fun hc =>
      h (isShadowedBy_iff.2 (covered_aboveAfter_iff.1 hc))]
    rfl

theorem unshadowed_eq_filter (l : List Rule) : unshadowed [] l =
    (l.zipIdx.filter fun x => !isShadowedBy (l.take x.2) x.1).map Prod.fst := by
  induction l using List.reverseRecOn with
  | nil => rfl
  | append_singleton l r ih =>
    have hinit : (l.zipIdx.filter fun x => !isShadowedBy ((l ++ [r]).take x.2) x.1) =
        l.zipIdx.filter fun x => !isShadowedBy (l.take x.2) x.1 := by
      apply List.filter_congr
      rintro ⟨s, i⟩ hs
      have hi : i ≤ l.length := by
        have := (List.mem_zipIdx hs).2.1
        omega
      rw [List.take_append_of_le_length hi]
    rw [unshadowed_concat, ih, List.zipIdx_append, List.filter_append, List.map_append, hinit]
    congr 1
    cases h : isShadowedBy l r <;> simp [h]

theorem map_find?_prune (t : Table) (pkt : Packet) :
    (t.prune.find? pkt).map Prod.snd = (t.find? pkt).map Prod.snd := by
  have hafter : _ = (t.prune.find? pkt).map Prod.snd := findSome?_eq_map_find? id t.prune pkt
  have hbefore : _ = (t.find? pkt).map Prod.snd := findSome?_eq_map_find? id t pkt
  rw [← hafter, ← hbefore]
  have hread : ∀ r : Rule, (if r.predicate.accepts pkt then some (id r) else none) = none ↔
      r.predicate.accepts pkt = false := by
    intro r
    split_ifs with h <;> simp [h]
  exact findSome?_unshadowed hread (by simp) t.rules

/-- Of any table exactly the rules remain that no rule before them covers, kept or not. For every
packet the same rule decides before and after, or none does. Nothing more is removed the second
time. -/
theorem prune_exact (t : Table) :
    t.prune.rules = (t.rules.zipIdx.filter fun x =>
      !(t.rules.take x.2).any fun s => s.predicate.covers x.1.predicate).map Prod.fst ∧
    (∀ pkt, (∃ i j r, t.find? pkt = some (i, r) ∧ t.prune.find? pkt = some (j, r)) ∨
      t.lookup pkt = .error ⟨pkt⟩ ∧ t.prune.lookup pkt = .error ⟨pkt⟩) ∧
    t.prune.prune = t.prune := by
  refine ⟨unshadowed_eq_filter t.rules, ?_, t.prune_prune⟩
  intro pkt
  have hsame := t.map_find?_prune pkt
  cases hfind : t.find? pkt with
  | none =>
    rw [hfind, Option.map_none, Option.map_eq_none_iff] at hsame
    exact .inr ⟨by rw [lookup, hfind], by rw [lookup, hsame]⟩
  | some found =>
    rw [hfind, Option.map_some, Option.map_eq_some_iff] at hsame
    obtain ⟨⟨j, r⟩, hprune, rfl⟩ := hsame
    exact .inl ⟨found.1, j, found.2, rfl, hprune⟩

end Table

end PacketPolicy

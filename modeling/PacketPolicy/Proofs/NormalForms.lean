import PacketPolicy.Proofs.RoundTrip

/-!
# Normal forms

A policy is in normal form if there is nothing in it that reading its written form would
change. Such a policy is read as itself.
-/

namespace PacketPolicy

theorem Match.canonical_eq {m : Match} (hm : ∀ f ∈ m.fields.entries, f.2.IsCanonical) :
    m.canonical = m := by
  apply Match.ext
  apply SortedMap.entries_inj.1
  calc m.canonical.fields.entries
      = m.fields.entries.map fun f => (f.1, f.2.canonical) := rfl
    _ = m.fields.entries.map id := List.map_congr_left fun f hf =>
        Prod.ext rfl (hm f hf).canonical_eq
    _ = m.fields.entries := List.map_id _

namespace Policy

/-- Reading changes nothing in the written form of the policy: patterns are canonical, lists have
two operands or more, none of which is a list of the same kind, and no intersection begins with two
matches. -/
inductive Normal : Policy → Prop
  | identity : Normal .identity
  | drop : Normal .drop
  | test {m : Match} : (∀ f ∈ m.fields.entries, f.2.IsCanonical) → Normal (.test m)
  | modify (m) : Normal (.modify m)
  | controller : Normal .controller
  | negate {p} : Normal p → Normal (.negate p)
  | parallel {ps} : 1 < ps.length → (∀ p ∈ ps, ∀ qs, p ≠ .parallel qs) → (∀ p ∈ ps, Normal p) →
      Normal (.parallel ps)
  | union {ps} : 1 < ps.length → (∀ p ∈ ps, ∀ qs, p ≠ .union qs) → (∀ p ∈ ps, Normal p) →
      Normal (.union ps)
  | sequential {ps} : 1 < ps.length → (∀ p ∈ ps, ∀ qs, p ≠ .sequential qs) → (∀ p ∈ ps, Normal p) →
      Normal (.sequential ps)
  | intersection {ps} : 1 < ps.length → (∀ p ∈ ps, ∀ qs, p ≠ .intersection qs) →
      (∀ m n rest, ps ≠ .test m :: .test n :: rest) → (∀ p ∈ ps, Normal p) →
      Normal (.intersection ps)
  | difference {p q} : Normal p → Normal q → Normal (.difference p q)
  | conditional {c p q} : Normal c → Normal p → Normal q → Normal (.conditional c p q)
  | forward (port) : Normal (.forward port)
  | exclusive (port) : Normal (.exclusive port)
  | link (l) : Normal (.link l)

/-- A list of one operand is that operand. -/
def collapse (node : List Policy → Policy) : List Policy → Policy
  | [p] => p
  | ps => node ps

theorem elaborates_joined {op : Operator} {none : Expr} {node : List Policy → Policy}
    {ps : List Policy} (hlength : 1 < ps.length) (hps : ∀ p ∈ ps, p.expr.Elaborates p)
    (hsnoc : ∀ {l r qs p}, qs ≠ [] → qs ++ [p] <+: ps → l.Elaborates (collapse node qs) →
      r.Elaborates p → (Expr.binary op l r).Elaborates (node (qs ++ [p]))) :
    (Expr.joined op none (exprs ps)).Elaborates (node ps) := by
  have hcollapse : ∀ {qs : List Policy}, 1 < qs.length → collapse node qs = node qs := by
    intro qs hqs
    match qs, hqs with
    | _ :: _ :: _, _ => rfl
  rw [exprs_eq_map, ← hcollapse hlength]
  apply Expr.joined_induction (M := fun e qs => e.Elaborates (collapse node qs))
  · rintro rfl
    contradiction
  · exact hps
  · intro l qs p hqs hinitial hl
    have hpos := List.length_pos_of_ne_nil hqs
    rw [hcollapse (by rw [List.length_append, List.length_singleton]; omega)]
    exact hsnoc hqs hinitial hl (hps p (hinitial.subset (by simp)))

/-- Flattening gives back the operands. -/
theorem flat_collapse {node : List Policy → Policy} (flat : Policy → List Policy)
    (hnode : ∀ qs, flat (node qs) = qs) {qs : List Policy} (hqs : ∀ q ∈ qs, flat q = [q]) :
    flat (collapse node qs) = qs := by
  match qs, hqs with
  | [], _ => exact hnode []
  | [q], hqs => exact hqs q List.mem_cons_self
  | q :: r :: qs, _ => exact hnode _

theorem isFilter_collapse {node : List Policy → Policy}
    (hnode : ∀ qs, (node qs).isFilter = areFilters qs) {qs : List Policy}
    (hqs : areFilters qs = true) : (collapse node qs).isFilter = true := by
  match qs, hqs with
  | [], hqs => exact (hnode []).trans hqs
  | [q], hqs => simpa [areFilters, collapse] using hqs
  | q :: r :: qs, hqs => exact (hnode _).trans hqs

/-- What a policy runs side by side as a union. -/
def alternatives : Policy → List Policy
  | .union ps => ps
  | p => [p]

/-- What a policy runs one after the other as an intersection. -/
def conditions : Policy → List Policy
  | .intersection ps => ps
  | p => [p]

theorem eq_or_alternatives_eq (p : Policy) : p = .union p.alternatives ∨ p.alternatives = [p] := by
  cases p <;> simp [alternatives]

theorem eq_or_conditions_eq (p : Policy) :
    p = .intersection p.conditions ∨ p.conditions = [p] := by
  cases p <;> simp [conditions]

theorem eq_of_collapse_intersection {qs : List Policy} {m : Match}
    (h : collapse .intersection qs = .test m) : qs = [.test m] := by
  match qs, h with
  | [q], h => exact congrArg (fun q => [q]) h
  | [], h => cases h
  | _ :: _ :: _, h => cases h

/-- The operator adds one more operand to a flat list, if what it builds is flat. -/
theorem elaborates_snoc {op : Operator} {node : List Policy → Policy} (flat : Policy → List Policy)
    (hnode : ∀ qs, flat (node qs) = qs) {l r : Expr} {qs : List Policy} {p : Policy}
    (hbuilt : (Expr.binary op l r).Elaborates (node (flat (collapse node qs) ++ flat p)))
    (hflat : ∀ q ∈ qs ++ [p], flat q = [q]) :
    (Expr.binary op l r).Elaborates (node (qs ++ [p])) := by
  obtain ⟨hqs, hp⟩ := List.forall_mem_append.1 hflat
  rwa [flat_collapse flat hnode hqs, hp p List.mem_cons_self] at hbuilt

theorem filters_of_snoc (node : List Policy → Policy)
    (hnode : ∀ qs, (node qs).isFilter = areFilters qs) {qs : List Policy} {p : Policy}
    (h : areFilters (qs ++ [p]) = true) :
    (collapse node qs).isFilter = true ∧ p.isFilter = true := by
  rw [areFilters_snoc, Bool.and_eq_true] at h
  exact ⟨isFilter_collapse hnode h.1, h.2⟩

/-- Two matches apart, the conjunction of two filters is the list of their conjuncts. -/
theorem and_eq_conjoin {f g : Filter} (h : ∀ m n, f.policy = .test m → g.policy ≠ .test n) :
    f.and g = f.conjoin g := by
  unfold Filter.and
  split
  · next m n hm hn => exact absurd hn (h m n hm)
  · rfl

/-- The expression of a policy in normal form is read as the policy itself. -/
theorem Printable.elaborates {p : Policy} (h : Printable p) (hn : Normal p) :
    p.expr.Elaborates p := by
  induction h with
  | identity => exact .identity
  | drop => exact .drop
  | controller => exact .controller
  | forward port => exact .forward port
  | exclusive port => exact .exclusive port
  | link l => exact .link l
  | modify hm _ => exact .modify (Modification.ofList?_entries hm)
  | @test m hm _ =>
    cases hn with
    | test hcanonical =>
      have hfields := Match.ofList?_canonical hm
      rw [Match.canonical_eq hcanonical] at hfields
      exact .test hfields
  | @negate p hp _ ih =>
    cases hn with
    | negate hn => exact .not (f := ⟨p, hp⟩) (ih hn)
  | @difference p q hp hq _ _ ihp ihq =>
    cases hn with
    | difference hnp hnq => exact .difference (f := ⟨p, hp⟩) (g := ⟨q, hq⟩) (ihp hnp) (ihq hnq)
  | @conditional c p q hc _ _ _ ihc ihp ihq =>
    cases hn with
    | conditional hnc hnp hnq => exact .ite (f := ⟨c, hc⟩) (ihc hnc) (ihp hnp) (ihq hnq)
  | parallel _ ih =>
    cases hn with
    | parallel hlength hkind hnormal =>
      apply elaborates_joined hlength fun p hp => ih p hp (hnormal p hp)
      intro l r qs p _ hinitial hl hr
      apply elaborates_snoc summands (fun _ => rfl) (.parallel hl hr)
      exact fun q hq => q.eq_or_summands_eq.resolve_left (hkind q (hinitial.subset hq) _)
  | sequential _ ih =>
    cases hn with
    | sequential hlength hkind hnormal =>
      apply elaborates_joined hlength fun p hp => ih p hp (hnormal p hp)
      intro l r qs p _ hinitial hl hr
      apply elaborates_snoc factors (fun _ => rfl) (.sequential hl hr)
      exact fun q hq => q.eq_or_factors_eq.resolve_left (hkind q (hinitial.subset hq) _)
  | union hfilters _ ih =>
    cases hn with
    | union hlength hkind hnormal =>
      apply elaborates_joined hlength fun p hp => ih p hp (hnormal p hp)
      intro l r qs p _ hinitial hl hr
      obtain ⟨hf, hg⟩ :=
        filters_of_snoc .union (fun _ => rfl) (areFilters_of_subset hfilters hinitial.subset)
      apply elaborates_snoc alternatives (fun _ => rfl) (.union (f := ⟨_, hf⟩) (g := ⟨p, hg⟩) hl hr)
      exact fun q hq => q.eq_or_alternatives_eq.resolve_left (hkind q (hinitial.subset hq) _)
  | intersection hfilters _ ih =>
    cases hn with
    | intersection hlength hkind htests hnormal =>
      apply elaborates_joined hlength fun p hp => ih p hp (hnormal p hp)
      intro l r qs p _ hinitial hl hr
      obtain ⟨hf, hg⟩ :=
        filters_of_snoc .intersection (fun _ => rfl) (areFilters_of_subset hfilters hinitial.subset)
      have hbuilt := Expr.Elaborates.intersection (f := ⟨_, hf⟩) (g := ⟨p, hg⟩) hl hr
      rw [and_eq_conjoin] at hbuilt
      · apply elaborates_snoc conditions (fun _ => rfl) hbuilt
        exact fun q hq => q.eq_or_conditions_eq.resolve_left (hkind q (hinitial.subset hq) _)
      · -- a match on the left is the only operand so far
        rintro m n hm rfl
        obtain ⟨rest, hrest⟩ := hinitial
        rw [eq_of_collapse_intersection hm] at hrest
        exact htests m n rest hrest.symm

/-- The written form of a policy in normal form is read as the policy itself. -/
theorem ofText_render_of_normal {p : Policy} (hp : p.Printable) (hn : p.Normal) (s : Store) :
    ofText (s.render p) = .ok p :=
  ofText_eq_ok_iff.2 ⟨p.expr, hp.ofText_render _, hp.elaborates hn⟩

/-- Lists of all kinds, a difference and texts to be quoted, inside a conditional. -/
theorem ofText_render_of_normal_conditional :
    let test : Policy := .test (.single "dst" (.within { address := ⟨0x0a000000⟩, length := 8 }))
    let note : Policy := .test (.single "note" (.exactly (.text "\"\\")))
    let set : Policy := .modify (.single "note" none)
    let p : Policy := .conditional (.intersection [test, .negate note])
      (.parallel [.sequential [set, .exclusive (-2)], .controller])
      (.union [note, .difference test note])
    p.Printable ∧ p.Normal ∧ ∀ s : Store, ofText (s.render p) = .ok p := by
  intro test note set p
  have hp : p.Printable := by
    have htest : test.Printable := .test rfl (by decide)
    have hnote : note.Printable := .test rfl (by decide)
    have hset : set.Printable := .modify rfl (by decide)
    have hthen : Printable (.sequential [set, .exclusive (-2)]) :=
      .sequential (by simp [hset, Printable.exclusive])
    refine .conditional (by decide) (.intersection (by decide) ?_) (.parallel ?_)
      (.union (by decide) ?_)
    · simp [htest, Printable.negate (p := note) rfl hnote]
    · simp [hthen, Printable.controller]
    · simp [hnote, Printable.difference (p := test) (q := note) rfl rfl htest hnote]
  have hn : p.Normal := by
    have htest : test.Normal := .test (by decide)
    have hnote : note.Normal := .test (by decide)
    have hset : set.Normal := .modify _
    have hthen : Normal (.sequential [set, .exclusive (-2)]) :=
      .sequential (by decide) (by simp [set]) (by simp [hset, Normal.exclusive])
    refine .conditional (.intersection (by decide) (by simp [test]) (by simp) ?_)
      (.parallel (by decide) (by simp) ?_) (.union (by decide) (by simp [note]) ?_)
    · simp [htest, hnote.negate]
    · simp [hthen, Normal.controller]
    · simp [hnote, htest.difference hnote]
  exact ⟨hp, hn, ofText_render_of_normal hp hn⟩

end Policy

end PacketPolicy

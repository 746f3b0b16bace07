import PacketPolicy.Proofs.Terminals
import PacketPolicy.Proofs.Unfolding

/-!
# What a policy depends on

The listed handles of a policy are all that it depends on: stores that agree on them
evaluate, compile, print and list the policy alike. The listed sinks are all that it can
reach, by evaluation or by a lookup in its table.
-/

namespace PacketPolicy

/-! ## Leaves -/

namespace Term

/-- The term has no parts but itself. -/
def IsLeaf : Term → Prop
  | .negate _ | .parallel _ | .sequential _ => False
  | _ => True

variable {x t u : Term}

theorem Has.of_mem_operands (hu : u ∈ t.operands) (h : Has x u) : Has x t := by
  cases t with
  | negate t =>
    obtain rfl := List.mem_singleton.1 hu
    exact .negate h
  | parallel ts => exact .parallel hu h
  | sequential ts => exact .sequential hu h
  | _ => cases hu

/-- A leaf of a term that is none itself is one of an operand. -/
theorem Has.exists_operand (h : Has x t) (hx : x.IsLeaf) (ht : ¬ t.IsLeaf) :
    ∃ u ∈ t.operands, Has x u := by
  cases h with
  | here => exact absurd hx ht
  | negate h => exact ⟨_, List.mem_cons_self, h⟩
  | parallel hu h => exact ⟨_, hu, h⟩
  | sequential hu h => exact ⟨_, hu, h⟩

/-- More operands have all the leaves that the first ones have. -/
theorem Has.mono (h : Has x t) (hx : x.IsLeaf) (ht : ¬ t.IsLeaf)
    (hsub : t.operands ⊆ u.operands) : Has x u := by
  obtain ⟨v, hv, h⟩ := h.exists_operand hx ht
  exact h.of_mem_operands (hsub hv)

end Term

namespace Policy

variable {p q : Policy} {x : Term}

theorem isLeaf_of_leaf? (h : p.leaf? = some x) : x.IsLeaf := by
  cases p <;> simp only [leaf?, Option.some.injEq, reduceCtorEq] at h <;> subst h <;> trivial

theorem eq_of_leaf? (hp : p.leaf? = some x) (hq : q.leaf? = some x) : p = q := by
  cases p <;> simp only [leaf?, Option.some.injEq, reduceCtorEq] at hp <;> subst hp <;>
    cases q <;> simp_all [leaf?]

end Policy

namespace Store

theorem forall_mem_of_forall₂ {A : Term → Prop} {ps : List Policy} {ts : List Term}
    (h : List.Forall₂ (fun _ t => A t) ps ts) : ∀ t ∈ ts, A t := by
  induction h with
  | nil => simp
  | cons ht _ ih => exact List.forall_mem_cons.2 ⟨ht, ih⟩

/-- What follows from a leaf of any operand follows from one of the term. -/
theorem of_has {Q : Prop} {x t : Term} {ps : List Policy} (hx : x.IsLeaf) (ht : ¬ t.IsLeaf)
    (h : List.Forall₂ (fun _ u => Term.Has x u → Q) ps t.operands) (hhas : Term.Has x t) : Q := by
  obtain ⟨u, hu, hhas⟩ := hhas.exists_operand hx ht
  exact forall_mem_of_forall₂ h u hu hhas

/-- A leaf of the term is one of the parts, unless it is `drop`, which stands for handles without a
definition too. -/
theorem carried_leaf (s : Store) (whole : List Policy) {leaf : Policy} {x : Term}
    (hx : leaf.leaf? = some x) (hdrop : x ≠ .drop) :
    Carried s (· ⊆ whole) fun _ t => Term.Has x t → leaf ∈ whole where
  antitone hlk hk := List.Subset.trans hlk hk
  stuck _ := by
    rintro ⟨⟩
    exact absurd rfl hdrop
  leaf {l q t} hl hq hleaf h := by
    obtain rfl : x = t := by
      cases q <;> simp only [Policy.leaf?, Option.some.injEq, reduceCtorEq] at hleaf <;>
        subst hleaf <;> cases h <;> rfl
    rw [Policy.eq_of_leaf? hx hleaf]
    exact hl hq
  negate _ _ ih h := by
    obtain ⟨u, hu, h⟩ := h.exists_operand (Policy.isLeaf_of_leaf? hx) not_false
    exact ih (List.mem_singleton.1 hu ▸ h)
  beside h := and_self_iff.2 (of_has (Policy.isLeaf_of_leaf? hx) not_false h)
  along h := and_self_iff.2 (of_has (Policy.isLeaf_of_leaf? hx) not_false h)
  defined _ ih := ih
  dynamic _ _ ih := ih

theorem mem_parts_of_has {s : Store} {p leaf : Policy} {x : Term} (hx : leaf.leaf? = some x)
    (hdrop : x ≠ .drop) (h : Term.Has x (s.term p)) : leaf ∈ s.parts p :=
  (s.carried_leaf (s.parts p) hx hdrop).term (List.Subset.refl _) h

end Store

/-! ## Actions of compiled rules -/

namespace Action

/-- A property that putting actions together does not lose. -/
structure Stable (A : Action → Prop) : Prop where
  identity : A .identity
  drop : A .drop
  controller : A .controller
  andThen : ∀ {m x}, A (.modify m) → A x → A (andThen (.modify m) x)

theorem Stable.followedBy {A : Action → Prop} (hA : Stable A) {a : Action} {actions : List Action}
    (ha : A a) (hactions : ∀ x ∈ actions, A x) : ∀ x ∈ a.followedBy actions, A x := by
  cases a with
  | identity => exact hactions
  | drop | controller | query => exact List.forall_mem_singleton.2 ha
  | modify m => exact List.forall_mem_map.2 fun x hx => hA.andThen ha (hactions x hx)

end Action

/-- What is stable, and holds of the actions in a term, holds of all actions in its table. -/
theorem Term.Compiles.allActions {A : Action → Prop} (hA : Action.Stable A) {c : CompileSettings}
    {t : Term} {a : Table} (h : Compiles c t a) (ht : ∀ x, Has (.ofAction x) t → A x) :
    a.AllActions fun actions => ∀ x ∈ actions, A x := by
  have hleaf : ∀ x, (Term.ofAction x).IsLeaf := by
    rintro ⟨⟩ <;> trivial
  have hunion : ∀ as bs : List Action, (∀ x ∈ as, A x) → (∀ x ∈ bs, A x) →
      ∀ x ∈ Action.union as bs, A x := by
    intro as bs has hbs x hx
    by_cases hdrop : x = .drop
    · exact hdrop ▸ hA.drop
    · exact ((Action.mem_union hdrop).1 hx).elim (has x) (hbs x)
  have hone : ∀ {x}, A x → (Table.single x).AllActions fun actions => ∀ x ∈ actions, A x :=
    fun hx => .single (List.forall_mem_singleton.2 hx)
  induction h with
  | identity | sequentialNil => exact hone hA.identity
  | drop | parallelNil => exact hone hA.drop
  | controller => exact hone hA.controller
  | query b => exact hone (ht (.query b) .here)
  | test =>
    exact .test (List.forall_mem_singleton.2 hA.identity) (List.forall_mem_singleton.2 hA.drop)
  | modify m =>
    split_ifs
    · exact hone hA.controller
    · exact hone (ht (.modify m) .here)
  | negate _ hneg _ =>
    exact .negate hneg (List.forall_mem_singleton.2 hA.drop)
      (List.forall_mem_singleton.2 hA.identity)
  | parallelOne _ ih => exact ih fun x hx => ht x (hx.of_mem_operands List.mem_cons_self)
  | parallelSnoc _ _ _ iha ihb =>
    have ha := iha fun x hx => ht x (hx.mono (hleaf x) not_false (List.subset_append_left _ _))
    have hb := ihb fun x hx => ht x (hx.of_mem_operands (List.mem_append_right _ (by simp)))
    exact ha.parallel c.optimize hunion hb
  | sequentialOne _ ih => exact ih fun x hx => ht x (hx.of_mem_operands List.mem_cons_self)
  | sequentialSnoc _ _ _ iha ihb =>
    have ha := iha fun x hx => ht x (hx.mono (hleaf x) not_false (List.subset_append_left _ _))
    have hb := ihb fun x hx => ht x (hx.of_mem_operands (List.mem_append_right _ (by simp)))
    exact hb.sequential c.optimize (List.forall_mem_singleton.2 hA.drop) hunion
      fun r hr x hx as has => hA.followedBy (ha r hr x hx) has

/-! ## Sinks that can be reached -/

namespace Term

/-- All sinks of the term have a property. -/
def SinksAll (Q : Sink → Prop) (t : Term) : Prop := ∀ b, Has (.query b) t → Q b

/-- The table of a term hands packets to sinks of the term only. -/
theorem Compiles.sinksAll {Q : Sink → Prop} {c : CompileSettings} {t : Term} {a : Table}
    (h : Compiles c t a) (ht : t.SinksAll Q) :
    a.AllActions fun actions => ∀ b, .query b ∈ actions → Q b := by
  have hstable : Action.Stable fun x => ∀ b, x = .query b → Q b :=
    { identity := by simp
      drop := by simp
      controller := by simp
      andThen := fun _ hx b hb => hx b ((Action.modify_andThen_eq_iff rfl).1 hb) }
  intro r hr b hb
  refine h.allActions hstable ?_ r hr _ hb b rfl
  rintro _ hx b rfl
  exact ht b hx

end Term

namespace Store

variable {s s' : Store} {p : Policy}

theorem mem_sinks {b : Sink} : b ∈ s.sinks p ↔ .query b ∈ s.parts p :=
  Policy.mem_eraseDups_filterMap fun q => by cases q <;> simp [Policy.sink?, eq_comm]

/-- All sinks of the term of a policy are listed. -/
theorem sinksAll_term (s : Store) (p : Policy) : (s.term p).SinksAll (· ∈ s.sinks p) :=
  fun _ hb => mem_sinks.2 (mem_parts_of_has rfl (by simp) hb)

theorem mem_sinks_of_mem_arrivals {pkt : Packet} {a : Arrival}
    (ha : a ∈ (s.eval p pkt).arrivals) : a.sink ∈ s.sinks p :=
  s.sinksAll_term p _ ((Term.mem_arrivals_iff _ _).1 ha).has

/-- A table of the policy has a rule for the packet, and the sinks of this rule are listed. -/
theorem exists_find?_of_compile {c : CompileSettings} {t : Table} (ht : s.compile c p = .ok t)
    (pkt : Packet) : ∃ i r, t.find? pkt = some (i, r) ∧ ∀ b ∈ r.sinks, b ∈ s.sinks p := by
  have hcomp := Term.compile_eq_ok_iff.1 ht
  obtain ⟨actions, hverdict⟩ := hcomp.regular.total pkt
  obtain ⟨i, r, hfind, hr, -, -⟩ := Table.find?_of_verdict hverdict
  exact ⟨i, r, hfind, fun b hb => hcomp.sinksAll (s.sinksAll_term p) r hr b (Rule.mem_sinks.1 hb)⟩

/-! ## Stores that agree on the listed handles -/

/-- The policy is a filter by the kinds of the definitions behind the handles in it. -/
def isFilter (s : Store) (p : Policy) : Bool :=
  p.ownParts.all (Policy.isHarmless fun h => s.owns ⟨h.id, true⟩)

theorem isFilter_eq (hp : s.Covers p) : s.isFilter p = p.isFilter := by
  rw [Bool.eq_iff_iff, Policy.isFilter_iff_ownParts, isFilter, List.all_eq_true]
  refine forall₂_congr fun q hq => ?_
  cases q with
  | dynamic h =>
    obtain ⟨d, hd, hkind⟩ := owns_iff.1 (hp h hq)
    have hget : s.get? ⟨h.id, true⟩ = some d := hd
    simp [Policy.isHarmless, owns, hget, hkind]
  | _ => rfl

end Store

namespace Controller

theorem sink?_receive_of_not_mem {k : Controller} {l : List Arrival} {b : Sink}
    (hb : ∀ a ∈ l, a.sink ≠ b) : (k.receive l).sink? b = k.sink? b := by
  have hnone : packetsFor b l = [] :=
    List.eq_nil_iff_forall_not_mem.2 fun q hq => hb _ (mem_packetsFor.1 hq) rfl
  rw [sink?_receive, hnone]
  exact Option.map_id'

/-- Stores that agree on the listed handles agree on all that can be seen of the policy: outcomes,
tables, kind, written form and lists. No sinks are reached but the listed ones. -/
theorem dependencies_are_listed (k : Controller) (p : Policy) :
    (∀ s : Store, (∀ h, s.owns h = k.store.owns h) →
      (∀ h ∈ k.store.handles p, s.definition h = k.store.definition h) →
      (∀ pkt, s.eval p pkt = k.store.eval p pkt ∧
        { k with store := s }.eval p pkt =
          ((k.eval p pkt).1, { (k.eval p pkt).2 with store := s })) ∧
      (∀ c, s.compile c p = k.store.compile c p) ∧ s.isFilter p = k.store.isFilter p ∧
      s.render p = k.store.render p ∧ s.handles p = k.store.handles p ∧
      s.sinks p = k.store.sinks p) ∧
    (k.store.Covers p → k.store.isFilter p = p.isFilter) ∧
    (k.store.handles p).Nodup ∧ (k.store.sinks p).Nodup ∧
    (∀ pkt, (∀ b ∈ (k.store.eval p pkt).sinks, b ∈ k.store.sinks p) ∧
      ∀ b ∉ k.store.sinks p, (k.eval p pkt).2.sink? b = k.sink? b) ∧
    ∀ c t, k.store.compile c p = .ok t → ∀ pkt, ∃ report after,
      k.lookup t pkt = .ok (report, after) ∧ (∀ b ∈ report.fired, b ∈ k.store.sinks p) ∧
      ∀ b ∉ k.store.sinks p, after.sink? b = k.sink? b := by
  refine ⟨?_, Store.isFilter_eq, nodup_eraseDups _, nodup_eraseDups _, ?_, ?_⟩
  · intro s howns hagree
    have hsize : s.size = k.store.size := Store.size_eq_of_owns howns
    have hterm : s.term p = k.store.term p := Store.reading_congr Policy.local_toTerm hsize hagree
    have hparts : s.parts p = k.store.parts p :=
      Store.reading_congr Policy.local_parts hsize hagree
    have heval : ∀ pkt, s.eval p pkt = k.store.eval p pkt := by
      intro pkt
      rw [Store.eval, Store.eval, hterm]
    refine ⟨fun pkt => ⟨heval pkt, ?_⟩, ?_, ?_,
      Store.reading_congr Policy.local_render hsize hagree, ?_, ?_⟩
    · exact Prod.ext (congrArg Outcome.outputs (heval pkt)) <|
        (congrArg (fun o : Outcome => { k with store := s }.receive o.arrivals.toList)
          (heval pkt)).trans (k.receive_withStore s _)
    · intro c
      rw [Store.compile, Store.compile, hterm]
    · rw [Store.isFilter, Store.isFilter]
      simp only [howns]
    · rw [Store.handles, Store.handles, hparts]
    · rw [Store.sinks, Store.sinks, hparts]
  · intro pkt
    constructor
    · intro b hb
      obtain ⟨q, hq⟩ := Outcome.mem_sinks.1 hb
      exact Store.mem_sinks_of_mem_arrivals hq
    · intro b hb
      refine sink?_receive_of_not_mem fun a ha he => hb ?_
      exact he ▸ Store.mem_sinks_of_mem_arrivals (SortedSet.mem_toList.1 ha)
  · intro c t ht pkt
    obtain ⟨i, r, hfind, hlisted⟩ := Store.exists_find?_of_compile ht pkt
    refine ⟨_, _, lookup_of_find? hfind, hlisted, fun b hb => ?_⟩
    refine sink?_receive_of_not_mem fun a ha he => hb ?_
    obtain ⟨b', hb', rfl⟩ := List.mem_map.1 ha
    exact he ▸ hlisted b' hb'

/-- A handle whose definition chooses between a sink and another handle by a third one; the stores
differ in a fourth. -/
theorem dependencies_are_listed_conditional :
    ∃ (k : Controller) (p : Policy) (s : Store), p = .dynamic ⟨1, false⟩ ∧
      k.store = ⟨[⟨.test (.int "inport" 1), true, none⟩,
        ⟨.conditional (.dynamic ⟨0, true⟩) (.query ⟨.count, 0⟩) (.dynamic ⟨2, false⟩), false, none⟩,
        ⟨.forward 2, false, none⟩, ⟨.drop, false, none⟩]⟩ ∧
      s = k.store.define ⟨3, false⟩ .controller ∧
      k.store.handles p = [⟨1, false⟩, ⟨0, true⟩, ⟨2, false⟩] ∧
      k.store.sinks p = [⟨.count, 0⟩] ∧ (∀ pkt, s.eval p pkt = k.store.eval p pkt) ∧
      (∀ c, s.compile c p = k.store.compile c p) ∧ s.render p = k.store.render p ∧
      s.handles p = k.store.handles p ∧
      ∀ pkt, (k.eval p pkt).2.sink? ⟨.forward, 0⟩ = some (.inl {}) := by
  let k : Controller :=
    { store := ⟨[⟨.test (.int "inport" 1), true, none⟩,
        ⟨.conditional (.dynamic ⟨0, true⟩) (.query ⟨.count, 0⟩) (.dynamic ⟨2, false⟩), false, none⟩,
        ⟨.forward 2, false, none⟩, ⟨.drop, false, none⟩]⟩
      forwardSinks := [{}], countSinks := [{}] }
  let p : Policy := .dynamic ⟨1, false⟩
  let s : Store := k.store.define ⟨3, false⟩ .controller
  have hhandles : k.store.handles p = [⟨1, false⟩, ⟨0, true⟩, ⟨2, false⟩] := by decide +kernel
  have hsinks : k.store.sinks p = [⟨.count, 0⟩] := by decide +kernel
  have howns : ∀ h, s.owns h = k.store.owns h := by
    rintro ⟨_ | _ | _ | _ | i, kind⟩ <;> rfl
  have hagree : ∀ h ∈ k.store.handles p, s.definition h = k.store.definition h := by
    rw [hhandles]
    decide +kernel
  obtain ⟨hsame, -, -, -, hreach, -⟩ := dependencies_are_listed k p
  obtain ⟨heval, hcompile, -, hrender, hlist, -⟩ := hsame s howns hagree
  refine ⟨k, p, s, rfl, rfl, rfl, hhandles, hsinks, fun pkt => (heval pkt).1, hcompile, hrender,
    hlist, fun pkt => ?_⟩
  rw [(hreach pkt).2 ⟨.forward, 0⟩ (by rw [hsinks]; decide)]
  rfl

end Controller

end PacketPolicy

import PacketPolicy.Controller.Store
import PacketPolicy.Proofs.Effects
import PacketPolicy.Proofs.Elaboration
import PacketPolicy.Proofs.Precedence
import PacketPolicy.Proofs.Printing

/-!
# Printed policies are read back

The written form of a policy is read as a policy with the same effect. The two may differ:
lists become flat, lists of one operand become that operand, two matches become one, and
patterns become canonical.
-/

namespace PacketPolicy

theorem SortedMap.ofList_entries {κ α : Type} [Ord κ] [Std.TransOrd κ] [Std.LawfulEqOrd κ]
    [DecidableEq κ] (m : SortedMap κ α) : ofList m.entries = m := by
  apply ext_get?
  intro k
  rw [ofList, get?_insertMany, get?_empty, Option.or_none]

/-! ## Fields -/

theorem Pattern.accepts_canonical (p : Pattern) (v : Value) :
    p.canonical.accepts v = p.accepts v := by
  cases p with
  | within n =>
    cases v with
    | address a => exact congrArg (Ipv4.Network.lead n.length a == ·) n.lead_base
    | int => rfl
    | text => rfl
  | exactly w =>
    cases w with
    | address a =>
      cases v with
      | address b =>
        obtain ⟨x⟩ := a
        obtain ⟨y⟩ := b
        simp only [canonical, ofValue, accepts, Ipv4.Network.contains, Ipv4.Network.lead,
          Ipv4.Network.host, Nat.sub_self, BitVec.ushiftRight_zero]
        rw [Bool.eq_iff_iff, beq_iff_eq, beq_iff_eq, Value.address.injEq, Ipv4.Address.mk.injEq]
        exact eq_comm
      | int => rfl
      | text => rfl
    | int => rfl
    | text => rfl

/-- The same match with canonical patterns. -/
def Match.canonical (m : Match) : Match := ⟨m.fields.mapValues Pattern.canonical⟩

theorem Match.accepts_canonical (m : Match) (pkt : Packet) :
    m.canonical.accepts pkt = m.accepts pkt := by
  have hpattern : ∀ p : Pattern, p.canonical.accepts = p.accepts :=
    fun p => funext p.accepts_canonical
  simp only [accepts, canonical, SortedMap.mapValues, List.all_map, Function.comp_def, hpattern]

theorem Match.ofList?_canonical {m : Match} (hm : m.fields.isEmpty = false) :
    ofList? (m.fields.entries.map fun f => (f.1, f.2.canonical)) = some m.canonical := by
  have hne : (m.fields.entries.map fun f => (f.1, f.2.canonical)).isEmpty = false := by
    simpa [SortedMap.isEmpty] using hm
  have hfields := (m.fields.mapValues Pattern.canonical).ofList_entries
  rw [ofList?, hne]
  exact congrArg (fun fields => some (Match.mk fields)) hfields

theorem Modification.ofList?_entries {m : Modification} (hm : m.fields.isEmpty = false) :
    ofList? m.fields.entries = some m := by
  rw [ofList?, show m.fields.entries.isEmpty = false from hm, SortedMap.ofList_entries]
  rfl

/-! ## Filters among flat policies -/

namespace Policy

/-- A policy that runs a list, or is all that the list holds, is a filter if all of the list
are. -/
theorem all_isFilter_of_flat {p : Policy} {ps : List Policy} {node : List Policy → Policy}
    (hnode : (node ps).isFilter = areFilters ps) (hflat : p = node ps ∨ ps = [p]) :
    ps.all isFilter = p.isFilter := by
  rcases hflat with rfl | rfl
  · rw [hnode, areFilters_eq_all]
  · simp

theorem isFilter_plus (p q : Policy) : (p.plus q).isFilter = (p.isFilter && q.isFilter) := by
  rw [plus, isFilter, areFilters_eq_all, List.all_append,
    all_isFilter_of_flat rfl p.eq_or_summands_eq, all_isFilter_of_flat rfl q.eq_or_summands_eq]

theorem isFilter_andThen (p q : Policy) :
    (p.andThen q).isFilter = (p.isFilter && q.isFilter) := by
  rw [andThen, isFilter, areFilters_eq_all, List.all_append,
    all_isFilter_of_flat rfl p.eq_or_factors_eq, all_isFilter_of_flat rfl q.eq_or_factors_eq]

theorem areFilters_snoc (ps : List Policy) (p : Policy) :
    areFilters (ps ++ [p]) = (areFilters ps && p.isFilter) := by
  simp [areFilters_eq_all]

end Policy

/-! ## What is read behaves like what was written -/

namespace Operator

/-- The operands have to be filters. -/
def onFilters : Operator → Bool
  | .parallel | .sequential => false
  | .difference | .intersection | .union => true

/-- What becomes of the effects of two operands. -/
def mix : Operator → (Packet → Outcome) → (Packet → Outcome) → Packet → Outcome
  | .parallel | .union => Outcome.sum
  | .sequential | .intersection => Outcome.comp
  | .difference => fun f g => Outcome.comp f fun pkt => (g pkt).negate pkt

end Operator

/-- The expression is read as a policy that behaves like the given one. -/
def Expr.Means (e : Expr) (p : Policy) : Prop :=
  ∃ q, e.Elaborates q ∧ (∀ env, q.effect env = p.effect env) ∧
    (p.isFilter = true → q.isFilter = true)

namespace Expr

variable {e l r c t : Expr} {p q : Policy} {ps : List Policy}

theorem Elaborates.means (h : e.Elaborates p) : e.Means p := ⟨p, h, fun _ => rfl, id⟩

/-- From two policies, filters where it takes no others, an operator builds one with the effect that
it makes of theirs, and a filter from filters. -/
theorem exists_elaborates_binary (op : Operator) (hl : l.Elaborates p) (hr : r.Elaborates q)
    (hfilters : op.onFilters = true → p.isFilter = true ∧ q.isFilter = true) :
    ∃ s, (Expr.binary op l r).Elaborates s ∧
      (∀ env, s.effect env = op.mix (p.effect env) (q.effect env)) ∧
      (p.isFilter = true → q.isFilter = true → s.isFilter = true) := by
  have htyped : op.onFilters = true → ∃ f g : Filter, f.policy = p ∧ g.policy = q :=
    fun hop => ⟨⟨p, (hfilters hop).1⟩, ⟨q, (hfilters hop).2⟩, rfl, rfl⟩
  cases op with
  | parallel =>
    refine ⟨_, .parallel hl hr, fun env => funext (Policy.effect_plus env p q), fun hp hq => ?_⟩
    rw [Policy.isFilter_plus, hp, hq, Bool.and_self]
  | sequential =>
    refine ⟨_, .sequential hl hr, fun env => funext (Policy.effect_andThen env p q),
      fun hp hq => ?_⟩
    rw [Policy.isFilter_andThen, hp, hq, Bool.and_self]
  | difference =>
    obtain ⟨f, g, rfl, rfl⟩ := htyped rfl
    exact ⟨_, .difference hl hr, fun env => funext (Policy.effect_difference env _ _),
      fun _ _ => (f.minus g).isFilter⟩
  | intersection =>
    obtain ⟨f, g, rfl, rfl⟩ := htyped rfl
    exact ⟨_, .intersection hl hr, fun env => funext (f.effect_and env g),
      fun _ _ => (f.and g).isFilter⟩
  | union =>
    obtain ⟨f, g, rfl, rfl⟩ := htyped rfl
    exact ⟨_, .union hl hr, fun env => funext (f.effect_or env g),
      fun _ _ => (f.or g).isFilter⟩

namespace Means

theorem congr (h : e.Means p) (heffect : ∀ env, p.effect env = q.effect env)
    (hfilter : q.isFilter = true → p.isFilter = true) : e.Means q := by
  obtain ⟨r, hr, hsame, hkind⟩ := h
  exact ⟨r, hr, fun env => (hsame env).trans (heffect env), fun hq => hkind (hfilter hq)⟩

/-- What a filter is read as is a filter. -/
theorem exists_filter (h : e.Means p) (hp : p.isFilter = true) :
    ∃ f : Filter, e.Elaborates f.policy ∧ ∀ env, f.policy.effect env = p.effect env := by
  obtain ⟨q, hq, hsame, hkind⟩ := h
  exact ⟨⟨q, hkind hp⟩, hq, hsame⟩

theorem not (h : e.Means p) (hp : p.isFilter = true) : (Expr.not e).Means (.negate p) := by
  obtain ⟨f, hf, hsame⟩ := h.exists_filter hp
  refine ⟨_, .not hf, fun env => ?_, fun _ => f.not.isFilter⟩
  rw [Filter.not, Policy.effect_negate, Policy.effect_negate, hsame]

theorem ite {s : Policy} (hc : c.Means s) (ht : t.Means p) (he : e.Means q)
    (hs : s.isFilter = true) : (Expr.ite c t e).Means (.conditional s p q) := by
  obtain ⟨f, hf, hfs⟩ := hc.exists_filter hs
  obtain ⟨p', hp', hpp, hpkind⟩ := ht
  obtain ⟨q', hq', hqq, hqkind⟩ := he
  refine ⟨_, .ite hf hp' hq', fun env => funext fun pkt => ?_, ?_⟩
  · rw [Policy.ifElse, Policy.effect_conditional, Policy.effect_conditional, Policy.effect_negate,
      Policy.effect_negate, hfs, hpp, hqq]
  · simp only [Policy.isFilter, Policy.ifElse, Bool.and_eq_true]
    rintro ⟨⟨-, hp⟩, hq⟩
    exact ⟨⟨f.isFilter, hpkind hp⟩, hqkind hq⟩

/-- What an operator builds means a policy whose effect is what the operator makes of two others. -/
theorem binary {s : Policy} (op : Operator) (hl : l.Means p) (hr : r.Means q)
    (hfilters : op.onFilters = true → p.isFilter = true ∧ q.isFilter = true)
    (heffect : ∀ env, s.effect env = op.mix (p.effect env) (q.effect env))
    (hkind : s.isFilter = true → p.isFilter = true ∧ q.isFilter = true) :
    (Expr.binary op l r).Means s := by
  obtain ⟨p', hp, hpp, hpkind⟩ := hl
  obtain ⟨q', hq, hqq, hqkind⟩ := hr
  obtain ⟨s', hs, hss, hskind⟩ := exists_elaborates_binary op hp hq fun hop =>
    ⟨hpkind (hfilters hop).1, hqkind (hfilters hop).2⟩
  refine ⟨s', hs, fun env => ?_, fun h => hskind (hpkind (hkind h).1) (hqkind (hkind h).2)⟩
  rw [hss, hpp, hqq, heffect]

end Means

end Expr

namespace Policy

theorem areFilters_of_subset {ps qs : List Policy} (hps : ∀ p ∈ ps, p.isFilter = true)
    (hqs : qs ⊆ ps) : areFilters qs = true := by
  rw [areFilters_eq_all, List.all_eq_true]
  exact fun q hq => hps q (hqs hq)

/-- An expression of operands joined from the left means their list, if the list and the operator
put effects together alike. -/
theorem means_joined {op : Operator} {none : Expr} {node : List Policy → Policy} {ps : List Policy}
    (hps : ∀ p ∈ ps, p.expr.Means p) (hnil : none.Means (node []))
    (hjoins : ∀ env, Joins env node op.mix)
    (hkind : ∀ qs, (node qs).isFilter = areFilters qs)
    (hfilters : op.onFilters = true → ∀ p ∈ ps, p.isFilter = true) :
    (Expr.joined op none (exprs ps)).Means (node ps) := by
  rw [exprs_eq_map]
  apply Expr.joined_induction (M := fun e qs => e.Means (node qs))
  · exact fun _ => hnil
  · intro p hp
    apply (hps p hp).congr fun env => ((hjoins env).one p).symm
    rw [hkind, areFilters, areFilters, Bool.and_true]
    exact id
  · intro l qs p _ hinitial hl
    have hboth : areFilters (qs ++ [p]) = true ↔ (node qs).isFilter = true ∧ p.isFilter = true := by
      rw [areFilters_snoc, Bool.and_eq_true, hkind]
    apply hl.binary op (hps p (hinitial.subset (by simp)))
    · exact fun hop => hboth.1 (areFilters_of_subset (hfilters hop) hinitial.subset)
    · exact fun env => (hjoins env).snoc qs p
    · rw [hkind]
      exact hboth.1

/-- The expression of a policy is read as a policy that behaves like it. -/
theorem Printable.means {p : Policy} (h : Printable p) : p.expr.Means p := by
  induction h with
  | identity => exact Expr.Elaborates.identity.means
  | drop => exact Expr.Elaborates.drop.means
  | controller => exact Expr.Elaborates.controller.means
  | forward port => exact (Expr.Elaborates.forward port).means
  | exclusive port => exact (Expr.Elaborates.exclusive port).means
  | link l => exact (Expr.Elaborates.link l).means
  | @test m hm _ =>
    refine ⟨_, .test (Match.ofList?_canonical hm), fun env => funext fun pkt => ?_, fun _ => rfl⟩
    rw [effect_test, effect_test, m.accepts_canonical]
  | modify hm _ => exact (Expr.Elaborates.modify (Modification.ofList?_entries hm)).means
  | negate hp _ ih => exact ih.not hp
  | @difference p q hp hq _ _ ihp ihq =>
    exact ihp.binary .difference ihq (fun _ => ⟨hp, hq⟩)
      (fun env => funext (effect_difference env p q)) fun _ => ⟨hp, hq⟩
  | conditional hc _ _ _ ihc ihp ihq => exact ihc.ite ihp ihq hc
  | parallel _ ih =>
    have hnil : Expr.drop.Means (.parallel []) := ⟨_, .drop, fun _ => rfl, fun _ => rfl⟩
    exact means_joined ih hnil joins_parallel (fun _ => rfl) nofun
  | sequential _ ih =>
    have hnil : Expr.identity.Means (.sequential []) := ⟨_, .identity, fun _ => rfl, fun _ => rfl⟩
    exact means_joined ih hnil joins_sequential (fun _ => rfl) nofun
  | union hfilters _ ih =>
    have hnil : Expr.drop.Means (.union []) := ⟨_, .drop, fun _ => rfl, fun _ => rfl⟩
    exact means_joined ih hnil joins_union (fun _ => rfl) fun _ => hfilters
  | intersection hfilters _ ih =>
    have hnil : Expr.identity.Means (.intersection []) :=
      ⟨_, .identity, fun _ => rfl, fun _ => rfl⟩
    exact means_joined ih hnil joins_intersection (fun _ => rfl) fun _ => hfilters

/-- The written form of a policy is read as the expression of the policy. -/
theorem Printable.ofText_render {p : Policy} (h : Printable p) (env : Handle → String) :
    Expr.ofText (p.render env) = .ok p.expr := by
  obtain ⟨ts, hrenders, hlayout⟩ := (h.rendering env).of_le (Nat.zero_le _)
  exact Expr.ofChars_of_layout hrenders h.plain hlayout

/-- The written form of a policy is read as a policy that does the same to every packet, and as a
filter if the policy is one. -/
theorem exists_ofText_render {p : Policy} (hp : p.Printable) :
    ∃ q, (∀ s : Store, ofText (s.render p) = .ok q) ∧
      (∀ (s : Store) (pkt : Packet), s.eval q pkt = s.eval p pkt) ∧
      (p.isFilter = true → q.isFilter = true) := by
  obtain ⟨q, hq, hsame, hkind⟩ := hp.means
  refine ⟨q, ?_, ?_, hkind⟩
  · intro s
    exact ofText_eq_ok_iff.2 ⟨p.expr, hp.ofText_render _, hq⟩
  · intro s pkt
    exact congrFun (hsame _) pkt

/-- Two matches that become one, a list of one, empty lists, a network with other bits after its
length and an address. -/
theorem exists_ofText_render_nested :
    let m : Match := .single "dst" (.within { address := ⟨0x0a000001⟩, length := 8 })
    let n : Match := .single "src" (.exactly (.address ⟨0x0a000001⟩))
    let set : Modification := .single "note" (some (.text "\"\\"))
    let p : Policy := .sequential [.union [.intersection [.test m, .test n], .parallel []],
      .sequential [.sequential [], .modify set]]
    p.Printable ∧ ∃ q, (∀ s : Store, ofText (s.render p) = .ok q) ∧
      (∀ (s : Store) (pkt : Packet), s.eval q pkt = s.eval p pkt) ∧
      (p.isFilter = true → q.isFilter = true) := by
  intro m n set p
  have hm : Printable (.test m) := .test rfl (by decide)
  have hn : Printable (.test n) := .test rfl (by decide)
  have hset : Printable (.modify set) := .modify rfl (by decide)
  have hboth : Printable (.intersection [.test m, .test n]) :=
    .intersection (by decide) (by simp [hm, hn])
  have hnone : Printable (.parallel []) := .parallel (by simp)
  have hall : Printable (.sequential []) := .sequential (by simp)
  have heither : Printable (.union [.intersection [.test m, .test n], .parallel []]) :=
    .union (by decide) (by simp [hboth, hnone])
  have hp : p.Printable := .sequential (by
    simp only [List.forall_mem_cons]
    exact ⟨heither, .sequential (by simp [hall, hset]), by simp⟩)
  exact ⟨hp, exists_ofText_render hp⟩

end Policy

end PacketPolicy

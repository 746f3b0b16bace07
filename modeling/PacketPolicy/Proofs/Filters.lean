import PacketPolicy.Proofs.Evaluation
import PacketPolicy.Proofs.Restriction
import PacketPolicy.Proofs.Shape

/-!
# Filters

A filter passes a packet on unchanged or drops it, and so does each rule of its table.
Hence a term in which only filters are negated always has a table.
-/

namespace PacketPolicy

namespace Term

/-- The term only passes packets on unchanged or drops them. -/
inductive IsFilter : Term → Prop
  | identity : IsFilter .identity
  | drop : IsFilter .drop
  | test (m : Match) : IsFilter (.test m)
  | negate {t} : IsFilter t → IsFilter (.negate t)
  | parallel {ts} : (∀ t ∈ ts, IsFilter t) → IsFilter (.parallel ts)
  | sequential {ts} : (∀ t ∈ ts, IsFilter t) → IsFilter (.sequential ts)

/-- Only filters are negated. -/
inductive WellNegated : Term → Prop
  | identity : WellNegated .identity
  | drop : WellNegated .drop
  | test (m : Match) : WellNegated (.test m)
  | modify (m : Modification) : WellNegated (.modify m)
  | controller : WellNegated .controller
  | query (s : Sink) : WellNegated (.query s)
  | negate {t} : IsFilter t → WellNegated (.negate t)
  | parallel {ts} : (∀ t ∈ ts, WellNegated t) → WellNegated (.parallel ts)
  | sequential {ts} : (∀ t ∈ ts, WellNegated t) → WellNegated (.sequential ts)

/-- The terms that a term is put together from. -/
def operands : Term → List Term
  | .negate t => [t]
  | .parallel ts | .sequential ts => ts
  | _ => []

theorem IsFilter.wellNegated {t : Term} (h : IsFilter t) : WellNegated t := by
  induction h with
  | identity => exact .identity
  | drop => exact .drop
  | test m => exact .test m
  | negate h _ => exact .negate h
  | parallel _ ih => exact .parallel ih
  | sequential _ ih => exact .sequential ih

theorem WellNegated.of_mem_operands {t u : Term} (h : WellNegated t) (hu : u ∈ t.operands) :
    WellNegated u := by
  cases h with
  | identity | drop | test | modify | controller | query => cases hu
  | negate hfilter =>
    obtain rfl := List.mem_singleton.1 hu
    exact hfilter.wellNegated
  | parallel hparts => exact hparts u hu
  | sequential hparts => exact hparts u hu

/-! ## Evaluation of filters -/

theorem IsFilter.restrict {t : Term} (h : IsFilter t) (headers : HeaderSet) :
    t.restrict headers = t := by
  induction h with
  | identity => rfl
  | drop => rfl
  | test m => rfl
  | negate _ ih => exact congrArg Term.negate ih
  | parallel _ ih =>
    rw [restrict_parallel, List.map_congr_left ih, List.map_id']
  | sequential _ ih =>
    rw [restrict_sequential, List.map_congr_left ih, List.map_id']

theorem eq_of_mem_outputs_sequential {ts : List Term}
    (h : ∀ t ∈ ts, ∀ p q, q ∈ (eval t p).outputs → q = p) {p q : Packet}
    (hq : q ∈ (eval (.sequential ts) p).outputs) : q = p := by
  induction ts using List.reverseRecOn generalizing q with
  | nil => exact mem_outputs_sequential_nil.1 hq
  | append_singleton ts t ih =>
    obtain ⟨r, hr, hq⟩ := mem_outputs_sequential_snoc.1 hq
    have hrp : r = p := ih (fun u hu => h u (List.mem_append_left _ hu)) hr
    rw [h t (by simp) r q hq, hrp]

theorem IsFilter.eq_of_mem_outputs {t : Term} (h : IsFilter t) {p q : Packet}
    (hq : q ∈ (eval t p).outputs) : q = p := by
  induction h generalizing p q with
  | identity => exact SortedSet.mem_singleton.1 hq
  | drop => exact absurd hq (SortedSet.not_mem_empty q)
  | test m => exact (mem_outputs_test.1 hq).2
  | negate _ _ => exact (mem_outputs_negate.1 hq).1
  | parallel _ ih =>
    obtain ⟨t, ht, hq⟩ := mem_outputs_parallel.1 hq
    exact ih t ht hq
  | sequential _ ih => exact eq_of_mem_outputs_sequential (fun t ht _ _ => ih t ht) hq

/-- Nothing arrives at the controller or at a sink inside a filter. -/
theorem IsFilter.not_arrives {t : Term} (h : IsFilter t) {x : Action} (hx : x.isTerminal = true)
    {p q : Packet} : ¬ Arrives (ofAction x) t p q := by
  induction h generalizing p q with
  | identity => cases x <;> cases hx <;> rintro ⟨⟩
  | drop => cases x <;> cases hx <;> rintro ⟨⟩
  | test m => cases x <;> cases hx <;> rintro ⟨⟩
  | negate _ ih =>
    rw [arrives_negate_iff]
    exact ih
  | parallel _ ih =>
    rw [arrives_parallel_iff]
    rintro ⟨t, ht, h⟩
    exact ih t ht h
  | sequential _ ih =>
    rw [arrives_sequential_iff]
    rintro ⟨before, t, after, rfl, r, -, h⟩
    exact ih t (by simp) h

end Term

/-! ## Tables of filters -/

/-- The actions of a rule that passes packets on or drops them. -/
def Action.Twofold (actions : List Action) : Prop := actions = [.identity] ∨ actions = [.drop]

namespace Action

theorem Twofold.union {as bs : List Action} (ha : Twofold as) (hb : Twofold bs) :
    Twofold (union as bs) := by
  rcases ha with rfl | rfl <;> rcases hb with rfl | rfl
  · exact .inl rfl
  · exact .inl rfl
  · exact .inl rfl
  · exact .inr rfl

theorem Twofold.followedBy {as bs : List Action} (ha : Twofold as) (hb : Twofold bs) {x : Action}
    (hx : x ∈ as) : Twofold (x.followedBy bs) := by
  rcases ha with rfl | rfl
  · obtain rfl := List.mem_singleton.1 hx
    exact hb
  · obtain rfl := List.mem_singleton.1 hx
    exact .inr rfl

theorem Twofold.negatable {actions : List Action} (h : Twofold actions) : Negatable actions := by
  rcases h with rfl | rfl
  · exact .inl rfl
  · exact .inr rfl

end Action

namespace Term

variable (c : CompileSettings)

theorem exists_forall₂ {part : Term → Table → Prop} {ts : List Term}
    (h : ∀ t ∈ ts, ∃ a, part t a) : ∃ tables, List.Forall₂ part ts tables := by
  induction ts with
  | nil => exact ⟨[], .nil⟩
  | cons t ts ih =>
    obtain ⟨a, ha⟩ := h t List.mem_cons_self
    obtain ⟨tables, htables⟩ := ih fun u hu => h u (List.mem_cons_of_mem _ hu)
    exact ⟨a :: tables, .cons ha htables⟩

/-- Terms with tables of some kind have such a table together, if merging keeps the kind. -/
theorem exists_compiles_merged {K : Table → Prop} {node : List Term → Term} {unit : Table}
    {merge : Table → Table → Table} (hnil : Compiles c (node []) unit)
    (hone : ∀ {t a}, Compiles c t a → Compiles c (node [t]) a)
    (hsnoc : ∀ {ts t a b}, ts ≠ [] → Compiles c (node ts) a → Compiles c t b →
      Compiles c (node (ts ++ [t])) (merge a b))
    (hunit : K unit) (hmerge : ∀ a b, K a → K b → K (merge a b)) {ts : List Term}
    (h : ∀ t ∈ ts, ∃ a, Compiles c t a ∧ K a) : ∃ a, Compiles c (node ts) a ∧ K a := by
  obtain ⟨tables, htables⟩ := exists_forall₂ h
  exact ⟨_, Table.mergeAll_induction (fun ts a => Compiles c (node ts) a ∧ K a) ⟨hnil, hunit⟩
    (fun t a ha => ⟨hone ha.1, ha.2⟩)
    (fun ts t a b hne ha hb => ⟨hsnoc hne ha.1 hb.1, hmerge a b ha.2 hb.2⟩) htables⟩

/-- A filter has a table, and each rule of it passes packets on or drops them. -/
theorem IsFilter.compiles {t : Term} (h : IsFilter t) :
    ∃ a, Compiles c t a ∧ a.AllActions Action.Twofold := by
  induction h with
  | identity => exact ⟨_, .identity, .single (.inl rfl)⟩
  | drop => exact ⟨_, .drop, .single (.inr rfl)⟩
  | test m => exact ⟨_, .test m, .test (.inl rfl) (.inr rfl)⟩
  | negate _ ih =>
    obtain ⟨a, ha, htwo⟩ := ih
    have hall : ∀ r ∈ a.rules, Action.Negatable r.actions := fun r hr => (htwo r hr).negatable
    have hneg : a.negate c.optimize = .ok _ := Table.negate_eq_ok_iff.2 ⟨hall, rfl⟩
    exact ⟨_, .negate ha hneg, .negate hneg (.inr rfl) (.inl rfl)⟩
  | parallel _ ih =>
    exact exists_compiles_merged c .parallelNil .parallelOne .parallelSnoc (.single (.inr rfl))
      (fun a b => .parallel c.optimize fun _ _ => .union) ih
  | sequential _ ih =>
    exact exists_compiles_merged c .sequentialNil .sequentialOne .sequentialSnoc
      (.single (.inl rfl)) (fun a b ha => .sequential c.optimize (.inr rfl) (fun _ _ => .union)
        fun r hr x hx as has => (ha r hr).followedBy has hx) ih

/-- A term has a table if only filters are negated. -/
theorem WellNegated.compiles {t : Term} (h : WellNegated t) : ∃ a, Compiles c t a := by
  suffices h : ∃ a, Compiles c t a ∧ True from h.imp fun _ => And.left
  induction h with
  | identity => exact ⟨_, .identity, trivial⟩
  | drop => exact ⟨_, .drop, trivial⟩
  | test m => exact ⟨_, .test m, trivial⟩
  | modify m => exact ⟨_, .modify m, trivial⟩
  | controller => exact ⟨_, .controller, trivial⟩
  | query s => exact ⟨_, .query s, trivial⟩
  | negate hfilter =>
    obtain ⟨a, ha, -⟩ := hfilter.negate.compiles c
    exact ⟨a, ha, trivial⟩
  | parallel _ ih =>
    exact exists_compiles_merged c .parallelNil .parallelOne .parallelSnoc trivial
      (fun _ _ _ _ => trivial) ih
  | sequential _ ih =>
    exact exists_compiles_merged c .sequentialNil .sequentialOne .sequentialSnoc trivial
      (fun _ _ _ _ => trivial) ih

end Term

/-! ## Policies -/

namespace Store

/-- The term of a filter is one too. -/
def FilterTerm (p : Policy) (t : Term) : Prop := p.isFilter = true → t.IsFilter

theorem FilterTerm.all {ps : List Policy} {ts : List Term} (h : List.Forall₂ FilterTerm ps ts)
    (hps : Policy.areFilters ps = true) : ∀ t ∈ ts, t.IsFilter := by
  induction h with
  | nil => simp
  | cons ht _ ih =>
    rw [Policy.areFilters, Bool.and_eq_true] at hps
    exact List.forall_mem_cons.2 ⟨ht hps.1, ih hps.2⟩

/-- Handles for filters refer to filters. -/
def HoldsFilters (s : Store) (l : List Policy) : Prop :=
  ∀ h, .dynamic h ∈ l → h.isFilter = true → (s.definition h).isFilter = true

theorem carried_filter (s : Store) : Carried s s.HoldsFilters FilterTerm where
  antitone hlk hk h hh := hk h (hlk hh)
  stuck _ _ := .drop
  leaf {l q t} _ _ hleaf := by
    cases q <;> simp only [Policy.leaf?, Option.some.injEq, reduceCtorEq] at hleaf <;> subst hleaf
    · exact fun _ => .identity
    · exact fun _ => .drop
    · exact fun _ => .test _
    · exact fun h => absurd h Bool.false_ne_true
    · exact fun h => absurd h Bool.false_ne_true
    · exact fun h => absurd h Bool.false_ne_true
  negate _ _ h hp := .negate (h hp)
  beside h := ⟨fun hp => .parallel (FilterTerm.all h hp), fun hp => .parallel (FilterTerm.all h hp)⟩
  along h :=
    ⟨fun hp => .sequential (FilterTerm.all h hp), fun hp => .sequential (FilterTerm.all h hp)⟩
  defined hexp h hp := h (Policy.isFilter_of_expansion? hexp ▸ hp)
  dynamic hl hh h hp := h (hl _ hh hp)

/-- What the term of a policy has to be: without negations of other than filters, and a filter if
the policy is one. -/
def Typed (p : Policy) (t : Term) : Prop := t.WellNegated ∧ FilterTerm p t

theorem Typed.all {ps : List Policy} {ts : List Term} (h : List.Forall₂ Typed ps ts) :
    (∀ t ∈ ts, t.WellNegated) ∧ List.Forall₂ FilterTerm ps ts := by
  induction h with
  | nil => simp
  | cons ht _ ih => exact ⟨List.forall_mem_cons.2 ⟨ht.1, ih.1⟩, .cons ht.2 ih.2⟩

/-- Only filters are negated, and handles for filters refer to filters. -/
def NegatesFilters (s : Store) (l : List Policy) : Prop :=
  (∀ q, .negate q ∈ l → q.isFilter = true) ∧ s.HoldsFilters l

theorem carried_typed (s : Store) : Carried s s.NegatesFilters Typed where
  antitone hlk hk := ⟨fun q hq => hk.1 q (hlk hq), s.carried_filter.antitone hlk hk.2⟩
  stuck p := ⟨.drop, s.carried_filter.stuck p⟩
  leaf {l q t} hl hq hleaf := by
    refine ⟨?_, s.carried_filter.leaf hl.2 hq hleaf⟩
    cases q <;> simp only [Policy.leaf?, Option.some.injEq, reduceCtorEq] at hleaf <;> subst hleaf
    · exact .identity
    · exact .drop
    · exact .test _
    · exact .modify _
    · exact .controller
    · exact .query _
  negate hl hq h := ⟨.negate (h.2 (hl.1 _ hq)), s.carried_filter.negate hl.2 hq h.2⟩
  beside h := by
    obtain ⟨hwell, hfilter⟩ := Typed.all h
    obtain ⟨hparallel, hunion⟩ := s.carried_filter.beside hfilter
    exact ⟨⟨.parallel hwell, hparallel⟩, ⟨.parallel hwell, hunion⟩⟩
  along h := by
    obtain ⟨hwell, hfilter⟩ := Typed.all h
    obtain ⟨hsequential, hintersection⟩ := s.carried_filter.along hfilter
    exact ⟨⟨.sequential hwell, hsequential⟩, ⟨.sequential hwell, hintersection⟩⟩
  defined hexp h := ⟨h.1, s.carried_filter.defined hexp h.2⟩
  dynamic hl hh h := ⟨h.1, s.carried_filter.dynamic hl.2 hh h.2⟩

theorem exists_compile_of_negatesFilters {s : Store} {p : Policy} (c : CompileSettings)
    (h : s.NegatesFilters (s.parts p)) : ∃ t, s.compile c p = .ok t := by
  obtain ⟨t, ht⟩ := (s.carried_typed.term h).1.compiles c
  exact ⟨t, ht.compile_eq⟩

/-- Each definition that was made for filters holds one. -/
def KeepsKinds (s : Store) : Prop :=
  ∀ d ∈ s.definitions, d.isFilter = true → d.policy.isFilter = true

/-- All handles that the policy goes through were given out by the store. -/
def OwnsAll (s : Store) (p : Policy) : Prop := ∀ h, .dynamic h ∈ s.parts p → s.owns h = true

theorem KeepsKinds.isFilter_definition {s : Store} (hs : s.KeepsKinds) {h : Handle}
    (howns : s.owns h = true) (hkind : h.isFilter = true) : (s.definition h).isFilter = true := by
  rw [owns] at howns
  rw [definition]
  cases hd : s.get? h with
  | none => simp [hd] at howns
  | some d =>
    have hsame : d.isFilter = h.isFilter := by simpa [hd] using howns
    exact hs d (List.mem_of_getElem? hd) (hsame.trans hkind)

/-- What handles refer to tells whether kinds are kept. -/
theorem keepsKinds_iff {s : Store} : s.KeepsKinds ↔
    ∀ h, s.owns h = true → h.isFilter = true → (s.definition h).isFilter = true := by
  refine ⟨fun hs h => hs.isFilter_definition, fun hs d hd hkind => ?_⟩
  obtain ⟨i, hi⟩ := List.mem_iff_getElem?.1 hd
  have hget : s.get? ⟨i, true⟩ = some d := hi
  have hdef := hs ⟨i, true⟩ (by simp [owns, hget, hkind]) rfl
  rwa [definition, hget] at hdef

theorem KeepsKinds.holdsFilters {s : Store} (hs : s.KeepsKinds) {p : Policy} (hp : s.OwnsAll p) :
    s.HoldsFilters (s.parts p) :=
  fun h hh => hs.isFilter_definition (hp h hh)

end Store

end PacketPolicy

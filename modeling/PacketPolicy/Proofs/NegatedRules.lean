import PacketPolicy.Proofs.Filters
import PacketPolicy.Proofs.Lookups
import PacketPolicy.Proofs.Shadowing

/-!
# Negation looks at shadowed rules

A table is negated rule by rule, and a rule that begins with neither `identity` nor `drop`
cannot be negated. A shadowed rule never fires, but it stands in the way of a negation as
long as it is there. So a term may have a table if shadowed rules are removed on the way
and none if they are kept, and this is the only difference that removing them makes: the
other way round, and wherever filters alone are negated, nothing is lost, and the tables
do the same to every packet.
-/

namespace PacketPolicy

namespace Term

/-- Somewhere in the first term the second is negated. -/
inductive Negates : Term → Term → Prop
  | here {u} : Negates (.negate u) u
  | negate {t u} : Negates t u → Negates (.negate t) u
  | parallel {ts t u} : t ∈ ts → Negates t u → Negates (.parallel ts) u
  | sequential {ts t u} : t ∈ ts → Negates t u → Negates (.sequential ts) u

variable {c : CompileSettings} {headers : HeaderSet} {t u : Term} {a b : Table}

theorem Negates.parallel_left {ts : List Term} (h : Negates (.parallel ts) u) :
    Negates (.parallel (ts ++ [t])) u := by
  cases h with
  | parallel hmem h => exact .parallel (List.mem_append_left _ hmem) h

theorem Negates.sequential_left {ts : List Term} (h : Negates (.sequential ts) u) :
    Negates (.sequential (ts ++ [t])) u := by
  cases h with
  | sequential hmem h => exact .sequential (List.mem_append_left _ hmem) h

theorem Compiles.unique (ha : Compiles c t a) (hb : Compiles c t b) : a = b :=
  Except.ok.inj (ha.compile_eq.symm.trans hb.compile_eq)

/-- What is negated in a term that has a table has a table too, of which each rule can be
negated. -/
theorem Compiles.negatable_of_negates (h : Compiles c t a) (hu : t.Negates u) :
    ∃ b, Compiles c u b ∧ ∀ r ∈ b.rules, Action.Negatable r.actions := by
  induction h with
  | identity | drop | test | modify | controller | query => cases hu
  | @negate t a b ha hneg ih =>
    cases hu with
    | here => exact ⟨a, ha, (Table.negate_eq_ok_iff.1 hneg).1⟩
    | negate hu => exact ih hu
  | parallelNil =>
    cases hu with
    | parallel hmem _ => cases hmem
  | parallelOne _ ih =>
    cases hu with
    | parallel hmem hu => exact ih (List.mem_singleton.1 hmem ▸ hu)
  | parallelSnoc _ _ _ iha ihb =>
    cases hu with
    | parallel hmem hu =>
      rcases List.mem_append.1 hmem with hmem | hmem
      · exact iha (.parallel hmem hu)
      · exact ihb (List.mem_singleton.1 hmem ▸ hu)
  | sequentialNil =>
    cases hu with
    | sequential hmem _ => cases hmem
  | sequentialOne _ ih =>
    cases hu with
    | sequential hmem hu => exact ih (List.mem_singleton.1 hmem ▸ hu)
  | sequentialSnoc _ _ _ iha ihb =>
    cases hu with
    | sequential hmem hu =>
      rcases List.mem_append.1 hmem with hmem | hmem
      · exact iha (.sequential hmem hu)
      · exact ihb (List.mem_singleton.1 hmem ▸ hu)

/-- The shadowed rules that a negation in the term meets, if they are kept, can be negated. -/
def ShadowsNegatable (headers : HeaderSet) (t : Term) : Prop :=
  ∀ u, t.Negates u → ∀ a, u.compile { headers, optimize := false } = .ok a →
    ∀ r ∈ a.rules, r ∉ a.prune.rules → Action.Negatable r.actions

/-- A term with a table keeps it without the removal of shadowed rules, if these do not get in
the way of a negation. -/
theorem Compiles.keepShadowed (h : Compiles { headers, optimize := true } t a)
    (hshadows : t.ShadowsNegatable headers) :
    ∃ raw, Compiles { headers, optimize := false } t raw := by
  induction h with
  | identity => exact ⟨_, .identity⟩
  | drop => exact ⟨_, .drop⟩
  | test m => exact ⟨_, .test m⟩
  | modify m => exact ⟨_, .modify m⟩
  | controller => exact ⟨_, .controller⟩
  | query s => exact ⟨_, .query s⟩
  | @negate t a b ha hneg ih =>
    obtain ⟨raw, hraw⟩ := ih fun u hu => hshadows u (.negate hu)
    -- the rules that remain of `raw` are those of `a`
    obtain rfl : a = raw.prune := ha.unique hraw.prune
    have hall : ∀ r ∈ raw.rules, Action.Negatable r.actions := by
      intro r hr
      by_cases hkept : r ∈ raw.prune.rules
      · exact (Table.negate_eq_ok_iff.1 hneg).1 r hkept
      · exact hshadows t .here raw hraw.compile_eq r hr hkept
    exact ⟨_, .negate hraw (Table.negate_eq_ok_iff.2 ⟨hall, rfl⟩)⟩
  | parallelNil => exact ⟨_, .parallelNil⟩
  | parallelOne _ ih =>
    obtain ⟨raw, hraw⟩ := ih fun u hu => hshadows u (.parallel (List.mem_singleton.2 rfl) hu)
    exact ⟨raw, .parallelOne hraw⟩
  | parallelSnoc hne _ _ iha ihb =>
    obtain ⟨raw, hraw⟩ := iha fun u hu => hshadows u hu.parallel_left
    obtain ⟨more, hmore⟩ := ihb fun u hu => hshadows u (.parallel (by simp) hu)
    exact ⟨_, .parallelSnoc hne hraw hmore⟩
  | sequentialNil => exact ⟨_, .sequentialNil⟩
  | sequentialOne _ ih =>
    obtain ⟨raw, hraw⟩ := ih fun u hu => hshadows u (.sequential (List.mem_singleton.2 rfl) hu)
    exact ⟨raw, .sequentialOne hraw⟩
  | sequentialSnoc hne _ _ iha ihb =>
    obtain ⟨raw, hraw⟩ := iha fun u hu => hshadows u hu.sequential_left
    obtain ⟨more, hmore⟩ := ihb fun u hu => hshadows u (.sequential (by simp) hu)
    exact ⟨_, .sequentialSnoc hne hraw hmore⟩

theorem exists_compiles_unpruned_iff :
    (∃ raw, Compiles { headers, optimize := false } t raw) ↔
      (∃ a, Compiles { headers, optimize := true } t a) ∧ t.ShadowsNegatable headers := by
  constructor
  · rintro ⟨raw, hraw⟩
    refine ⟨⟨raw.prune, hraw.prune⟩, ?_⟩
    intro u hu a ha r hr _
    obtain ⟨b, hb, hall⟩ := hraw.negatable_of_negates hu
    obtain rfl : a = b := (compile_eq_ok_iff.1 ha).unique hb
    exact hall r hr
  · rintro ⟨⟨a, ha⟩, hshadows⟩
    exact ha.keepShadowed hshadows

end Term

namespace Store

/-- Keeping shadowed rules costs a table only where one of them would have to be negated and cannot
be; so nothing is lost if only filters are negated. Where both tables exist, they do the same to
every packet. -/
theorem compile_unpruned_iff (s : Store) (p : Policy) (headers : HeaderSet) :
    ((∃ raw, s.compile { headers, optimize := false } p = .ok raw) ↔
      (∃ t, s.compile { headers, optimize := true } p = .ok t) ∧
        (s.term p).ShadowsNegatable headers) ∧
    ((s.term p).WellNegated → ∀ optimize, ∃ t, s.compile { headers, optimize } p = .ok t) ∧
    ∀ raw t, s.compile { headers, optimize := false } p = .ok raw →
      s.compile { headers, optimize := true } p = .ok t → ∀ pkt, ∃ x y,
        raw.lookup pkt = .ok x ∧ t.lookup pkt = .ok y ∧ y.outputs = x.outputs ∧
        y.fired = x.fired := by
  refine ⟨?_, ?_, ?_⟩
  · simp only [compile, Term.compile_eq_ok_iff]
    exact Term.exists_compiles_unpruned_iff
  · intro hfilters optimize
    obtain ⟨t, ht⟩ := hfilters.compiles { headers, optimize }
    exact ⟨t, ht.compile_eq⟩
  · intro raw t hraw ht pkt
    have hraw := Term.compile_eq_ok_iff.1 hraw
    obtain rfl : t = raw.prune := (Term.compile_eq_ok_iff.1 ht).unique hraw.prune
    obtain ⟨actions, hverdict⟩ := hraw.regular.total pkt
    obtain ⟨x, hx, -⟩ := Table.exists_lookup hverdict
    obtain ⟨y, hy, hsame⟩ := Table.exists_lookup_of_verdict_eq (raw.verdict_prune pkt) hx
    exact ⟨x, y, hx, hy, hsame⟩

/-- The rule of `controller` alone is shadowed by the one in which it stands beside `identity`.
Removed, it does not matter; kept, it cannot be negated. -/
theorem compile_unpruned_iff_shadowed :
    ∃ p : Policy, p = .negate (.parallel [.identity, .controller]) ∧
      (∃ t, ({} : Store).compile { headers := .compilable, optimize := true } p = .ok t) ∧
      ({} : Store).compile { headers := .compilable, optimize := false } p =
        .error (.notNegatable (some .controller)) :=
  ⟨_, rfl, ⟨_, rfl⟩, rfl⟩

/-- What is negated is no filter, but no rule for the controller is left of it, shadowed or not. -/
theorem compile_unpruned_iff_dropped :
    ∃ p raw t, p = .negate (.sequential [.drop, .controller]) ∧ p.isFilter = false ∧
      ({} : Store).compile { headers := .compilable, optimize := false } p = .ok raw ∧
      ({} : Store).compile { headers := .compilable, optimize := true } p = .ok t ∧
      (({} : Store).term p).ShadowsNegatable .compilable ∧
      ∀ pkt, ∃ x y, raw.lookup pkt = .ok x ∧ t.lookup pkt = .ok y ∧ y.outputs = x.outputs ∧
        y.fired = x.fired := by
  obtain ⟨hiff, -, hsame⟩ := compile_unpruned_iff {} (.negate (.sequential [.drop, .controller]))
    .compilable
  exact ⟨_, _, _, rfl, rfl, rfl, rfl, (hiff.1 ⟨_, rfl⟩).2, hsame _ _ rfl rfl⟩

end Store

end PacketPolicy

import PacketPolicy.Controller.Store
import PacketPolicy.Proofs.Derivation
import PacketPolicy.Proofs.TableEffect

/-!
# The shape of compiled tables

Every compiled table ends with a rule for all packets, has no rule for no packet,
and its action lists are orderly: never empty, `drop` only alone, and no sink and
no controller twice. Nothing in the compiler tests this. It is an invariant that
each merge restores, and that negation relies on when it looks at the first
action of a rule only.
-/

namespace PacketPolicy

theorem nodup_eraseDups {α : Type} [DecidableEq α] : (l : List α) → l.eraseDups.Nodup
  | [] => .nil
  | a :: l => by
    rw [List.eraseDups_cons, List.nodup_cons]
    exact ⟨by simp, nodup_eraseDups _⟩
termination_by l => l.length
decreasing_by exact Nat.lt_succ_of_le (List.length_filter_le _ _)

namespace Action

/-- What the action list of a compiled rule looks like. -/
structure Orderly (actions : List Action) : Prop where
  ne_nil : actions ≠ []
  drop_alone : .drop ∈ actions → actions = [.drop]
  ends_once : ∀ x : Action, x.isTerminal = true → actions.count x ≤ 1

theorem orderly_single (a : Action) : Orderly [a] where
  ne_nil := by simp
  drop_alone h := by rw [List.mem_singleton.1 h]
  ends_once x _ := by
    rw [List.count_singleton]
    split_ifs <;> simp

theorem orderly_union (as bs : List Action) : Orderly (union as bs) := by
  unfold union
  split
  · exact orderly_single .drop
  · next actions hne =>
    have hdrop : .drop ∉ ((as ++ bs).filter (· ≠ .drop)).eraseDups := by simp
    refine ⟨hne, ?_, ?_⟩
    · intro h
      exact absurd h hdrop
    · intro x _
      exact List.nodup_iff_count_le_one.1 (nodup_eraseDups _) x

theorem count_map_andThen {x : Action} (hx : x.isTerminal = true) (m : Modification)
    (actions : List Action) : (actions.map (andThen (.modify m))).count x = actions.count x := by
  induction actions with
  | nil => rfl
  | cons a rest ih => simp [List.count_cons, ih, modify_andThen_eq_iff hx]

theorem Orderly.followedBy {actions : List Action} (h : Orderly actions) (a : Action) :
    Orderly (a.followedBy actions) := by
  cases a with
  | identity => exact h
  | drop => exact orderly_single .drop
  | controller => exact orderly_single .controller
  | query s => exact orderly_single (.query s)
  | modify m =>
    refine ⟨by simpa [Action.followedBy] using h.ne_nil, ?_, ?_⟩
    · intro hdrop
      obtain ⟨b, hb, hb'⟩ := List.mem_map.1 hdrop
      obtain rfl : b = .drop := by cases b <;> simp_all [andThen]
      rw [h.drop_alone hb]
      rfl
    · intro x hx
      rw [Action.followedBy, count_map_andThen hx]
      exact h.ends_once x hx

end Action

namespace Table

/-- The last of some rules is for all packets. -/
def EndsOpen (l : List Rule) : Prop := ∃ init r, l = init ++ [r] ∧ r.predicate = .identity

theorem EndsOpen.append {l : List Rule} (h : EndsOpen l) (k : List Rule) : EndsOpen (k ++ l) := by
  obtain ⟨init, r, rfl, hr⟩ := h
  exact ⟨k ++ init, r, by simp, hr⟩

theorem EndsOpen.cons {l : List Rule} (h : EndsOpen l) (r : Rule) : EndsOpen (r :: l) :=
  h.append [r]

theorem EndsOpen.exists_mem {l : List Rule} (h : EndsOpen l) :
    ∃ r ∈ l, r.predicate = .identity := by
  obtain ⟨init, r, rfl, hr⟩ := h
  exact ⟨r, by simp, hr⟩

theorem EndsOpen.ne_nil {l : List Rule} (h : EndsOpen l) : l ≠ [] := by
  obtain ⟨init, r, rfl, -⟩ := h
  simp

theorem unshadowed_of_identity_mem {above : List Predicate} (h : .identity ∈ above)
    (l : List Rule) : unshadowed above l = [] := by
  induction l with
  | nil => rfl
  | cons r rest ih =>
    rw [unshadowed, if_pos (List.any_eq_true.2 ⟨.identity, h, rfl⟩), ih]

/-- The first rule for all packets is kept, and shadows all that come after it. -/
theorem endsOpen_unshadowed {l : List Rule} (h : ∃ r ∈ l, r.predicate = .identity)
    {above : List Predicate} (habove : .identity ∉ above) : EndsOpen (unshadowed above l) := by
  induction l generalizing above with
  | nil => simp at h
  | cons r rest ih =>
    rw [unshadowed]
    by_cases hr : r.predicate = .identity
    · have hkept : ¬ (above.any fun p => p.covers r.predicate) = true := by
        rw [List.any_eq_true]
        rintro ⟨p, hp, hcov⟩
        rw [hr] at hcov
        exact habove (Predicate.eq_identity_of_covers_identity hcov ▸ hp)
      rw [if_neg hkept, hr, unshadowed_of_identity_mem List.mem_cons_self]
      exact ⟨[], r, rfl, hr⟩
    · have hrest : ∃ s ∈ rest, s.predicate = .identity := by
        obtain ⟨s, hs, hid⟩ := h
        rcases List.mem_cons.1 hs with rfl | hs
        · exact absurd hid hr
        · exact ⟨s, hs, hid⟩
      split_ifs
      · exact ih hrest habove
      · refine (ih hrest ?_).cons r
        rw [List.mem_cons, not_or]
        exact ⟨fun e => hr e.symm, habove⟩

theorem unshadowed_sublist (above : List Predicate) (l : List Rule) :
    (unshadowed above l).Sublist l := by
  induction l generalizing above with
  | nil => exact .slnil
  | cons r rest ih =>
    rw [unshadowed]
    split_ifs
    · exact (ih above).cons r
    · exact (ih _).cons_cons r

theorem mem_of_mem_pruneIf {optimize : Bool} {t : Table} {r : Rule}
    (h : r ∈ (pruneIf optimize t).rules) : r ∈ t.rules := by
  cases optimize with
  | false => exact h
  | true => exact (unshadowed_sublist [] t.rules).subset h

theorem EndsOpen.pruneIf (optimize : Bool) {l : List Rule} (h : EndsOpen l) :
    EndsOpen (pruneIf optimize ⟨l⟩).rules := by
  cases optimize with
  | false => exact h
  | true => exact endsOpen_unshadowed h.exists_mem (by simp)

/-! ## Rules of merged tables -/

section Members

variable {optimize : Bool} {a b t : Table} {r : Rule}

theorem mem_parallel (h : r ∈ (parallel optimize a b).rules) :
    (r.predicate ≠ .drop ∧ ∃ x ∈ a.rules, ∃ y ∈ b.rules,
        r = ⟨x.predicate.meet y.predicate, Action.union x.actions y.actions⟩) ∨
      r ∈ a.rules ∨ r ∈ b.rules := by
  have hr := mem_of_mem_pruneIf h
  simp only [List.mem_append, or_assoc] at hr
  refine hr.imp_left ?_
  intro hcross
  obtain ⟨x, hx, hr⟩ := List.mem_flatMap.1 hcross
  obtain ⟨y, hy, hr⟩ := List.mem_filterMap.1 hr
  obtain ⟨hne, rfl⟩ := Rule.make?_eq_some_iff.1 (crossRule_eq x y ▸ hr)
  exact ⟨hne, x, hx, y, hy, rfl⟩

theorem mem_pushRules {a : Action} {l : List Rule} {r : Rule} (h : r ∈ pushRules a l) :
    r.predicate ≠ .drop ∧ ∃ s ∈ l, r = ⟨s.predicate.before a, a.followedBy s.actions⟩ := by
  induction l with
  | nil => simp [pushRules] at h
  | cons s rest ih =>
    have hmore : r ∈ pushRules a rest → r.predicate ≠ .drop ∧
        ∃ x ∈ s :: rest, r = ⟨x.predicate.before a, a.followedBy x.actions⟩ := by
      intro h
      obtain ⟨hpred, x, hx, hr⟩ := ih h
      exact ⟨hpred, x, List.mem_cons_of_mem _ hx, hr⟩
    rw [pushRules] at h
    split at h
    · exact hmore h
    · next hid =>
      obtain rfl := List.mem_singleton.1 h
      exact ⟨by simp, s, List.mem_cons_self, by rw [hid]⟩
    · next p hdrop hid =>
      rcases List.mem_cons.1 h with rfl | h
      · exact ⟨hdrop, s, List.mem_cons_self, rfl⟩
      · exact hmore h

theorem mem_push {x : Action} (h : r ∈ (push x t).rules) :
    r.predicate ≠ .drop ∧ (r = ⟨.identity, [.drop]⟩ ∨
      ∃ s ∈ t.rules, r = ⟨s.predicate.before x, x.followedBy s.actions⟩) := by
  unfold push at h
  split at h
  · obtain rfl := List.mem_singleton.1 h
    exact ⟨by simp, .inl rfl⟩
  · exact (mem_pushRules h).imp_right .inr

theorem mem_sequential (h : r ∈ (sequential optimize a b).rules) :
    r.predicate ≠ .drop ∧
      ∃ x ∈ a.rules, ∃ y ∈ (pushAll optimize x.actions b).rules,
        r = ⟨y.predicate.meet x.predicate, y.actions⟩ := by
  obtain ⟨x, hx, hr⟩ := List.mem_flatMap.1 (mem_of_mem_pruneIf h)
  obtain ⟨y, hy, hr⟩ := List.mem_filterMap.1 (mem_of_mem_pruneIf hr)
  obtain ⟨hne, rfl⟩ := Rule.make?_eq_some_iff.1 (restrictRule_eq x.predicate y ▸ hr)
  exact ⟨hne, x, hx, y, hy, rfl⟩

theorem mem_negate {u : Table} (hneg : t.negate optimize = .ok u) (h : r ∈ u.rules) :
    ∃ x ∈ t.rules, r = ⟨x.predicate, Action.flip x.actions⟩ := by
  obtain ⟨-, rfl⟩ := negate_eq_ok_iff.1 hneg
  obtain ⟨x, hx, rfl⟩ := List.mem_map.1 (mem_of_mem_pruneIf h)
  exact ⟨x, hx, rfl⟩

/-- What holds before a fold of merges, and of each table pushed, holds of all of them. -/
theorem pushAll_induction {P : Table → Prop} (optimize : Bool) {actions : List Action}
    (drop : P dropAll) (push : ∀ x ∈ actions, P (push x t))
    (merge : ∀ a b, P a → P b → P (parallel optimize a b)) :
    P (pushAll optimize actions t) := by
  cases actions with
  | nil => exact drop
  | cons x rest =>
    have hrest : ∀ y ∈ rest, P (Table.push y t) := fun y hy => push y (List.mem_cons_of_mem _ hy)
    have hfold : ∀ acc : Table, P acc →
        P (rest.foldl (fun acc y => Table.parallel optimize acc (Table.push y t)) acc) := by
      clear push
      induction rest with
      | nil => exact fun acc hacc => hacc
      | cons y rest ih =>
        intro acc hacc
        exact ih (fun z hz => hrest z (List.mem_cons_of_mem _ hz)) _
          (merge _ _ hacc (hrest y List.mem_cons_self))
    exact hfold _ (push x List.mem_cons_self)

end Members

/-! ## Lists of actions -/

/-- All lists of actions in the table have a property. -/
def AllActions (A : List Action → Prop) (t : Table) : Prop := ∀ r ∈ t.rules, A r.actions

namespace AllActions

variable {A : List Action → Prop} {a b t : Table}

theorem single {x : Action} (h : A [x]) : (single x).AllActions A := by
  intro r hr
  obtain rfl := List.mem_singleton.1 hr
  exact h

theorem test {m : Match} (hidentity : A [.identity]) (hdrop : A [.drop]) :
    AllActions A ⟨[⟨.test m, [.identity]⟩, ⟨.identity, [.drop]⟩]⟩ :=
  List.forall_mem_cons.2 ⟨hidentity, List.forall_mem_singleton.2 hdrop⟩

theorem parallel (optimize : Bool) (hunion : ∀ as bs, A as → A bs → A (Action.union as bs))
    (ha : a.AllActions A) (hb : b.AllActions A) : (parallel optimize a b).AllActions A := by
  intro r hr
  rcases mem_parallel hr with ⟨-, x, hx, y, hy, rfl⟩ | hr | hr
  · exact hunion _ _ (ha x hx) (hb y hy)
  · exact ha r hr
  · exact hb r hr

theorem push {x : Action} (hdrop : A [.drop]) (hx : ∀ as, A as → A (x.followedBy as))
    (ht : t.AllActions A) : (push x t).AllActions A := by
  intro r hr
  rcases (mem_push hr).2 with rfl | ⟨s, hs, rfl⟩
  · exact hdrop
  · exact hx _ (ht s hs)

theorem pushAll (optimize : Bool) {actions : List Action} (hdrop : A [.drop])
    (hunion : ∀ as bs, A as → A bs → A (Action.union as bs))
    (hfollow : ∀ x ∈ actions, ∀ as, A as → A (x.followedBy as)) (ht : t.AllActions A) :
    (pushAll optimize actions t).AllActions A :=
  pushAll_induction optimize (single hdrop) (fun x hx => ht.push hdrop (hfollow x hx))
    fun _ _ => parallel optimize hunion

theorem sequential (optimize : Bool) (hdrop : A [.drop])
    (hunion : ∀ as bs, A as → A bs → A (Action.union as bs))
    (hfollow : ∀ r ∈ a.rules, ∀ x ∈ r.actions, ∀ as, A as → A (x.followedBy as))
    (hb : b.AllActions A) : (sequential optimize a b).AllActions A := by
  intro r hr
  obtain ⟨-, x, hx, y, hy, rfl⟩ := mem_sequential hr
  exact hb.pushAll optimize hdrop hunion (hfollow x hx) y hy

theorem negate {optimize : Bool} {u : Table} (hneg : t.negate optimize = .ok u)
    (hdrop : A [.drop]) (hidentity : A [.identity]) : u.AllActions A := by
  intro r hr
  obtain ⟨x, -, rfl⟩ := mem_negate hneg hr
  change A (Action.flip x.actions)
  unfold Action.flip
  split_ifs
  · exact hidentity
  · exact hdrop

end AllActions

/-- The invariant of compiled tables. -/
structure Regular (t : Table) : Prop where
  endsOpen : EndsOpen t.rules
  predicates : ∀ r ∈ t.rules, r.predicate ≠ .drop
  actions : t.AllActions Action.Orderly

namespace Regular

variable {a b t : Table}

theorem single (x : Action) : (single x).Regular where
  endsOpen := ⟨[], _, rfl, rfl⟩
  predicates := by simp [Table.single]
  actions := .single (Action.orderly_single x)

theorem total (h : t.Regular) : t.Total := by
  intro pkt
  obtain ⟨r, hr, hid⟩ := h.endsOpen.exists_mem
  have hsome : (t.verdict pkt).isSome = true :=
    List.findSome?_isSome_iff.2 ⟨r, hr, by simp [Rule.fire?, hid]⟩
  exact Option.isSome_iff_exists.1 hsome

theorem parallel (optimize : Bool) (ha : a.Regular) (hb : b.Regular) :
    (parallel optimize a b).Regular where
  endsOpen := (hb.endsOpen.append _).pruneIf optimize
  predicates r hr := by
    rcases mem_parallel hr with ⟨hne, -⟩ | hr | hr
    · exact hne
    · exact ha.predicates r hr
    · exact hb.predicates r hr
  actions := ha.actions.parallel optimize (fun _ _ _ _ => Action.orderly_union _ _) hb.actions

theorem endsOpen_pushRules {a : Action} (ha : a ≠ .drop) {l : List Rule}
    (h : ∃ r ∈ l, r.predicate = .identity) : EndsOpen (pushRules a l) := by
  induction l with
  | nil => simp at h
  | cons r rest ih =>
    have hrest : r.predicate.before a ≠ .identity → ∃ s ∈ rest, s.predicate = .identity := by
      intro hne
      obtain ⟨s, hs, hid⟩ := h
      rcases List.mem_cons.1 hs with rfl | hs
      · rw [hid, Predicate.identity_before ha] at hne
        exact absurd rfl hne
      · exact ⟨s, hs, hid⟩
    rw [pushRules]
    split
    · next hdrop => exact ih (hrest (by simp [hdrop]))
    · exact ⟨[], _, rfl, rfl⟩
    · next p hdrop hid => exact (ih (hrest hid)).cons _

theorem push (x : Action) (ht : t.Regular) : (push x t).Regular where
  endsOpen := by
    by_cases hx : x = .drop
    · rw [hx, push_drop]
      exact (single .drop).endsOpen
    · have hends := endsOpen_pushRules hx ht.endsOpen.exists_mem
      rw [push_of_ne_nil hends.ne_nil]
      exact hends
  predicates r hr := (mem_push hr).1
  actions := ht.actions.push (Action.orderly_single _) fun _ has => has.followedBy x

theorem pushAll (optimize : Bool) (actions : List Action) (ht : t.Regular) :
    (pushAll optimize actions t).Regular :=
  pushAll_induction optimize (single .drop) (fun x _ => ht.push x) fun _ _ => parallel optimize

/-- What a rule for all packets is followed by ends with a rule for all packets. -/
theorem endsOpen_sequenceRule (optimize : Bool) {r : Rule} (hr : r.predicate = .identity)
    (ht : t.Regular) : EndsOpen (sequenceRule optimize r t).rules := by
  obtain ⟨init, last, hrules, hlast⟩ := (ht.pushAll optimize r.actions).endsOpen
  have hkept : restrictRule r.predicate last = some last := by
    obtain ⟨p, actions⟩ := last
    obtain rfl : p = .identity := hlast
    rw [restrictRule, hr]
    rfl
  refine EndsOpen.pruneIf optimize
    ⟨init.filterMap (restrictRule r.predicate), last, ?_, hlast⟩
  rw [hrules, List.filterMap_append, List.filterMap_cons_some hkept, List.filterMap_nil]

theorem sequential (optimize : Bool) (ha : a.Regular) (hb : b.Regular) :
    (sequential optimize a b).Regular where
  endsOpen := by
    obtain ⟨init, r, hrules, hr⟩ := ha.endsOpen
    apply EndsOpen.pruneIf
    rw [hrules, List.flatMap_append, List.flatMap_singleton]
    exact (hb.endsOpen_sequenceRule optimize hr).append _
  predicates r hr := (mem_sequential hr).1
  actions := hb.actions.sequential optimize (Action.orderly_single _)
    (fun _ _ _ _ => Action.orderly_union _ _) fun _ _ x _ _ has => has.followedBy x

theorem negate {optimize : Bool} {u : Table} (ht : t.Regular) (h : t.negate optimize = .ok u) :
    u.Regular where
  endsOpen := by
    obtain ⟨-, rfl⟩ := negate_eq_ok_iff.1 h
    obtain ⟨init, r, hrules, hr⟩ := ht.endsOpen
    apply EndsOpen.pruneIf
    rw [hrules, List.map_append, List.map_singleton]
    exact ⟨_, _, rfl, hr⟩
  predicates r hr := by
    obtain ⟨x, hx, rfl⟩ := mem_negate h hr
    exact ht.predicates x hx
  actions := .negate h (Action.orderly_single _) (Action.orderly_single _)

end Regular

/-! ## Shadowed rules -/

/-- No rule is covered by a rule before it. -/
def Irredundant (t : Table) : Prop :=
  t.rules.Pairwise fun r s => r.predicate.covers s.predicate = false

theorem pairwise_unshadowed (above : List Predicate) (l : List Rule) :
    (∀ r ∈ unshadowed above l, ∀ p ∈ above, p.covers r.predicate = false) ∧
      (unshadowed above l).Pairwise fun r s => r.predicate.covers s.predicate = false := by
  induction l generalizing above with
  | nil => simp [unshadowed]
  | cons r rest ih =>
    rw [unshadowed]
    split_ifs with hr
    · exact ih above
    · obtain ⟨hclear, hpair⟩ := ih (r.predicate :: above)
      have hkept : ∀ p ∈ above, p.covers r.predicate = false := by simpa using hr
      refine ⟨List.forall_mem_cons.2 ⟨hkept, ?_⟩, List.pairwise_cons.2 ⟨?_, hpair⟩⟩
      · intro s hs p hp
        exact hclear s hs p (List.mem_cons_of_mem _ hp)
      · intro s hs
        exact hclear s hs _ List.mem_cons_self

theorem irredundant_prune (t : Table) : t.prune.Irredundant :=
  (pairwise_unshadowed [] t.rules).2

/-- In a table without shadowed rules nothing comes after a rule for all packets. -/
theorem Irredundant.identity_last {t : Table} (h : t.Irredundant) :
    ∀ r ∈ t.rules.dropLast, r.predicate ≠ .identity := by
  intro r hr hid
  have hne : t.rules ≠ [] := by
    rintro hnil
    simp [hnil] at hr
  have hpair := h
  rw [Irredundant, ← List.dropLast_append_getLast hne, List.pairwise_append] at hpair
  have := hpair.2.2 r hr _ (List.mem_singleton.2 rfl)
  simp [hid] at this

end Table

namespace Term

theorem Compiles.regular {c : CompileSettings} {t : Term} {a : Table} (h : Compiles c t a) :
    a.Regular := by
  induction h with
  | identity => exact .single .identity
  | drop => exact .single .drop
  | test m =>
    exact ⟨⟨[_], _, rfl, rfl⟩, by simp,
      .test (Action.orderly_single _) (Action.orderly_single _)⟩
  | modify m => exact .single _
  | controller => exact .single .controller
  | query s => exact .single (.query s)
  | negate _ hneg ih => exact ih.negate hneg
  | parallelNil => exact .single .drop
  | parallelOne _ ih => exact ih
  | parallelSnoc _ _ _ iha ihb => exact iha.parallel c.optimize ihb
  | sequentialNil => exact .single .identity
  | sequentialOne _ ih => exact ih
  | sequentialSnoc _ _ _ iha ihb => exact iha.sequential c.optimize ihb

theorem Compiles.irredundant {c : CompileSettings} (hc : c.optimize = true) {t : Term} {a : Table}
    (h : Compiles c t a) : a.Irredundant := by
  have hsingle : ∀ x : Action, (Table.single x).Irredundant := fun x => List.pairwise_singleton _ _
  have hprune : ∀ t : Table, (t.pruneIf c.optimize).Irredundant := by
    intro t
    rw [hc]
    exact t.irredundant_prune
  induction h with
  | identity => exact hsingle _
  | drop => exact hsingle _
  | test m => simp [Table.Irredundant, Predicate.covers]
  | modify m => exact hsingle _
  | controller => exact hsingle _
  | query s => exact hsingle _
  | negate _ hneg _ =>
    obtain ⟨-, rfl⟩ := Table.negate_eq_ok_iff.1 hneg
    exact hprune _
  | parallelNil => exact hsingle _
  | parallelOne _ ih => exact ih
  | parallelSnoc => exact hprune _
  | sequentialNil => exact hsingle _
  | sequentialOne _ ih => exact ih
  | sequentialSnoc => exact hprune _

end Term

/-- Every compiled table accepts every packet by its last rule, and its rules are as the merges of
tables need them. Without shadowed rules, it has only this one rule for all packets. -/
theorem Store.shape_of_compile {s : Store} {c : CompileSettings} {p : Policy} {t : Table}
    (h : s.compile c p = .ok t) :
    t.rules ≠ [] ∧ t.rules.getLast?.map Rule.predicate = some .identity ∧
      (∀ pkt, (∃ r ∈ t.rules, r.predicate.accepts pkt = true) ∧
        ∃ report, t.lookup pkt = .ok report) ∧
      (∀ r ∈ t.rules, r.predicate ≠ .drop ∧ r.actions ≠ [] ∧
        (.drop ∈ r.actions → r.actions = [.drop]) ∧
        (∀ b, r.actions.count (.query b) ≤ 1) ∧ r.actions.count .controller ≤ 1) ∧
      (c.optimize = true → (∀ r ∈ t.rules.dropLast, r.predicate ≠ .identity) ∧
        t.rules.Pairwise fun r s => r.predicate.covers s.predicate = false) := by
  have hcomp := Term.compile_eq_ok_iff.1 h
  have hreg := hcomp.regular
  obtain ⟨init, last, hrules, hlast⟩ := hreg.endsOpen
  refine ⟨by simp [hrules], by simp [hrules, hlast], ?_, ?_, ?_⟩
  · intro pkt
    obtain ⟨actions, hverdict⟩ := hreg.total pkt
    obtain ⟨i, r, hfind, hr, hacc, -⟩ := Table.find?_of_verdict hverdict
    exact ⟨⟨r, hr, hacc⟩, _, Table.lookup_of_find? hfind⟩
  · intro r hr
    obtain ⟨hne, hdrop, honce⟩ := hreg.actions r hr
    exact ⟨hreg.predicates r hr, hne, hdrop, fun b => honce _ rfl, honce _ rfl⟩
  · intro hc
    have hirr := hcomp.irredundant hc
    exact ⟨hirr.identity_last, hirr⟩

theorem Store.shape_of_compile_conditional :
    ∃ t, ({} : Store).compile {} (.conditional (.test (.int "inport" 1))
        (.parallel [.query ⟨.count, 0⟩, .forward 2]) .controller) = .ok t ∧
      t.rules.getLast?.map Rule.predicate = some .identity ∧
      (∀ r ∈ t.rules, r.actions.count (.query ⟨.count, 0⟩) ≤ 1) ∧
      ∀ r ∈ t.rules.dropLast, r.predicate ≠ .identity := by
  refine ⟨_, rfl, ?_⟩
  obtain ⟨-, hlast, -, hrules, hopt⟩ := Store.shape_of_compile
    (s := {}) (c := {}) (p := .conditional (.test (.int "inport" 1))
      (.parallel [.query ⟨.count, 0⟩, .forward 2]) .controller) rfl
  exact ⟨hlast, fun r hr => (hrules r hr).2.2.2.1 _, (hopt rfl).1⟩

end PacketPolicy

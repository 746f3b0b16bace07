import PacketPolicy.Proofs.Shape

/-!
# Removing shadowed rules early or late

Two lists of rules are alike if the same rules remain of both when shadowed rules
are removed, whatever stands above them. A list is alike to what remains of it,
and every merge of tables keeps lists alike. So it makes no difference to the
final table whether shadowed rules are removed after every merge or once at the
end.

The merges build their rules from those of the parts by functions that keep the
order of predicates (`Isotone`): from a rule that covers another come rules that
cover all that come from the other.
-/

namespace PacketPolicy

namespace Table

/-- Some predicate of the list covers the predicate. -/
def Covered (above : List Predicate) (p : Predicate) : Prop := ∃ q ∈ above, q.covers p = true

theorem Covered.of_covers {above : List Predicate} {p q : Predicate} (h : Covered above p)
    (hpq : p.covers q = true) : Covered above q := by
  obtain ⟨x, hx, hxp⟩ := h
  exact ⟨x, hx, Predicate.covers_trans hxp hpq⟩

theorem Covered.mono {above more : List Predicate} {p : Predicate} (h : Covered above p)
    (hsub : above ⊆ more) : Covered more p := by
  obtain ⟨x, hx, hxp⟩ := h
  exact ⟨x, hsub hx, hxp⟩

theorem unshadowed_cons_of_covered {above : List Predicate} {r : Rule}
    (h : Covered above r.predicate) (rest : List Rule) :
    unshadowed above (r :: rest) = unshadowed above rest := by
  rw [unshadowed, if_pos (List.any_eq_true.2 h)]

theorem unshadowed_cons_of_not_covered {above : List Predicate} {r : Rule}
    (h : ¬ Covered above r.predicate) (rest : List Rule) :
    unshadowed above (r :: rest) = r :: unshadowed (r.predicate :: above) rest := by
  rw [unshadowed, if_neg fun hany => h (List.any_eq_true.1 hany)]

/-- Only what is covered from above matters. -/
theorem unshadowed_congr {above more : List Predicate} (h : ∀ p, Covered above p ↔ Covered more p)
    (l : List Rule) : unshadowed above l = unshadowed more l := by
  induction l generalizing above more with
  | nil => rfl
  | cons r rest ih =>
    by_cases hr : Covered above r.predicate
    · rw [unshadowed_cons_of_covered hr, unshadowed_cons_of_covered ((h _).1 hr), ih h]
    · rw [unshadowed_cons_of_not_covered hr,
        unshadowed_cons_of_not_covered fun hm => hr ((h _).2 hm)]
      rw [ih fun p => ?_]
      simp only [Covered, List.exists_mem_cons_iff]
      exact or_congr_right (h p)

/-- The predicates above what follows some rules. -/
def aboveAfter (above : List Predicate) (l : List Rule) : List Predicate :=
  (unshadowed above l).map Rule.predicate ++ above

theorem unshadowed_append (above : List Predicate) (l k : List Rule) :
    unshadowed above (l ++ k) = unshadowed above l ++ unshadowed (aboveAfter above l) k := by
  induction l generalizing above with
  | nil => rfl
  | cons r rest ih =>
    by_cases hr : Covered above r.predicate
    · rw [List.cons_append, aboveAfter, unshadowed_cons_of_covered hr,
        unshadowed_cons_of_covered hr, ih, aboveAfter]
    · rw [List.cons_append, aboveAfter, unshadowed_cons_of_not_covered hr,
        unshadowed_cons_of_not_covered hr, ih, List.cons_append]
      congr 2
      refine unshadowed_congr (fun p => ?_) k
      have hperm : (aboveAfter (r.predicate :: above) rest).Perm
          ((r :: unshadowed (r.predicate :: above) rest).map Rule.predicate ++ above) :=
        List.perm_middle
      exact ⟨fun h => h.mono hperm.subset, fun h => h.mono hperm.symm.subset⟩

/-- A rule is kept, or covered by one that is. -/
theorem covered_of_mem {l : List Rule} {r : Rule} (hr : r ∈ l) (above : List Predicate) :
    Covered (aboveAfter above l) r.predicate := by
  induction l generalizing above with
  | nil => simp at hr
  | cons s rest ih =>
    unfold aboveAfter
    by_cases hs : Covered above s.predicate
    · rw [unshadowed_cons_of_covered hs]
      rcases List.mem_cons.1 hr with rfl | hr
      · exact hs.mono (List.subset_append_right _ _)
      · exact ih hr above
    · rw [unshadowed_cons_of_not_covered hs]
      rcases List.mem_cons.1 hr with rfl | hr
      · exact ⟨r.predicate, by simp, Predicate.covers_refl _⟩
      · exact (ih hr (s.predicate :: above)).mono List.perm_middle.subset

theorem exists_mem_pruneIf (optimize : Bool) {l : List Rule} {r : Rule} (hr : r ∈ l) :
    ∃ x ∈ (pruneIf optimize ⟨l⟩).rules, x.predicate.covers r.predicate = true := by
  cases optimize with
  | false => exact ⟨r, hr, Predicate.covers_refl _⟩
  | true =>
    obtain ⟨p, hp, hpr⟩ := covered_of_mem hr []
    rw [aboveAfter, List.append_nil] at hp
    obtain ⟨x, hx, rfl⟩ := List.mem_map.1 hp
    exact ⟨x, hx, hpr⟩

theorem unshadowed_eq_nil {above : List Predicate} {l : List Rule}
    (h : ∀ r ∈ l, Covered above r.predicate) : unshadowed above l = [] := by
  induction l with
  | nil => rfl
  | cons r rest ih =>
    rw [unshadowed_cons_of_covered (h r List.mem_cons_self)]
    exact ih fun s hs => h s (List.mem_cons_of_mem _ hs)

/-! ## Functions on rules that keep the order -/

/-- From a rule that covers another come rules that cover all that come from the other. -/
def Isotone (f : Rule → List Rule) : Prop :=
  ∀ r s : Rule, r.predicate.covers s.predicate = true →
    ∀ y ∈ f s, ∃ x ∈ f r, x.predicate.covers y.predicate = true

/-- Rules that are shadowed before an isotone function are shadowed after it. -/
theorem unshadowed_flatMap_unshadowed {f : Rule → List Rule} (hf : Isotone f) (l : List Rule)
    {above before : List Predicate}
    (h : ∀ r : Rule, Covered before r.predicate → ∀ x ∈ f r, Covered above x.predicate) :
    unshadowed above ((unshadowed before l).flatMap f) = unshadowed above (l.flatMap f) := by
  induction l generalizing above before with
  | nil => rfl
  | cons r rest ih =>
    rw [List.flatMap_cons]
    by_cases hr : Covered before r.predicate
    · have hgone : unshadowed above (f r) = [] := unshadowed_eq_nil (h r hr)
      rw [unshadowed_cons_of_covered hr, ih h, unshadowed_append, hgone, aboveAfter, hgone]
      rfl
    · rw [unshadowed_cons_of_not_covered hr, List.flatMap_cons, unshadowed_append,
        unshadowed_append, ih]
      rintro s ⟨p, hp, hps⟩ y hy
      rcases List.mem_cons.1 hp with rfl | hp
      · obtain ⟨x, hx, hxy⟩ := hf r s hps y hy
        exact (covered_of_mem hx above).of_covers hxy
      · exact (h s ⟨p, hp, hps⟩ y hy).mono (List.subset_append_right _ _)

/-! ## Lists of which the same remains -/

/-- The same rules remain of both, whatever stands above them. -/
def Alike (l k : List Rule) : Prop := ∀ above, unshadowed above l = unshadowed above k

namespace Alike

variable {l k l' k' : List Rule}

theorem refl (l : List Rule) : Alike l l := fun _ => rfl

theorem symm (h : Alike l k) : Alike k l := fun above => (h above).symm

theorem trans {m : List Rule} (h : Alike l k) (h' : Alike k m) : Alike l m := fun above =>
  (h above).trans (h' above)

theorem append (h : Alike l k) (h' : Alike l' k') : Alike (l ++ l') (k ++ k') := by
  intro above
  rw [unshadowed_append, unshadowed_append, aboveAfter, aboveAfter, h above, h' _]

theorem cons (r : Rule) (h : Alike l k) : Alike (r :: l) (r :: k) := (refl [r]).append h

theorem flatMap_congr {f g : Rule → List Rule} (h : ∀ r ∈ l, Alike (f r) (g r)) :
    Alike (l.flatMap f) (l.flatMap g) := by
  induction l with
  | nil => exact refl []
  | cons r rest ih =>
    rw [List.flatMap_cons, List.flatMap_cons]
    exact (h r List.mem_cons_self).append (ih fun s hs => h s (List.mem_cons_of_mem _ hs))

theorem flatMap_unshadowed {f : Rule → List Rule} (hf : Isotone f) (l : List Rule) :
    Alike ((unshadowed [] l).flatMap f) (l.flatMap f) := fun _ =>
  unshadowed_flatMap_unshadowed hf l fun _ ⟨_, hp, _⟩ => absurd hp List.not_mem_nil

theorem flatMap {f : Rule → List Rule} (hf : Isotone f) (h : Alike l k) :
    Alike (l.flatMap f) (k.flatMap f) := by
  have hk := flatMap_unshadowed hf k
  rw [← h []] at hk
  exact (flatMap_unshadowed hf l).symm.trans hk

theorem filterMap {f : Rule → Option Rule} (hf : Isotone fun r => (f r).toList)
    (h : Alike l k) : Alike (l.filterMap f) (k.filterMap f) := by
  rw [List.filterMap_eq_flatMap_toList, List.filterMap_eq_flatMap_toList]
  exact h.flatMap hf

/-- A list is alike to what remains of it. -/
theorem unshadowed_self (l : List Rule) : Alike (unshadowed [] l) l := by
  have h := flatMap_unshadowed (f := fun r => [r]) (fun r s hrs y hy => ?_) l
  · simpa using h
  · obtain rfl := List.mem_singleton.1 hy
    exact ⟨r, List.mem_singleton.2 rfl, hrs⟩

theorem pruneIf (optimize : Bool) (t : Table) : Alike (t.pruneIf optimize).rules t.rules := by
  cases optimize with
  | false => exact refl _
  | true => exact unshadowed_self _

theorem prune_eq {a b : Table} (h : Alike a.rules b.rules) : a.prune = b.prune :=
  congrArg Table.mk (h [])

theorem eq_nil (h : Alike l k) (hl : l = []) : k = [] := by
  cases k with
  | nil => rfl
  | cons r rest =>
    have := h []
    rw [hl, unshadowed_cons_of_not_covered fun ⟨_, hp, _⟩ => absurd hp List.not_mem_nil] at this
    cases this

/-- Nothing remains after a rule for all packets. -/
theorem identity_cons {r : Rule} (hr : r.predicate = .identity) (l : List Rule) :
    Alike [r] (r :: l) := by
  intro above
  by_cases h : Covered above r.predicate
  · have hmem : .identity ∈ above := by
      obtain ⟨p, hp, hpr⟩ := h
      rw [hr] at hpr
      exact Predicate.eq_identity_of_covers_identity hpr ▸ hp
    rw [unshadowed_of_identity_mem hmem, unshadowed_of_identity_mem hmem]
  · rw [unshadowed_cons_of_not_covered h, unshadowed_cons_of_not_covered h, hr,
      unshadowed_of_identity_mem List.mem_cons_self, unshadowed_of_identity_mem List.mem_cons_self]

end Alike

theorem prune_prune (t : Table) : t.prune.prune = t.prune :=
  (Alike.unshadowed_self t.rules).prune_eq

/-! ## Merges keep lists alike -/

theorem ne_drop_of_covers {p q : Predicate} (h : p.covers q = true) (hq : q ≠ .drop) :
    p ≠ .drop := by
  rintro rfl
  exact hq (Predicate.eq_drop_of_drop_covers h)

theorem make?_mono {p q : Predicate} (h : p.covers q = true) (as bs : List Action) {y : Rule}
    (hy : Rule.make? q bs = some y) :
    ∃ x, Rule.make? p as = some x ∧ x.predicate.covers y.predicate = true := by
  obtain ⟨hne, rfl⟩ := Rule.make?_eq_some_iff.1 hy
  exact ⟨⟨p, as⟩, Rule.make?_eq_some_iff.2 ⟨ne_drop_of_covers h hne, rfl⟩, h⟩

/-- A function is isotone if it makes rules of predicates and does so in their order. -/
theorem isotone_make? {p : Predicate → Predicate} {actions : Rule → List Action}
    (h : ∀ q q', q.covers q' = true → (p q).covers (p q') = true) :
    Isotone fun r => (Rule.make? (p r.predicate) (actions r)).toList := by
  intro r s hrs y hy
  obtain ⟨x, hx, hxy⟩ := make?_mono (h _ _ hrs) (actions r) (actions s) (Option.mem_toList.1 hy)
  exact ⟨x, Option.mem_toList.2 hx, hxy⟩

theorem isotone_cross_left (b : List Rule) : Isotone fun r => b.filterMap (crossRule r) := by
  intro r s hrs y hy
  obtain ⟨z, hz, hsz⟩ := List.mem_filterMap.1 hy
  have hcov := Predicate.meet_mono hrs (Predicate.covers_refl z.predicate)
  obtain ⟨x, hx, hxy⟩ := make?_mono hcov (Action.union r.actions z.actions) _ hsz
  exact ⟨x, List.mem_filterMap.2 ⟨z, hz, hx⟩, hxy⟩

theorem isotone_cross_right (r : Rule) : Isotone fun s => (crossRule r s).toList :=
  isotone_make? fun _ _ => Predicate.meet_mono (Predicate.covers_refl r.predicate)

theorem Alike.cross {a a' b b' : List Rule} (ha : Alike a a') (hb : Alike b b') :
    Alike (cross a b) (cross a' b') :=
  (flatMap_congr fun r _ => hb.filterMap (isotone_cross_right r)).trans
    (ha.flatMap (isotone_cross_left b'))

theorem Alike.parallel {a a' b b' : Table} (optimize optimize' : Bool)
    (ha : Alike a.rules a'.rules) (hb : Alike b.rules b'.rules) :
    Alike (parallel optimize a b).rules (parallel optimize' a' b').rules := by
  have h := ((ha.cross hb).append ha).append hb
  exact (Alike.pruneIf optimize _).trans (h.trans (Alike.pruneIf optimize' _).symm)

/-- A rule as seen before an action. -/
def pushRule? (a : Action) (r : Rule) : Option Rule :=
  Rule.make? (r.predicate.before a) (a.followedBy r.actions)

theorem isotone_pushRule? (a : Action) : Isotone fun r => (pushRule? a r).toList :=
  isotone_make? fun _ _ => Predicate.before_mono a

/-- Stopping at the first rule for all packets leaves out shadowed rules only. -/
theorem alike_pushRules (a : Action) (l : List Rule) :
    Alike (pushRules a l) (l.filterMap (pushRule? a)) := by
  induction l with
  | nil => exact Alike.refl []
  | cons r rest ih =>
    rw [pushRules, List.filterMap_cons, pushRule?]
    cases r.predicate.before a with
    | drop => exact ih
    | identity => exact Alike.identity_cons rfl _
    | test m => exact ih.cons _

theorem Alike.pushRules {l k : List Rule} (a : Action) (h : Alike l k) :
    Alike (pushRules a l) (pushRules a k) :=
  (alike_pushRules a l).trans ((h.filterMap (isotone_pushRule? a)).trans (alike_pushRules a k).symm)

theorem Alike.push {t u : Table} (a : Action) (h : Alike t.rules u.rules) :
    Alike (push a t).rules (push a u).rules := by
  have hrules := h.pushRules a
  by_cases ht : Table.pushRules a t.rules = []
  · rw [Table.push, Table.push, ht, hrules.eq_nil ht]
    exact Alike.refl _
  · have hu : Table.pushRules a u.rules ≠ [] := fun hu => ht (hrules.symm.eq_nil hu)
    rw [push_of_ne_nil ht, push_of_ne_nil hu]
    exact hrules

theorem Alike.pushAll {t u : Table} (optimize optimize' : Bool) (actions : List Action)
    (h : Alike t.rules u.rules) :
    Alike (pushAll optimize actions t).rules (pushAll optimize' actions u).rules := by
  cases actions with
  | nil => exact Alike.refl _
  | cons a rest =>
    have hfold : ∀ acc acc' : Table, Alike acc.rules acc'.rules →
        Alike (rest.foldl (fun acc b => Table.parallel optimize acc (Table.push b t)) acc).rules
          (rest.foldl (fun acc b => Table.parallel optimize' acc (Table.push b u)) acc').rules := by
      induction rest with
      | nil => exact fun _ _ hacc => hacc
      | cons b rest ih => exact fun _ _ hacc => ih _ _ (hacc.parallel optimize optimize' (h.push b))
    exact hfold _ _ (h.push a)

theorem isotone_restrictRule (p : Predicate) : Isotone fun r => (restrictRule p r).toList :=
  isotone_make? fun _ _ h => Predicate.meet_mono h (Predicate.covers_refl p)

theorem Alike.sequenceRule {t u : Table} (optimize optimize' : Bool) (r : Rule)
    (h : Alike t.rules u.rules) :
    Alike (sequenceRule optimize r t).rules (sequenceRule optimize' r u).rules := by
  have hpushed := (h.pushAll optimize optimize' r.actions).filterMap
    (isotone_restrictRule r.predicate)
  exact (Alike.pruneIf optimize _).trans (hpushed.trans (Alike.pruneIf optimize' _).symm)

/-- What follows a rule is covered by the rule, and what follows a rule covers all of it, because
the table that follows accepts every packet. -/
theorem isotone_sequenceRule (optimize : Bool) {t : Table} (ht : t.Regular) :
    Isotone fun r => (sequenceRule optimize r t).rules := by
  intro r s hrs y hy
  -- `y` is a rule of what follows `s`, restricted to `s`
  obtain ⟨z, -, hz⟩ := List.mem_filterMap.1 (mem_of_mem_pruneIf hy)
  obtain ⟨hne, rfl⟩ := Rule.make?_eq_some_iff.1 (restrictRule_eq s.predicate z ▸ hz)
  have hry := Predicate.covers_trans hrs (Predicate.covers_meet z.predicate s.predicate).2
  -- the last rule of what follows `r`, restricted to `r`, has the predicate of `r`
  obtain ⟨last, hlast, hid⟩ := (ht.pushAll optimize r.actions).endsOpen.exists_mem
  have hmem : (⟨r.predicate, last.actions⟩ : Rule) ∈
      (pushAll optimize r.actions t).rules.filterMap (restrictRule r.predicate) := by
    refine List.mem_filterMap.2 ⟨last, hlast, ?_⟩
    rw [restrictRule_eq, hid, Predicate.identity_meet]
    exact Rule.make?_eq_some_iff.2 ⟨ne_drop_of_covers hry hne, rfl⟩
  obtain ⟨x, hx, hxr⟩ := exists_mem_pruneIf optimize hmem
  exact ⟨x, hx, Predicate.covers_trans hxr hry⟩

theorem Alike.sequential {a a' b b' : Table} (optimize optimize' : Bool)
    (ha : Alike a.rules a'.rules) (hb : Alike b.rules b'.rules) (hreg : b'.Regular) :
    Alike (sequential optimize a b).rules (sequential optimize' a' b').rules := by
  have h : Alike (a.rules.flatMap fun r => (Table.sequenceRule optimize r b).rules)
      (a'.rules.flatMap fun r => (Table.sequenceRule optimize' r b').rules) :=
    (flatMap_congr fun r _ => hb.sequenceRule optimize optimize' r).trans
      (ha.flatMap (isotone_sequenceRule optimize' hreg))
  exact (Alike.pruneIf optimize _).trans (h.trans (Alike.pruneIf optimize' _).symm)

theorem Alike.map_flip {l k : List Rule} (h : Alike l k) :
    Alike (l.map fun r => ⟨r.predicate, Action.flip r.actions⟩)
      (k.map fun r => ⟨r.predicate, Action.flip r.actions⟩) := by
  rw [List.map_eq_flatMap, List.map_eq_flatMap]
  refine h.flatMap ?_
  intro r s hrs y hy
  obtain rfl := List.mem_singleton.1 hy
  exact ⟨_, List.mem_singleton.2 rfl, hrs⟩

end Table

namespace Term

variable {headers : HeaderSet}

/-- Compiling without removing shadowed rules and removing them at the end is one way to compile
with removing them. -/
theorem Compiles.prune {t : Term} {raw : Table}
    (h : Compiles { headers, optimize := false } t raw) :
    Compiles { headers, optimize := true } t raw.prune := by
  induction h with
  | identity => exact .identity
  | drop => exact .drop
  | test m => exact .test m
  | modify m => exact .modify m
  | controller => exact .controller
  | query s => exact .query s
  | @negate t a b _ hneg ih =>
    obtain ⟨hall, rfl⟩ := Table.negate_eq_ok_iff.1 hneg
    refine .negate ih (Table.negate_eq_ok_iff.2 ⟨?_, ?_⟩)
    · intro r hr
      exact hall r ((Table.unshadowed_sublist [] a.rules).subset hr)
    · exact (Table.Alike.unshadowed_self a.rules).symm.map_flip.prune_eq
  | parallelNil => exact .parallelNil
  | parallelOne _ ih => exact .parallelOne ih
  | @parallelSnoc _ _ a b hne _ _ iha ihb =>
    have hlike : Table.Alike (Table.parallel false a b).rules
        (Table.parallel true a.prune b.prune).rules :=
      Table.Alike.parallel false true (Table.Alike.unshadowed_self a.rules).symm
        (Table.Alike.unshadowed_self b.rules).symm
    rw [hlike.prune_eq, Table.parallel, Table.pruneIf, if_pos rfl, Table.prune_prune]
    exact .parallelSnoc hne iha ihb
  | sequentialNil => exact .sequentialNil
  | sequentialOne _ ih => exact .sequentialOne ih
  | @sequentialSnoc _ _ a b hne _ _ iha ihb =>
    have hlike : Table.Alike (Table.sequential false a b).rules
        (Table.sequential true a.prune b.prune).rules :=
      Table.Alike.sequential false true (Table.Alike.unshadowed_self a.rules).symm
        (Table.Alike.unshadowed_self b.rules).symm ihb.regular
    rw [hlike.prune_eq, Table.sequential, Table.pruneIf, if_pos rfl, Table.prune_prune]
    exact .sequentialSnoc hne iha ihb

end Term

/-- Removing shadowed rules after every merge, every pushed rule and every negation gives the same
table as removing them once at the end. -/
theorem Store.compile_optimized {s : Store} {headers : HeaderSet} {p : Policy} {raw : Table}
    (h : s.compile { headers, optimize := false } p = .ok raw) :
    s.compile { headers, optimize := true } p = .ok raw.prune :=
  Term.compile_eq_ok_iff.2 (Term.compile_eq_ok_iff.1 h).prune

theorem Store.compile_optimized_conditional :
    ∃ raw, ({} : Store).compile { headers := .compilable, optimize := false }
        (.conditional (.test (.int "inport" 1)) (.forward 2) .controller) = .ok raw ∧
      raw.rules.length = 8 ∧ raw.prune.rules.length = 2 ∧
      ({} : Store).compile { headers := .compilable, optimize := true }
        (.conditional (.test (.int "inport" 1)) (.forward 2) .controller) = .ok raw.prune :=
  ⟨_, rfl, by decide +kernel, by decide +kernel, Store.compile_optimized rfl⟩

end PacketPolicy

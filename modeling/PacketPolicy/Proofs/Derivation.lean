import PacketPolicy.Term
import Mathlib.Tactic

/-!
# Compilation as a relation

The compiler folds the tables of a list of terms from the left. `Compiles` says the
same with one rule for each form of a term and one merge at a time, so that what
holds of every compiled table is shown by induction on the rules, and the folds
are taken apart here once.
-/

namespace PacketPolicy

theorem bind_eq_ok {ε α β : Type} {x : Except ε α} {f : α → Except ε β} {b : β} :
    (x >>= f) = .ok b ↔ ∃ a, x = .ok a ∧ f a = .ok b := by
  cases x <;> simp [bind, Except.bind]

namespace Action

/-- The actions begin with `identity` or `drop`. -/
def Negatable (actions : List Action) : Prop :=
  actions.head? = some .identity ∨ actions.head? = some .drop

/-- Pass what negatable actions drop, and drop what they pass. -/
def flip (actions : List Action) : List Action :=
  if actions.head? = some .drop then [.identity] else [.drop]

end Action

theorem Rule.negate_eq_ok_iff {r s : Rule} : r.negate = .ok s ↔
    Action.Negatable r.actions ∧ s = ⟨r.predicate, Action.flip r.actions⟩ := by
  unfold negate Action.Negatable Action.flip
  split
  · next h => simp [h, eq_comm]
  · next h => simp [h, eq_comm]
  · next hidentity hdrop =>
    refine iff_of_false nofun ?_
    rintro ⟨h | h, -⟩
    · exact hidentity h
    · exact hdrop h

namespace Table

theorem mapM_negate_eq_ok_iff {l k : List Rule} : l.mapM Rule.negate = .ok k ↔
    (∀ r ∈ l, Action.Negatable r.actions) ∧
      k = l.map fun r => ⟨r.predicate, Action.flip r.actions⟩ := by
  induction l generalizing k with
  | nil => simp [pure, Except.pure, eq_comm]
  | cons r rest ih =>
    simp only [List.mapM_cons, bind_eq_ok, pure, Except.pure, Except.ok.injEq, ih,
      Rule.negate_eq_ok_iff]
    grind

/-- Negation succeeds if each rule can be negated, and flips each. -/
theorem negate_eq_ok_iff {optimize : Bool} {t u : Table} : t.negate optimize = .ok u ↔
    (∀ r ∈ t.rules, Action.Negatable r.actions) ∧
      u = pruneIf optimize ⟨t.rules.map fun r => ⟨r.predicate, Action.flip r.actions⟩⟩ := by
  rw [negate, bind_eq_ok]
  simp only [mapM_negate_eq_ok_iff, pure, Except.pure, Except.ok.injEq]
  grind

variable {α : Type} {merge : Table → Table → Table} {unit : Table}

theorem mergeAll_snoc {ts : List Table} (hts : ts ≠ []) (t : Table) :
    mergeAll merge unit (ts ++ [t]) = merge (mergeAll merge unit ts) t := by
  obtain ⟨s, rest, rfl⟩ := List.exists_cons_of_ne_nil hts
  simp [mergeAll]

/-- What holds of the tables of no part, of one part, and with each merge of one more part, holds
of the tables of all parts merged. -/
theorem mergeAll_induction {part : α → Table → Prop} (whole : List α → Table → Prop)
    (nil : whole [] unit) (one : ∀ x a, part x a → whole [x] a)
    (snoc : ∀ xs x a b, xs ≠ [] → whole xs a → part x b → whole (xs ++ [x]) (merge a b))
    {xs : List α} {tables : List Table} (h : List.Forall₂ part xs tables) :
    whole xs (mergeAll merge unit tables) := by
  -- the fold goes on from the parts merged so far
  have more : ∀ {ys : List α} {rest : List Table}, List.Forall₂ part ys rest →
      ∀ (xs : List α) (acc : Table), xs ≠ [] → whole xs acc →
        whole (xs ++ ys) (rest.foldl merge acc) := by
    intro ys rest h
    induction h with
    | nil =>
      intro xs acc _ hacc
      simpa using hacc
    | @cons y b ys rest hb _ ih =>
      intro xs acc hxs hacc
      have := ih (xs ++ [y]) (merge acc b) (by simp) (snoc xs y acc b hxs hacc hb)
      simpa using this
  cases h with
  | nil => exact nil
  | @cons x a xs rest ha hrest => exact more hrest [x] a (by simp) (one x a ha)

end Table

namespace Term

/-- The term has the table under these settings. -/
inductive Compiles (c : CompileSettings) : Term → Table → Prop
  | identity : Compiles c .identity (.single .identity)
  | drop : Compiles c .drop .dropAll
  | test (m : Match) : Compiles c (.test m) ⟨[⟨.test m, [.identity]⟩, ⟨.identity, [.drop]⟩]⟩
  | modify (m : Modification) : Compiles c (.modify m)
      (.single (if m.writesOutside c.headers then .controller else .modify m))
  | controller : Compiles c .controller (.single .controller)
  | query (s : Sink) : Compiles c (.query s) (.single (.query s))
  | negate {t a b} : Compiles c t a → a.negate c.optimize = .ok b → Compiles c (.negate t) b
  | parallelNil : Compiles c (.parallel []) .dropAll
  | parallelOne {t a} : Compiles c t a → Compiles c (.parallel [t]) a
  | parallelSnoc {ts t a b} : ts ≠ [] → Compiles c (.parallel ts) a → Compiles c t b →
      Compiles c (.parallel (ts ++ [t])) (.parallel c.optimize a b)
  | sequentialNil : Compiles c (.sequential []) (.single .identity)
  | sequentialOne {t a} : Compiles c t a → Compiles c (.sequential [t]) a
  | sequentialSnoc {ts t a b} : ts ≠ [] → Compiles c (.sequential ts) a → Compiles c t b →
      Compiles c (.sequential (ts ++ [t])) (.sequential c.optimize a b)

variable {c : CompileSettings}

theorem compile_negate_eq_ok_iff {t : Term} {b : Table} : compile c (.negate t) = .ok b ↔
    ∃ a, compile c t = .ok a ∧ a.negate c.optimize = .ok b := by
  rw [compile, bind_eq_ok]

theorem compile_parallel_eq_ok_iff {ts : List Term} {b : Table} :
    compile c (.parallel ts) = .ok b ↔ ∃ tables, compileAll c ts = .ok tables ∧
      Table.mergeAll (.parallel c.optimize) .dropAll tables = b := by
  rw [compile, bind_eq_ok]
  simp [pure, Except.pure]

theorem compile_sequential_eq_ok_iff {ts : List Term} {b : Table} :
    compile c (.sequential ts) = .ok b ↔ ∃ tables, compileAll c ts = .ok tables ∧
      Table.mergeAll (.sequential c.optimize) (.single .identity) tables = b := by
  rw [compile, bind_eq_ok]
  simp [pure, Except.pure]

theorem compileAll_eq_ok_iff {ts : List Term} {tables : List Table} :
    compileAll c ts = .ok tables ↔ List.Forall₂ (fun t a => compile c t = .ok a) ts tables := by
  induction ts generalizing tables with
  | nil => simp [compileAll, eq_comm]
  | cons t ts ih =>
    simp only [compileAll, bind_eq_ok, pure, Except.pure, ih, Except.ok.injEq,
      List.forall₂_cons_left_iff]
    grind

mutual

theorem compiles_of_compile : (t : Term) → {a : Table} → compile c t = .ok a → Compiles c t a
  | .identity, _, h => Except.ok.inj h ▸ .identity
  | .drop, _, h => Except.ok.inj h ▸ .drop
  | .test m, _, h => Except.ok.inj h ▸ .test m
  | .modify m, _, h => Except.ok.inj h ▸ .modify m
  | .controller, _, h => Except.ok.inj h ▸ .controller
  | .query s, _, h => Except.ok.inj h ▸ .query s
  | .negate t, _, h => by
    obtain ⟨a, ha, hneg⟩ := compile_negate_eq_ok_iff.1 h
    exact .negate (compiles_of_compile t ha) hneg
  | .parallel ts, _, h => by
    obtain ⟨tables, htables, rfl⟩ := compile_parallel_eq_ok_iff.1 h
    exact Table.mergeAll_induction (fun ts => Compiles c (.parallel ts)) .parallelNil
      (fun _ _ => .parallelOne) (fun _ _ _ _ => .parallelSnoc) (compiles_of_compileAll ts htables)
  | .sequential ts, _, h => by
    obtain ⟨tables, htables, rfl⟩ := compile_sequential_eq_ok_iff.1 h
    exact Table.mergeAll_induction (fun ts => Compiles c (.sequential ts)) .sequentialNil
      (fun _ _ => .sequentialOne) (fun _ _ _ _ => .sequentialSnoc)
      (compiles_of_compileAll ts htables)

theorem compiles_of_compileAll : (ts : List Term) → {tables : List Table} →
    compileAll c ts = .ok tables → List.Forall₂ (Compiles c) ts tables
  | [], _, h => Except.ok.inj h ▸ .nil
  | t :: ts, _, h => by
    rw [compileAll, bind_eq_ok] at h
    obtain ⟨a, ha, h⟩ := h
    obtain ⟨rest, hrest, h⟩ := bind_eq_ok.1 h
    obtain rfl := Except.ok.inj h
    exact .cons (compiles_of_compile t ha) (compiles_of_compileAll ts hrest)

end

theorem compileAll_snoc {ts : List Term} {tables : List Table} {t : Term} {b : Table}
    (hts : compileAll c ts = .ok tables) (ht : compile c t = .ok b) :
    compileAll c (ts ++ [t]) = .ok (tables ++ [b]) := by
  rw [compileAll_eq_ok_iff] at *
  exact List.rel_append hts (.cons ht .nil)

theorem ne_nil_of_compileAll {ts : List Term} {tables : List Table} (hne : ts ≠ [])
    (hts : compileAll c ts = .ok tables) : tables ≠ [] := by
  rintro rfl
  cases compileAll_eq_ok_iff.1 hts
  exact hne rfl

theorem Compiles.compile_eq {t : Term} {a : Table} (h : Compiles c t a) : compile c t = .ok a := by
  induction h with
  | identity | drop | test | modify | controller | query => rfl
  | negate _ hneg ih => exact compile_negate_eq_ok_iff.2 ⟨_, ih, hneg⟩
  | parallelNil => rfl
  | parallelOne _ ih =>
    exact compile_parallel_eq_ok_iff.2 ⟨_, compileAll_eq_ok_iff.2 (.cons ih .nil), rfl⟩
  | parallelSnoc hne _ _ iha ihb =>
    obtain ⟨tables, htables, rfl⟩ := compile_parallel_eq_ok_iff.1 iha
    exact compile_parallel_eq_ok_iff.2 ⟨_, compileAll_snoc htables ihb,
      Table.mergeAll_snoc (ne_nil_of_compileAll hne htables) _⟩
  | sequentialNil => rfl
  | sequentialOne _ ih =>
    exact compile_sequential_eq_ok_iff.2 ⟨_, compileAll_eq_ok_iff.2 (.cons ih .nil), rfl⟩
  | sequentialSnoc hne _ _ iha ihb =>
    obtain ⟨tables, htables, rfl⟩ := compile_sequential_eq_ok_iff.1 iha
    exact compile_sequential_eq_ok_iff.2 ⟨_, compileAll_snoc htables ihb,
      Table.mergeAll_snoc (ne_nil_of_compileAll hne htables) _⟩

/-- The compiler computes the relation. -/
theorem compile_eq_ok_iff {t : Term} {a : Table} : compile c t = .ok a ↔ Compiles c t a :=
  ⟨compiles_of_compile t, Compiles.compile_eq⟩

end Term

end PacketPolicy

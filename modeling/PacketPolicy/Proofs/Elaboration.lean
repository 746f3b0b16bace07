import PacketPolicy.Language.Reader
import PacketPolicy.Proofs.Derivation

/-!
# Elaboration as a relation

`Elaborates` says with one rule for each form of an expression which policy it stands
for. A rule that needs a filter asks for a `Filter`, so the checks that building the
policy makes are no premises of their own.
-/

namespace PacketPolicy

namespace Filter

theorem ofPolicy_eq_ok_iff {p : Policy} {f : Filter} : ofPolicy p = .ok f ↔ f.policy = p := by
  unfold ofPolicy
  split
  · constructor
    · rintro ⟨⟩
      rfl
    · rintro rfl
      rfl
  · next h =>
    refine iff_of_false nofun ?_
    rintro rfl
    exact h f.isFilter

end Filter

namespace Expr

/-- The expression stands for the policy. -/
inductive Elaborates : Expr → Policy → Prop
  | identity : Elaborates .identity .identity
  | drop : Elaborates .drop .drop
  | controller : Elaborates .controller .controller
  | test {fields m} : Match.ofList? fields = some m → Elaborates (.test fields) (.test m)
  | modify {fields m} :
      Modification.ofList? fields = some m → Elaborates (.modify fields) (.modify m)
  | forward (port : Int64) : Elaborates (.forward port) (.forward port)
  | exclusive (port : Int64) : Elaborates (.exclusive port) (.exclusive port)
  | link (l : Link) : Elaborates (.link l) (.link l)
  | when {c t p} {f : Filter} : Elaborates c f.policy → Elaborates t p →
      Elaborates (.when c t) (.ifElse f p .identity)
  | ite {c t e p q} {f : Filter} : Elaborates c f.policy → Elaborates t p → Elaborates e q →
      Elaborates (.ite c t e) (.ifElse f p q)
  | not {e} {f : Filter} : Elaborates e f.policy → Elaborates (.not e) f.not.policy
  | parallel {l r p q} : Elaborates l p → Elaborates r q →
      Elaborates (.binary .parallel l r) (p.plus q)
  | sequential {l r p q} : Elaborates l p → Elaborates r q →
      Elaborates (.binary .sequential l r) (p.andThen q)
  | difference {l r} {f g : Filter} : Elaborates l f.policy → Elaborates r g.policy →
      Elaborates (.binary .difference l r) (f.minus g).policy
  | intersection {l r} {f g : Filter} : Elaborates l f.policy → Elaborates r g.policy →
      Elaborates (.binary .intersection l r) (f.and g).policy
  | union {l r} {f g : Filter} : Elaborates l f.policy → Elaborates r g.policy →
      Elaborates (.binary .union l r) (f.or g).policy

theorem elaborates_of_toPolicy {e : Expr} {p : Policy} (h : e.toPolicy = .ok p) :
    Elaborates e p := by
  induction e generalizing p with
  | identity => exact Except.ok.inj h ▸ .identity
  | drop => exact Except.ok.inj h ▸ .drop
  | controller => exact Except.ok.inj h ▸ .controller
  | forward port => exact Except.ok.inj h ▸ .forward port
  | exclusive port => exact Except.ok.inj h ▸ .exclusive port
  | link l => exact Except.ok.inj h ▸ .link l
  | test fields =>
    rw [toPolicy] at h
    cases hm : Match.ofList? fields with
    | none => simp [hm] at h
    | some m =>
      rw [hm] at h
      exact Except.ok.inj h ▸ .test hm
  | modify fields =>
    rw [toPolicy] at h
    cases hm : Modification.ofList? fields with
    | none => simp [hm] at h
    | some m =>
      rw [hm] at h
      exact Except.ok.inj h ▸ .modify hm
  | when c t ihc iht =>
    simp only [toPolicy, bind_eq_ok, Filter.ofPolicy_eq_ok_iff] at h
    obtain ⟨_, hc, f, rfl, p, ht, h⟩ := h
    exact Except.ok.inj h ▸ .when (ihc hc) (iht ht)
  | ite c t e ihc iht ihe =>
    simp only [toPolicy, bind_eq_ok, Filter.ofPolicy_eq_ok_iff] at h
    obtain ⟨q, he, _, hc, f, rfl, p, ht, h⟩ := h
    exact Except.ok.inj h ▸ .ite (ihc hc) (iht ht) (ihe he)
  | not e ih =>
    simp only [toPolicy, bind_eq_ok, Filter.ofPolicy_eq_ok_iff] at h
    obtain ⟨_, he, f, rfl, h⟩ := h
    exact Except.ok.inj h ▸ .not (ih he)
  | binary op l r ihl ihr =>
    cases op <;> simp only [toPolicy, bind_eq_ok, Filter.ofPolicy_eq_ok_iff] at h
    case parallel =>
      obtain ⟨p, hl, q, hr, h⟩ := h
      exact Except.ok.inj h ▸ .parallel (ihl hl) (ihr hr)
    case sequential =>
      obtain ⟨p, hl, q, hr, h⟩ := h
      exact Except.ok.inj h ▸ .sequential (ihl hl) (ihr hr)
    case difference =>
      obtain ⟨_, hl, f, rfl, _, hr, g, rfl, h⟩ := h
      exact Except.ok.inj h ▸ .difference (ihl hl) (ihr hr)
    case intersection =>
      obtain ⟨_, hl, f, rfl, _, hr, g, rfl, h⟩ := h
      exact Except.ok.inj h ▸ .intersection (ihl hl) (ihr hr)
    case union =>
      obtain ⟨_, hl, f, rfl, _, hr, g, rfl, h⟩ := h
      exact Except.ok.inj h ▸ .union (ihl hl) (ihr hr)

theorem Elaborates.toPolicy_eq {e : Expr} {p : Policy} (h : Elaborates e p) :
    e.toPolicy = .ok p := by
  have hfilter : ∀ f : Filter, Filter.ofPolicy f.policy = .ok f :=
    fun f => Filter.ofPolicy_eq_ok_iff.2 rfl
  induction h with
  | identity | drop | controller | forward | exclusive | link => rfl
  | test hm | modify hm => simp [toPolicy, hm]
  | when _ _ ihc iht => simp [toPolicy, ihc, iht, hfilter, bind, Except.bind, pure, Except.pure]
  | ite _ _ _ ihc iht ihe =>
    simp [toPolicy, ihc, iht, ihe, hfilter, bind, Except.bind, pure, Except.pure]
  | not _ ih => simp [toPolicy, ih, hfilter, bind, Except.bind, pure, Except.pure]
  | parallel _ _ ihl ihr | sequential _ _ ihl ihr | difference _ _ ihl ihr
  | intersection _ _ ihl ihr | union _ _ ihl ihr =>
    simp [toPolicy, ihl, ihr, hfilter, bind, Except.bind, pure, Except.pure]

/-- Building the policy computes the relation. -/
theorem toPolicy_eq_ok_iff {e : Expr} {p : Policy} : e.toPolicy = .ok p ↔ Elaborates e p :=
  ⟨elaborates_of_toPolicy, Elaborates.toPolicy_eq⟩

end Expr

/-- A text stands for a policy if it is read as an expression for it. -/
theorem Policy.ofText_eq_ok_iff {s : String} {p : Policy} :
    ofText s = .ok p ↔ ∃ e, Expr.ofText s = .ok e ∧ e.Elaborates p := by
  delta ofText
  cases Expr.ofText s with
  | error d => simp
  | ok e => cases h : e.toPolicy <;> simp [← Expr.toPolicy_eq_ok_iff, h]

end PacketPolicy

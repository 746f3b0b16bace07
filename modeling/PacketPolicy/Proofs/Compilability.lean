import PacketPolicy.Proofs.Elaboration
import PacketPolicy.Proofs.Precedence
import PacketPolicy.Proofs.SettledPolicies

/-!
# Policies that compile

Compilation fails only at a negation whose operand has some other action than passing
on or dropping. If handles made for filters refer to filters, this never happens to a
filter, nor to a policy that negates filters only. The policies that texts stand for
are such policies.
-/

namespace PacketPolicy

/-- The policy of an expression negates filters only and goes through no handle. -/
theorem Expr.Elaborates.settled {e : Expr} {p : Policy} (h : Elaborates e p) : p.Settled := by
  induction h with
  | identity | drop | controller => exact .of_operands [] (fun _ => rfl) trivial (by simp)
  | test => exact .test _
  | modify => exact .modify _
  | forward port => exact .forward port
  | exclusive port => exact .exclusive port
  | link l => exact .link l
  | when _ _ ihc iht => exact .ifElse ihc iht (.of_operands [] (fun _ => rfl) trivial (by simp))
  | ite _ _ _ ihc iht ihe => exact .ifElse ihc iht ihe
  | @not _ f _ ih => exact .negate f.isFilter ih
  | parallel _ _ ihl ihr => exact .plus ihl ihr
  | sequential _ _ ihl ihr => exact .andThen ihl ihr
  | @difference _ _ f g _ _ ihl ihr =>
    have hnot := Policy.Settled.negate g.isFilter ihr
    exact .defined rfl (.intersection (by simp [ihl, hnot]))
  | intersection _ _ ihl ihr => exact .and ihl ihr
  | union _ _ ihl ihr => exact .or ihl ihr

namespace Store

/-- If handles for filters refer to filters, every filter has a table whose rules pass packets on or
drop them, and every policy that negates only filters has a table. The policy of a text always has
one. -/
theorem exists_compile_of_typed (c : CompileSettings) (p : Policy) :
    (∀ s : Store, s.KeepsKinds → s.OwnsAll p → p.isFilter = true →
      ∃ t, s.compile c p = .ok t ∧ ∀ r ∈ t.rules, r.actions = [.identity] ∨ r.actions = [.drop]) ∧
    (∀ s : Store, s.KeepsKinds → s.OwnsAll p →
      (∀ q, .negate q ∈ s.parts p → q.isFilter = true) → ∃ t, s.compile c p = .ok t) ∧
    ∀ text, Policy.ofText text = .ok p → ∀ s : Store, ∃ t, s.compile c p = .ok t := by
  refine ⟨?_, ?_, ?_⟩
  · intro s hkinds howns hfilter
    have hterm := s.carried_filter.term (hkinds.holdsFilters howns) hfilter
    obtain ⟨t, ht, htwo⟩ := hterm.compiles c
    exact ⟨t, ht.compile_eq, htwo⟩
  · intro s hkinds howns hnegate
    exact exists_compile_of_negatesFilters c ⟨hnegate, hkinds.holdsFilters howns⟩
  · intro text htext s
    obtain ⟨e, -, he⟩ := Policy.ofText_eq_ok_iff.1 htext
    exact exists_compile_of_negatesFilters c (he.settled.negatesFilters s)

/-- A negated handle for filters, a handle for a policy that negates it, and a text. -/
theorem exists_compile_of_typed_handles :
    ∃ s : Store, s = ⟨[⟨.test (.int "inport" 1), true, none⟩,
        ⟨.sequential [.negate (.dynamic ⟨0, true⟩), .forward 2], false, none⟩]⟩ ∧
      (∃ t, s.compile {} (.negate (.dynamic ⟨0, true⟩)) = .ok t ∧
        ∀ r ∈ t.rules, r.actions = [.identity] ∨ r.actions = [.drop]) ∧
      (∃ t, s.compile {} (.dynamic ⟨1, false⟩) = .ok t) ∧
      ∃ p, Policy.ofText "~drop>>fwd(2)" = .ok p ∧ ∃ t, s.compile {} p = .ok t := by
  let s : Store := ⟨[⟨.test (.int "inport" 1), true, none⟩,
    ⟨.sequential [.negate (.dynamic ⟨0, true⟩), .forward 2], false, none⟩]⟩
  have hkinds : s.KeepsKinds := by simp [s, KeepsKinds, Policy.isFilter]
  have hfilter : s.OwnsAll (.negate (.dynamic ⟨0, true⟩)) := by
    simp [s, OwnsAll, parts, reading, unfold, size, definition, owns, get?, Policy.parts]
  have hpolicy : s.OwnsAll (.dynamic ⟨1, false⟩) ∧
      ∀ q, .negate q ∈ s.parts (.dynamic ⟨1, false⟩) → q.isFilter = true := by
    simp [s, OwnsAll, parts, reading, unfold, size, definition, owns, get?, Policy.parts,
      Policy.partsOfAll, Policy.isFilter]
  have hrenders : Expr.Renders 2 (.binary .sequential (.not .drop) (.forward 2))
      [.mark .tilde, .word "drop", .mark (.operator .sequential), .word "fwd", .mark .opening,
        .integer 2, .mark .closing] :=
    .binary .sequential ((Expr.Renders.not .drop).of_le (by decide))
      ((Expr.Renders.forward 2).of_le (by decide))
  have hlayout : Layout _ _ :=
    .token (.mark .tilde) <| .token (.word (w := "drop") rfl) <|
    .token (.mark (.operator .sequential)) <| .token (.word (w := "fwd") rfl) <|
    .token (.mark .opening) <| .token (.integer (n := 2) (.positive (n := 2) Nat.two_pos)) <|
    .one (.mark .closing)
  have helaborates : Expr.Elaborates (.binary .sequential (.not .drop) (.forward 2))
      (.sequential [.negate .drop, .forward 2]) :=
    .sequential (.not (f := .drop) .drop) (.forward 2)
  have htext : Policy.ofText "~drop>>fwd(2)" = .ok (.sequential [.negate .drop, .forward 2]) :=
    Policy.ofText_eq_ok_iff.2 ⟨_, Expr.ofChars_of_layout (hrenders.of_le (Nat.zero_le _))
      ⟨trivial, trivial⟩ hlayout, helaborates⟩
  exact ⟨s, rfl, (exists_compile_of_typed {} _).1 s hkinds hfilter rfl,
    (exists_compile_of_typed {} _).2.1 s hkinds hpolicy.1 hpolicy.2,
    _, htext, (exists_compile_of_typed {} _).2.2 _ htext s⟩

end Store

end PacketPolicy

import PacketPolicy.Policy.Filter
import PacketPolicy.Proofs.Evaluation
import PacketPolicy.Proofs.PredicateOrder

/-!
# Effects of policies

Outcomes are combined side by side and one after the other, and both combinations are
associative and have a unit. So it makes no difference for evaluation that the operators
on policies keep lists flat, or that two matches become one: each operator has the
combination of the effects of its operands as its effect. What this takes is the same for
both kinds of lists (`Joins`).
-/

namespace PacketPolicy

namespace Outcome

variable {a b o : Outcome} {f : Packet → Outcome}

theorem ext_mem (houtputs : ∀ q, q ∈ a.outputs ↔ q ∈ b.outputs)
    (harrivals : ∀ x, x ∈ a.arrivals ↔ x ∈ b.arrivals) : a = b :=
  Outcome.ext (SortedSet.ext_mem houtputs) (SortedSet.ext_mem harrivals)

/-- The packet passes if nothing has passed so far. -/
def negate (o : Outcome) (pkt : Packet) : Outcome :=
  { o with outputs := if o.outputs.isEmpty then .singleton pkt else .empty }

@[simp] theorem none_union (o : Outcome) : none.union o = o := by
  apply ext_mem <;> simp [none]

@[simp] theorem union_none (o : Outcome) : o.union none = o := by
  apply ext_mem <;> simp [none]

theorem union_assoc (a b c : Outcome) : (a.union b).union c = a.union (b.union c) := by
  apply ext_mem <;> simp [or_assoc]

/-- The effect of `f` on all that passes, besides what has arrived before. -/
def andThen (o : Outcome) (f : Packet → Outcome) : Outcome :=
  ⟨(onAll o.outputs f).outputs, o.arrivals.union (onAll o.outputs f).arrivals⟩

@[simp] theorem mem_outputs_andThen {q : Packet} :
    q ∈ (o.andThen f).outputs ↔ ∃ p ∈ o.outputs, q ∈ (f p).outputs := mem_outputs_onAll

@[simp] theorem mem_arrivals_andThen {x : Arrival} :
    x ∈ (o.andThen f).arrivals ↔ x ∈ o.arrivals ∨ ∃ p ∈ o.outputs, x ∈ (f p).arrivals := by
  simp [andThen]

@[simp] theorem none_andThen (f : Packet → Outcome) : none.andThen f = none := by
  apply ext_mem <;> simp [none]

@[simp] theorem pass_andThen (p : Packet) (f : Packet → Outcome) : (pass p).andThen f = f p := by
  apply ext_mem <;> simp [pass]

@[simp] theorem andThen_pass (o : Outcome) : o.andThen pass = o := by
  apply ext_mem <;> simp [pass]

theorem andThen_assoc (o : Outcome) (f g : Packet → Outcome) :
    (o.andThen f).andThen g = o.andThen fun p => (f p).andThen g := by
  apply ext_mem
  · intro q
    simp only [mem_outputs_andThen]
    tauto
  · intro x
    simp only [mem_arrivals_andThen, mem_outputs_andThen]
    grind

/-- Two effects on one packet. -/
def sum (f g : Packet → Outcome) : Packet → Outcome := fun pkt => (f pkt).union (g pkt)

/-- One effect and then another. -/
def comp (f g : Packet → Outcome) : Packet → Outcome := fun pkt => (f pkt).andThen g

@[simp] theorem onAll_singleton (p : Packet) (f : Packet → Outcome) :
    onAll (.singleton p) f = f p :=
  none_union (f p)

end Outcome

/-! ## Terms -/

namespace Term

theorem eval_parallel_append (ts us : List Term) (p : Packet) :
    eval (.parallel (ts ++ us)) p = (eval (.parallel ts) p).union (eval (.parallel us) p) := by
  induction ts with
  | nil => exact (Outcome.none_union _).symm
  | cons t ts ih =>
    simp only [List.cons_append, eval, evalBeside] at ih ⊢
    rw [ih, Outcome.union_assoc]

theorem eval_parallel_one (t : Term) (p : Packet) : eval (.parallel [t]) p = eval t p :=
  Outcome.union_none _

/-- Terms one after the other take the packets of a set one by one. -/
theorem evalAlong_eq_onAll (ts : List Term) (s : PacketSet) :
    evalAlong ts s = Outcome.onAll s fun p => evalAlong ts (.singleton p) := by
  induction ts generalizing s with
  | nil => apply Outcome.ext_mem <;> simp [evalAlong]
  | cons t ts ih =>
    have hone : ∀ p, evalAlong (t :: ts) (.singleton p) =
        (eval t p).andThen fun q => evalAlong ts (.singleton q) := by
      intro p
      rw [evalAlong_cons, ih, Outcome.onAll_singleton]
      rfl
    rw [evalAlong_cons, ih]
    apply Outcome.ext_mem
    · intro q
      simp only [hone, Outcome.mem_outputs_onAll, Outcome.mem_outputs_andThen]
      tauto
    · intro x
      simp only [hone, Outcome.mem_arrivals_onAll, Outcome.mem_arrivals_andThen,
        Outcome.mem_outputs_onAll, SortedSet.mem_union]
      grind

theorem eval_sequential_cons (t : Term) (ts : List Term) (p : Packet) :
    eval (.sequential (t :: ts)) p = (eval t p).andThen (eval (.sequential ts)) := by
  simp only [eval]
  rw [evalAlong_cons, Outcome.onAll_singleton, evalAlong_eq_onAll]
  rfl

theorem eval_sequential_append (ts us : List Term) (p : Packet) :
    eval (.sequential (ts ++ us)) p =
      (eval (.sequential ts) p).andThen (eval (.sequential us)) := by
  induction ts generalizing p with
  | nil => exact (Outcome.pass_andThen p _).symm
  | cons t ts ih =>
    rw [List.cons_append, eval_sequential_cons, eval_sequential_cons, Outcome.andThen_assoc]
    exact congrArg (Outcome.andThen _) (funext ih)

theorem eval_sequential_one (t : Term) (p : Packet) : eval (.sequential [t]) p = eval t p := by
  rw [eval_sequential_cons]
  exact Outcome.andThen_pass _

end Term

/-! ## Policies -/

/-- The packet passes both matches if it passes the one that they become. -/
theorem Match.any_accepts_meet? (m n : Match) (pkt : Packet) :
    (m.meet? n).any (·.accepts pkt) = (m.accepts pkt && n.accepts pkt) := by
  rw [Bool.eq_iff_iff, Option.any_eq_true, Bool.and_eq_true]
  simp only [accepts_eq_covers]
  constructor
  · rintro ⟨r, hr, hcovers⟩
    obtain ⟨hm, hn⟩ := covers_of_meet? hr
    exact ⟨covers_trans hm hcovers, covers_trans hn hcovers⟩
  · rintro ⟨hm, hn⟩
    exact exists_meet? hm hn

namespace Policy

variable (env : Handle → Term)

/-- What a policy does to each packet, where `env` gives the terms of handles. -/
def effect (p : Policy) : Packet → Outcome := (p.toTerm env).eval

theorem effect_test (m : Match) (pkt : Packet) :
    effect env (.test m) pkt = if m.accepts pkt then .pass pkt else .none := rfl

theorem effect_negate (p : Policy) :
    effect env (.negate p) = fun pkt => (effect env p pkt).negate pkt := rfl

/-- The effect of a list of policies is put together from those of its parts. -/
structure Joins (run : List Policy → Policy)
    (mix : (Packet → Outcome) → (Packet → Outcome) → Packet → Outcome) : Prop where
  one : ∀ p, effect env (run [p]) = effect env p
  append : ∀ ps qs, effect env (run (ps ++ qs)) = mix (effect env (run ps)) (effect env (run qs))

theorem joins_parallel : Joins env .parallel Outcome.sum where
  one p := funext (Term.eval_parallel_one _)
  append ps qs := by
    funext pkt
    simp only [effect, toTerm, toTerms_eq_map, List.map_append]
    exact Term.eval_parallel_append _ _ _

theorem joins_sequential : Joins env .sequential Outcome.comp where
  one p := funext (Term.eval_sequential_one _)
  append ps qs := by
    funext pkt
    simp only [effect, toTerm, toTerms_eq_map, List.map_append]
    exact Term.eval_sequential_append _ _ _

/-- A union runs its operands side by side. -/
theorem joins_union : Joins env .union Outcome.sum where
  one := (joins_parallel env).one
  append := (joins_parallel env).append

/-- An intersection runs its operands one after the other. -/
theorem joins_intersection : Joins env .intersection Outcome.comp where
  one := (joins_sequential env).one
  append := (joins_sequential env).append

namespace Joins

variable {env} {run : List Policy → Policy} {p q : Policy} {ps qs : List Policy}
  {mix : (Packet → Outcome) → (Packet → Outcome) → Packet → Outcome} (h : Joins env run mix)

include h

theorem cons (p : Policy) (ps : List Policy) :
    effect env (run (p :: ps)) = mix (effect env p) (effect env (run ps)) := by
  rw [← h.one p]
  exact h.append [p] ps

theorem snoc (ps : List Policy) (p : Policy) :
    effect env (run (ps ++ [p])) = mix (effect env (run ps)) (effect env p) := by
  rw [h.append, h.one]

theorem pair (p q : Policy) : effect env (run [p, q]) = mix (effect env p) (effect env q) := by
  rw [h.cons, h.one]

/-- A policy that runs a list, or is all that the list holds, has the effect of the list. -/
theorem of_flat (hp : p = run ps ∨ ps = [p]) : effect env (run ps) = effect env p := by
  rcases hp with rfl | rfl
  · rfl
  · exact h.one p

theorem append_of_flat (hp : p = run ps ∨ ps = [p]) (hq : q = run qs ∨ qs = [q]) :
    effect env (run (ps ++ qs)) = mix (effect env p) (effect env q) := by
  rw [h.append, h.of_flat hp, h.of_flat hq]

/-- An operator applied to some operands one after the other does what their list does. -/
theorem foldl {α : Type} (policy : α → Policy) (op : α → α → α)
    (hop : ∀ a b,
      effect env (policy (op a b)) = mix (effect env (policy a)) (effect env (policy b)))
    (a : α) (l : List α) :
    effect env (policy (l.foldl op a)) = effect env (run ((a :: l).map policy)) := by
  induction l generalizing a with
  | nil => exact (h.one _).symm
  | cons b l ih =>
    rw [List.foldl_cons, ih, List.map_cons, h.cons, hop, ← h.pair, ← h.append]
    rfl

/-- A list that is left out if it has one operand does what the list does. -/
theorem collapse {α : Type} (policy : α → Policy) (join : List α → Policy)
    (hnil : effect env (join []) = effect env (run [])) (hone : ∀ a, join [a] = policy a)
    (hmany : ∀ a b l, effect env (join (a :: b :: l)) = effect env (run ((a :: b :: l).map policy)))
    (l : List α) : effect env (join l) = effect env (run (l.map policy)) := by
  match l with
  | [] => exact hnil
  | [a] => rw [hone, List.map_singleton, h.one]
  | a :: b :: l => exact hmany a b l

end Joins

theorem effect_parallel_cons (p : Policy) (ps : List Policy) (pkt : Packet) :
    effect env (.parallel (p :: ps)) pkt =
      (effect env p pkt).union (effect env (.parallel ps) pkt) :=
  congrFun ((joins_parallel env).cons p ps) pkt

theorem effect_sequential_cons (p : Policy) (ps : List Policy) (pkt : Packet) :
    effect env (.sequential (p :: ps)) pkt =
      (effect env p pkt).andThen (effect env (.sequential ps)) :=
  congrFun ((joins_sequential env).cons p ps) pkt

theorem effect_difference (p q : Policy) (pkt : Packet) :
    effect env (.difference p q) pkt = (effect env p pkt).andThen (effect env (.negate q)) :=
  congrFun ((joins_sequential env).pair p (.negate q)) pkt

theorem effect_conditional (c p q : Policy) (pkt : Packet) :
    effect env (.conditional c p q) pkt = ((effect env c pkt).andThen (effect env p)).union
      ((effect env (.negate c) pkt).andThen (effect env q)) := by
  have hboth : effect env (.conditional c p q) = _ :=
    (joins_parallel env).pair (.sequential [c, p]) (.sequential [.negate c, q])
  rw [hboth, (joins_sequential env).pair, (joins_sequential env).pair]
  rfl

theorem effect_plus (p q : Policy) (pkt : Packet) :
    effect env (p.plus q) pkt = (effect env p pkt).union (effect env q pkt) :=
  congrFun ((joins_parallel env).append_of_flat p.eq_or_summands_eq q.eq_or_summands_eq) pkt

theorem effect_andThen (p q : Policy) (pkt : Packet) :
    effect env (p.andThen q) pkt = (effect env p pkt).andThen (effect env q) :=
  congrFun ((joins_sequential env).append_of_flat p.eq_or_factors_eq q.eq_or_factors_eq) pkt

end Policy

namespace Filter

open Policy

variable (env : Handle → Term) (f g : Filter) (pkt : Packet)

theorem effect_or : effect env (f.or g).policy pkt =
    (effect env f.policy pkt).union (effect env g.policy pkt) :=
  congrFun ((joins_union env).append_of_flat f.eq_or_disjuncts_eq g.eq_or_disjuncts_eq) pkt

theorem effect_and : effect env (f.and g).policy pkt =
    (effect env f.policy pkt).andThen (effect env g.policy) := by
  unfold and
  split
  · next m n hf hg =>
    have hone : effect env ((m.meet? n).elim drop test).policy pkt =
        if (m.meet? n).any (·.accepts pkt) then .pass pkt else .none := by
      cases m.meet? n <;> rfl
    have htwo : (effect env (.test m) pkt).andThen (effect env (.test n)) =
        if m.accepts pkt && n.accepts pkt then .pass pkt else .none := by
      rw [effect_test]
      cases m.accepts pkt <;> simp [effect_test]
    rw [hf, hg, hone, htwo, m.any_accepts_meet? n pkt]
  · have hlist :=
      (joins_intersection env).append_of_flat f.eq_or_conjuncts_eq g.eq_or_conjuncts_eq
    exact congrFun hlist pkt

end Filter

end PacketPolicy

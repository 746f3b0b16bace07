import PacketPolicy.Controller.Store
import Mathlib.Tactic

/-!
# From the parts of a policy to its term

What is known of the parts of a policy, those of definitions included, is carried over
to its term. `Carried` collects the facts about single parts that this takes; the two
inductions, over the policy and over the handles it goes through, are done here once.
-/

namespace PacketPolicy

namespace Policy

/-- The term of a policy that has no operands and stands for itself. -/
def leaf? : Policy → Option Term
  | .identity => some .identity
  | .drop => some .drop
  | .test m => some (.test m)
  | .modify m => some (.modify m)
  | .controller => some .controller
  | .query s => some (.query s)
  | _ => none

theorem self_mem_parts (env : Handle → List Policy) (p : Policy) : p ∈ parts env p := by
  cases p <;> simp [parts]

theorem mem_partsOfAll {env : Handle → List Policy} {q : Policy} {ps : List Policy} :
    q ∈ partsOfAll env ps ↔ ∃ p ∈ ps, q ∈ parts env p := by
  rw [partsOfAll_eq_flatMap, List.mem_flatMap]

/-- All parts of the policy have a property, whatever the handles in it refer to. -/
def PartsAll (A : Policy → Prop) (p : Policy) : Prop := ∀ env, ∀ q ∈ parts env p, A q

section

variable {A : Policy → Prop} {p : Policy} {ps : List Policy}

theorem partsAll_iff (hp : ∀ env, parts env p = p :: partsOfAll env ps) :
    PartsAll A p ↔ A p ∧ ∀ q ∈ ps, PartsAll A q := by
  constructor
  · intro h
    refine ⟨h (fun _ => []) p (self_mem_parts _ p), fun q hq env r hr => h env r ?_⟩
    rw [hp]
    exact List.mem_cons_of_mem _ (mem_partsOfAll.2 ⟨q, hq, hr⟩)
  · rintro ⟨hself, hps⟩ env r hr
    rw [hp, List.mem_cons] at hr
    rcases hr with rfl | hr
    · exact hself
    · obtain ⟨q, hq, hr⟩ := mem_partsOfAll.1 hr
      exact hps q hq env r hr

/-- If a policy runs a list of policies, or the list holds the policy alone, the parts of the list
are parts of the policy. -/
theorem PartsAll.of_flat {node : List Policy → Policy}
    (hnode : ∀ env qs, parts env (node qs) = node qs :: partsOfAll env qs)
    (hflat : p = node ps ∨ ps = [p]) (h : PartsAll A p) : ∀ q ∈ ps, PartsAll A q := by
  rcases hflat with rfl | rfl
  · exact ((partsAll_iff fun env => hnode env ps).1 h).2
  · simpa using h

/-- Two policies joined into one list of those that they run. -/
theorem PartsAll.append {q : Policy} {qs : List Policy} {node : List Policy → Policy}
    (hnode : ∀ env qs, parts env (node qs) = node qs :: partsOfAll env qs)
    (hself : A (node (ps ++ qs))) (hps : p = node ps ∨ ps = [p]) (hqs : q = node qs ∨ qs = [q])
    (hp : PartsAll A p) (hq : PartsAll A q) : PartsAll A (node (ps ++ qs)) :=
  (partsAll_iff fun env => hnode env _).2
    ⟨hself, List.forall_mem_append.2 ⟨hp.of_flat hnode hps, hq.of_flat hnode hqs⟩⟩

theorem PartsAll.parallelOf (hdrop : A .drop) (hsum : A (.parallel ps))
    (h : ∀ p ∈ ps, PartsAll A p) : PartsAll A (.parallelOf ps) := by
  match ps with
  | [] =>
    intro env q hq
    obtain rfl := List.mem_singleton.1 hq
    exact hdrop
  | [p] => exact h p (by simp)
  | p :: q :: ps => exact (partsAll_iff fun _ => rfl).2 ⟨hsum, h⟩

end

end Policy

namespace Store

/-- A relation between policies and terms that holds of each part of a policy if it holds of the
parts of that part, as long as all parts together are `Good`. -/
structure Carried (s : Store) (Good : List Policy → Prop) (R : Policy → Term → Prop) : Prop where
  antitone : ∀ {l k}, l ⊆ k → Good k → Good l
  stuck : ∀ p, R p .drop
  leaf : ∀ {l q t}, Good l → q ∈ l → q.leaf? = some t → R q t
  negate : ∀ {l q t}, Good l → .negate q ∈ l → R q t → R (.negate q) (.negate t)
  beside : ∀ {ps ts}, List.Forall₂ R ps ts →
    R (.parallel ps) (.parallel ts) ∧ R (.union ps) (.parallel ts)
  along : ∀ {ps ts}, List.Forall₂ R ps ts →
    R (.sequential ps) (.sequential ts) ∧ R (.intersection ps) (.sequential ts)
  defined : ∀ {p q t}, p.expansion? = some q → R q t → R p t
  dynamic : ∀ {l h t}, Good l → .dynamic h ∈ l → R (s.definition h) t → R (.dynamic h) t

namespace Carried

variable {s : Store} {Good : List Policy → Prop} {R : Policy → Term → Prop}

section

variable {env : Handle → Term} {envParts : Handle → List Policy} {whole : List Policy}

mutual

theorem of_parts (hR : Carried s Good R) (hwhole : Good whole)
    (henv : ∀ h, envParts h ⊆ whole → R (s.definition h) (env h)) :
    (p : Policy) → Policy.parts envParts p ⊆ whole → R p (Policy.toTerm env p)
  | .identity, hp | .drop, hp | .test _, hp | .modify _, hp | .controller, hp | .query _, hp =>
    hR.leaf hwhole (hp (Policy.self_mem_parts _ _)) rfl
  | .negate p, hp => by
    obtain ⟨hself, hrest⟩ := List.cons_subset.1 hp
    exact hR.negate hwhole hself (of_parts hR hwhole henv p hrest)
  | .parallel ps, hp => by
    obtain ⟨-, hrest⟩ := List.cons_subset.1 hp
    exact (hR.beside (of_partsOfAll hR hwhole henv ps hrest)).1
  | .union ps, hp => by
    obtain ⟨-, hrest⟩ := List.cons_subset.1 hp
    exact (hR.beside (of_partsOfAll hR hwhole henv ps hrest)).2
  | .sequential ps, hp => by
    obtain ⟨-, hrest⟩ := List.cons_subset.1 hp
    exact (hR.along (of_partsOfAll hR hwhole henv ps hrest)).1
  | .intersection ps, hp => by
    obtain ⟨-, hrest⟩ := List.cons_subset.1 hp
    exact (hR.along (of_partsOfAll hR hwhole henv ps hrest)).2
  | .difference p q, hp => by
    have ihp := of_parts hR hwhole henv p fun r hr => hp (by simp [Policy.parts, hr])
    have ihq := of_parts hR hwhole henv q fun r hr => hp (by simp [Policy.parts, hr])
    have hneg := hR.negate hwhole (hp (by simp [Policy.parts])) ihq
    exact hR.defined rfl (hR.along (.cons ihp (.cons hneg .nil))).2
  | .conditional c p q, hp => by
    have ihc := of_parts hR hwhole henv c fun r hr => hp (by simp [Policy.parts, hr])
    have ihp := of_parts hR hwhole henv p fun r hr => hp (by simp [Policy.parts, hr])
    have ihq := of_parts hR hwhole henv q fun r hr => hp (by simp [Policy.parts, hr])
    have hneg := hR.negate hwhole (hp (by simp [Policy.parts])) ihc
    have hthen := (hR.along (.cons ihc (.cons ihp .nil))).1
    have helse := (hR.along (.cons hneg (.cons ihq .nil))).1
    exact hR.defined rfl (hR.beside (.cons hthen (.cons helse .nil))).1
  | .forward port, hp => hR.defined rfl (hR.leaf hwhole (hp (by simp [Policy.parts])) rfl)
  | .exclusive port, hp => by
    have htest := hR.leaf (q := .test (.int "inport" port)) hwhole (hp (by simp [Policy.parts])) rfl
    have hneg := hR.negate hwhole (hp (by simp [Policy.parts])) htest
    have hset := hR.leaf (q := .modify (.leaveBy port)) hwhole (hp (by simp [Policy.parts])) rfl
    have hforward : R (.forward port) _ := hR.defined rfl hset
    exact hR.defined rfl (hR.along (.cons hneg (.cons hforward .nil))).1
  | .link l, hp => by
    have htest := hR.leaf (q := .test (.atPort "outport" l.source)) hwhole
      (hp (by simp [Policy.parts])) rfl
    have hset := hR.leaf (q := .modify (.comeInAt l.target)) hwhole
      (hp (by simp [Policy.parts])) rfl
    exact hR.defined rfl (hR.along (.cons htest (.cons hset .nil))).1
  | .dynamic h, hp => by
    obtain ⟨hself, hrest⟩ := List.cons_subset.1 hp
    exact hR.dynamic hwhole hself (henv h hrest)

theorem of_partsOfAll (hR : Carried s Good R) (hwhole : Good whole)
    (henv : ∀ h, envParts h ⊆ whole → R (s.definition h) (env h)) :
    (ps : List Policy) → Policy.partsOfAll envParts ps ⊆ whole →
      List.Forall₂ R ps (Policy.toTerms env ps)
  | [], _ => .nil
  | p :: ps, hps => by
    obtain ⟨hp, hrest⟩ := List.append_subset.1 hps
    exact .cons (of_parts hR hwhole henv p hp) (of_partsOfAll hR hwhole henv ps hrest)

end

end

theorem of_unfold (hR : Carried s Good R) (depth : Nat) (h : Handle)
    (hgood : Good (s.unfold Policy.parts [] depth h)) :
    R (s.definition h) (s.unfold Policy.toTerm .drop depth h) := by
  induction depth generalizing h with
  | zero => exact hR.stuck _
  | succ depth ih =>
    exact hR.of_parts hgood (fun k hk => ih k (hR.antitone hk hgood)) _ (List.Subset.refl _)

/-- What the single parts carry holds between the policy and its term. -/
theorem term (hR : Carried s Good R) {p : Policy} (hgood : Good (s.parts p)) :
    R p (s.term p) :=
  hR.of_parts hgood (fun k hk => hR.of_unfold _ k (hR.antitone hk hgood)) p (List.Subset.refl _)

end Carried

end Store

end PacketPolicy

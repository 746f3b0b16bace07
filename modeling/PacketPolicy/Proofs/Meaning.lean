import PacketPolicy.Proofs.Effects
import PacketPolicy.Proofs.Rewriting
import PacketPolicy.Proofs.Unfolding

/-!
# What a policy means

The meaning of a policy on a packet is a set of packets that pass and a set of arrivals at
sinks. It is built from the meanings of the parts alone: side by side by union, in sequence
by composition of relations. No order and no shortcut enters into it. Evaluation all at once
has the outcome that the meaning says (`Store.means_term`).
-/

namespace PacketPolicy

/-! ## Meanings -/

/-- What becomes of one packet. -/
@[ext] structure Meaning where
  out : Set Packet
  arr : Set Arrival

/-- What becomes of each packet. -/
abbrev Behavior := Packet → Meaning

namespace Behavior

def identity : Behavior := fun p => ⟨{p}, ∅⟩

def drop : Behavior := fun _ => ⟨∅, ∅⟩

def test (m : Match) : Behavior := fun p => ⟨{q | q = p ∧ m.accepts p = true}, ∅⟩

def modify (m : Modification) : Behavior := fun p => ⟨{m.apply p}, ∅⟩

def query (s : Sink) : Behavior := fun p => ⟨∅, {⟨s, p⟩}⟩

def negate (d : Behavior) : Behavior := fun p =>
  ⟨{q | q = p ∧ (d p).out = ∅}, (d p).arr⟩

def beside (ds : List Behavior) : Behavior := fun p =>
  ⟨{q | ∃ d ∈ ds, q ∈ (d p).out}, {x | ∃ d ∈ ds, x ∈ (d p).arr}⟩

/-- Composition of relations. What arrives does so on the way or afterwards. -/
def andThen (d e : Behavior) : Behavior := fun p =>
  ⟨{q | ∃ r ∈ (d p).out, q ∈ (e r).out}, (d p).arr ∪ {x | ∃ r ∈ (d p).out, x ∈ (e r).arr}⟩

def along (ds : List Behavior) : Behavior := ds.foldr andThen identity

/-- What becomes of all packets of a set. -/
def onAll (d : Behavior) (s : PacketSet) : Meaning :=
  ⟨{q | ∃ p ∈ s, q ∈ (d p).out}, {x | ∃ p ∈ s, x ∈ (d p).arr}⟩

variable (d e : Behavior)

@[simp] theorem identity_andThen : identity.andThen d = d := by
  funext p
  simp [andThen, identity]

@[simp] theorem andThen_identity : d.andThen identity = d := by
  funext p
  simp [andThen, identity]

@[simp] theorem drop_andThen : drop.andThen d = drop := by
  funext p
  simp [andThen, drop]

theorem along_pair : along [d, e] = d.andThen e := by
  simp [along]

@[simp] theorem onAll_singleton (p : Packet) : d.onAll (.singleton p) = d p := by
  simp [onAll]

/-- If the first behavior passes on the second set, the other one goes on from there. -/
theorem onAll_andThen {s t : PacketSet} (h : ∀ q, q ∈ t ↔ q ∈ (d.onAll s).out) :
    (d.andThen e).onAll s = ⟨(e.onAll t).out, (d.onAll s).arr ∪ (e.onAll t).arr⟩ := by
  ext x
  · simp only [onAll, andThen, Set.mem_ofPred_eq] at h ⊢
    simp only [h]
    tauto
  · simp only [onAll, andThen, Set.mem_ofPred_eq, Set.mem_union] at h ⊢
    simp only [h]
    grind

end Behavior

namespace Policy

mutual

/-- The meaning of a policy, where `env` gives that of handles. -/
def denote (env : Handle → Behavior) : Policy → Behavior
  | .identity => .identity
  | .drop => .drop
  | .test m => .test m
  | .modify m => .modify m
  | .controller => .drop
  | .query s => .query s
  | .negate p => .negate (denote env p)
  | .parallel ps => .beside (denoteAll env ps)
  | .union ps => .beside (denoteAll env ps)
  | .sequential ps => .along (denoteAll env ps)
  | .intersection ps => .along (denoteAll env ps)
  | .difference p q => (denote env p).andThen (.negate (denote env q))
  | .conditional c p q =>
    .beside [(denote env c).andThen (denote env p),
      (Behavior.negate (denote env c)).andThen (denote env q)]
  | .forward port => .modify (.leaveBy port)
  | .exclusive port =>
    (Behavior.negate (.test (.int "inport" port))).andThen (.modify (.leaveBy port))
  | .link l =>
    (Behavior.test (.atPort "outport" l.source)).andThen (.modify (.comeInAt l.target))
  | .dynamic h => env h

def denoteAll (env : Handle → Behavior) : List Policy → List Behavior
  | [] => []
  | p :: ps => denote env p :: denoteAll env ps

end

theorem denoteAll_eq_map (env : Handle → Behavior) (ps : List Policy) :
    denoteAll env ps = ps.map (denote env) := by
  induction ps with
  | nil => rfl
  | cons p ps ih => simp [denoteAll, ih]

/-- All but the packets that came in by the port leave by it. -/
theorem denote_exclusive (env : Handle → Behavior) (port : Int64) (pkt : Packet) :
    denote env (.exclusive port) pkt =
      ⟨{q | pkt.get? "inport" ≠ some (.int port) ∧ q = pkt.set "outport" (.int port)}, ∅⟩ := by
  ext q
  · simp [denote, Behavior.andThen, Behavior.negate, Behavior.test, Behavior.modify,
      Match.accepts_int_iff, Modification.apply_leaveBy, Set.eq_empty_iff_forall_notMem]
  · simp [denote, Behavior.andThen, Behavior.negate, Behavior.test, Behavior.modify]

/-- What leaves by the source of a link comes in at its target. -/
theorem denote_link (env : Handle → Behavior) (l : Link) (pkt : Packet) :
    denote env (.link l) pkt =
      ⟨{q | (pkt.get? "switch" = some (.int l.source.switch) ∧
          pkt.get? "outport" = some (.int l.source.port)) ∧
        q = ((pkt.set "switch" (.int l.target.switch)).set "inport" (.int l.target.port)).unset
          "outport"}, ∅⟩ := by
  ext q
  · simp [denote, Behavior.andThen, Behavior.test, Behavior.modify,
      @Match.accepts_atPort_iff "outport" (by decide), Modification.apply_comeInAt]
  · simp [denote, Behavior.andThen, Behavior.test, Behavior.modify]

theorem local_denote : Local denote := by
  apply local_of_operands
  intro env env' p hself hoperands
  have hall : denoteAll env p.operands = denoteAll env' p.operands := by
    rw [denoteAll_eq_map, denoteAll_eq_map]
    exact List.map_congr_left hoperands
  cases p
  case parallel | union => exact congrArg Behavior.beside hall
  case sequential | intersection => exact congrArg Behavior.along hall
  all_goals simp_all [denote, operands]

end Policy

/-! ## Evaluation all at once -/

/-- The outcome is what the meaning says. -/
def Outcome.Means (o : Outcome) (m : Meaning) : Prop :=
  (∀ q, q ∈ o.outputs ↔ q ∈ m.out) ∧ ∀ x, x ∈ o.arrivals ↔ x ∈ m.arr

namespace Outcome

variable {o a b : Outcome} {A B : Set Packet}

theorem means_none : none.Means ⟨∅, ∅⟩ :=
  ⟨fun q => iff_of_false (SortedSet.not_mem_empty q) id,
    fun x => iff_of_false (SortedSet.not_mem_empty x) id⟩

theorem Means.union (ha : a.Means ⟨A, ∅⟩) (hb : b.Means ⟨B, ∅⟩) :
    (a.union b).Means ⟨A ∪ B, ∅⟩ := by
  constructor
  · intro q
    rw [mem_outputs_union, ha.1, hb.1, Set.mem_union]
  · intro x
    simp [ha.2, hb.2]

theorem Means.andThen {f : Packet → Outcome} {F : Packet → Set Packet} (ho : o.Means ⟨A, ∅⟩)
    (hf : ∀ p, (f p).Means ⟨F p, ∅⟩) : (o.andThen f).Means ⟨{q | ∃ p ∈ A, q ∈ F p}, ∅⟩ := by
  constructor
  · intro q
    simp only [mem_outputs_andThen, ho.1, (hf _).1, Set.mem_ofPred_eq]
  · intro x
    simp [ho.2, (hf _).2]

end Outcome

/-- The term has the outcomes that the behavior says. -/
def Term.Means (t : Term) (d : Behavior) : Prop := ∀ p, (t.eval p).Means (d p)

namespace Term

theorem means_test (m : Match) : (Term.test m).Means (.test m) := by
  intro p
  refine ⟨fun q => mem_outputs_test.trans and_comm, fun x => ?_⟩
  rw [eval]
  split_ifs <;> exact iff_of_false (SortedSet.not_mem_empty x) id

theorem means_modify (m : Modification) : (Term.modify m).Means (.modify m) := fun _ =>
  ⟨fun _ => SortedSet.mem_singleton, fun x => iff_of_false (SortedSet.not_mem_empty x) id⟩

theorem means_query (s : Sink) : (Term.query s).Means (.query s) := fun _ =>
  ⟨fun q => iff_of_false (SortedSet.not_mem_empty q) id, fun _ => SortedSet.mem_singleton⟩

theorem means_drop : Term.drop.Means .drop := fun _ => Outcome.means_none

theorem Means.negate {t : Term} {d : Behavior} (h : t.Means d) :
    (Term.negate t).Means d.negate := by
  intro p
  obtain ⟨hout, harr⟩ := h p
  refine ⟨fun q => mem_outputs_negate.trans ?_, harr⟩
  simp only [hout, Behavior.negate, Set.mem_ofPred_eq, Set.eq_empty_iff_forall_notMem]

theorem means_parallel {ts : List Term} {ds : List Behavior} (h : List.Forall₂ Means ts ds) :
    (Term.parallel ts).Means (.beside ds) := by
  induction h with
  | nil =>
    intro p
    exact ⟨by simp [eval, evalBeside, Outcome.none, Behavior.beside],
      by simp [eval, evalBeside, Outcome.none, Behavior.beside]⟩
  | @cons t d ts ds ht _ ih =>
    intro p
    have hcons : eval (.parallel (t :: ts)) p = (eval t p).union (eval (.parallel ts) p) := rfl
    rw [hcons]
    exact ⟨by simp [(ht p).1, (ih p).1, Behavior.beside],
      by simp [(ht p).2, (ih p).2, Behavior.beside]⟩

theorem means_sequential {ts : List Term} {ds : List Behavior} (h : List.Forall₂ Means ts ds) :
    (Term.sequential ts).Means (.along ds) := by
  induction h with
  | nil =>
    intro p
    exact ⟨fun q => SortedSet.mem_singleton, fun x => iff_of_false (SortedSet.not_mem_empty x) id⟩
  | @cons t d ts ds ht _ ih =>
    intro p
    have hcons : Behavior.along (d :: ds) = d.andThen (Behavior.along ds) := rfl
    rw [hcons, eval_sequential_cons]
    exact ⟨by simp [(ht p).1, (ih _).1, Behavior.andThen],
      by simp [(ht p).1, (ht p).2, (ih _).2, Behavior.andThen]⟩

theorem means_pair {t u : Term} {d e : Behavior} (ht : t.Means d) (hu : u.Means e) :
    (Term.sequential [t, u]).Means (d.andThen e) := by
  rw [← Behavior.along_pair]
  exact means_sequential (.cons ht (.cons hu .nil))

end Term

/-! ## Policies and stores -/

namespace Policy

theorem means_toTerm {env : Handle → Term} {den : Handle → Behavior}
    (henv : ∀ h, (env h).Means (den h)) (p : Policy) : (p.toTerm env).Means (p.denote den) := by
  induction p using inductionOn with
  | step p ih =>
    have hterms : List.Forall₂ Term.Means (toTerms env p.operands) (denoteAll den p.operands) := by
      rw [toTerms_eq_map, denoteAll_eq_map, List.forall₂_map_left_iff, List.forall₂_map_right_iff]
      exact List.forall₂_same.2 ih
    cases p with
    | identity =>
      exact fun _ => ⟨fun _ => SortedSet.mem_singleton,
        fun x => iff_of_false (SortedSet.not_mem_empty x) id⟩
    | drop => exact Term.means_drop
    | test m => exact Term.means_test m
    | modify m => exact Term.means_modify m
    | controller => exact Term.means_drop
    | query s => exact Term.means_query s
    | negate p => exact (ih p (by simp [operands])).negate
    | parallel ps => exact Term.means_parallel hterms
    | union ps => exact Term.means_parallel hterms
    | sequential ps => exact Term.means_sequential hterms
    | intersection ps => exact Term.means_sequential hterms
    | difference p q =>
      exact Term.means_pair (ih p (by simp [operands])) (ih q (by simp [operands])).negate
    | conditional c p q =>
      have hc := ih c (by simp [operands])
      have hp := Term.means_pair hc (ih p (by simp [operands]))
      have hq := Term.means_pair hc.negate (ih q (by simp [operands]))
      exact Term.means_parallel (.cons hp (.cons hq .nil))
    | forward port => exact Term.means_modify _
    | exclusive port => exact Term.means_pair (Term.means_test _).negate (Term.means_modify _)
    | link l => exact Term.means_pair (Term.means_test _) (Term.means_modify _)
    | dynamic h => exact henv h

end Policy

namespace Store

/-- Readings that are related for every policy, whenever those of handles are, are related in every
store. -/
theorem reading_rel {α β : Type} {R : α → β → Prop} {read : (Handle → α) → Policy → α}
    {read' : (Handle → β) → Policy → β} {stuck : α} {stuck' : β} (hstuck : R stuck stuck')
    (hread : ∀ {env env'}, (∀ h, R (env h) (env' h)) → ∀ p, R (read env p) (read' env' p))
    (s : Store) (p : Policy) : R (s.reading read stuck p) (s.reading read' stuck' p) := by
  have hunfold : ∀ depth h, R (s.unfold read stuck depth h) (s.unfold read' stuck' depth h) := by
    intro depth
    induction depth with
    | zero => exact fun _ => hstuck
    | succ depth ih => exact fun h => hread ih (s.definition h)
  exact hread (hunfold s.size) p

/-- The meaning of a policy, handles followed. -/
def denote (s : Store) (p : Policy) : Behavior := s.reading Policy.denote .drop p

theorem means_term (s : Store) (p : Policy) : (s.term p).Means (s.denote p) :=
  reading_rel Term.means_drop (fun henv => Policy.means_toTerm henv) s p

/-- A handle means what its definition means. -/
theorem denote_dynamic {s : Store} (hs : s.Acyclic) (hclosed : s.Closed) {h : Handle}
    (hown : s.owns h = true) : s.denote (.dynamic h) = s.denote (s.definition h) :=
  hs.unfold_eq_reading hclosed Policy.local_denote hown

end Store

end PacketPolicy

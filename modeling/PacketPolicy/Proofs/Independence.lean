import PacketPolicy.Proofs.Canonicity
import PacketPolicy.Proofs.Operators

/-!
# Headers that a policy does not name

What no match and no modification of a policy names is neither read nor written. Two runs
on packets that differ in such a header take the same course: what one passes on is what the
other does, but for that header, and both reach the same sinks. The same rule of a table of
the policy decides, because a compiled rule asks and writes only what some part of the policy
does.
-/

namespace PacketPolicy

/-! ## Images of outcomes -/

namespace SortedSet

variable {κ ι : Type} [Ord κ] [Ord ι] [Std.TransOrd ι]

/-- The set of what `f` makes of the members. -/
def image (f : κ → ι) (s : SortedSet κ) : SortedSet ι := .ofList (s.toList.map f)

@[simp] theorem mem_image [Std.LawfulEqOrd ι] {f : κ → ι} {s : SortedSet κ} {b : ι} :
    b ∈ s.image f ↔ ∃ a ∈ s, f a = b := by
  simp [image]

theorem image_ofList [Std.TransOrd κ] [Std.LawfulEqOrd κ] [Std.LawfulEqOrd ι] (f : κ → ι)
    (l : List κ) : (ofList l).image f = ofList (l.map f) := by
  apply ext_mem
  simp

end SortedSet

namespace Outcome

variable (u : Packet → Packet)

/-- The outcome with `u` done to all packets in it. -/
def image (o : Outcome) : Outcome :=
  ⟨o.outputs.image u, o.arrivals.image fun a => ⟨a.sink, u a.packet⟩⟩

theorem image_union (a b : Outcome) : (a.union b).image u = (a.image u).union (b.image u) := by
  apply ext_mem <;> simp [image, or_and_right, exists_or]

variable {u}

/-- Doing `u` first or last is the same, if it is for the second part. -/
theorem image_andThen {f : Packet → Outcome} (hf : ∀ p, f (u p) = (f p).image u) (o : Outcome) :
    (o.andThen f).image u = (o.image u).andThen f := by
  apply ext_mem
  · intro q
    simp only [image, SortedSet.mem_image, mem_outputs_andThen, exists_exists_and_eq_and, hf]
    tauto
  · intro x
    simp only [image, SortedSet.mem_image, mem_arrivals_andThen, exists_exists_and_eq_and, hf,
      or_and_right, exists_or]
    grind

theorem mem_sinks_image {o : Outcome} {b : Sink} : b ∈ (o.image u).sinks ↔ b ∈ o.sinks := by
  simp only [mem_sinks, image, SortedSet.mem_image, Arrival.mk.injEq]
  constructor
  · rintro ⟨_, a, ha, rfl, -⟩
    exact ⟨a.packet, ha⟩
  · rintro ⟨q, hq⟩
    exact ⟨u q, ⟨b, q⟩, hq, rfl, rfl⟩

end Outcome

namespace Term

/-- It makes no difference whether `u` is done to the packet before or afterwards. -/
def Commutes (u : Packet → Packet) (t : Term) : Prop := ∀ pkt, t.eval (u pkt) = (t.eval pkt).image u

variable {u : Packet → Packet} {t : Term} {ts : List Term}

theorem Commutes.negate (h : t.Commutes u) : (Term.negate t).Commutes u := by
  intro pkt
  apply Outcome.ext_mem
  -- `u` may make one packet of two, but it never makes a set empty.
  · intro q
    rw [mem_outputs_negate, h]
    simp only [Outcome.image, SortedSet.mem_image, mem_outputs_negate]
    grind
  · intro x
    change x ∈ (t.eval (u pkt)).arrivals ↔ x ∈ ((t.eval pkt).image u).arrivals
    rw [h]

theorem commutes_parallel (h : ∀ t ∈ ts, t.Commutes u) : (Term.parallel ts).Commutes u := by
  intro pkt
  induction ts with
  | nil => rfl
  | cons t ts ih =>
    obtain ⟨ht, hts⟩ := List.forall_mem_cons.1 h
    have hcons : ∀ pkt, eval (.parallel (t :: ts)) pkt =
        (eval t pkt).union (eval (.parallel ts) pkt) := fun _ => rfl
    rw [hcons, hcons, ht, ih hts, Outcome.image_union]

theorem commutes_sequential (h : ∀ t ∈ ts, t.Commutes u) : (Term.sequential ts).Commutes u := by
  induction ts with
  | nil => exact fun _ => rfl
  | cons t ts ih =>
    obtain ⟨ht, hts⟩ := List.forall_mem_cons.1 h
    intro pkt
    rw [eval_sequential_cons, eval_sequential_cons, ht, Outcome.image_andThen (ih hts)]

end Term

/-! ## Headers that are not named -/

open Modification (write)

section

variable {field : String} (w : Option Value) (pkt : Packet)

theorem Match.accepts_write {m : Match} (h : m.get? field = none) :
    m.accepts (write pkt (field, w)) = m.accepts pkt := by
  rw [Bool.eq_iff_iff, accepts_iff, accepts_iff]
  refine forall₃_congr fun name p hp => ?_
  have hname : name ≠ field := by
    rintro rfl
    rw [h] at hp
    cases hp
  rw [Modification.get?_write, if_neg hname]

theorem Predicate.accepts_write {p : Predicate} (h : p.field? field = none) :
    p.accepts (write pkt (field, w)) = p.accepts pkt := by
  cases p with
  | identity | drop => rfl
  | test m => exact m.accepts_write w pkt h

theorem Modification.apply_write {m : Modification} (h : m.get? field = none) :
    m.apply (write pkt (field, w)) = write (m.apply pkt) (field, w) := by
  apply Packet.ext_get?
  intro name
  simp only [get?_apply, get?_write]
  split_ifs with hname
  · rw [hname, h, Option.getD_none]
  · rfl

theorem Action.output?_write {a : Action} (h : ∀ m, a = .modify m → m.get? field = none) :
    a.output? (write pkt (field, w)) = (a.output? pkt).map fun q => write q (field, w) := by
  cases a with
  | modify m => exact congrArg some (m.apply_write w pkt (h m rfl))
  | identity | drop | controller | query => rfl

theorem Action.stable_get?_modify (field : String) :
    Stable fun x => ∀ m, x = .modify m → m.get? field = none where
  identity := by simp
  drop := by simp
  controller := by simp
  andThen {m x} hm hx n hn := by
    cases x with
    | identity => exact hm n hn
    | modify later =>
      obtain rfl := Action.modify.inj hn
      rw [Modification.get?_andThen, hm m rfl, hx later rfl, Option.or_none]
    | drop | controller | query => cases hn

/-- The policy is a match or a modification with this header in it. -/
def Policy.names (field : String) : Policy → Bool
  | .test m => (m.get? field).isSome
  | .modify m => (m.get? field).isSome
  | _ => false

namespace Store

/-- No part of the policy names the header; definitions of handles are looked through. -/
def Overlooks (s : Store) (field : String) (p : Policy) : Prop :=
  ∀ q ∈ s.parts p, q.names field = false

instance (s : Store) (field : String) (p : Policy) : Decidable (s.Overlooks field p) :=
  inferInstanceAs (Decidable (∀ q ∈ s.parts p, q.names field = false))

/-! ## Evaluation -/

theorem carried_write (s : Store) : Carried s (fun l => ∀ q ∈ l, q.names field = false)
    fun _ t => t.Commutes fun q => write q (field, w) where
  antitone hlk hk q hq := hk q (hlk hq)
  stuck _ _ := rfl
  leaf {l q t} hl hq hleaf pkt := by
    have hnames := hl q hq
    cases q <;> simp only [Policy.leaf?, Option.some.injEq, reduceCtorEq] at hleaf <;> subst hleaf
    case test m =>
      simp only [Term.eval, m.accepts_write w pkt (by simpa [Policy.names] using hnames)]
      split_ifs <;> rfl
    case modify m =>
      simp only [Term.eval, m.apply_write w pkt (by simpa [Policy.names] using hnames)]
      rfl
    all_goals rfl
  negate _ _ ih := ih.negate
  beside h :=
    have hall := Term.commutes_parallel (forall_mem_of_forall₂ h)
    ⟨hall, hall⟩
  along h :=
    have hall := Term.commutes_sequential (forall_mem_of_forall₂ h)
    ⟨hall, hall⟩
  defined _ ih := ih
  dynamic _ _ ih := ih

/-! ## Tables -/

variable {s : Store} {p : Policy}

/-- No rule of a table asks or writes a header that the policy does not name. -/
theorem Overlooks.of_compile (h : s.Overlooks field p) {k : CompileSettings} {t : Table}
    (ht : s.compile k p = .ok t) : ∀ r ∈ t.rules,
      r.predicate.field? field = none ∧ ∀ m, .modify m ∈ r.actions → m.get? field = none := by
  have htests : ∀ m, .test m ∈ s.parts p → m.get? field = none :=
    fun m hm => by simpa [Policy.names] using h _ hm
  have hwrites : ∀ m, .modify m ∈ s.parts p → m.get? field = none :=
    fun m hm => by simpa [Policy.names] using h _ hm
  have hasked := allPredicates_of_compile
    (Predicate.stable_field? fun name _ => name ≠ field) ht
    (by
      rintro m hm _ pattern hp rfl
      rw [Predicate.field?, htests m hm] at hp
      cases hp)
  have hwritten := (Term.compile_eq_ok_iff.1 ht).allActions (Action.stable_get?_modify field)
    (by
      rintro _ hx m rfl
      exact hwrites m (mem_parts_of_has rfl (by simp) hx))
  intro r hr
  refine ⟨?_, fun m hm => hwritten r hr _ hm m rfl⟩
  by_contra hne
  obtain ⟨pattern, hp⟩ := Option.ne_none_iff_exists'.1 hne
  exact hasked r hr field pattern hp rfl

end Store

/-- A rule that does not write a header leaves it as it is. -/
theorem Rule.outputs_write {r : Rule} (h : ∀ m, .modify m ∈ r.actions → m.get? field = none) :
    r.outputs (write pkt (field, w)) = (r.outputs pkt).image fun q => write q (field, w) := by
  have houtput : ∀ a ∈ r.actions, a.output? (write pkt (field, w)) =
      (a.output? pkt).map fun q => write q (field, w) := by
    intro a ha
    exact a.output?_write w pkt fun m hm => h m (hm ▸ ha)
  rw [outputs, outputs, SortedSet.image_ofList, List.filterMap_congr houtput, List.map_filterMap]

end

namespace Table

variable {t : Table} {pkt q : Packet}

theorem find?_congr (h : ∀ r ∈ t.rules, r.predicate.accepts q = r.predicate.accepts pkt) :
    t.find? q = t.find? pkt := by
  have hgo : ∀ (l : List Rule) (n : Nat),
      (∀ r ∈ l, r.predicate.accepts q = r.predicate.accepts pkt) →
        find?.go q n l = find?.go pkt n l := by
    intro l
    induction l with
    | nil => intro n _; rfl
    | cons r rest ih =>
      intro n hl
      obtain ⟨hr, hrest⟩ := List.forall_mem_cons.1 hl
      rw [find?.go, find?.go, hr, ih (n + 1) hrest]
  exact hgo t.rules 0 h

end Table

namespace Controller

/-- A header that the policy does not name, handles looked through, is neither read nor written:
whatever is done to it, runs and lookups are the same but for this header. -/
theorem unnamed_headers_are_ignored (c : Controller) {p : Policy} {field : String}
    (h : c.store.Overlooks field p) (w : Option Value) (pkt : Packet) :
    (∀ o, c.outcome o p (write pkt (field, w)) =
        (c.outcome o p pkt).image (fun q => write q (field, w)) ∧
      ∀ b, b ∈ (c.outcome o p (write pkt (field, w))).sinks ↔ b ∈ (c.outcome o p pkt).sinks) ∧
    ∀ k t, c.store.compile k p = .ok t → ∃ x, t.lookup pkt = .ok x ∧
      t.lookup (write pkt (field, w)) =
        .ok { x with outputs := x.outputs.image fun q => write q (field, w) } := by
  have heval : c.store.eval p (write pkt (field, w)) = _ := (c.store.carried_write w).term h pkt
  constructor
  · intro o
    rw [outcome_eq, outcome_eq, heval]
    exact ⟨rfl, fun b => Outcome.mem_sinks_image⟩
  · intro k t ht
    have hrules := h.of_compile ht
    obtain ⟨actions, hverdict⟩ := (Term.compile_eq_ok_iff.1 ht).regular.total pkt
    obtain ⟨i, r, hfind, hr, -, -⟩ := Table.find?_of_verdict hverdict
    have hsame : t.find? (write pkt (field, w)) = t.find? pkt :=
      Table.find?_congr fun r hr => r.predicate.accepts_write w pkt (hrules r hr).1
    refine ⟨_, Table.lookup_of_find? hfind, ?_⟩
    rw [Table.lookup_of_find? (hsame.trans hfind), r.outputs_write w pkt (hrules r hr).2]

/-- A handle, a defined form that writes another header, and a sink. -/
theorem unnamed_headers_are_ignored_vlan :
    ∃ (c : Controller) (p : Policy) (t : Table) (pkt : Packet),
      c.store = ⟨[⟨.test (.int "inport" 1), true, none⟩]⟩ ∧
      p = .sequential [.dynamic ⟨0, true⟩, .parallel [.forward 2, .query ⟨.count, 0⟩]] ∧
      pkt = .ofList [("inport", .int 1), ("vlan", .int 3)] ∧ c.store.Overlooks "vlan" p ∧
      ¬ c.store.Overlooks "outport" p ∧ c.store.compile {} p = .ok t ∧
      (∀ o, pkt.set "outport" (.int 2) ∈ (c.outcome o p pkt).outputs ∧
        (pkt.set "outport" (.int 2)).unset "vlan" ∈ (c.outcome o p (pkt.unset "vlan")).outputs ∧
        ⟨.count, 0⟩ ∈ (c.outcome o p (pkt.unset "vlan")).sinks) ∧
      ∃ x y, t.lookup pkt = .ok x ∧ t.lookup (pkt.unset "vlan") = .ok y ∧ y.index = x.index := by
  let c : Controller := { store := ⟨[⟨.test (.int "inport" 1), true, none⟩]⟩ }
  let p : Policy := .sequential [.dynamic ⟨0, true⟩, .parallel [.forward 2, .query ⟨.count, 0⟩]]
  let pkt : Packet := .ofList [("inport", .int 1), ("vlan", .int 3)]
  have hvlan : c.store.Overlooks "vlan" p := by decide +kernel
  obtain ⟨hruns, htables⟩ := c.unnamed_headers_are_ignored hvlan none pkt
  obtain ⟨x, hx, hy⟩ := htables {} _ rfl
  refine ⟨c, p, _, pkt, rfl, rfl, rfl, hvlan, by decide +kernel, rfl, fun o => ?_,
    x, _, hx, hy, rfl⟩
  obtain ⟨himage, hsinks⟩ := hruns o
  have houtput : pkt.set "outport" (.int 2) ∈ (c.outcome o p pkt).outputs := by
    rw [outcome_eq]
    decide +kernel
  have hsink : ⟨.count, 0⟩ ∈ (c.outcome o p pkt).sinks := by
    rw [outcome_eq]
    decide +kernel
  refine ⟨houtput, ?_, (hsinks _).2 hsink⟩
  change _ ∈ (c.outcome o p (write pkt ("vlan", none))).outputs
  rw [himage]
  exact SortedSet.mem_image.2 ⟨_, houtput, rfl⟩

end Controller

end PacketPolicy

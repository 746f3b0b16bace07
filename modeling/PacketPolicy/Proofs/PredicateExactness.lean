import PacketPolicy.Proofs.PredicateOrder
import Mathlib.Order.Lattice
import Mathlib.Order.BoundedOrder.Basic

/-!
# Canonical predicates are what they accept

`covers` and `meet` look at patterns only, not at packets. For canonical predicates nothing
is lost by that: if a predicate does not cover another one, some packet tells them apart.
The packet is put together header by header, from a `sample` of each pattern and, for the
header in question, a value that one pattern accepts and the other does not.

Canonical predicates that cover each other are equal, so they are a partial order with
`meet` as its infimum (`Canonical`), and the laws of `meet` are those of any such order.
-/

namespace PacketPolicy

namespace Ipv4
namespace Network

theorem getLsbD_lead (k : Nat) (a : Address) (i : Nat) :
    (lead k a).getLsbD i = a.bits.getLsbD (32 - k + i) := by
  simp [lead]

/-- The address with the bit right after the length `k` flipped. -/
def flip (k : Nat) (a : Address) : Address := ⟨a.bits ^^^ BitVec.twoPow 32 (31 - k)⟩

theorem lead_flip {k : Nat} (hk : k < 32) (a : Address) : lead k (flip k a) = lead k a := by
  apply BitVec.eq_of_getLsbD_eq
  intro i hi
  have hne : ¬ 31 - k = 32 - k + i := by omega
  simp [getLsbD_lead, flip, hne]

/-- A network that is longer than `k` tells the two addresses apart. -/
theorem lead_flip_ne {k l : Nat} (hk : k < l) (hl : l ≤ 32) (a : Address) :
    lead l (flip k a) ≠ lead l a := by
  intro h
  have hbit := congrArg (fun b => b.getLsbD (l - 1 - k)) h
  have hindex : 32 - l + (l - 1 - k) = 31 - k := by omega
  have hlt : 31 - k < 32 := by omega
  simp only [getLsbD_lead, hindex, flip, BitVec.getLsbD_xor, BitVec.getLsbD_twoPow] at hbit
  simp [hlt] at hbit

theorem contains_iff {n : Network} {a : Address} :
    n.contains a = true ↔ lead n.length a = lead n.length n.address := by
  simp [contains]

/-- A network that has all addresses of another one covers it. -/
theorem covers_of_contains {m n : Network}
    (h : ∀ a, n.contains a = true → m.contains a = true) : m.covers n = true := by
  have hself := contains_iff.1 (h n.address (contains_iff.2 rfl))
  refine covers_iff.2 ⟨?_, hself⟩
  by_contra hlt
  have hlen : n.length < m.length := by omega
  have hshort : n.length < 32 := by
    have := m.length_le
    omega
  have hflip := contains_iff.1 (h (flip n.length n.address) (contains_iff.2 (lead_flip hshort _)))
  exact lead_flip_ne hlen m.length_le n.address (hflip.trans hself.symm)

/-- Normal networks that cover each other are equal. -/
theorem IsNormal.eq_of_covers {m n : Network} (hm : m.IsNormal) (hn : n.IsNormal)
    (hmn : m.covers n = true) (hnm : n.covers m = true) : m = n := by
  obtain ⟨hle, hlead⟩ := covers_iff.1 hmn
  obtain ⟨hge, -⟩ := covers_iff.1 hnm
  have hlen : m.length = n.length := le_antisymm hle hge
  have haddress : m.address = n.address := by
    rw [← hm, ← hn, base, base, ← hlead, hlen]
  cases m
  cases n
  simp_all

end Network
end Ipv4

namespace Pattern

/-- A value that the pattern accepts. -/
def sample : Pattern → Value
  | .exactly v => v
  | .within n => .address n.address

@[simp] theorem accepts_sample (p : Pattern) : p.accepts p.sample = true := by
  cases p <;> simp [accepts, sample, Ipv4.Network.contains]

/-- A canonical pattern that accepts all that another one accepts covers it. -/
theorem IsCanonical.covers_of_accepts {p q : Pattern} (hp : p.IsCanonical)
    (h : ∀ v, q.accepts v = true → p.accepts v = true) : p.covers q = true := by
  cases q with
  | exactly w =>
    rw [covers_exactly]
    exact h w (accepts_sample (.exactly w))
  | within n =>
    cases p with
    | exactly v =>
      -- a canonical pattern of one value is never that of an address
      have hv : v = .address n.address := by
        simpa [accepts, sample] using h _ (accepts_sample (.within n))
      rw [hv] at hp
      exact hp.elim
    | within m => exact Ipv4.Network.covers_of_contains fun a ha => h (.address a) ha

/-- Canonical patterns that cover each other are equal. -/
theorem IsCanonical.eq_of_covers {p q : Pattern} (hp : p.IsCanonical) (hq : q.IsCanonical)
    (hpq : p.covers q = true) (hqp : q.covers p = true) : p = q := by
  cases p with
  | exactly v =>
    cases q with
    | exactly w => rw [show v = w by simpa [covers] using hpq]
    | within n => simp [covers] at hpq
  | within m =>
    cases q with
    | exactly w => simp [covers] at hqp
    | within n => rw [Ipv4.Network.IsNormal.eq_of_covers hp hq hpq hqp]

/-- The meet of two patterns is one of them. -/
theorem eq_or_eq_of_meet? {p q r : Pattern} (h : p.meet? q = some r) : r = p ∨ r = q := by
  cases p <;> cases q <;> simp only [meet?] at h <;> split_ifs at h <;> simp_all

end Pattern

namespace Match

/-- A packet that the match accepts, without any other headers. -/
def sample (m : Match) : Packet := ⟨m.fields.mapValues Pattern.sample⟩

theorem get?_sample (m : Match) (field : String) :
    m.sample.get? field = (m.get? field).map Pattern.sample :=
  SortedMap.get?_mapValues _ _ _

/-- The sample stays accepted if one header gets another value that its pattern accepts. -/
theorem accepts_sample_set {m : Match} {field : String} {v : Value}
    (h : ∀ p, m.get? field = some p → p.accepts v = true) :
    m.accepts (m.sample.set field v) = true := by
  refine accepts_iff.2 fun f p hp => ?_
  rw [Packet.get?_set]
  split_ifs with hf
  · exact ⟨v, rfl, h p (hf ▸ hp)⟩
  · exact ⟨p.sample, by rw [get?_sample, hp]; rfl, p.accepts_sample⟩

@[simp] theorem accepts_sample (m : Match) : m.accepts m.sample = true := by
  refine accepts_iff.2 fun f p hp => ?_
  exact ⟨p.sample, by rw [get?_sample, hp]; rfl, p.accepts_sample⟩

theorem isCanonical_iff {m : Match} : m.IsCanonical ↔
    (∃ field p, m.get? field = some p) ∧
      ∀ field p, m.get? field = some p → p.IsCanonical := by
  have hempty : m.fields.isEmpty = false ↔ ∃ field p, m.get? field = some p := by
    rw [← Bool.not_eq_true, SortedMap.isEmpty_iff]
    simp only [not_forall, ← Option.ne_none_iff_exists', ne_eq]
    rfl
  refine and_congr hempty ⟨fun h field p hp => h _ (SortedMap.mem_entries.2 hp), ?_⟩
  rintro h ⟨field, p⟩ he
  exact h field p (SortedMap.mem_entries.1 he)

/-- A canonical match asks for something. -/
theorem IsCanonical.not_accepts_empty {m : Match} (hm : m.IsCanonical) :
    m.accepts .empty = false := by
  obtain ⟨⟨field, p, hp⟩, -⟩ := isCanonical_iff.1 hm
  rw [← Bool.not_eq_true, accepts_iff]
  intro h
  obtain ⟨v, hv, -⟩ := h field p hp
  cases hv

/-- A canonical match that accepts all that another one accepts covers it. -/
theorem IsCanonical.covers_of_accepts {m n : Match} (hm : m.IsCanonical)
    (h : ∀ pkt, n.accepts pkt = true → m.accepts pkt = true) : m.covers n = true := by
  refine covers_iff.2 fun field p hp => ?_
  obtain ⟨v, hv, -⟩ := accepts_iff.1 (h _ n.accepts_sample) field p hp
  rw [get?_sample] at hv
  obtain ⟨q, hq, -⟩ := Option.map_eq_some_iff.1 hv
  refine ⟨q, hq, ((isCanonical_iff.1 hm).2 field p hp).covers_of_accepts fun w hw => ?_⟩
  have hset : n.accepts (n.sample.set field w) = true := by
    apply accepts_sample_set
    intro r hr
    obtain rfl : q = r := Option.some.inj (hq.symm.trans hr)
    exact hw
  obtain ⟨u, hu, hpu⟩ := accepts_iff.1 (h _ hset) field p hp
  obtain rfl : w = u := by simpa [Packet.get?_set] using hu
  exact hpu

/-- Canonical matches that cover each other are equal. -/
theorem IsCanonical.eq_of_covers {m n : Match} (hm : m.IsCanonical) (hn : n.IsCanonical)
    (hmn : m.covers n = true) (hnm : n.covers m = true) : m = n := by
  have hsome : ∀ {m n : Match}, m.IsCanonical → n.IsCanonical → m.covers n = true →
      n.covers m = true → ∀ field p, m.get? field = some p → n.get? field = some p := by
    intro m n hm hn hmn hnm field p hp
    obtain ⟨q, hq, hpq⟩ := covers_iff.1 hmn field p hp
    obtain ⟨r, hr, hqr⟩ := covers_iff.1 hnm field q hq
    obtain rfl : p = r := Option.some.inj (hp.symm.trans hr)
    rw [hq, ((isCanonical_iff.1 hm).2 field p hp).eq_of_covers
      ((isCanonical_iff.1 hn).2 field q hq) hpq hqr]
  refine Match.ext (SortedMap.ext_get? fun field => Option.ext fun p => ?_)
  exact ⟨hsome hm hn hmn hnm field p, hsome hn hm hnm hmn field p⟩

/-- What a meet asks of a header, one of the two matches asks of it. -/
theorem get?_of_meet? {m n r : Match} (h : m.meet? n = some r) {field : String} {p : Pattern}
    (hp : r.get? field = some p) : m.get? field = some p ∨ n.get? field = some p := by
  obtain ⟨fields, hfields, rfl⟩ := Option.map_eq_some_iff.1 h
  have hjoin : SortedMap.join? Pattern.meet? (m.get? field) (n.get? field) = some (some p) :=
    (SortedMap.join?_get?_of_mergeWith? hfields field).trans (congrArg some hp)
  cases ha : m.get? field with
  | none =>
    rw [ha, SortedMap.join?_none_left, Option.some.injEq] at hjoin
    exact .inr hjoin
  | some a =>
    cases hb : n.get? field with
    | none =>
      rw [ha, hb, SortedMap.join?_none_right, Option.some.injEq] at hjoin
      exact .inl hjoin
    | some b =>
      rw [ha, hb] at hjoin
      obtain ⟨c, hc, hcp⟩ := Option.map_eq_some_iff.1 hjoin
      obtain rfl := Option.some.inj hcp
      exact (Pattern.eq_or_eq_of_meet? hc).imp (fun e => congrArg some e.symm)
        fun e => congrArg some e.symm

theorem IsCanonical.of_meet? {m n r : Match} (hm : m.IsCanonical) (hn : n.IsCanonical)
    (h : m.meet? n = some r) : r.IsCanonical := by
  obtain ⟨⟨field, p, hp⟩, hpatterns⟩ := isCanonical_iff.1 hm
  obtain ⟨-, hpatterns'⟩ := isCanonical_iff.1 hn
  refine isCanonical_iff.2 ⟨?_, ?_⟩
  · obtain ⟨q, hq, -⟩ := covers_iff.1 (covers_of_meet? h).1 field p hp
    exact ⟨field, q, hq⟩
  · intro f s hs
    exact (get?_of_meet? h hs).elim (hpatterns f s) (hpatterns' f s)

end Match

namespace Predicate

namespace IsCanonical

variable {a b : Predicate}

/-- Only `drop` accepts nothing. -/
theorem exists_accepts (h : a ≠ .drop) : ∃ pkt, a.accepts pkt = true := by
  cases a with
  | identity => exact ⟨.empty, rfl⟩
  | drop => exact absurd rfl h
  | test m => exact ⟨m.sample, m.accepts_sample⟩

theorem covers_iff (ha : a.IsCanonical) :
    a.covers b = true ↔ ∀ pkt, b.accepts pkt = true → a.accepts pkt = true := by
  refine ⟨fun h pkt => accepts_of_covers h, fun h => ?_⟩
  cases a with
  | identity => rfl
  | drop =>
    by_cases hb : b = .drop
    · rw [hb]
      rfl
    · obtain ⟨pkt, hpkt⟩ := exists_accepts hb
      simpa using h pkt hpkt
  | test m =>
    cases b with
    | identity =>
      have hempty := h .empty rfl
      rw [accepts, Match.IsCanonical.not_accepts_empty ha] at hempty
      cases hempty
    | drop => rfl
    | test n => exact Match.IsCanonical.covers_of_accepts ha h

theorem eq_of_covers (ha : a.IsCanonical) (hb : b.IsCanonical) (hab : a.covers b = true)
    (hba : b.covers a = true) : a = b := by
  cases a with
  | identity => exact (eq_identity_of_covers_identity hba).symm
  | drop => exact (eq_drop_of_drop_covers hab).symm
  | test m =>
    cases b with
    | identity => exact eq_identity_of_covers_identity hab
    | drop => exact eq_drop_of_drop_covers hba
    | test n => rw [Match.IsCanonical.eq_of_covers ha hb hab hba]

theorem meet (ha : a.IsCanonical) (hb : b.IsCanonical) : (a.meet b).IsCanonical := by
  cases a with
  | identity => rwa [identity_meet]
  | drop => trivial
  | test m =>
    cases b with
    | identity => rwa [meet_identity]
    | drop => trivial
    | test n =>
      cases h : m.meet? n with
      | none => simp only [Predicate.meet, h, Option.elim]; trivial
      | some r =>
        simp only [Predicate.meet, h, Option.elim]
        exact Match.IsCanonical.of_meet? ha hb h

end IsCanonical

/-- Among canonical predicates, one covers another exactly if it accepts every packet that the other
accepts, two have no meet exactly if no packet is accepted by both, and two are equal exactly if
they accept the same packets. -/
theorem exact_of_isCanonical {a b : Predicate} (ha : a.IsCanonical) (hb : b.IsCanonical) :
    (a.covers b = true ↔ ∀ pkt, b.accepts pkt = true → a.accepts pkt = true) ∧
    (a.meet b = .drop ↔ ¬ ∃ pkt, a.accepts pkt = true ∧ b.accepts pkt = true) ∧
    (a = b ↔ ∀ pkt, a.accepts pkt = b.accepts pkt) := by
  refine ⟨ha.covers_iff, ?_, ?_⟩
  · constructor
    · rintro h ⟨pkt, hboth⟩
      have hmeet : (a.meet b).accepts pkt = true := by simp [hboth]
      simp [h] at hmeet
    · intro h
      by_contra hne
      obtain ⟨pkt, hpkt⟩ := IsCanonical.exists_accepts hne
      exact h ⟨pkt, by simpa using hpkt⟩
  · constructor
    · rintro rfl pkt
      rfl
    · intro h
      refine ha.eq_of_covers hb (ha.covers_iff.2 fun pkt hpkt => ?_)
        (hb.covers_iff.2 fun pkt hpkt => ?_)
      · rwa [h]
      · rwa [← h]

/-- The two halves of a network have no common packet, and the network accepts a packet that one
half does not. -/
theorem exact_of_isCanonical_halves :
    ∃ whole low high : Predicate,
      whole = .test (.single "dst" (.within ⟨.ofOctets 10 0 0 0, 8, by decide⟩)) ∧
      low = .test (.single "dst" (.within ⟨.ofOctets 10 0 0 0, 9, by decide⟩)) ∧
      high = .test (.single "dst" (.within ⟨.ofOctets 10 128 0 0, 9, by decide⟩)) ∧
      whole.IsCanonical ∧ low.IsCanonical ∧ high.IsCanonical ∧
      (∀ pkt, low.accepts pkt = true → whole.accepts pkt = true) ∧
      (∃ pkt, whole.accepts pkt = true ∧ low.accepts pkt = false) ∧
      ¬ ∃ pkt, low.accepts pkt = true ∧ high.accepts pkt = true := by
  let whole : Predicate := .test (.single "dst" (.within ⟨.ofOctets 10 0 0 0, 8, by decide⟩))
  let low : Predicate := .test (.single "dst" (.within ⟨.ofOctets 10 0 0 0, 9, by decide⟩))
  let high : Predicate := .test (.single "dst" (.within ⟨.ofOctets 10 128 0 0, 9, by decide⟩))
  have hwhole : whole.IsCanonical := by decide +kernel
  have hlow : low.IsCanonical := by decide +kernel
  have hhigh : high.IsCanonical := by decide +kernel
  have hnot : ¬ low.covers whole = true := by decide +kernel
  rw [(exact_of_isCanonical hlow hwhole).1] at hnot
  push Not at hnot
  obtain ⟨pkt, hpkt, hno⟩ := hnot
  exact ⟨whole, low, high, rfl, rfl, rfl, hwhole, hlow, hhigh,
    (exact_of_isCanonical hwhole hlow).1.1 (by decide +kernel),
    ⟨pkt, hpkt, Bool.eq_false_of_not_eq_true hno⟩,
    (exact_of_isCanonical hlow hhigh).2.1.1 (by decide +kernel)⟩

/-! ## The semilattice of canonical predicates -/

/-- The canonical predicates; the greater one accepts more. -/
def Canonical : Type := { p : Predicate // p.IsCanonical }

instance : SemilatticeInf Canonical where
  le a b := b.val.covers a.val = true
  le_refl a := a.val.covers_refl
  le_trans _ _ _ hab hbc := covers_trans hbc hab
  le_antisymm a b hab hba := Subtype.ext (a.property.eq_of_covers b.property hba hab)
  inf a b := ⟨a.val.meet b.val, a.property.meet b.property⟩
  inf_le_left a b := (covers_meet a.val b.val).1
  inf_le_right a b := (covers_meet a.val b.val).2
  le_inf _ _ _ hb hc := meet_covers hb hc

instance : BoundedOrder Canonical where
  top := ⟨.identity, trivial⟩
  le_top a := identity_covers a.val
  bot := ⟨.drop, trivial⟩
  bot_le a := covers_drop a.val

/-- Covering is an order that meets respect, and a meet accepts what both predicates accept.
Canonical predicates are a bounded meet-semilattice, in which covering is the order. -/
theorem covers_meet_laws (a b c d : Predicate) :
    (∀ pkt, (a.meet b).accepts pkt = true ↔ a.accepts pkt = true ∧ b.accepts pkt = true) ∧
    (a.covers b = true → ∀ pkt, b.accepts pkt = true → a.accepts pkt = true) ∧
    a.covers a = true ∧
    (a.covers b = true → b.covers c = true → a.covers c = true) ∧
    (a.covers b = true → c.covers d = true → (a.meet c).covers (b.meet d) = true) ∧
    (a.IsCanonical → b.IsCanonical → c.IsCanonical →
      a.meet b = b.meet a ∧ (a.meet b).meet c = a.meet (b.meet c) ∧ a.meet a = a ∧
      meet .identity a = a ∧ a.meet .identity = a ∧ meet .drop a = .drop ∧ a.meet .drop = .drop ∧
      (a.covers b = true ↔ a.meet b = b)) := by
  refine ⟨fun pkt => by simp, fun h pkt => accepts_of_covers h, a.covers_refl, covers_trans,
    meet_mono, ?_⟩
  intro ha hb hc
  let x : Canonical := ⟨a, ha⟩
  let y : Canonical := ⟨b, hb⟩
  let z : Canonical := ⟨c, hc⟩
  have hcovers : a.covers b = true ↔ a.meet b = b := by
    have hle : y ≤ x ↔ x ⊓ y = y := inf_eq_right.symm
    exact hle.trans Subtype.ext_iff
  exact ⟨congrArg Subtype.val (inf_comm x y), congrArg Subtype.val (inf_assoc x y z),
    congrArg Subtype.val (inf_idem x), identity_meet a, meet_identity a, drop_meet a, meet_drop a,
    hcovers⟩

/-- Networks inside one another, together with other headers. The last two predicates are not
canonical: the one network has a bit after its length, and the other is an address by value. -/
theorem covers_meet_laws_networks :
    ∃ a b c d e : Predicate,
      a = .test (.single "dst" (.within ⟨.ofOctets 10 0 0 0, 8, by decide⟩)) ∧
      b = .test (.ofHead "dst" (.within ⟨.ofOctets 10 1 0 0, 16, by decide⟩)
        [("port", .exactly (.int 80))]) ∧
      c = .test (.single "proto" (.exactly (.text "tcp"))) ∧
      d = .test (.single "dst" (.within ⟨.ofOctets 10 1 2 3, 8, by decide⟩)) ∧
      e = .test (.single "dst" (.exactly (.address (.ofOctets 10 1 2 3)))) ∧
      a.meet b = b ∧ a.meet c = c.meet a ∧ (a.meet c).meet b = a.meet (c.meet b) ∧
      ¬ d.IsCanonical ∧ ¬ e.IsCanonical ∧ (d.meet a).covers (e.meet b) = true ∧
      ∀ pkt, e.accepts pkt = true → d.accepts pkt = true := by
  let a : Predicate := .test (.single "dst" (.within ⟨.ofOctets 10 0 0 0, 8, by decide⟩))
  let b : Predicate := .test (.ofHead "dst" (.within ⟨.ofOctets 10 1 0 0, 16, by decide⟩)
    [("port", .exactly (.int 80))])
  let c : Predicate := .test (.single "proto" (.exactly (.text "tcp")))
  let d : Predicate := .test (.single "dst" (.within ⟨.ofOctets 10 1 2 3, 8, by decide⟩))
  let e : Predicate := .test (.single "dst" (.exactly (.address (.ofOctets 10 1 2 3))))
  have ha : a.IsCanonical := by decide +kernel
  have hb : b.IsCanonical := by decide +kernel
  have hc : c.IsCanonical := by decide +kernel
  have hab : a.covers b = true := by decide +kernel
  have hde : d.covers e = true := by decide +kernel
  obtain ⟨-, -, -, -, -, hcanonical⟩ := covers_meet_laws a b c d
  obtain ⟨-, -, -, -, -, hcanonical'⟩ := covers_meet_laws a c b d
  obtain ⟨-, haccepts, -, -, hmono, -⟩ := covers_meet_laws d e a b
  obtain ⟨-, -, -, -, -, -, -, hmeet⟩ := hcanonical ha hb hc
  obtain ⟨hcomm, hassoc, -⟩ := hcanonical' ha hc hb
  exact ⟨a, b, c, d, e, rfl, rfl, rfl, rfl, rfl, hmeet.1 hab, hcomm, hassoc, by decide +kernel,
    by decide +kernel, hmono hde hab, haccepts hde⟩

end Predicate

end PacketPolicy

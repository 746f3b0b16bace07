import PacketPolicy.Header.Match
import PacketPolicy.Proofs.MapLookup

/-!
# The order of predicates

`covers` orders networks, patterns, matches and predicates, and `meet` is the
greatest lower bound in this order. What a value or a packet is accepted by is a
case of the same order: a pattern accepts a value exactly when it covers the
pattern of that value alone, and a predicate accepts a packet exactly when it
covers the match of that packet alone (`accepts_eq_covers`). So the laws of
acceptance need no proofs of their own.

Nothing here asks for canonical patterns: bits after the length of a network do
not matter to `covers`.
-/

namespace PacketPolicy

namespace Ipv4
namespace Network

theorem lead_eq_shift {k l : Nat} (hk : k ≤ l) (hl : l ≤ 32) (a : Address) :
    lead k a = lead l a >>> (l - k) := by
  rw [lead, lead, ← BitVec.shiftRight_add]
  congr 1
  omega

theorem covers_iff {m n : Network} : m.covers n = true ↔
    m.length ≤ n.length ∧ lead m.length n.address = lead m.length m.address := by
  unfold covers contains
  rw [Bool.and_eq_true, decide_eq_true_iff, beq_iff_eq]
  refine and_congr_right ?_
  intro h
  rw [lead_eq_shift h n.length_le n.base, n.lead_base, ← lead_eq_shift h n.length_le]

theorem covers_refl (n : Network) : n.covers n = true := covers_iff.2 ⟨le_rfl, rfl⟩

theorem covers_trans {l m n : Network} (hlm : l.covers m = true) (hmn : m.covers n = true) :
    l.covers n = true := by
  rw [covers_iff] at *
  refine ⟨hlm.1.trans hmn.1, ?_⟩
  rw [← hlm.2, lead_eq_shift hlm.1 m.length_le, hmn.2, ← lead_eq_shift hlm.1 m.length_le]

/-- An address lies in a network exactly when the network covers that of the address alone. -/
theorem covers_host (n : Network) (a : Address) : n.covers (.host a) = n.contains a := by
  rw [Bool.eq_iff_iff, covers_iff]
  simp [contains, host, n.length_le]

/-- Networks that have a common part are nested. -/
theorem covers_or_covers {m n x : Network} (hm : m.covers x = true) (hn : n.covers x = true) :
    n.covers m = true ∨ m.covers n = true := by
  rw [covers_iff] at hm hn
  rw [covers_iff, covers_iff]
  rcases Nat.le_total n.length m.length with h | h
  · left
    refine ⟨h, ?_⟩
    rw [← hn.2, lead_eq_shift h m.length_le, ← hm.2, ← lead_eq_shift h m.length_le]
  · right
    refine ⟨h, ?_⟩
    rw [← hm.2, lead_eq_shift h n.length_le, ← hn.2, ← lead_eq_shift h n.length_le]

end Network
end Ipv4

namespace Pattern

theorem covers_exactly (p : Pattern) (v : Value) : p.covers (.exactly v) = p.accepts v := by
  cases p <;> rfl

theorem accepts_exactly_iff {v w : Value} : (exactly v).accepts w = true ↔ w = v :=
  beq_iff_eq.trans eq_comm

theorem covers_refl (p : Pattern) : p.covers p = true := by
  cases p with
  | exactly v => simp [covers]
  | within n => exact n.covers_refl

/-- A network covers a value exactly when the value is an address in it. -/
theorem within_accepts_iff {n : Ipv4.Network} {v : Value} :
    accepts (.within n) v = true ↔ ∃ a, v = .address a ∧ n.covers (.host a) = true := by
  cases v <;> simp [accepts, Ipv4.Network.covers_host]

theorem covers_trans {p q r : Pattern} (hpq : p.covers q = true) (hqr : q.covers r = true) :
    p.covers r = true := by
  cases p with
  | exactly v =>
    cases q with
    | exactly w =>
      obtain rfl : v = w := by simpa [covers] using hpq
      exact hqr
    | within n => simp [covers] at hpq
  | within m =>
    cases q with
    | exactly w =>
      cases r with
      | exactly u =>
        obtain rfl : w = u := by simpa [covers] using hqr
        exact hpq
      | within n => simp [covers] at hqr
    | within n =>
      cases r with
      | exactly u =>
        rw [covers_exactly, within_accepts_iff] at *
        obtain ⟨a, rfl, ha⟩ := hqr
        exact ⟨a, rfl, Ipv4.Network.covers_trans hpq ha⟩
      | within l => exact Ipv4.Network.covers_trans hpq hqr

theorem covers_of_meet? {p q r : Pattern} (h : p.meet? q = some r) :
    p.covers r = true ∧ q.covers r = true := by
  cases p <;> cases q <;> simp only [meet?] at h
  case exactly.exactly v w =>
    split_ifs at h with hvw
    obtain rfl := Option.some.inj h
    exact ⟨covers_refl _, by rw [hvw]; exact covers_refl _⟩
  case exactly.within v n =>
    split_ifs at h with hv
    obtain rfl := Option.some.inj h
    exact ⟨covers_refl _, hv⟩
  case within.exactly m w =>
    split_ifs at h with hw
    obtain rfl := Option.some.inj h
    exact ⟨hw, covers_refl _⟩
  case within.within m n =>
    split_ifs at h with hnm hmn
    · obtain rfl := Option.some.inj h
      exact ⟨covers_refl _, hnm⟩
    · obtain rfl := Option.some.inj h
      exact ⟨hmn, covers_refl _⟩

theorem exists_meet?_within {m n x : Ipv4.Network} (hm : m.covers x = true)
    (hn : n.covers x = true) :
    ∃ l, meet? (.within m) (.within n) = some (.within l) ∧ l.covers x = true := by
  by_cases h : n.covers m = true
  · exact ⟨m, by simp [meet?, h], hm⟩
  · have hmn := (Ipv4.Network.covers_or_covers hm hn).resolve_left h
    exact ⟨n, by simp [meet?, h, hmn], hn⟩

/-- Patterns that cover a common one have a meet, and it covers that one too. -/
theorem exists_meet? {p q x : Pattern} (hp : p.covers x = true) (hq : q.covers x = true) :
    ∃ r, p.meet? q = some r ∧ r.covers x = true := by
  cases x with
  | exactly u =>
    cases p with
    | exactly v =>
      obtain rfl : v = u := by simpa [covers] using hp
      cases q with
      | exactly w =>
        obtain rfl : w = v := by simpa [covers] using hq
        exact ⟨.exactly w, by simp [meet?], covers_refl _⟩
      | within n =>
        rw [covers_exactly] at hq
        exact ⟨.exactly v, by simp [meet?, hq], covers_refl _⟩
    | within m =>
      cases q with
      | exactly w =>
        obtain rfl : w = u := by simpa [covers] using hq
        rw [covers_exactly] at hp
        exact ⟨.exactly w, by simp [meet?, hp], covers_refl _⟩
      | within n =>
        rw [covers_exactly, within_accepts_iff] at hp hq
        obtain ⟨a, rfl, ha⟩ := hp
        obtain ⟨b, hb, hn⟩ := hq
        cases hb
        obtain ⟨l, hl, hla⟩ := exists_meet?_within ha hn
        exact ⟨.within l, hl, by rw [covers_exactly]; exact within_accepts_iff.2 ⟨a, rfl, hla⟩⟩
  | within l =>
    cases p with
    | exactly v => simp [covers] at hp
    | within m =>
      cases q with
      | exactly w => simp [covers] at hq
      | within n =>
        obtain ⟨k, hk, hkl⟩ := exists_meet?_within hp hq
        exact ⟨.within k, hk, hkl⟩

theorem accepts_of_covers {p q : Pattern} {v : Value} (h : p.covers q = true)
    (hv : q.accepts v = true) : p.accepts v = true := by
  rw [← covers_exactly] at *
  exact covers_trans h hv

end Pattern

namespace Match

theorem covers_iff {m n : Match} : m.covers n = true ↔
    ∀ field p, m.get? field = some p → ∃ q, n.get? field = some q ∧ p.covers q = true := by
  unfold covers
  rw [List.all_eq_true]
  constructor
  · intro h field p hp
    exact (Option.any_eq_true _ _).1 (h (field, p) (SortedMap.mem_entries.2 hp))
  · rintro h ⟨field, p⟩ he
    exact (Option.any_eq_true _ _).2 (h field p (SortedMap.mem_entries.1 he))

theorem covers_refl (m : Match) : m.covers m = true :=
  covers_iff.2 fun _ p hp => ⟨p, hp, p.covers_refl⟩

theorem covers_trans {l m n : Match} (hlm : l.covers m = true) (hmn : m.covers n = true) :
    l.covers n = true := by
  rw [covers_iff] at *
  intro field p hp
  obtain ⟨q, hq, hpq⟩ := hlm field p hp
  obtain ⟨r, hr, hqr⟩ := hmn field q hq
  exact ⟨r, hr, Pattern.covers_trans hpq hqr⟩

/-- A header that one of two matches constrains is constrained no less by their join. -/
theorem covers_of_join? {a b r : Option Pattern}
    (h : SortedMap.join? Pattern.meet? a b = some r) :
    (∀ p, a = some p → ∃ s, r = some s ∧ p.covers s = true) ∧
      ∀ q, b = some q → ∃ s, r = some s ∧ q.covers s = true := by
  cases a with
  | none =>
    obtain rfl : b = r := by simpa using h
    exact ⟨nofun, fun q hq => ⟨q, hq, q.covers_refl⟩⟩
  | some p =>
    cases b with
    | none =>
      obtain rfl : some p = r := by simpa using h
      exact ⟨fun q hq => ⟨q, hq, q.covers_refl⟩, nofun⟩
    | some q =>
      obtain ⟨s, hs, rfl⟩ := Option.map_eq_some_iff.1 h
      obtain ⟨hp, hq⟩ := Pattern.covers_of_meet? hs
      constructor
      · rintro _ ⟨⟩
        exact ⟨s, rfl, hp⟩
      · rintro _ ⟨⟩
        exact ⟨s, rfl, hq⟩

theorem covers_of_meet? {m n r : Match} (h : m.meet? n = some r) :
    m.covers r = true ∧ n.covers r = true := by
  obtain ⟨fields, hf, rfl⟩ := Option.map_eq_some_iff.1 h
  have hj : ∀ field, SortedMap.join? Pattern.meet? (m.get? field) (n.get? field) =
      some (fields.get? field) := SortedMap.join?_get?_of_mergeWith? hf
  constructor
  · exact covers_iff.2 fun field => (covers_of_join? (hj field)).1
  · exact covers_iff.2 fun field => (covers_of_join? (hj field)).2

/-- Matches that cover a common one have a meet, and it covers that one too. -/
theorem exists_meet? {m n x : Match} (hm : m.covers x = true) (hn : n.covers x = true) :
    ∃ r, m.meet? n = some r ∧ r.covers x = true := by
  rw [covers_iff] at hm hn
  have both : ∀ field p q, m.get? field = some p → n.get? field = some q →
      ∃ s, p.meet? q = some s ∧ ∃ y, x.get? field = some y ∧ s.covers y = true := by
    intro field p q hp hq
    obtain ⟨y, hy, hpy⟩ := hm field p hp
    obtain ⟨z, hz, hqz⟩ := hn field q hq
    obtain rfl : y = z := Option.some.inj (hy.symm.trans hz)
    obtain ⟨s, hs, hsy⟩ := Pattern.exists_meet? hpy hqz
    exact ⟨s, hs, y, hy, hsy⟩
  obtain ⟨fields, hf⟩ := SortedMap.exists_mergeWith? (f := Pattern.meet?) (m := m.fields)
    (n := n.fields) fun field => by
      cases hp : m.fields.get? field with
      | none => simp
      | some p =>
        cases hq : n.fields.get? field with
        | none => simp
        | some q =>
          obtain ⟨s, hs, -⟩ := both field p q hp hq
          simp [SortedMap.join?, hs]
  refine ⟨⟨fields⟩, by rw [meet?, hf]; rfl, covers_iff.2 fun field s hs => ?_⟩
  have hj := SortedMap.join?_get?_of_mergeWith? hf field
  change fields.get? field = some s at hs
  rw [hs] at hj
  cases hp : m.fields.get? field with
  | none =>
    rw [hp, SortedMap.join?_none_left] at hj
    exact hn field s (Option.some.inj hj)
  | some p =>
    cases hq : n.fields.get? field with
    | none =>
      rw [hp, hq, SortedMap.join?_none_right] at hj
      exact hm field s (hp.trans (Option.some.inj hj))
    | some q =>
      obtain ⟨t, ht, y, hy, hty⟩ := both field p q hp hq
      obtain rfl : t = s := by simpa [hp, hq, SortedMap.join?, ht] using hj
      exact ⟨y, hy, hty⟩

/-- The match that asks for each header of a packet with its value. -/
def ofPacket (pkt : Packet) : Match := ⟨pkt.headers.mapValues .exactly⟩

theorem get?_ofPacket (pkt : Packet) (field : String) :
    (ofPacket pkt).get? field = (pkt.get? field).map .exactly :=
  SortedMap.get?_mapValues _ _ _

theorem accepts_eq_covers (m : Match) (pkt : Packet) :
    m.accepts pkt = m.covers (ofPacket pkt) := by
  unfold accepts covers
  congr 1
  funext e
  rw [get?_ofPacket, Option.any_map]
  congr 1
  funext v
  exact (e.2.covers_exactly v).symm

theorem accepts_iff {m : Match} {pkt : Packet} : m.accepts pkt = true ↔
    ∀ field p, m.get? field = some p → ∃ v, pkt.get? field = some v ∧ p.accepts v = true := by
  rw [accepts_eq_covers, covers_iff]
  simp only [get?_ofPacket, Option.map_eq_some_iff]
  refine forall₃_congr ?_
  intro field p _
  constructor
  · rintro ⟨_, ⟨v, hv, rfl⟩, hp⟩
    exact ⟨v, hv, by rwa [Pattern.covers_exactly] at hp⟩
  · rintro ⟨v, hv, hp⟩
    exact ⟨_, ⟨v, hv, rfl⟩, by rwa [Pattern.covers_exactly]⟩

theorem accepts_int_iff {field : String} {n : Int64} {pkt : Packet} :
    (Match.int field n).accepts pkt = true ↔ pkt.get? field = some (.int n) := by
  have hentries : (Match.int field n).fields.entries = [(field, .exactly (.int n))] := rfl
  rw [accepts, hentries]
  simp [Option.any_eq_true, Pattern.accepts_exactly_iff]

theorem accepts_atPort_iff {port : String} (hne : port ≠ "switch") {l : Location} {pkt : Packet} :
    (Match.atPort port l).accepts pkt = true ↔
      pkt.get? "switch" = some (.int l.switch) ∧ pkt.get? port = some (.int l.port) := by
  have hget : ∀ field, (Match.atPort port l).get? field =
      if field = port then some (.exactly (.int l.port))
      else if field = "switch" then some (.exactly (.int l.switch)) else none := by
    intro field
    refine (SortedMap.get?_ofList _ field).trans ?_
    simp only [List.reverse_cons, List.reverse_nil, List.nil_append, List.cons_append, List.find?]
    split_ifs <;> simp_all
  rw [accepts_iff]
  constructor
  · intro h
    obtain ⟨v, hv, hswitch⟩ := h "switch" (.exactly (.int l.switch)) (by simp [hget, hne.symm])
    obtain ⟨w, hw, hport⟩ := h port (.exactly (.int l.port)) (by simp [hget])
    exact ⟨Pattern.accepts_exactly_iff.1 hswitch ▸ hv, Pattern.accepts_exactly_iff.1 hport ▸ hw⟩
  · rintro ⟨hswitch, hport⟩ field p hp
    rw [hget] at hp
    split_ifs at hp with hfield hfield <;> obtain rfl := Option.some.inj hp <;> subst hfield
    · exact ⟨_, hport, Pattern.accepts_exactly_iff.2 rfl⟩
    · exact ⟨_, hswitch, Pattern.accepts_exactly_iff.2 rfl⟩

end Match

namespace Predicate

@[simp] theorem covers_drop (p : Predicate) : p.covers .drop = true := by
  cases p <;> rfl

@[simp] theorem identity_covers (p : Predicate) : covers .identity p = true := rfl

theorem eq_drop_of_drop_covers {p : Predicate} (h : covers .drop p = true) : p = .drop := by
  cases p with
  | drop => rfl
  | identity => simp [covers] at h
  | test n => simp [covers] at h

theorem eq_identity_of_covers_identity {p : Predicate} (h : p.covers .identity = true) :
    p = .identity := by
  cases p with
  | identity => rfl
  | drop => simp [covers] at h
  | test n => simp [covers] at h

theorem covers_refl (p : Predicate) : p.covers p = true := by
  cases p with
  | test m => exact m.covers_refl
  | identity => rfl
  | drop => rfl

theorem covers_trans {p q r : Predicate} (hpq : p.covers q = true) (hqr : q.covers r = true) :
    p.covers r = true := by
  cases q with
  | identity =>
    rw [eq_identity_of_covers_identity hpq]
    rfl
  | drop =>
    rw [eq_drop_of_drop_covers hqr]
    exact covers_drop p
  | test m =>
    cases p with
    | identity => rfl
    | drop => simp [covers] at hpq
    | test l =>
      cases r with
      | identity => simp [covers] at hqr
      | drop => rfl
      | test n => exact Match.covers_trans hpq hqr

@[simp] theorem identity_meet (p : Predicate) : meet .identity p = p := by
  cases p <;> rfl

@[simp] theorem meet_identity (p : Predicate) : meet p .identity = p := by
  cases p <;> rfl

@[simp] theorem drop_meet (p : Predicate) : meet .drop p = .drop := rfl

@[simp] theorem meet_drop (p : Predicate) : meet p .drop = .drop := by
  cases p <;> rfl

theorem covers_meet (p q : Predicate) :
    p.covers (p.meet q) = true ∧ q.covers (p.meet q) = true := by
  cases p with
  | identity => rw [identity_meet]; exact ⟨rfl, covers_refl q⟩
  | drop => rw [drop_meet]; exact ⟨rfl, covers_drop q⟩
  | test m =>
    cases q with
    | identity => rw [meet_identity]; exact ⟨covers_refl _, rfl⟩
    | drop => rw [meet_drop]; exact ⟨rfl, rfl⟩
    | test n =>
      cases h : m.meet? n with
      | none => simp [meet, h]
      | some r =>
        simp only [meet, h, Option.elim]
        exact Match.covers_of_meet? h

/-- The meet is the greatest of the predicates that both cover. -/
theorem meet_covers {p q x : Predicate} (hp : p.covers x = true) (hq : q.covers x = true) :
    (p.meet q).covers x = true := by
  cases p with
  | identity => rwa [identity_meet]
  | drop => rwa [drop_meet]
  | test m =>
    cases q with
    | identity => rwa [meet_identity]
    | drop => rwa [meet_drop]
    | test n =>
      cases x with
      | identity => simp [covers] at hp
      | drop => exact covers_drop _
      | test l =>
        obtain ⟨r, hr, hrl⟩ := Match.exists_meet? hp hq
        simp only [meet, hr, Option.elim]
        exact hrl

theorem meet_mono {p p' q q' : Predicate} (hp : p.covers p' = true) (hq : q.covers q' = true) :
    (p.meet q).covers (p'.meet q') = true :=
  meet_covers (covers_trans hp (covers_meet p' q').1) (covers_trans hq (covers_meet p' q').2)

/-- Acceptance is a case of `covers`. -/
theorem accepts_eq_covers (p : Predicate) (pkt : Packet) :
    p.accepts pkt = p.covers (.test (.ofPacket pkt)) := by
  cases p with
  | identity => rfl
  | drop => rfl
  | test m => exact m.accepts_eq_covers pkt

theorem accepts_of_covers {p q : Predicate} (h : p.covers q = true) {pkt : Packet}
    (hq : q.accepts pkt = true) : p.accepts pkt = true := by
  rw [accepts_eq_covers] at *
  exact covers_trans h hq

@[simp] theorem accepts_meet (p q : Predicate) (pkt : Packet) :
    (p.meet q).accepts pkt = (p.accepts pkt && q.accepts pkt) := by
  rw [Bool.eq_iff_iff, Bool.and_eq_true]
  constructor
  · intro h
    exact ⟨accepts_of_covers (covers_meet p q).1 h, accepts_of_covers (covers_meet p q).2 h⟩
  · rintro ⟨hp, hq⟩
    rw [accepts_eq_covers] at *
    exact meet_covers hp hq

@[simp] theorem accepts_identity (pkt : Packet) : accepts .identity pkt = true := rfl

@[simp] theorem accepts_drop (pkt : Packet) : accepts .drop pkt = false := rfl

end Predicate

end PacketPolicy

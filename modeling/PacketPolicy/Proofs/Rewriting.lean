import PacketPolicy.Proofs.PredicateOrder
import PacketPolicy.Table.Merge

/-!
# Testing before and after an action

A modification is determined by what it leaves in each header, and a test after an
action is the same as another test before it. The second of these is needed in two
forms, for packets (`accepts_before`) and for the order of predicates
(`before_mono`); both come from `beforeModification_covers_iff`, which says what
the moved test covers.
-/

namespace PacketPolicy

namespace Modification

theorem get?_write (p : Packet) (e : String × Option Value) (field : String) :
    (write p e).get? field = if field = e.1 then e.2 else p.get? field := by
  obtain ⟨name, v⟩ := e
  cases v with
  | none => exact p.get?_unset name field
  | some v => exact p.get?_set name field v

theorem get?_apply (m : Modification) (pkt : Packet) (field : String) :
    (m.apply pkt).get? field = (m.get? field).getD (pkt.get? field) := by
  rw [apply, SortedMap.foldl_entries_at (fun p : Packet => p.get? field) (fun w _ => w)
    (fun p e => get?_write p e field) m.fields pkt]
  change (m.get? field).elim _ _ = _
  cases m.get? field <;> rfl

theorem get?_andThen (m n : Modification) (field : String) :
    (m.andThen n).get? field = (n.get? field).or (m.get? field) :=
  SortedMap.get?_insertMany m.fields n.fields field

theorem apply_andThen (m n : Modification) (pkt : Packet) :
    (m.andThen n).apply pkt = n.apply (m.apply pkt) := by
  apply Packet.ext_get?
  intro field
  rw [get?_apply, get?_andThen, get?_apply, get?_apply]
  cases n.get? field <;> rfl

theorem apply_leaveBy (port : Int64) (pkt : Packet) :
    (leaveBy port).apply pkt = pkt.set "outport" (.int port) := rfl

theorem apply_comeInAt (l : Location) (pkt : Packet) : (comeInAt l).apply pkt =
    ((pkt.set "switch" (.int l.switch)).set "inport" (.int l.port)).unset "outport" := by
  apply Packet.ext_get?
  intro field
  have hget : (comeInAt l).get? field = _ := SortedMap.get?_ofList _ field
  rw [get?_apply, hget]
  simp only [Packet.get?_set, Packet.get?_unset, List.reverse_cons, List.reverse_nil,
    List.nil_append, List.cons_append, List.find?]
  split_ifs <;> simp_all

/-- Of writes to one header the latest wins, however the modifications are grouped. -/
theorem andThen_assoc (l m n : Modification) :
    (l.andThen m).andThen n = l.andThen (m.andThen n) := by
  refine Modification.ext (SortedMap.ext_get? fun field => ?_)
  change ((l.andThen m).andThen n).get? field = (l.andThen (m.andThen n)).get? field
  simp only [get?_andThen, Option.or_assoc]

theorem mem_names {m : Modification} {field : String} :
    field ∈ m.names ↔ (m.get? field).isSome = true :=
  SortedMap.mem_keys

end Modification

namespace Predicate

/-- What the predicate asks of a header. -/
def field? : Predicate → String → Option Pattern
  | .test m, field => m.get? field
  | _, _ => none

/-- No written value is refused by a match. -/
theorem writes_accepted_iff {m : Modification} {t : Match} :
    (m.fields.entries.all fun e => (t.get? e.1).all fun p => e.2.any p.accepts) = true ↔
      ∀ field w p, m.get? field = some w → t.get? field = some p → w.any p.accepts = true := by
  rw [List.all_eq_true]
  constructor
  · intro h field w p hw hp
    have := h (field, w) (SortedMap.mem_entries.2 hw)
    simpa [hp] using this
  · rintro h ⟨field, w⟩ he
    rw [Option.all_eq_true]
    exact fun p hp => h field w p (SortedMap.mem_entries.1 he) hp

/-- What is left of a match covers `x` exactly when every constraint outside the forgotten
headers is implied by one of `x`. -/
theorem without?_covers_iff {t : Match} {names : List String} {x : Predicate} (hx : x ≠ .drop) :
    ((t.without? names).elim .identity .test : Predicate).covers x = true ↔
      ∀ field p, field ∉ names → t.get? field = some p →
        ∃ q, x.field? field = some q ∧ p.covers q = true := by
  have hget : ∀ field, (names.foldl SortedMap.erase t.fields).get? field =
      if field ∈ names then none else t.get? field := fun field =>
    t.fields.get?_foldl_erase names field
  have hleft : t.without? names = if (names.foldl SortedMap.erase t.fields).isEmpty then none
      else some ⟨names.foldl SortedMap.erase t.fields⟩ := rfl
  by_cases hempty : (names.foldl SortedMap.erase t.fields).isEmpty = true
  · have hnone := SortedMap.isEmpty_iff.1 hempty
    rw [hleft, if_pos hempty, Option.elim_none]
    refine iff_of_true rfl ?_
    intro field p hfield hp
    have := hnone field
    rw [hget, if_neg hfield, hp] at this
    cases this
  · rw [hleft, if_neg hempty, Option.elim_some]
    cases x with
    | drop => exact absurd rfl hx
    | identity =>
      refine iff_of_false nofun fun h => ?_
      refine hempty (SortedMap.isEmpty_iff.2 fun field => ?_)
      rw [hget]
      split_ifs with hfield
      · rfl
      · refine Option.eq_none_iff_forall_ne_some.2 ?_
        intro p hp
        obtain ⟨q, hq, -⟩ := h field p hfield hp
        cases hq
    | test n =>
      simp only [covers, Match.covers_iff, field?]
      refine forall₂_congr ?_
      intro field p
      change ((names.foldl SortedMap.erase t.fields).get? field = some p → _) ↔ _
      rw [hget]
      by_cases hfield : field ∈ names <;> simp [hfield]

/-- A test before a modification covers `x` exactly when the test after it covers what the
modification makes of `x`: a written value is to be accepted, and any other header is asked of
`x` itself. -/
theorem beforeModification_covers_iff {m : Modification} {t : Match} {x : Predicate}
    (hx : x ≠ .drop) :
    (beforeModification m (.test t)).covers x = true ↔
      ∀ field p, t.get? field = some p →
        (∀ w, m.get? field = some w → w.any p.accepts = true) ∧
        (m.get? field = none → ∃ q, x.field? field = some q ∧ p.covers q = true) := by
  have hnames : ∀ field, field ∉ m.names ↔ m.get? field = none := by
    intro field
    rw [Modification.mem_names, Bool.not_eq_true, Option.isSome_eq_false_iff,
      Option.isNone_iff_eq_none]
  rw [beforeModification]
  by_cases hw : (m.fields.entries.all fun e => (t.get? e.1).all fun p => e.2.any p.accepts) = true
  · rw [if_pos hw, without?_covers_iff hx]
    rw [writes_accepted_iff] at hw
    constructor
    · intro h field p hp
      exact ⟨fun w hm => hw field w p hm hp, fun hm => h field p ((hnames field).2 hm) hp⟩
    · intro h field p hfield hp
      exact (h field p hp).2 ((hnames field).1 hfield)
  · rw [if_neg hw]
    constructor
    · intro h
      exact absurd (eq_drop_of_drop_covers h) hx
    · intro h
      exact absurd (writes_accepted_iff.2 fun field w p hm hp => (h field p hp).1 w hm) hw

theorem accepts_beforeModification (m : Modification) (p : Predicate) (pkt : Packet) :
    (p.beforeModification m).accepts pkt = p.accepts (m.apply pkt) := by
  cases p with
  | identity => rfl
  | drop => rfl
  | test t =>
    have hne : Predicate.test (.ofPacket pkt) ≠ .drop := nofun
    rw [Bool.eq_iff_iff, accepts_eq_covers, beforeModification_covers_iff hne, accepts,
      Match.accepts_iff]
    refine forall₃_congr ?_
    intro field p _
    rw [Modification.get?_apply]
    simp only [field?, Match.get?_ofPacket]
    cases hm : m.get? field with
    | none => simp [Pattern.covers_exactly]
    | some w => simp [Option.any_eq_true]

theorem beforeModification_mono (m : Modification) {p q : Predicate} (h : p.covers q = true) :
    (p.beforeModification m).covers (q.beforeModification m) = true := by
  cases p with
  | identity => rfl
  | drop =>
    rw [eq_drop_of_drop_covers h]
    rfl
  | test s =>
    cases q with
    | identity => simp [covers] at h
    | drop => exact covers_drop _
    | test t =>
      by_cases hx : beforeModification m (.test t) = .drop
      · rw [hx]
        exact covers_drop _
      rw [beforeModification_covers_iff hx]
      intro field p hp
      obtain ⟨q, hq, hpq⟩ := Match.covers_iff.1 h field p hp
      obtain ⟨hwritten, hkept⟩ :=
        (beforeModification_covers_iff hx).1 (covers_refl _) field q hq
      constructor
      · intro w hw
        obtain ⟨v, hv, hqv⟩ := (Option.any_eq_true _ _).1 (hwritten w hw)
        exact (Option.any_eq_true _ _).2 ⟨v, hv, Pattern.accepts_of_covers hpq hqv⟩
      · intro hw
        obtain ⟨r, hr, hqr⟩ := hkept hw
        exact ⟨r, hr, Pattern.covers_trans hpq hqr⟩

/-- A test before an action is a test of what the action passes on; before a terminal action
nothing is tested. -/
theorem accepts_before (p : Predicate) (a : Action) (pkt : Packet) :
    (p.before a).accepts pkt = (a.output? pkt).elim a.isTerminal p.accepts := by
  cases a with
  | modify m => exact accepts_beforeModification m p pkt
  | identity => rfl
  | drop => rfl
  | controller => rfl
  | query s => rfl

theorem before_mono (a : Action) {p q : Predicate} (h : p.covers q = true) :
    (p.before a).covers (q.before a) = true := by
  cases a with
  | modify m => exact beforeModification_mono m h
  | identity => exact h
  | drop => rfl
  | controller => rfl
  | query s => rfl

theorem identity_before {a : Action} (h : a ≠ .drop) : before .identity a = .identity := by
  cases a with
  | drop => exact absurd rfl h
  | _ => rfl

end Predicate

end PacketPolicy

import PacketPolicy.Proofs.Rewriting

/-!
# What a table does to a packet

The verdict of a table on a packet is the action list of the first rule that
accepts it. Each merge of tables is described by the verdicts of its parts, for
tables that need not accept every packet wherever that is possible; removing
shadowed rules changes no verdict, so the description does not depend on whether
that is done.
-/

namespace PacketPolicy

namespace Rule

/-- What the rule does to a packet, if it accepts it. -/
def fire? (r : Rule) (pkt : Packet) : Option (List Action) :=
  if r.predicate.accepts pkt then some r.actions else none

theorem fire?_of_accepts {r : Rule} {pkt : Packet} (h : r.predicate.accepts pkt = true) :
    r.fire? pkt = some r.actions := if_pos h

theorem fire?_eq_none_iff {r : Rule} {pkt : Packet} :
    r.fire? pkt = none ↔ r.predicate.accepts pkt = false := by
  unfold fire?
  split_ifs with h <;> simp [h]

/-- The rule with this predicate, unless it would accept nothing. -/
def make? (p : Predicate) (actions : List Action) : Option Rule :=
  match p with
  | .drop => none
  | p => some ⟨p, actions⟩

theorem make?_eq_some_iff {p : Predicate} {actions : List Action} {r : Rule} :
    make? p actions = some r ↔ p ≠ .drop ∧ r = ⟨p, actions⟩ := by
  cases p <;> simp [make?, eq_comm]

theorem fire?_make? (p : Predicate) (actions : List Action) (pkt : Packet) :
    ((make? p actions).bind fun r => r.fire? pkt) =
      if p.accepts pkt then some actions else none := by
  cases p <;> rfl

end Rule

section Search

variable {α β γ : Type}

theorem findSome?_filterMap (f : β → Option γ) (g : α → Option β) (l : List α) :
    (l.filterMap g).findSome? f = l.findSome? fun x => (g x).bind f := by
  rw [← List.head?_filterMap, List.filterMap_filterMap, List.head?_filterMap]

theorem findSome?_flatMap (f : β → Option γ) (g : α → List β) (l : List α) :
    (l.flatMap g).findSome? f = l.findSome? fun x => (g x).findSome? f := by
  simp only [← List.head?_filterMap, List.filterMap_flatMap, List.head?_flatMap]

/-- A search that goes on with what it finds and cannot fail then may go on afterwards. -/
theorem findSome?_bind (f : α → Option β) {k : β → Option γ} (hk : ∀ b, (k b).isSome = true)
    (l : List α) : (l.findSome? fun x => (f x).bind k) = (l.findSome? f).bind k := by
  induction l with
  | nil => rfl
  | cons x rest ih =>
    rw [List.findSome?_cons, List.findSome?_cons, ih]
    cases f x with
    | none => rfl
    | some b =>
      obtain ⟨c, hc⟩ := Option.isSome_iff_exists.1 (hk b)
      simp [hc]

end Search

namespace Table

/-- What the first rule that accepts the packet does to it. -/
def verdict (t : Table) (pkt : Packet) : Option (List Action) :=
  t.rules.findSome? fun r => r.fire? pkt

theorem find?_go_of_findSome? {pkt : Packet} {actions : List Action} {l : List Rule}
    (h : (l.findSome? fun r => r.fire? pkt) = some actions) (n : Nat) :
    ∃ i r, find?.go pkt n l = some (i, r) ∧ r ∈ l ∧ r.predicate.accepts pkt = true ∧
      r.actions = actions := by
  induction l generalizing n with
  | nil => simp at h
  | cons r rest ih =>
    rw [find?.go]
    by_cases hr : r.predicate.accepts pkt = true
    · rw [List.findSome?_cons, Rule.fire?_of_accepts hr] at h
      exact ⟨n, r, if_pos hr, List.mem_cons_self, hr, Option.some.inj h⟩
    · rw [List.findSome?_cons, Rule.fire?_eq_none_iff.2 (Bool.not_eq_true _ ▸ hr)] at h
      obtain ⟨i, s, hs, hmem, hacc⟩ := ih h (n + 1)
      exact ⟨i, s, by rw [if_neg hr, hs], List.mem_cons_of_mem _ hmem, hacc⟩

/-- The rule behind a verdict. -/
theorem find?_of_verdict {t : Table} {pkt : Packet} {actions : List Action}
    (h : t.verdict pkt = some actions) :
    ∃ i r, t.find? pkt = some (i, r) ∧ r ∈ t.rules ∧ r.predicate.accepts pkt = true ∧
      r.actions = actions :=
  find?_go_of_findSome? h 0

theorem lookup_of_find? {t : Table} {pkt : Packet} {i : Nat} {r : Rule}
    (h : t.find? pkt = some (i, r)) :
    t.lookup pkt = .ok { index := i, outputs := r.outputs pkt, fired := r.sinks } := by
  rw [lookup, h]

/-! ## Shadowed rules -/

/-- A reading that finds something exactly in the rules that accept the packet finds the same
with and without shadowed rules. -/
theorem findSome?_unshadowed {α : Type} {pkt : Packet} {read : Rule → Option α}
    (hread : ∀ r, read r = none ↔ r.predicate.accepts pkt = false) {above : List Predicate}
    (habove : ∀ p ∈ above, p.accepts pkt = false) (l : List Rule) :
    (unshadowed above l).findSome? read = l.findSome? read := by
  induction l generalizing above with
  | nil => rfl
  | cons r rest ih =>
    rw [unshadowed]
    split_ifs with hr
    · obtain ⟨p, hp, hcov⟩ := List.any_eq_true.1 hr
      have hrej : r.predicate.accepts pkt = false := by
        by_contra hacc
        have := Predicate.accepts_of_covers hcov (Bool.not_eq_false _ ▸ hacc)
        rw [habove p hp] at this
        cases this
      rw [ih habove, List.findSome?_cons, (hread r).2 hrej]
    · rw [List.findSome?_cons, List.findSome?_cons]
      cases hx : read r with
      | none => exact ih (List.forall_mem_cons.2 ⟨(hread r).1 hx, habove⟩)
      | some x => rfl

theorem verdict_prune (t : Table) (pkt : Packet) : t.prune.verdict pkt = t.verdict pkt :=
  findSome?_unshadowed (fun _ => Rule.fire?_eq_none_iff) (by simp) t.rules

@[simp] theorem verdict_pruneIf (optimize : Bool) (t : Table) (pkt : Packet) :
    (t.pruneIf optimize).verdict pkt = t.verdict pkt := by
  cases optimize with
  | false => rfl
  | true => exact t.verdict_prune pkt

/-! ## Side by side -/

theorem crossRule_eq (r s : Rule) : crossRule r s =
    Rule.make? (r.predicate.meet s.predicate) (Action.union r.actions s.actions) := rfl

theorem fire?_crossRule (r s : Rule) (pkt : Packet) :
    ((crossRule r s).bind fun x => x.fire? pkt) =
      (r.fire? pkt).bind fun as => (s.fire? pkt).map (Action.union as) := by
  rw [crossRule_eq, Rule.fire?_make?, Predicate.accepts_meet, Rule.fire?, Rule.fire?]
  cases r.predicate.accepts pkt <;> cases s.predicate.accepts pkt <;> rfl

theorem findSome?_cross (a b : List Rule) (pkt : Packet) :
    ((cross a b).findSome? fun r => r.fire? pkt) =
      (a.findSome? fun r => r.fire? pkt).bind fun as =>
        (b.findSome? fun r => r.fire? pkt).map (Action.union as) := by
  have hrow : ∀ r : Rule, ((b.filterMap (crossRule r)).findSome? fun x => x.fire? pkt) =
      (r.fire? pkt).bind fun as => (b.findSome? fun s => s.fire? pkt).map (Action.union as) := by
    intro r
    simp only [findSome?_filterMap, fire?_crossRule]
    cases r.fire? pkt with
    | none => simp
    | some as => simp [List.map_findSome?, Function.comp_def]
  rw [cross, findSome?_flatMap]
  simp only [hrow]
  cases hb : b.findSome? fun s => s.fire? pkt with
  | none => simp
  | some bs => exact findSome?_bind _ (fun _ => rfl) a

/-- Every packet gets what both tables do to it, or what one does if the other does nothing. -/
theorem verdict_parallel (optimize : Bool) (a b : Table) (pkt : Packet) :
    (parallel optimize a b).verdict pkt =
      Option.merge Action.union (a.verdict pkt) (b.verdict pkt) := by
  rw [parallel, verdict_pruneIf]
  simp only [verdict, List.findSome?_append, findSome?_cross]
  cases a.rules.findSome? fun r => r.fire? pkt with
  | none => simp
  | some as => cases b.rules.findSome? fun r => r.fire? pkt <;> rfl

/-! ## One after the other -/

/-- The pushed rules are searched as if every rule had been moved before the action: the rules
that are left out accept nothing, and those below a rule for all packets cannot be found. -/
theorem findSome?_pushRules {α : Type} (read : Rule → α) (a : Action) (l : List Rule)
    (pkt : Packet) :
    ((pushRules a l).findSome? fun r =>
        if r.predicate.accepts pkt then some (read r) else none) =
      l.findSome? fun r => if (r.predicate.before a).accepts pkt then
        some (read ⟨r.predicate.before a, a.followedBy r.actions⟩) else none := by
  induction l with
  | nil => rfl
  | cons r rest ih =>
    rw [pushRules, List.findSome?_cons]
    cases h : r.predicate.before a with
    | drop => simpa using ih
    | identity => simp
    | test m => rw [List.findSome?_cons, ih]

/-- What is done after an action to the packet that it passes on; after an action that passes
none on, nothing. -/
def verdictAfter (t : Table) (a : Action) (pkt : Packet) : List Action :=
  ((a.output? pkt).bind t.verdict).getD []

/-- A table that accepts every packet. -/
def Total (t : Table) : Prop := ∀ pkt, ∃ actions, t.verdict pkt = some actions

theorem Total.rules_ne_nil {t : Table} (h : t.Total) : t.rules ≠ [] := by
  intro hnil
  obtain ⟨actions, ha⟩ := h .empty
  simp [verdict, hnil] at ha

theorem push_of_ne_nil {a : Action} {t : Table} (h : pushRules a t.rules ≠ []) :
    push a t = ⟨pushRules a t.rules⟩ := by
  unfold push
  split
  · next hnil => exact absurd hnil h
  · rfl

theorem verdict_push_of_output {a : Action} {t : Table} {pkt q : Packet} {actions : List Action}
    (hq : a.output? pkt = some q) (h : t.verdict q = some actions) :
    (push a t).verdict pkt = some (a.followedBy actions) := by
  have hfind : ((pushRules a t.rules).findSome? fun r => r.fire? pkt) =
      (t.verdict q).map a.followedBy := by
    refine (findSome?_pushRules Rule.actions a t.rules pkt).trans ?_
    rw [verdict, List.map_findSome?]
    simp only [Predicate.accepts_before, hq, Option.elim_some]
    congr 1
    funext r
    simp only [Function.comp_apply, Rule.fire?]
    split_ifs <;> rfl
  rw [h, Option.map_some] at hfind
  have hne : pushRules a t.rules ≠ [] := by
    intro hnil
    simp [hnil] at hfind
  rw [push_of_ne_nil hne]
  exact hfind

theorem pushRules_drop (l : List Rule) : pushRules .drop l = [] := by
  induction l with
  | nil => rfl
  | cons r rest ih => exact ih

theorem push_drop (t : Table) : push .drop t = dropAll := by
  rw [push, pushRules_drop]

theorem push_of_isTerminal {a : Action} (ha : a.isTerminal = true) {t : Table}
    (ht : t.rules ≠ []) : push a t = single a := by
  obtain ⟨r, rest, hr⟩ := List.exists_cons_of_ne_nil ht
  cases a with
  | controller => rw [push, hr]; rfl
  | query s => rw [push, hr]; rfl
  | identity => cases ha
  | drop => cases ha
  | modify m => cases ha

theorem verdict_single (a : Action) (pkt : Packet) : (single a).verdict pkt = some [a] := rfl

theorem verdict_push (a : Action) {t : Table} (ht : t.Total) (pkt : Packet) :
    (push a t).verdict pkt = some (a.followedBy (t.verdictAfter a pkt)) := by
  have hpass : ∀ q, a.output? pkt = some q →
      (push a t).verdict pkt = some (a.followedBy (t.verdictAfter a pkt)) := by
    intro q hq
    obtain ⟨actions, h⟩ := ht q
    rw [verdict_push_of_output hq h, verdictAfter, hq, Option.bind_some, h]
    rfl
  cases a with
  | identity => exact hpass pkt rfl
  | modify m => exact hpass (m.apply pkt) rfl
  | drop => rw [push_drop]; rfl
  | controller => rw [push_of_isTerminal rfl ht.rules_ne_nil]; rfl
  | query s => rw [push_of_isTerminal rfl ht.rules_ne_nil]; rfl

/-- The actions of some rules side by side. -/
def unionAll : List (List Action) → List Action
  | [] => [.drop]
  | actions :: rest => rest.foldl Action.union actions

theorem verdict_foldl_parallel (optimize : Bool) {pkt : Packet} (verdictOf : Action → List Action)
    {part : Action → Table} (hpart : ∀ b, (part b).verdict pkt = some (verdictOf b))
    (rest : List Action) {acc : Table} {actions : List Action}
    (hacc : acc.verdict pkt = some actions) :
    (rest.foldl (fun acc b => parallel optimize acc (part b)) acc).verdict pkt =
      some ((rest.map verdictOf).foldl Action.union actions) := by
  induction rest generalizing acc actions with
  | nil => exact hacc
  | cons b rest ih =>
    apply ih
    rw [verdict_parallel, hacc, hpart, Option.merge_some_some]

/-- What some actions side by side and then a table do. -/
def sequenced (actions : List Action) (t : Table) (pkt : Packet) : List Action :=
  unionAll (actions.map fun a => a.followedBy (t.verdictAfter a pkt))

theorem verdict_pushAll (optimize : Bool) (actions : List Action) {t : Table} (ht : t.Total)
    (pkt : Packet) :
    (pushAll optimize actions t).verdict pkt = some (sequenced actions t pkt) := by
  cases actions with
  | nil => rfl
  | cons a rest =>
    exact verdict_foldl_parallel optimize (fun a => a.followedBy (t.verdictAfter a pkt))
      (fun b => verdict_push b ht pkt) rest (verdict_push a ht pkt)

theorem restrictRule_eq (p : Predicate) (r : Rule) :
    restrictRule p r = Rule.make? (r.predicate.meet p) r.actions := rfl

theorem fire?_restrictRule (p : Predicate) (r : Rule) (pkt : Packet) :
    ((restrictRule p r).bind fun x => x.fire? pkt) =
      if p.accepts pkt then r.fire? pkt else none := by
  rw [restrictRule_eq, Rule.fire?_make?, Predicate.accepts_meet, Rule.fire?]
  cases r.predicate.accepts pkt <;> cases p.accepts pkt <;> rfl

theorem verdict_sequenceRule (optimize : Bool) (r : Rule) {t : Table} (ht : t.Total)
    (pkt : Packet) :
    (sequenceRule optimize r t).verdict pkt =
      (r.fire? pkt).bind fun actions => some (sequenced actions t pkt) := by
  rw [sequenceRule, verdict_pruneIf]
  cases hr : r.predicate.accepts pkt with
  | true =>
    rw [Rule.fire?_of_accepts hr, Option.bind_some, ← verdict_pushAll optimize r.actions ht pkt]
    simp [verdict, findSome?_filterMap, fire?_restrictRule, hr]
  | false =>
    rw [Rule.fire?_eq_none_iff.2 hr]
    simp [verdict, findSome?_filterMap, fire?_restrictRule, hr]

/-- Every packet gets what the second table does to what the first passes on. -/
theorem verdict_sequential (optimize : Bool) (a : Table) {b : Table} (hb : b.Total)
    (pkt : Packet) :
    (sequential optimize a b).verdict pkt =
      (a.verdict pkt).map fun actions => sequenced actions b pkt := by
  have hrule : ∀ r : Rule, ((sequenceRule optimize r b).rules.findSome? fun x => x.fire? pkt) =
      (r.fire? pkt).bind fun actions => some (sequenced actions b pkt) := fun r =>
    verdict_sequenceRule optimize r hb pkt
  rw [sequential, verdict_pruneIf, verdict, findSome?_flatMap]
  simp only [hrule]
  rw [findSome?_bind _ (fun _ => rfl), Option.map_eq_bind]
  rfl

end Table

end PacketPolicy

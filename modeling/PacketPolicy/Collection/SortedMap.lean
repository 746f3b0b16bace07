/-!
# Sorted maps

A map is its list of entries, strictly increasing in the key, so that two maps
are equal exactly when they give the same value to every key (`ext_get?`).
Keys come from any lawfully ordered type; header names and switch numbers are
the keys of this library.
-/

namespace PacketPolicy

/-- A finite map whose entries stand in strictly increasing order of their keys. -/
structure SortedMap (κ : Type) (α : Type) [Ord κ] where
  entries : List (κ × α)
  sorted : entries.Pairwise fun a b => compare a.1 b.1 = .lt

namespace SortedMap

section Basic

variable {κ α : Type} [Ord κ]

theorem entries_inj {a b : SortedMap κ α} : a.entries = b.entries ↔ a = b := by
  cases a; cases b; simp

instance [DecidableEq κ] [DecidableEq α] : DecidableEq (SortedMap κ α) := fun _ _ =>
  decidable_of_iff _ entries_inj

def empty : SortedMap κ α := ⟨[], .nil⟩

instance : Inhabited (SortedMap κ α) := ⟨empty⟩

def size (m : SortedMap κ α) : Nat := m.entries.length

def isEmpty (m : SortedMap κ α) : Bool := m.entries.isEmpty

def keys (m : SortedMap κ α) : List κ := m.entries.map Prod.fst

/-- The value of the first entry with this key. -/
def lookup (k : κ) : List (κ × α) → Option α
  | [] => none
  | e :: rest => if compare k e.1 = .eq then some e.2 else lookup k rest

def get? (m : SortedMap κ α) (k : κ) : Option α := lookup k m.entries

def contains (m : SortedMap κ α) (k : κ) : Bool := (m.get? k).isSome

/-- Keep the entries that pass a test. -/
def filter (p : κ → α → Bool) (m : SortedMap κ α) : SortedMap κ α :=
  ⟨m.entries.filter fun e => p e.1 e.2, m.sorted.filter _⟩

/-- Remove a key. -/
def erase (m : SortedMap κ α) (k : κ) : SortedMap κ α :=
  m.filter fun x _ => compare k x != .eq

/-- Put an entry in its place, instead of one with the same key. -/
def insertEntry (k : κ) (a : α) : List (κ × α) → List (κ × α)
  | [] => [(k, a)]
  | e :: rest =>
    match compare k e.1 with
    | .lt => (k, a) :: e :: rest
    | .eq => (k, a) :: rest
    | .gt => e :: insertEntry k a rest

@[simp] theorem get?_empty (k : κ) : (empty : SortedMap κ α).get? k = none := rfl

theorem lookup_eq_none {k : κ} {l : List (κ × α)} (h : ∀ e ∈ l, compare k e.1 = .lt) :
    lookup k l = none := by
  induction l with
  | nil => rfl
  | cons e rest ih => grind [lookup]

theorem mem_insertEntry {k : κ} {a : α} {e : κ × α} {l : List (κ × α)}
    (h : e ∈ insertEntry k a l) : e = (k, a) ∨ e ∈ l := by
  induction l with
  | nil => simpa [insertEntry] using h
  | cons x rest ih =>
    rw [insertEntry] at h
    split at h <;> grind

end Basic

section Lookup

variable {κ α : Type} [Ord κ] [Std.LawfulEqOrd κ]

/-- The entries are the bindings. -/
theorem mem_entries {m : SortedMap κ α} {k : κ} {a : α} :
    (k, a) ∈ m.entries ↔ m.get? k = some a := by
  have main : ∀ l : List (κ × α), (l.Pairwise fun a b => compare a.1 b.1 = .lt) →
      ((k, a) ∈ l ↔ lookup k l = some a) := by
    intro l hl
    induction l with
    | nil => simp [lookup]
    | cons e rest ih =>
      obtain ⟨low, hl⟩ := List.pairwise_cons.1 hl
      have ih := ih hl
      by_cases hk : k = e.1
      · have none : (k, a) ∉ rest := fun hm => by simpa [← hk] using low _ hm
        obtain ⟨e₁, e₂⟩ := e
        simp only [List.mem_cons, Prod.mk.injEq, none, or_false, lookup]
        simp_all [eq_comm]
      · have : (k, a) ≠ e := fun h => hk (congrArg Prod.fst h)
        simp [lookup, hk, this, ih]
  exact main m.entries m.sorted

theorem get?_filter (m : SortedMap κ α) (p : κ → α → Bool) (k : κ) :
    (m.filter p).get? k = (m.get? k).filter (p k) := by
  apply Option.ext
  intro a
  rw [Option.filter_eq_some_iff, ← mem_entries, ← mem_entries]
  simp [filter, List.mem_filter]

theorem get?_erase [DecidableEq κ] (m : SortedMap κ α) (k q : κ) :
    (m.erase k).get? q = if q = k then none else m.get? q := by
  rw [erase, get?_filter]
  by_cases h : q = k
  · subst h
    cases m.get? q <;> simp [Option.filter]
  · have : k ≠ q := fun e => h e.symm
    cases m.get? q <;> simp [Option.filter, h, this]

end Lookup

variable {κ α : Type} [Ord κ] [Std.TransOrd κ]

theorem pairwise_insertEntry (k : κ) (a : α) {l : List (κ × α)}
    (h : l.Pairwise fun a b => compare a.1 b.1 = .lt) :
    (insertEntry k a l).Pairwise fun a b => compare a.1 b.1 = .lt := by
  induction l with
  | nil => simp [insertEntry]
  | cons e rest ih =>
    rw [List.pairwise_cons] at h
    rw [insertEntry]
    split
    · next hk =>
      refine List.pairwise_cons.2 ⟨fun x hx => ?_, List.pairwise_cons.2 h⟩
      rcases List.mem_cons.1 hx with rfl | hx
      · exact hk
      · exact Std.TransCmp.lt_trans hk (h.1 x hx)
    · next hk =>
      exact List.pairwise_cons.2 ⟨fun x hx => Std.TransCmp.lt_of_eq_of_lt hk (h.1 x hx), h.2⟩
    · next hk =>
      refine List.pairwise_cons.2 ⟨fun x hx => ?_, ih h.2⟩
      rcases mem_insertEntry hx with rfl | hx
      · exact Std.OrientedCmp.lt_of_gt hk
      · exact h.1 x hx

/-- Bind `k` to `a`, whatever it was bound to before. -/
def insert (m : SortedMap κ α) (k : κ) (a : α) : SortedMap κ α :=
  ⟨insertEntry k a m.entries, pairwise_insertEntry k a m.sorted⟩

/-- Insert the entries from left to right: of two entries with one key the later stays. -/
def insertMany (m : SortedMap κ α) (l : List (κ × α)) : SortedMap κ α :=
  l.foldl (fun acc e => acc.insert e.1 e.2) m

def ofList (l : List (κ × α)) : SortedMap κ α := empty.insertMany l

/-- Join two maps. A key that both bind is bound to the combination of its two values, and if
some pair of values has no combination, the maps have none. -/
def mergeWith? (f : α → α → Option α) (m n : SortedMap κ α) : Option (SortedMap κ α) :=
  n.entries.foldlM (fun acc e =>
    match acc.get? e.1 with
    | none => some (acc.insert e.1 e.2)
    | some a => (f a e.2).map (acc.insert e.1)) m

variable [Std.LawfulEqOrd κ]

theorem get?_insert [DecidableEq κ] (m : SortedMap κ α) (k q : κ) (a : α) :
    (m.insert k a).get? q = if q = k then some a else m.get? q := by
  have main : ∀ l : List (κ × α), (l.Pairwise fun a b => compare a.1 b.1 = .lt) →
      lookup q (insertEntry k a l) = if q = k then some a else lookup q l := by
    intro l hl
    induction l with
    | nil => simp [insertEntry, lookup]
    | cons e rest ih =>
      rw [List.pairwise_cons] at hl
      have ih := ih hl.2
      rw [insertEntry]
      split
      · simp [lookup]
      · next hk =>
        have hk := Std.LawfulEqCmp.eq_of_compare hk
        by_cases hq : q = k <;> simp_all [lookup]
      · next hk =>
        by_cases hq : q = e.1
        · have : q ≠ k := by rintro rfl; simp [hq] at hk
          simp [lookup, hq] at *
          simp [this]
        · simp [lookup, hq, ih]
  exact main m.entries m.sorted

/-- A map is what it gives to each key. -/
theorem ext_get? {m n : SortedMap κ α} (h : ∀ k, m.get? k = n.get? k) : m = n := by
  have main : ∀ l₁ l₂ : List (κ × α), (l₁.Pairwise fun a b => compare a.1 b.1 = .lt) →
      (l₂.Pairwise fun a b => compare a.1 b.1 = .lt) →
      (∀ k, lookup k l₁ = lookup k l₂) → l₁ = l₂ := by
    intro l₁
    induction l₁ with
    | nil =>
      intro l₂ _ _ h
      cases l₂ with
      | nil => rfl
      | cons e rest => simpa [lookup] using h e.1
    | cons d tail ih =>
      intro l₂ h₁ h₂ h
      cases l₂ with
      | nil => simpa [lookup] using h d.1
      | cons e rest =>
        rw [List.pairwise_cons] at h₁ h₂
        have low : ∀ {x : κ} {l : List (κ × α)}, (∀ y ∈ l, compare x y.1 = .lt) →
            lookup x l = none := lookup_eq_none
        have hde : d.1 = e.1 := by
          cases hc : compare d.1 e.1 with
          | eq => exact Std.LawfulEqCmp.eq_of_compare hc
          | lt =>
            have := h d.1
            rw [low fun y hy => (List.mem_cons.1 hy).elim (fun e => e ▸ hc)
              fun hy => Std.TransCmp.lt_trans hc (h₂.1 y hy)] at this
            simp [lookup] at this
          | gt =>
            have hc := Std.OrientedCmp.lt_of_gt hc
            have := h e.1
            rw [low fun y hy => (List.mem_cons.1 hy).elim (fun e => e ▸ hc)
              fun hy => Std.TransCmp.lt_trans hc (h₁.1 y hy)] at this
            simp [lookup] at this
        have hv : d.2 = e.2 := by simpa [lookup, hde] using h d.1
        have htail : tail = rest := by
          refine ih rest h₁.2 h₂.2 fun k => ?_
          by_cases hk : k = d.1
          · rw [hk, low h₁.1, hde, low h₂.1]
          · simpa [lookup, hk, hde ▸ hk] using h k
        rw [htail, Prod.ext hde hv]
  exact entries_inj.1 (main _ _ m.sorted n.sorted h)

end SortedMap

end PacketPolicy

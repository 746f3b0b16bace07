import PacketPolicy.Collection.SortedMap
import Mathlib.Tactic

/-!
# What map operations give to a key

Every operation on a sorted map that walks through the entries of another one is
read off key by key: a key occurs at most once among the entries, so only the
entry with that key matters, and the order of the walk does not.
-/

namespace PacketPolicy
namespace SortedMap

section Walk

variable {κ α : Type} [Ord κ] [Std.LawfulEqOrd κ]

/-- A walk through the entries of a map, seen at one key, is one step or none. -/
theorem foldl_entries_at [DecidableEq κ] {β γ : Type} {step : β → κ × α → β} (view : β → γ)
    (write : α → γ → γ) {k : κ}
    (hstep : ∀ b e, view (step b e) = if k = e.1 then write e.2 (view b) else view b)
    (n : SortedMap κ α) (b : β) :
    view (n.entries.foldl step b) = (n.get? k).elim (view b) fun a => write a (view b) := by
  have main : ∀ l : List (κ × α), (l.Pairwise fun a b => compare a.1 b.1 = .lt) → ∀ b,
      view (l.foldl step b) = (lookup k l).elim (view b) fun a => write a (view b) := by
    intro l hl
    induction l with
    | nil => intro b; rfl
    | cons e rest ih =>
      intro b
      obtain ⟨low, hl⟩ := List.pairwise_cons.1 hl
      rw [List.foldl_cons, ih hl, hstep]
      by_cases hk : k = e.1
      · subst hk
        simp [lookup_eq_none low, lookup]
      · simp [lookup, hk]
  exact main n.entries n.sorted b

theorem get?_foldl_erase [DecidableEq κ] (m : SortedMap κ α) (l : List κ) (k : κ) :
    (l.foldl erase m).get? k = if k ∈ l then none else m.get? k := by
  induction l generalizing m with
  | nil => simp
  | cons x rest ih =>
    rw [List.foldl_cons, ih, get?_erase]
    by_cases hk : k = x <;> simp [hk]

theorem mem_keys {m : SortedMap κ α} {k : κ} : k ∈ m.keys ↔ (m.get? k).isSome = true := by
  rw [Option.isSome_iff_exists, keys, List.mem_map]
  constructor
  · rintro ⟨⟨x, a⟩, he, rfl⟩
    exact ⟨a, mem_entries.1 he⟩
  · rintro ⟨a, ha⟩
    exact ⟨(k, a), mem_entries.2 ha, rfl⟩

theorem isEmpty_iff {m : SortedMap κ α} : m.isEmpty = true ↔ ∀ k, m.get? k = none := by
  rw [isEmpty, List.isEmpty_iff]
  constructor
  · intro h k
    rw [get?, h, lookup]
  · intro h
    refine List.eq_nil_iff_forall_not_mem.2 ?_
    intro e he
    have := mem_entries.1 (show (e.1, e.2) ∈ m.entries from he)
    rw [h e.1] at this
    cases this

end Walk

variable {κ α : Type}

/-- The same keys, with other values. -/
def mapValues [Ord κ] {β : Type} (g : α → β) (m : SortedMap κ α) : SortedMap κ β :=
  ⟨m.entries.map fun e => (e.1, g e.2), List.pairwise_map.2 m.sorted⟩

theorem get?_mapValues [Ord κ] {β : Type} (g : α → β) (m : SortedMap κ α) (k : κ) :
    (m.mapValues g).get? k = (m.get? k).map g := by
  have main : ∀ l : List (κ × α),
      lookup k (l.map fun e => (e.1, g e.2)) = (lookup k l).map g := by
    intro l
    induction l with
    | nil => rfl
    | cons e rest ih =>
      rw [List.map_cons, lookup, lookup, ih]
      split_ifs <;> rfl
  exact main m.entries

/-- What a key is bound to in the join of two maps, given what each of them binds it to; nothing
if its two values have no combination. -/
def join? (f : α → α → Option α) : Option α → Option α → Option (Option α)
  | some a, some b => (f a b).map some
  | a, none => some a
  | none, b => some b

@[simp] theorem join?_none_right (f : α → α → Option α) (a : Option α) :
    join? f a none = some a := by
  cases a <;> rfl

@[simp] theorem join?_none_left (f : α → α → Option α) (b : Option α) :
    join? f none b = some b := by
  cases b <;> rfl

variable [Ord κ] [Std.TransOrd κ]

/-- One entry joined to a map: the step of `mergeWith?`. -/
def mergeAt? (f : α → α → Option α) (acc : SortedMap κ α) (e : κ × α) :
    Option (SortedMap κ α) :=
  match acc.get? e.1 with
  | none => some (acc.insert e.1 e.2)
  | some a => (f a e.2).map (acc.insert e.1)

theorem exists_mergeAt? {f : α → α → Option α} {acc : SortedMap κ α} {e : κ × α}
    (h : (join? f (acc.get? e.1) (some e.2)).isSome = true) :
    ∃ next, mergeAt? f acc e = some next := by
  unfold mergeAt?
  cases ha : acc.get? e.1 with
  | none => exact ⟨_, rfl⟩
  | some a =>
    simp only [ha, join?, Option.isSome_map] at h
    obtain ⟨c, hc⟩ := Option.isSome_iff_exists.1 h
    exact ⟨acc.insert e.1 c, by simp [hc]⟩

variable [Std.LawfulEqOrd κ] [DecidableEq κ]

theorem get?_insertMany (m n : SortedMap κ α) (k : κ) :
    (m.insertMany n.entries).get? k = (n.get? k).or (m.get? k) := by
  rw [insertMany, foldl_entries_at (fun m : SortedMap κ α => m.get? k) (fun a _ => some a)
    (fun m e => m.get?_insert e.1 k e.2) n m]
  cases n.get? k <;> rfl

/-- A key is bound to what stands last for it in the list. -/
theorem get?_ofList (l : List (κ × α)) (k : κ) :
    (ofList l).get? k = (l.reverse.find? fun e => k = e.1).map Prod.snd := by
  have main : ∀ m : SortedMap κ α, (m.insertMany l).get? k =
      ((l.reverse.find? fun e => k = e.1).map Prod.snd).or (m.get? k) := by
    induction l with
    | nil => exact fun _ => rfl
    | cons e rest ih =>
      intro m
      have hstep : m.insertMany (e :: rest) = (m.insert e.1 e.2).insertMany rest := rfl
      rw [hstep, ih, get?_insert, List.reverse_cons, List.find?_append]
      cases rest.reverse.find? fun e => k = e.1 with
      | some _ => rfl
      | none => by_cases hk : k = e.1 <;> simp [hk]
  simpa [ofList] using main empty

theorem get?_of_mergeAt? {f : α → α → Option α} {acc next : SortedMap κ α} {e : κ × α}
    (h : mergeAt? f acc e = some next) (k : κ) :
    some (next.get? k) =
      if k = e.1 then join? f (acc.get? k) (some e.2) else some (acc.get? k) := by
  unfold mergeAt? at h
  cases ha : acc.get? e.1 with
  | none =>
    rw [ha] at h
    obtain rfl : acc.insert e.1 e.2 = next := Option.some.inj h
    by_cases hk : k = e.1 <;> simp [get?_insert, hk, ha]
  | some a =>
    rw [ha] at h
    obtain ⟨c, hc, rfl⟩ := Option.map_eq_some_iff.1 h
    by_cases hk : k = e.1 <;> simp [get?_insert, hk, ha, join?, hc]

/-- A join binds every key to the combination of what the two maps bind it to. -/
theorem join?_get?_of_mergeWith? {f : α → α → Option α} {m n r : SortedMap κ α}
    (h : mergeWith? f m n = some r) (k : κ) : join? f (m.get? k) (n.get? k) = some (r.get? k) := by
  have main : ∀ l : List (κ × α), (l.Pairwise fun a b => compare a.1 b.1 = .lt) →
      ∀ acc : SortedMap κ α, l.foldlM (mergeAt? f) acc = some r →
      join? f (acc.get? k) (lookup k l) = some (r.get? k) := by
    intro l hl
    induction l with
    | nil =>
      intro acc h
      obtain rfl : acc = r := Option.some.inj h
      simp [lookup]
    | cons e rest ih =>
      intro acc h
      obtain ⟨low, hl⟩ := List.pairwise_cons.1 hl
      rw [List.foldlM_cons] at h
      obtain ⟨next, hnext, h⟩ := Option.bind_eq_some_iff.1 h
      have hstep := get?_of_mergeAt? hnext k
      have hrest := ih hl next h
      by_cases hk : k = e.1
      · subst hk
        rw [lookup_eq_none low, join?_none_right] at hrest
        simpa [lookup] using hstep.symm.trans hrest
      · simp only [hk, if_false, Option.some.injEq] at hstep
        simpa [lookup, hk, hstep] using hrest
  exact main n.entries n.sorted m h

theorem exists_mergeWith? {f : α → α → Option α} {m n : SortedMap κ α}
    (h : ∀ k, (join? f (m.get? k) (n.get? k)).isSome = true) :
    ∃ r, mergeWith? f m n = some r := by
  have main : ∀ l : List (κ × α), (l.Pairwise fun a b => compare a.1 b.1 = .lt) →
      ∀ acc : SortedMap κ α, (∀ k, (join? f (acc.get? k) (lookup k l)).isSome = true) →
      ∃ r, l.foldlM (mergeAt? f) acc = some r := by
    intro l hl
    induction l with
    | nil => exact fun acc _ => ⟨acc, rfl⟩
    | cons e rest ih =>
      intro acc h
      obtain ⟨low, hl⟩ := List.pairwise_cons.1 hl
      obtain ⟨next, hnext⟩ := exists_mergeAt? (by simpa [lookup] using h e.1)
      obtain ⟨r, hr⟩ := ih hl next fun k => by
        have hstep := get?_of_mergeAt? hnext k
        by_cases hk : k = e.1
        · subst hk
          simp [lookup_eq_none low]
        · simp only [hk, if_false, Option.some.injEq] at hstep
          simpa [lookup, hk, hstep] using h k
      rw [List.foldlM_cons]
      exact ⟨r, Option.bind_eq_some_iff.2 ⟨next, hnext, hr⟩⟩
  exact main n.entries n.sorted m h

end SortedMap
end PacketPolicy

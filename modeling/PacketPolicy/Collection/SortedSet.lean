/-!
# Sorted sets

A finite set is the strictly increasing list of its members, so sets with the
same members are equal (`ext_mem`). Sets of packets, of header names, of ports and
of network locations are all of this form.
-/

namespace PacketPolicy

/-- A finite set, kept as the strictly increasing list of its members. -/
structure SortedSet (κ : Type) [Ord κ] where
  toList : List κ
  sorted : toList.Pairwise fun a b => compare a b = .lt

namespace SortedSet

section Basic

variable {κ : Type} [Ord κ]

theorem toList_inj {a b : SortedSet κ} : a.toList = b.toList ↔ a = b := by
  cases a; cases b; simp

instance [DecidableEq κ] : DecidableEq (SortedSet κ) := fun _ _ =>
  decidable_of_iff _ toList_inj

instance : Membership κ (SortedSet κ) := ⟨fun s a => a ∈ s.toList⟩

instance [DecidableEq κ] (a : κ) (s : SortedSet κ) : Decidable (a ∈ s) :=
  inferInstanceAs (Decidable (a ∈ s.toList))

@[simp] theorem mem_toList {a : κ} {s : SortedSet κ} : a ∈ s.toList ↔ a ∈ s := .rfl

def empty : SortedSet κ := ⟨[], .nil⟩

instance : Inhabited (SortedSet κ) := ⟨empty⟩

def singleton (a : κ) : SortedSet κ := ⟨[a], by simp⟩

def size (s : SortedSet κ) : Nat := s.toList.length

def isEmpty (s : SortedSet κ) : Bool := s.toList.isEmpty

@[simp] theorem not_mem_empty (a : κ) : a ∉ (empty : SortedSet κ) := by
  simp [← mem_toList, empty]

@[simp] theorem mem_singleton {a b : κ} : a ∈ singleton b ↔ a = b := by
  simp [← mem_toList, singleton]

/-- Put a member in its place; nothing changes if it is there. -/
def insertMember (a : κ) : List κ → List κ
  | [] => [a]
  | b :: rest =>
    match compare a b with
    | .lt => a :: b :: rest
    | .eq => b :: rest
    | .gt => b :: insertMember a rest

theorem mem_of_mem_insertMember {a b : κ} {l : List κ} (h : b ∈ insertMember a l) :
    b = a ∨ b ∈ l := by
  induction l with
  | nil => simpa [insertMember] using h
  | cons x rest ih =>
    rw [insertMember] at h
    split at h <;> grind

end Basic

variable {κ : Type} [Ord κ] [Std.TransOrd κ]

theorem pairwise_insertMember (a : κ) {l : List κ}
    (h : l.Pairwise fun a b => compare a b = .lt) :
    (insertMember a l).Pairwise fun a b => compare a b = .lt := by
  induction l with
  | nil => simp [insertMember]
  | cons b rest ih =>
    have hb := List.pairwise_cons.1 h
    rw [insertMember]
    split
    · next hk =>
      refine List.pairwise_cons.2 ⟨fun x hx => ?_, h⟩
      rcases List.mem_cons.1 hx with rfl | hx
      · exact hk
      · exact Std.TransCmp.lt_trans hk (hb.1 x hx)
    · exact h
    · next hk =>
      refine List.pairwise_cons.2 ⟨fun x hx => ?_, ih hb.2⟩
      rcases mem_of_mem_insertMember hx with rfl | hx
      · exact Std.OrientedCmp.lt_of_gt hk
      · exact hb.1 x hx

def insert (s : SortedSet κ) (a : κ) : SortedSet κ :=
  ⟨insertMember a s.toList, pairwise_insertMember a s.sorted⟩

def union (s t : SortedSet κ) : SortedSet κ := t.toList.foldl insert s

def ofList (l : List κ) : SortedSet κ := l.foldl insert empty

/-- The union of the sets that `f` gives to the members. -/
def flatMap {ι : Type} [Ord ι] (s : SortedSet ι) (f : ι → SortedSet κ) : SortedSet κ :=
  s.toList.foldl (fun acc a => acc.union (f a)) empty

variable [Std.LawfulEqOrd κ]

@[simp] theorem mem_insert {s : SortedSet κ} {a b : κ} : b ∈ s.insert a ↔ b = a ∨ b ∈ s := by
  have main : ∀ l : List κ, b ∈ insertMember a l ↔ b = a ∨ b ∈ l := by
    intro l
    induction l with
    | nil => simp [insertMember]
    | cons x rest ih =>
      rw [insertMember]
      split
      · simp
      · next hk => simp [Std.LawfulEqCmp.eq_of_compare hk]
      · grind
  exact main s.toList

theorem mem_foldl_insert {l : List κ} {s : SortedSet κ} {b : κ} :
    b ∈ l.foldl insert s ↔ b ∈ s ∨ b ∈ l := by
  induction l generalizing s with
  | nil => simp
  | cons a rest ih => simp only [List.foldl_cons, ih, mem_insert, List.mem_cons]; grind

@[simp] theorem mem_union {s t : SortedSet κ} {b : κ} : b ∈ s.union t ↔ b ∈ s ∨ b ∈ t :=
  mem_foldl_insert

@[simp] theorem mem_ofList {l : List κ} {b : κ} : b ∈ ofList l ↔ b ∈ l := by
  simp [ofList, mem_foldl_insert]

@[simp] theorem mem_flatMap {ι : Type} [Ord ι] {s : SortedSet ι} {f : ι → SortedSet κ} {b : κ} :
    b ∈ s.flatMap f ↔ ∃ a ∈ s, b ∈ f a := by
  have main : ∀ (l : List ι) (t : SortedSet κ),
      b ∈ l.foldl (fun acc a => acc.union (f a)) t ↔ b ∈ t ∨ ∃ a ∈ l, b ∈ f a := by
    intro l
    induction l with
    | nil => simp
    | cons a rest ih => intro t; simp [ih, or_assoc]
  simpa [flatMap] using main s.toList empty

/-- A set is its members. -/
theorem ext_mem {s t : SortedSet κ} (h : ∀ a, a ∈ s ↔ a ∈ t) : s = t := by
  have main : ∀ l₁ l₂ : List κ, (l₁.Pairwise fun a b => compare a b = .lt) →
      (l₂.Pairwise fun a b => compare a b = .lt) → (∀ a, a ∈ l₁ ↔ a ∈ l₂) → l₁ = l₂ := by
    intro l₁
    induction l₁ with
    | nil =>
      intro l₂ _ _ h
      exact (List.eq_nil_iff_forall_not_mem.2 fun a ha => by simpa using (h a).2 ha).symm
    | cons x tail ih =>
      intro l₂ h₁ h₂ h
      cases l₂ with
      | nil => simpa using (h x).1 (List.mem_cons_self ..)
      | cons y rest =>
        rw [List.pairwise_cons] at h₁ h₂
        have hxy : x = y := by
          rcases List.mem_cons.1 ((h x).1 (List.mem_cons_self ..)) with e | hx
          · exact e
          rcases List.mem_cons.1 ((h y).2 (List.mem_cons_self ..)) with e | hy
          · exact e.symm
          have := Std.TransCmp.lt_trans (h₂.1 x hx) (h₁.1 y hy)
          simp at this
        subst hxy
        have irrefl : ∀ {l : List κ}, (∀ a ∈ l, compare x a = .lt) → x ∉ l := by
          intro l hl hx
          simpa using hl x hx
        rw [ih rest h₁.2 h₂.2 fun a => ?_]
        by_cases ha : a = x
        · subst ha
          exact iff_of_false (irrefl h₁.1) (irrefl h₂.1)
        · simpa [ha] using h a
  exact toList_inj.1 (main _ _ s.sorted t.sorted h)

end SortedSet

end PacketPolicy

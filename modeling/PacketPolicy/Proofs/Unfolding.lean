import PacketPolicy.Proofs.Mentions
import Mathlib.Logic.Relation
import Mathlib.Data.Finset.Card

/-!
# Following handles

What a policy reads as depends on the definitions of the handles that lie on the way,
and on no others. A store that has no cycles and mentions only its own handles is never
too small: a handle reads as its definition does, and more room changes nothing.
-/

namespace PacketPolicy

theorem Policy.cons_subset_parts {env : Handle → List Policy} {p : Policy} {k : Handle}
    (hk : p.Mentions k) : .dynamic k :: env k ⊆ p.parts env := by
  intro q hq
  rw [Policy.mem_parts]
  rcases List.mem_cons.1 hq with rfl | hq
  · exact .inl hk
  · exact .inr ⟨k, hk, hq⟩

theorem Policy.mem_eraseDups_filterMap {α : Type} [DecidableEq α] {find : Policy → Option α}
    {node : α → Policy} {a : α} {l : List Policy} (h : ∀ q, find q = some a ↔ node a = q) :
    a ∈ (l.filterMap find).eraseDups ↔ node a ∈ l := by
  simp [List.mem_eraseDups, List.mem_filterMap, h]

namespace Store

variable {α : Type} {read : (Handle → α) → Policy → α} {stuck : α} {s s' : Store} {p : Policy}

theorem mem_handles {h : Handle} : h ∈ s.handles p ↔ .dynamic h ∈ s.parts p :=
  Policy.mem_eraseDups_filterMap fun q => by cases q <;> simp [Policy.handle?, eq_comm]

/-! ## Stores that agree -/

/-- The reading of a handle depends on its definition and on those of the handles behind it. -/
theorem unfold_congr (hread : Policy.Local read) {depth : Nat} {h : Handle}
    (hagree : ∀ k, .dynamic k ∈ .dynamic h :: s.unfold Policy.parts [] depth h →
      s'.definition k = s.definition k) :
    s'.unfold read stuck depth h = s.unfold read stuck depth h := by
  induction depth generalizing h with
  | zero => rfl
  | succ depth ih =>
    rw [unfold, unfold, hagree h List.mem_cons_self]
    refine hread _ fun k hk => ih fun j hj => hagree j ?_
    exact List.mem_cons_of_mem _ (Policy.cons_subset_parts hk hj)

/-- Stores of one size that agree on the handles of a policy read it alike. -/
theorem reading_congr (hread : Policy.Local read) (hsize : s'.size = s.size)
    (hagree : ∀ h ∈ s.handles p, s'.definition h = s.definition h) :
    s'.reading read stuck p = s.reading read stuck p := by
  rw [reading, reading, hsize]
  refine hread _ fun k hk => unfold_congr hread fun j hj => hagree j ?_
  exact mem_handles.2 (Policy.cons_subset_parts hk hj)

/-! ## Stores without cycles -/

/-- All handles that the policy mentions were given out by the store. -/
def Covers (s : Store) (p : Policy) : Prop := ∀ h, p.Mentions h → s.owns h = true

/-- All handles that definitions mention were given out by the store. -/
def Closed (s : Store) : Prop := ∀ h, s.Covers (s.definition h)

/-- The definition of the one handle mentions the other. -/
def Refers (s : Store) (h k : Handle) : Prop := (s.definition h).Mentions k

/-- No handle refers to itself, directly or through others. -/
def Acyclic (s : Store) : Prop := ∀ h, ¬ Relation.TransGen s.Refers h h

theorem acyclic_of_lt (h : ∀ k j, s.Refers k j → j.id < k.id) : s.Acyclic := by
  intro k hk
  have hlt : ∀ j, Relation.TransGen s.Refers k j → j.id < k.id := by
    intro j hj
    induction hj with
    | single hj => exact h _ _ hj
    | tail _ hj ih => exact (h _ _ hj).trans ih
  exact Nat.lt_irrefl _ (hlt k hk)

theorem owns_iff {h : Handle} :
    s.owns h = true ↔ ∃ d, s.get? h = some d ∧ d.isFilter = h.isFilter := by
  simp [owns, Option.any_eq_true]

theorem id_lt_size_of_owns {h : Handle} (hh : s.owns h = true) : h.id < s.size := by
  obtain ⟨d, hd, -⟩ := owns_iff.1 hh
  exact (List.getElem?_eq_some_iff.1 hd).1

theorem size_le_of_owns (h : ∀ k, s.owns k = true → s'.owns k = true) : s.size ≤ s'.size := by
  by_contra hlt
  obtain ⟨d, hd⟩ : ∃ d, s.definitions[s'.size]? = some d :=
    ⟨_, List.getElem?_eq_getElem (by rw [size] at hlt; omega)⟩
  have hown : s.owns ⟨s'.size, d.isFilter⟩ = true := owns_iff.2 ⟨d, hd, rfl⟩
  exact absurd (id_lt_size_of_owns (h _ hown)) (Nat.lt_irrefl _)

theorem size_eq_of_owns (h : ∀ k, s'.owns k = s.owns k) : s'.size = s.size :=
  le_antisymm (size_le_of_owns fun k hk => h k ▸ hk) (size_le_of_owns fun k hk => (h k).trans hk)

/-- What the reading of a policy goes through belongs to the store. -/
theorem Closed.owns_of_mem_handles (hs : s.Closed) (hp : s.Covers p) {h : Handle}
    (hh : h ∈ s.handles p) : s.owns h = true := by
  have hdepth : ∀ depth k, .dynamic h ∈ s.unfold Policy.parts [] depth k → s.owns h = true := by
    intro depth
    induction depth with
    | zero => simp [unfold]
    | succ depth ih =>
      intro k hk
      rcases Policy.mem_parts.1 hk with hk | ⟨j, -, hj⟩
      · exact hs k h hk
      · exact ih j hj
  rcases Policy.mem_parts.1 (mem_handles.1 hh) with hh | ⟨j, -, hj⟩
  · exact hp h hh
  · exact hdepth _ j hj

open Classical in
/-- The numbers of the handles that a handle refers to, directly or through others. -/
noncomputable def reach (s : Store) (h : Handle) : Finset Nat :=
  (Finset.range s.size).filter fun i => ∃ k : Handle, k.id = i ∧ Relation.TransGen s.Refers h k

theorem mem_reach {h : Handle} {i : Nat} : i ∈ s.reach h ↔
    i < s.size ∧ ∃ k : Handle, k.id = i ∧ Relation.TransGen s.Refers h k := by
  simp [reach]

namespace Acyclic

theorem id_not_mem_reach (hs : s.Acyclic) (h : Handle) : h.id ∉ s.reach h := by
  intro hh
  obtain ⟨-, k, hid, hk⟩ := mem_reach.1 hh
  -- handles of one number have one definition, so the way to `k` starts at `k` as well
  have hdef : s.definition k = s.definition h := by rw [definition, definition, get?, get?, hid]
  obtain ⟨j, hj, hjk⟩ := Relation.TransGen.head'_iff.1 hk
  have hkj : s.Refers k j := by rwa [Refers, hdef]
  exact hs k (.head' hkj hjk)

theorem card_reach_lt (hs : s.Acyclic) {h k : Handle} (hk : s.Refers h k)
    (hown : s.owns k = true) : (s.reach k).card < (s.reach h).card := by
  have hsub : s.reach k ⊆ s.reach h := by
    intro i hi
    obtain ⟨hlt, j, hid, hj⟩ := mem_reach.1 hi
    exact mem_reach.2 ⟨hlt, j, hid, .head hk hj⟩
  have hmem : k.id ∈ s.reach h := mem_reach.2 ⟨id_lt_size_of_owns hown, k, rfl, .single hk⟩
  exact Finset.card_lt_card ⟨hsub, fun hback => hs.id_not_mem_reach k (hback hmem)⟩

theorem card_reach_lt_size (hs : s.Acyclic) {h : Handle} (hown : s.owns h = true) :
    (s.reach h).card < s.size := by
  have hsub : s.reach h ⊆ Finset.range s.size :=
    fun i hi => Finset.mem_range.2 (mem_reach.1 hi).1
  have hmem : h.id ∈ Finset.range s.size := Finset.mem_range.2 (id_lt_size_of_owns hown)
  have hlt := Finset.card_lt_card ⟨hsub, fun hback => hs.id_not_mem_reach h (hback hmem)⟩
  rwa [Finset.card_range] at hlt

/-- Beyond the number of handles behind a handle, more depth changes nothing. -/
theorem unfold_eq (hs : s.Acyclic) (hclosed : s.Closed) (hread : Policy.Local read) {n m : Nat}
    {h : Handle} (hn : (s.reach h).card < n) (hm : (s.reach h).card < m) :
    s.unfold read stuck n h = s.unfold read stuck m h := by
  induction n generalizing m h with
  | zero => omega
  | succ n ih =>
    obtain ⟨m, rfl⟩ := Nat.exists_eq_add_one_of_ne_zero (by omega : m ≠ 0)
    rw [unfold, unfold]
    refine hread _ fun k hk => ?_
    have hlt := hs.card_reach_lt hk (hclosed h k hk)
    exact ih (by omega) (by omega)

/-- A handle reads as its definition does. -/
theorem unfold_eq_reading (hs : s.Acyclic) (hclosed : s.Closed) (hread : Policy.Local read)
    {h : Handle} (hown : s.owns h = true) :
    s.unfold read stuck s.size h = s.reading read stuck (s.definition h) := by
  have hlt := hs.card_reach_lt_size hown
  have hmore : s.unfold read stuck s.size h = s.unfold read stuck (s.size + 1) h :=
    hs.unfold_eq hclosed hread hlt (by omega)
  exact hmore

/-- A larger store that agrees on the handles of a policy reads it alike. -/
theorem reading_grow (hs : s.Acyclic) (hclosed : s.Closed) (hread : Policy.Local read)
    (hp : s.Covers p) (hsize : s.size ≤ s'.size)
    (hagree : ∀ h ∈ s.handles p, s'.definition h = s.definition h) :
    s'.reading read stuck p = s.reading read stuck p := by
  refine hread _ fun k hk => ?_
  have hlt := hs.card_reach_lt_size (hp k hk)
  have hparts : s.unfold Policy.parts [] s'.size k = s.unfold Policy.parts [] s.size k :=
    hs.unfold_eq hclosed Policy.local_parts (by omega) hlt
  calc s'.unfold read stuck s'.size k
      = s.unfold read stuck s'.size k := by
        refine unfold_congr hread fun j hj => hagree j ?_
        rw [hparts] at hj
        exact mem_handles.2 (Policy.cons_subset_parts hk hj)
    _ = s.unfold read stuck s.size k := hs.unfold_eq hclosed hread (by omega) hlt

end Acyclic

end Store

end PacketPolicy

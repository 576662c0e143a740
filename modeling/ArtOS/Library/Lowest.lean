import Mathlib.Order.Bounds.Basic
import Mathlib.Order.WellFounded

/-! A search for the least element of a set, with a value of its own for the empty set. -/
namespace Lowest

variable {α : Type*} [LinearOrder α] {s t : Set α} {null r r' : α}

/-- The least element of `s`, or `null` if there is none. -/
def Finds (s : Set α) (null r : α) : Prop := IsLeast s r ∨ s = ∅ ∧ r = null

theorem Finds.unique (h : Finds s null r) (h' : Finds s null r') : r = r' := by
  rcases h with hLeast | ⟨hEmpty, rfl⟩ <;> rcases h' with hLeast' | ⟨hEmpty', rfl⟩
  · exact hLeast.unique hLeast'
  · exact absurd hLeast.1 (hEmpty' ▸ Set.notMem_empty r)
  · exact absurd hLeast'.1 (hEmpty ▸ Set.notMem_empty r')
  · rfl

/-- What is found first in a part where everything that comes later is larger. -/
theorem Finds.union_left (h : IsLeast s r) (hLater : ∀ a ∈ t, r ≤ a) : Finds (s ∪ t) null r := by
  refine Or.inl ⟨Or.inl h.1, ?_⟩
  rintro a (ha | ha)
  · exact h.2 ha
  · exact hLater a ha

variable [WellFoundedLT α]

theorem exists_isLeast (h : s.Nonempty) : ∃ a, IsLeast s a := by
  have hWell : WellFounded fun a b : α => a < b := wellFounded_lt
  obtain ⟨a, ha, hMin⟩ := hWell.has_min s h
  exact ⟨a, ha, fun b hb => le_of_not_gt (hMin b hb)⟩

/-- A search that sees only a part of the set finds the least element of all if and only if that one is in
the part, or looks like nothing at all. -/
theorem Finds.of_subset_iff (h : Finds t null r) (hSub : t ⊆ s) :
    Finds s null r ↔ ∀ a, IsLeast s a → a ∈ t ∨ a = null ∧ t = ∅ := by
  constructor
  · rintro (hLeast | ⟨hEmpty, -⟩) a ha
    · obtain rfl := hLeast.unique ha
      exact h.imp (fun hSeen => hSeen.1) fun hNone => ⟨hNone.2, hNone.1⟩
    · exact absurd ha.1 (hEmpty ▸ Set.notMem_empty a)
  · intro hAll
    rcases s.eq_empty_or_nonempty with hEmpty | hSome
    · have hNone : t = ∅ := Set.subset_empty_iff.mp (hEmpty ▸ hSub)
      rcases h with hLeast | ⟨-, hNull⟩
      · exact absurd hLeast.1 (hNone ▸ Set.notMem_empty r)
      · exact Or.inr ⟨hEmpty, hNull⟩
    · obtain ⟨a, ha⟩ := exists_isLeast hSome
      rcases hAll a ha with hSeen | ⟨rfl, hNone⟩
      · have hFirst : Finds t null a := Or.inl ⟨hSeen, fun b hb => ha.2 (hSub hb)⟩
        obtain rfl := h.unique hFirst
        exact Or.inl ha
      · have hFirst : Finds t a a := Or.inr ⟨hNone, rfl⟩
        obtain rfl := h.unique hFirst
        exact Or.inl ha

end Lowest

import Mathlib.Order.Interval.Finset.Nat
import Mathlib.Tactic.Common

/-! Loops that step through an address range by whole blocks, from an address
that need not be aligned: the blocks they visit, and those the range touches. -/
namespace Strides

variable {size start stop : Nat}

/-- How often `for (x = start; x < stop; x += size)` runs its body. -/
def rounds (size start stop : Nat) : Nat := (stop - start + (size - 1)) / size

/-- The blocks that the loop visits. -/
def visited (size start stop : Nat) : Finset Nat :=
  Finset.Ico (start / size) (start / size + rounds size start stop)

/-- The blocks with a byte in the range. -/
def touched (size start stop : Nat) : Finset Nat :=
  if start < stop then Finset.Icc (start / size) ((stop - 1) / size) else ∅

theorem rounds_of_le (hSize : 0 < size) (h : stop ≤ start) : rounds size start stop = 0 := by
  rw [rounds, Nat.sub_eq_zero_of_le h, Nat.zero_add]
  exact Nat.div_eq_of_lt (Nat.sub_lt hSize Nat.one_pos)

theorem rounds_of_lt (hSize : 0 < size) (h : start < stop) :
    rounds size start stop = rounds size (start + size) stop + 1 := by
  rw [rounds, rounds]
  rcases Nat.lt_or_ge (start + size) stop with hNext | hLast
  · have hSplit : stop - start + (size - 1) = stop - (start + size) + (size - 1) + size := by omega
    rw [hSplit, Nat.add_div_right _ hSize]
  · have hSplit : stop - start + (size - 1) = stop - start - 1 + size := by omega
    rw [hSplit, Nat.add_div_right _ hSize, Nat.sub_eq_zero_of_le hLast, Nat.zero_add,
      Nat.div_eq_of_lt (by omega), Nat.div_eq_of_lt (by omega)]

theorem visited_of_le (hSize : 0 < size) (h : stop ≤ start) : visited size start stop = ∅ := by
  rw [visited, rounds_of_le hSize h, Nat.add_zero, Finset.Ico_self]

theorem visited_of_lt (hSize : 0 < size) (h : start < stop) :
    visited size start stop = insert (start / size) (visited size (start + size) stop) := by
  rw [visited, visited, rounds_of_lt hSize h, Nat.add_div_right _ hSize]
  ext b
  simp only [Finset.mem_Ico, Finset.mem_insert]
  omega

theorem card_visited : (visited size start stop).card = rounds size start stop := by
  rw [visited, Nat.card_Ico, Nat.add_sub_cancel_left]

/-- The loop visits a block at one of its addresses. -/
theorem mem_visited (hSize : 0 < size) {b : Nat} :
    b ∈ visited size start stop ↔ ∃ k, start + k * size < stop ∧ (start + k * size) / size = b := by
  have hBlock : ∀ k, (start + k * size) / size = start / size + k := fun k =>
    Nat.add_mul_div_right _ _ hSize
  have hRound : ∀ k, k < rounds size start stop ↔ start + k * size < stop := by
    intro k
    rw [rounds, Nat.lt_iff_add_one_le, Nat.le_div_iff_mul_le hSize, Nat.succ_mul]
    omega
  simp only [visited, Finset.mem_Ico, hBlock]
  constructor
  · rintro ⟨hLow, hHigh⟩
    exact ⟨b - start / size, (hRound _).mp (by omega), by omega⟩
  · rintro ⟨k, hk, rfl⟩
    exact ⟨Nat.le_add_right _ _, Nat.add_lt_add_left ((hRound k).mpr hk) _⟩

end Strides

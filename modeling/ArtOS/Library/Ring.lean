import Mathlib.Data.List.Basic
import Mathlib.Data.Nat.ModEq
import Mathlib.Logic.Function.Basic
import Mathlib.Tactic.Common

/-! A ring of `n` slots as a window on a log. The log records everything that
was ever put into the ring; its entries from `lo` on are still there, entry
`i` in slot `i % n`. Putting and taking are then a longer log and a larger `lo`. -/
namespace Ring

variable {Item : Type*} {n lo : Nat} {slot : Nat → Option Item} {log : List Item}

structure Holds (n : Nat) (slot : Nat → Option Item) (log : List Item) (lo : Nat) : Prop where
  low : lo ≤ log.length
  room : log.length ≤ lo + n
  content : ∀ j < n, ∀ x, slot j = some x ↔ ∃ i, lo ≤ i ∧ log[i]? = some x ∧ i % n = j

/-- Two positions less than one round apart are different slots. -/
theorem eq_of_mod_eq {n k i j : Nat} (hi : k ≤ i) (hj : k ≤ j) (hi' : i < k + n) (hj' : j < k + n)
    (h : i % n = j % n) : i = j := by
  have hClose : ∀ i j, k ≤ i → j < k + n → i % n = j % n → i ≤ j → i = j := by
    intro i j hi hj' h hLe
    have hDvd : n ∣ j - i := (Nat.modEq_iff_dvd' hLe).mp h
    have hZero := Nat.eq_zero_of_dvd_of_lt hDvd (by omega)
    omega
  rcases Nat.le_total i j with hLe | hLe
  · exact hClose i j hi hj' h hLe
  · exact (hClose j i hj hi' h.symm hLe).symm

theorem Holds.start (h : ∀ j < n, slot j = none) : Holds n slot [] 0 :=
  ⟨le_rfl, by simp, fun j hj x => by simp [h j hj]⟩

theorem lt_of_getElem? {i : Nat} {x : Item} (h : log[i]? = some x) : i < log.length :=
  (List.getElem?_eq_some_iff.mp h).1

/-- Every entry that is still in the ring can be found in its slot. -/
theorem Holds.get (h : Holds n slot log lo) (hn : 0 < n) {i : Nat} (hLow : lo ≤ i) {x : Item}
    (hEntry : log[i]? = some x) : slot (i % n) = some x :=
  (h.content _ (Nat.mod_lt i hn) x).mpr ⟨i, hLow, hEntry, rfl⟩

/-- A slot that no position of the window is mapped to is empty. -/
theorem Holds.eq_none (h : Holds n slot log lo) {j : Nat} (hj : j < n)
    (hOff : ∀ i, lo ≤ i → i < log.length → i % n ≠ j) : slot j = none := by
  cases hSlot : slot j with
  | none => rfl
  | some x =>
      obtain ⟨i, hLow, hEntry, hMod⟩ := (h.content j hj x).mp hSlot
      exact absurd hMod (hOff i hLow (lt_of_getElem? hEntry))

/-- With a slot to spare, the slot behind the last entry is empty. -/
theorem Holds.next_eq_none (h : Holds n slot log lo) (hRoom : log.length < lo + n) :
    slot (log.length % n) = none := by
  have hLow := h.low
  refine h.eq_none (Nat.mod_lt _ (by omega)) fun i hLow hi hMod => ?_
  have hSame := eq_of_mod_eq hLow h.low (by omega) hRoom hMod
  omega

theorem Holds.push (h : Holds n slot log lo) (hRoom : log.length < lo + n) (x : Item) :
    Holds n (Function.update slot (log.length % n) (some x)) (log ++ [x]) lo := by
  refine ⟨by simpa using h.low.trans (Nat.le_succ _), by simpa using Nat.succ_le_of_lt hRoom,
    fun j hj y => ?_⟩
  by_cases hSlot : j = log.length % n
  · rw [hSlot, Function.update_self]
    constructor
    · intro hSame
      exact ⟨log.length, h.low, by simpa using hSame, rfl⟩
    · rintro ⟨i, hLow, hEntry, hMod⟩
      have hi := lt_of_getElem? hEntry
      rw [List.length_append, List.length_singleton] at hi
      obtain rfl := eq_of_mod_eq hLow h.low (by omega) hRoom hMod
      simpa using hEntry
  · rw [Function.update_of_ne hSlot, h.content j hj]
    refine exists_congr fun i => and_congr_right fun hLow => and_congr_left fun hMod => ?_
    rcases Nat.lt_trichotomy i log.length with hi | rfl | hi
    · rw [List.getElem?_append_left hi]
    · exact absurd hMod.symm hSlot
    · have hLong : (log ++ [x]).length ≤ i := by
        rw [List.length_append, List.length_singleton]
        omega
      rw [List.getElem?_eq_none hi.le, List.getElem?_eq_none hLong]

theorem Holds.pop (h : Holds n slot log lo) (hFull : lo < log.length) :
    Holds n (Function.update slot (lo % n) none) log (lo + 1) := by
  refine ⟨hFull, by have := h.room; omega, fun j hj y => ?_⟩
  by_cases hSlot : j = lo % n
  · rw [hSlot, Function.update_self]
    refine iff_of_false (by simp) ?_
    rintro ⟨i, hLow, hEntry, hMod⟩
    have hi := lt_of_getElem? hEntry
    have hRoom := h.room
    have hSame := eq_of_mod_eq (n := n) (k := lo) (by omega) le_rfl (by omega) (by omega) hMod
    omega
  · rw [Function.update_of_ne hSlot, h.content j hj]
    refine exists_congr fun i => and_congr_left fun ⟨_, hMod⟩ => ⟨fun hLow => ?_, fun hLow => by omega⟩
    have hne : i ≠ lo := fun he => hSlot (he ▸ hMod.symm)
    omega

/-- Walking round the ring from the slot behind the last entry meets empty
slots first, and then the oldest entry. -/
theorem Holds.walk_eq_none (h : Holds n slot log lo) {k : Nat}
    (hk : log.length + k < lo + n) : slot ((log.length + k) % n) = none := by
  have hLow := h.low
  refine h.eq_none (Nat.mod_lt _ (by omega)) fun i hi hi' hMod => ?_
  have hSame := eq_of_mod_eq hi (by omega) (by omega) hk hMod
  omega

theorem walk_oldest {k : Nat} (hk : log.length + k = lo + n) : (log.length + k) % n = lo % n := by
  rw [hk, Nat.add_mod_right]

end Ring

import Mathlib.Algebra.BigOperators.Group.Finset.Piecewise
import Mathlib.Data.Fintype.Card

/-! Counting the members of a finite family with a property, when one member
changes at a time. -/
namespace Counting

variable {Index Value : Type*} [Fintype Index]

/-- How many members of the family satisfy `p`. -/
def count (f : Index → Value) (p : Value → Prop) [DecidablePred p] : Nat :=
  (Finset.univ.filter fun i => p (f i)).card

variable {f : Index → Value} {p q : Value → Prop} [DecidablePred p] [DecidablePred q]

theorem count_le_card : count f p ≤ Fintype.card Index :=
  Finset.card_le_univ _

theorem count_pos_iff : 0 < count f p ↔ ∃ i, p (f i) := by
  simp [count, Finset.card_pos, Finset.filter_nonempty_iff]

theorem count_eq_zero_iff : count f p = 0 ↔ ∀ i, ¬ p (f i) := by
  simp [count, Finset.filter_eq_empty_iff]

variable [DecidableEq Index]

/-- One member changes: the count moves by that member alone. -/
theorem count_update (i : Index) (value : Value) :
    count (Function.update f i value) p + (if p (f i) then 1 else 0) =
      count f p + (if p value then 1 else 0) := by
  simp only [count, Finset.card_filter]
  rw [← Finset.add_sum_erase _ _ (Finset.mem_univ i),
    ← Finset.add_sum_erase _ (fun j => if p (f j) then 1 else 0) (Finset.mem_univ i)]
  have hRest : ∀ j ∈ Finset.univ.erase i,
      (if p (Function.update f i value j) then 1 else 0) = if p (f j) then 1 else 0 := by
    intro j hj
    rw [Function.update_of_ne (Finset.ne_of_mem_erase hj)]
  rw [Finset.sum_congr rfl hRest, Function.update_self]
  omega

theorem count_update_of_iff {i : Index} {value : Value} (h : p (f i) ↔ p value) :
    count (Function.update f i value) p = count f p := by
  have hCount := count_update (f := f) (p := p) i value
  simp only [h] at hCount
  omega

theorem count_update_gain {i : Index} {value : Value} (hOld : ¬ p (f i)) (hNew : p value) :
    count (Function.update f i value) p = count f p + 1 := by
  simpa [hOld, hNew] using count_update (f := f) (p := p) i value

theorem count_update_lose {i : Index} {value : Value} (hOld : p (f i)) (hNew : ¬ p value) :
    count (Function.update f i value) p + 1 = count f p := by
  simpa [hOld, hNew] using count_update (f := f) (p := p) i value

end Counting

import Mathlib.Data.Finset.Card
import Mathlib.Data.Nat.Count

/-! How many numbers below a bound have a property, when the property changes
for some of them. -/
namespace Counting

variable {P Q : Nat → Prop} [DecidablePred P] [DecidablePred Q]

theorem below_congr {n : Nat} (h : ∀ k < n, P k ↔ Q k) : Nat.count P n = Nat.count Q n :=
  (Nat.count_mono_left fun k hk => (h k hk).mp).antisymm
    (Nat.count_mono_left fun k hk => (h k hk).mpr)

/-- Only the numbers from `a` to `a + n` change. -/
theorem below_window {a n b : Nat} (h : ∀ k < a + n + b, k < a ∨ a + n ≤ k → (P k ↔ Q k)) :
    Nat.count P (a + n + b) + Nat.count (fun k => Q (a + k)) n =
      Nat.count Q (a + n + b) + Nat.count (fun k => P (a + k)) n := by
  have hLow : Nat.count P a = Nat.count Q a := below_congr fun k hk => h k (by omega) (Or.inl hk)
  have hHigh : Nat.count (fun k => P (a + n + k)) b = Nat.count (fun k => Q (a + n + k)) b :=
    below_congr fun k hk => h _ (by omega) (Or.inr (Nat.le_add_right _ _))
  rw [Nat.count_add, Nat.count_add, Nat.count_add Q, Nat.count_add Q, hLow, hHigh]
  omega

/-- The numbers of a list join those with the property. -/
theorem below_join {n : Nat} {new : List Nat} (hNodup : new.Nodup) (hIn : ∀ k ∈ new, k < n ∧ ¬ P k)
    (h : ∀ k < n, Q k ↔ P k ∨ k ∈ new) : Nat.count Q n = Nat.count P n + new.length := by
  have hSplit : (Finset.range n).filter Q = (Finset.range n).filter P ∪ new.toFinset := by
    ext k
    rw [Finset.mem_filter, Finset.mem_union, Finset.mem_filter, List.mem_toFinset, Finset.mem_range]
    constructor
    · rintro ⟨hk, hQ⟩
      exact ((h k hk).mp hQ).imp_left fun hP => ⟨hk, hP⟩
    · rintro (⟨hk, hP⟩ | hNew)
      · exact ⟨hk, (h k hk).mpr (Or.inl hP)⟩
      · exact ⟨(hIn k hNew).1, (h k (hIn k hNew).1).mpr (Or.inr hNew)⟩
  have hApart : Disjoint ((Finset.range n).filter P) new.toFinset := by
    refine Finset.disjoint_left.mpr fun k hk hNew => ?_
    exact (hIn k (List.mem_toFinset.mp hNew)).2 (Finset.mem_filter.mp hk).2
  rw [Nat.count_eq_card_filter_range, Nat.count_eq_card_filter_range, hSplit,
    Finset.card_union_of_disjoint hApart, List.toFinset_card_of_nodup hNodup]

end Counting

import Mathlib.Data.List.GetD

/-! Writing into an array that grows where it has to. Behind its end an array reads as zeros, and two
arrays of one length that read alike are the same. -/
namespace Splice

variable {α : Type*} (zero : α)

/-- `l` with `bytes` written at `o`; a gap is filled with zeros. Writing nothing changes nothing. -/
def splice (l : List α) (o : Nat) (bytes : List α) : List α :=
  if bytes = [] then l
  else (l ++ List.replicate (o - l.length) zero).take o ++ bytes ++ l.drop (o + bytes.length)

variable {l l' bytes : List α} {o i : Nat}

theorem ext_getD (hLength : l.length = l'.length) (h : ∀ i, l.getD i zero = l'.getD i zero) : l = l' := by
  apply List.ext_getElem hLength
  intro i hi hi'
  have hSame := h i
  rwa [List.getD_eq_getElem _ _ hi, List.getD_eq_getElem _ _ hi'] at hSame

variable {zero}

@[simp] theorem splice_nil : splice zero l o [] = l := if_pos rfl

theorem length_splice (h : bytes ≠ []) :
    (splice zero l o bytes).length = max l.length (o + bytes.length) := by
  rw [splice, if_neg h]
  simp only [List.length_append, List.length_take, List.length_replicate, List.length_drop]
  omega

/-- A write inside the array keeps its length. -/
theorem length_splice_of_le (h : o + bytes.length ≤ l.length) :
    (splice zero l o bytes).length = l.length := by
  by_cases hNil : bytes = []
  · rw [hNil, splice_nil]
  · rw [length_splice hNil, Nat.max_eq_left h]

theorem getD_splice (i : Nat) : (splice zero l o bytes).getD i zero =
    if o ≤ i ∧ i < o + bytes.length then bytes.getD (i - o) zero else l.getD i zero := by
  by_cases hNil : bytes = []
  · rw [hNil, splice_nil, if_neg (by simp)]
  · rw [splice, if_neg hNil]
    have hFront : ((l ++ List.replicate (o - l.length) zero).take o).length = o := by
      simp only [List.length_take, List.length_append, List.length_replicate]
      omega
    by_cases hBefore : i < o
    · rw [if_neg (by omega), List.append_assoc, List.getD_append _ _ _ _ (by omega)]
      simp only [List.getD_eq_getElem?_getD, List.getElem?_take_of_lt hBefore]
      by_cases hIn : i < l.length
      · rw [List.getElem?_append_left hIn]
      · rw [List.getElem?_append_right (by omega), List.getElem?_replicate,
          List.getElem?_eq_none (by omega : l.length ≤ i)]
        split <;> rfl
    · rw [List.append_assoc, List.getD_append_right _ _ _ _ (by omega), hFront]
      by_cases hIn : i < o + bytes.length
      · rw [if_pos (by omega), List.getD_append _ _ _ _ (by omega)]
      · rw [if_neg (by omega), List.getD_append_right _ _ _ _ (by omega)]
        simp only [List.getD_eq_getElem?_getD, List.getElem?_drop]
        congr 2
        omega

end Splice

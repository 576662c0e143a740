import ArtOS.Library.ByteMemory
import ArtOS.Library.Word
import Mathlib.Data.Set.Lattice
import Mathlib.Order.CompletePartialOrder

/-! A memory whose addresses are words: behind the last byte comes the first one. What lies in it is
described relative to a base, as a memory of its own. -/
namespace WordMemory

open ByteMemory

/-- The memory as it is seen from `base`. -/
def window (mem : Nat → BitVec 8) (base k : Nat) : BitVec 8 := mem (Word.add base k)

def write (mem : Nat → BitVec 8) (addr : Nat) (bytes : List (BitVec 8)) : Nat → BitVec 8 := fun x =>
  if Word.sub x addr < bytes.length then bytes.getD (Word.sub x addr) 0 else mem x

/-- The addresses of `len` bytes from `addr` on. -/
def span (addr len : Nat) : Set Nat := {x | ∃ i < len, x = Word.add addr i}

variable {mem : Nat → BitVec 8} {base addr len len' off off' k : Nat} {bytes xs : List (BitVec 8)}

theorem add_add : Word.add (Word.add base off) k = Word.add base (off + k) := by
  simp only [Word.add]
  omega

theorem add_inj (hOff : off < 2 ^ 32) (hk : k < 2 ^ 32) (h : Word.add base off = Word.add base k) :
    off = k := by
  simp only [Word.add] at h
  omega

theorem window_add : window mem (Word.add base off) k = window mem base (off + k) :=
  congrArg mem add_add

/-- A write at an offset changes the bytes from there on. -/
theorem window_write (hBytes : off + bytes.length ≤ 2 ^ 32) (hk : k < 2 ^ 32) :
    window (write mem (Word.add base off) bytes) base k =
      if off ≤ k ∧ k < off + bytes.length then bytes.getD (k - off) 0 else window mem base k := by
  by_cases hLength : bytes.length = 0
  · rw [if_neg (by omega)]
    exact if_neg (by omega)
  have hSub : Word.sub (Word.add base k) (Word.add base off) =
      if off ≤ k then k - off else k + 2 ^ 32 - off := by
    simp only [Word.add, Word.sub]
    split <;> omega
  rw [window, write, hSub]
  by_cases hInside : off ≤ k ∧ k < off + bytes.length
  · rw [if_pos hInside, if_pos hInside.1, if_pos (by omega)]
  · rw [if_neg hInside, if_neg]
    · rfl
    · split <;> omega

theorem window_write_of_outside (hBytes : off + bytes.length ≤ 2 ^ 32) (hk : k < 2 ^ 32)
    (h : k < off ∨ off + bytes.length ≤ k) :
    window (write mem (Word.add base off) bytes) base k = window mem base k := by
  rw [window_write hBytes hk, if_neg (by omega)]

/-- What has been written lies there. -/
theorem lies_write (hBytes : off + bytes.length ≤ 2 ^ 32) :
    Lies (window (write mem (Word.add base off) bytes) base) off bytes := by
  apply lies_getD
  intro i hi
  rw [window_write hBytes (by omega), if_pos (by omega), Nat.add_sub_cancel_left]

/-- Ranges that do not overlap, as seen from a base. -/
theorem span_disjoint (hEnd : off + len ≤ 2 ^ 32) (hEnd' : off' + len' ≤ 2 ^ 32)
    (h : off + len ≤ off' ∨ off' + len' ≤ off) :
    Disjoint (span (Word.add base off) len) (span (Word.add base off') len') := by
  rw [Set.disjoint_left]
  rintro x ⟨i, hi, rfl⟩ ⟨j, hj, hSame⟩
  rw [add_add, add_add] at hSame
  have hEq := add_inj (by omega) (by omega) hSame
  omega

/-- The words that lie one behind the other. -/
theorem load32_words {f : Nat → BitVec 8} {a : Nat} {words : List Nat}
    (h : Lies f a (words.flatMap bytes32)) {i : Nat} (hi : i < words.length)
    (hWord : words.get ⟨i, hi⟩ < 2 ^ 32) : load32 f (a + 4 * i) = words.get ⟨i, hi⟩ := by
  induction words generalizing a i with
  | nil => exact absurd hi (Nat.not_lt_zero i)
  | cons v words ih =>
      rw [List.flatMap_cons, lies_append] at h
      cases i with
      | zero => exact load32_lies hWord h.1
      | succ i =>
          have hRest := ih h.2 (Nat.lt_of_succ_lt_succ hi) hWord
          rw [show a + 4 * (i + 1) = a + (bytes32 v).length + 4 * i by
            simp only [bytes32, List.length_cons, List.length_nil]
            omega]
          exact hRest

end WordMemory

import ArtOS.Library.CopyOrder
import ArtOS.Library.Word
import Mathlib.Data.BitVec
import Mathlib.Data.List.Range

/-! `memmove`. It copies upwards, as `memcpy` does, or downwards, so that it reads every byte before it
writes there. -/
namespace ArtOS

open CopyOrder

/-- The loop of `memcpy`, and of `memmove` to a lower address. -/
def memcpyLoop (dst src : Nat) : Nat → (Nat → BitVec 8) → Nat → BitVec 8
  | 0, mem => mem
  | size + 1, mem =>
      let mem := memcpyLoop dst src size mem
      Function.update mem (Word.add dst size) (mem (Word.add src size))

/-- The loop of `memmove` that counts down. -/
def memmoveLoop (dst src : Nat) : Nat → (Nat → BitVec 8) → Nat → BitVec 8
  | 0, mem => mem
  | i + 1, mem => memmoveLoop dst src i (Function.update mem (Word.add dst i) (mem (Word.add src i)))

/-- `memmove` returns the destination. -/
def memmove (mem : Nat → BitVec 8) (dst src size : Nat) : (Nat → BitVec 8) × Nat :=
  if dst < src then (memcpyLoop dst src size mem, dst) else (memmoveLoop dst src size mem, dst)

/-- The destination holds what the source has held before, and nothing else has changed. -/
structure Moves (dst src size : Nat) (mem mem' : Nat → BitVec 8) : Prop where
  copied : ∀ i < size, mem' (dst + i) = mem (src + i)
  same : ∀ a, a < dst ∨ dst + size ≤ a → mem' a = mem a

variable {mem : Nat → BitVec 8} {dst src size : Nat}

theorem memcpyLoop_eq : memcpyLoop dst src size mem =
    copy (Word.add dst) (Word.add src) (List.range size) mem := by
  induction size with
  | zero => rfl
  | succ size ih => rw [memcpyLoop, ih, List.range_succ, copy_concat]

theorem memmoveLoop_eq : memmoveLoop dst src size mem =
    copy (Word.add dst) (Word.add src) (List.range size).reverse mem := by
  induction size generalizing mem with
  | zero => rfl
  | succ size ih => rw [memmoveLoop, ih, List.range_succ, List.reverse_concat, copy_cons]

section Ranges

variable (hDst : dst + size ≤ 2 ^ 32) (hSrc : src + size ≤ 2 ^ 32)
include hDst hSrc

/-- All of the bytes have been copied, in an order in which none is lost. -/
theorem moves_of_safe {order : List Nat} (hOrder : ∀ i, i ∈ order ↔ i < size)
    (hSafe : Safe (Word.add dst) (Word.add src) order) :
    Moves dst src size mem (copy (Word.add dst) (Word.add src) order mem) := by
  constructor
  · intro i hi
    rw [← Word.add_eq (by omega : dst + i < 2 ^ 32), ← Word.add_eq (by omega : src + i < 2 ^ 32)]
    exact hSafe.copy ((hOrder i).mpr hi)
  · intro a ha
    apply copy_of_ne
    intro i hi
    have hLess := (hOrder i).mp hi
    rw [Word.add_eq (by omega)]
    omega

/-- Upwards a destination below the source is safe. -/
theorem safe_up (h : dst < src) : Safe (Word.add dst) (Word.add src) (List.range size) := by
  refine List.pairwise_lt_range.imp_of_mem ?_
  intro i j hi hj hLess
  have hj' := List.mem_range.mp hj
  rw [Word.add_eq (by omega), Word.add_eq (by omega), Word.add_eq (by omega)]
  omega

/-- Downwards any other one is. -/
theorem safe_down (h : ¬ dst < src) : Safe (Word.add dst) (Word.add src) (List.range size).reverse := by
  refine List.pairwise_reverse.mpr (List.pairwise_lt_range.imp_of_mem ?_)
  intro i j hi hj hLess
  have hj' := List.mem_range.mp hj
  rw [Word.add_eq (by omega), Word.add_eq (by omega), Word.add_eq (by omega)]
  omega

/-- `memmove` copies ranges that overlap in any way. -/
theorem memmove_moves :
    Moves dst src size mem (memmove mem dst src size).1 ∧ (memmove mem dst src size).2 = dst := by
  rw [memmove]
  by_cases hBelow : dst < src
  · rw [if_pos hBelow]
    refine ⟨?_, rfl⟩
    rw [memcpyLoop_eq]
    exact moves_of_safe hDst hSrc (fun _ => List.mem_range) (safe_up hDst hSrc hBelow)
  · rw [if_neg hBelow]
    refine ⟨?_, rfl⟩
    rw [memmoveLoop_eq]
    have hOrder : ∀ i, i ∈ (List.range size).reverse ↔ i < size := fun _ =>
      List.mem_reverse.trans List.mem_range
    exact moves_of_safe hDst hSrc hOrder (safe_down hDst hSrc hBelow)

end Ranges

/-- The bytes from 0 on are moved up by two. -/
theorem memmove_moves_two : Moves 2 0 5 (BitVec.ofNat 8) (memmove (BitVec.ofNat 8) 2 0 5).1 ∧
    (memmove (BitVec.ofNat 8) 2 0 5).2 = 2 :=
  memmove_moves (by decide) (by decide)

end ArtOS

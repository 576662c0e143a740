import Mathlib.Data.BitVec
import ArtOS.Library.CString

/-! Memory byte by byte, with little-endian 32-bit words. -/
namespace ByteMemory

open CString

/-- Byte `i` of the word `v`. -/
def byte (v i : Nat) : BitVec 8 := BitVec.ofNat 8 (v >>> (8 * i))

def load32 (mem : Nat → BitVec 8) (a : Nat) : Nat :=
  (mem a).toNat + 2 ^ 8 * (mem (a + 1)).toNat + 2 ^ 16 * (mem (a + 2)).toNat +
    2 ^ 24 * (mem (a + 3)).toNat

def store32 (mem : Nat → BitVec 8) (a v : Nat) : Nat → BitVec 8 := fun x =>
  if a ≤ x ∧ x < a + 4 then byte v (x - a) else mem x

variable {mem mem' : Nat → BitVec 8} {a b v x : Nat}

theorem store32_of_outside (h : x < a ∨ a + 4 ≤ x) : store32 mem a v x = mem x :=
  if_neg (by omega)

theorem store32_byte {i : Nat} (h : i < 4) : store32 mem a v (a + i) = byte v i := by
  rw [store32, if_pos (by omega), Nat.add_sub_cancel_left]

theorem load32_congr (h : ∀ x, a ≤ x → x < a + 4 → mem' x = mem x) :
    load32 mem' a = load32 mem a := by
  simp only [load32, h a (by omega) (by omega), h (a + 1) (by omega) (by omega),
    h (a + 2) (by omega) (by omega), h (a + 3) (by omega) (by omega)]

theorem load32_store32 (h : v < 2 ^ 32) : load32 (store32 mem a v) a = v := by
  have h₀ : store32 mem a v a = byte v 0 := store32_byte (i := 0) (by omega)
  rw [load32, h₀, store32_byte (by omega), store32_byte (by omega), store32_byte (by omega)]
  simp only [byte, BitVec.toNat_ofNat, Nat.shiftRight_eq_div_pow]
  omega

/-- The four bytes of a word. -/
def bytes32 (v : Nat) : List (BitVec 8) := [byte v 0, byte v 1, byte v 2, byte v 3]

/-- These bytes lie in memory from `a` on. -/
def Lies (mem : Nat → BitVec 8) : Nat → List (BitVec 8) → Prop
  | _, [] => True
  | a, x :: bytes => mem a = x ∧ Lies mem (a + 1) bytes

variable {xs ys : List (BitVec 8)}

theorem lies_append : Lies mem a (xs ++ ys) ↔ Lies mem a xs ∧ Lies mem (a + xs.length) ys := by
  induction xs generalizing a with
  | nil => simp [Lies]
  | cons x xs ih =>
      rw [List.cons_append, Lies, Lies, ih, List.length_cons, and_assoc,
        show a + 1 + xs.length = a + (xs.length + 1) by omega]

/-- Only these bytes are read. -/
theorem lies_congr (h : ∀ k, a ≤ k → k < a + xs.length → mem' k = mem k) (hLies : Lies mem a xs) :
    Lies mem' a xs := by
  induction xs generalizing a with
  | nil => trivial
  | cons x xs ih =>
      rw [List.length_cons] at h
      refine ⟨(h a le_rfl (by omega)).trans hLies.1, ih ?_ hLies.2⟩
      intro k hFrom hTo
      exact h k (by omega) (by omega)

theorem lies_getD (h : ∀ i < xs.length, mem (a + i) = xs.getD i 0) : Lies mem a xs := by
  induction xs generalizing a with
  | nil => trivial
  | cons x xs ih =>
      rw [List.length_cons] at h
      refine ⟨h 0 (Nat.zero_lt_succ _), ih ?_⟩
      intro i hi
      rw [Nat.add_assoc, Nat.add_comm 1 i]
      exact h (i + 1) (Nat.succ_lt_succ hi)

theorem load32_lies (hv : v < 2 ^ 32) (h : Lies mem a (bytes32 v)) : load32 mem a = v := by
  obtain ⟨h₀, h₁, h₂, h₃, _⟩ := h
  rw [load32, h₀, h₁, h₂, h₃]
  simp only [byte, BitVec.toNat_ofNat, Nat.shiftRight_eq_div_pow]
  omega

/-- A string with a zero behind it. -/
theorem Lies.holds (hs : ∀ c ∈ xs, c ≠ 0) (h : Lies mem a (xs ++ 0 :: ys)) : Holds mem a xs := by
  induction xs generalizing a with
  | nil => exact h.1
  | cons x xs ih =>
      exact ⟨h.1, hs x List.mem_cons_self, ih (fun c hc => hs c (List.mem_cons_of_mem _ hc)) h.2⟩

end ByteMemory

import Mathlib.Algebra.Ring.Nat
import Mathlib.Tactic.Common

/-! Natural numbers as 32-bit unsigned machine words. -/
namespace Word

def add (a b : Nat) : Nat := (a + b) % 2 ^ 32

def sub (a b : Nat) : Nat := (a + (2 ^ 32 - b % 2 ^ 32)) % 2 ^ 32

def shl (a n : Nat) : Nat := (a <<< n) % 2 ^ 32

theorem add_lt {a b : Nat} : add a b < 2 ^ 32 := Nat.mod_lt _ (by decide)

theorem sub_lt {a b : Nat} : sub a b < 2 ^ 32 := Nat.mod_lt _ (by decide)

theorem add_eq {a b : Nat} (h : a + b < 2 ^ 32) : add a b = a + b := Nat.mod_eq_of_lt h

theorem sub_eq {a b : Nat} (h : b ≤ a) (ha : a < 2 ^ 32) : sub a b = a - b := by
  unfold sub
  omega

/-- Shifting left and back loses nothing that fits. -/
theorem shl_shr {a n : Nat} (h : a * 2 ^ n < 2 ^ 32) : shl a n >>> n = a := by
  rw [shl, Nat.shiftLeft_eq, Nat.mod_eq_of_lt h, Nat.shiftRight_eq_div_pow,
    Nat.mul_div_cancel _ (Nat.two_pow_pos n)]

end Word

import Mathlib.Data.BitVec
import Mathlib.Data.Fintype.Card

/-! Tickets drawn from a counter of machine words that wraps around. Two places
in line get different tickets as long as the line is shorter than the counter's
period. -/
namespace Tickets

variable {w m n k : Nat}

/-- The ticket of place `n`; the counters start at 0 and 1. -/
def ticket (w n : Nat) : BitVec w := BitVec.ofNat w (n + 1)

theorem ticket_succ : ticket w n + 1 = ticket w (n + 1) := by
  rw [ticket, ticket, BitVec.ofNat_add (n + 1) 1]
  rfl

theorem ticket_eq_iff (hk : k < 2 ^ w) : ticket w n = ticket w (n + k) ↔ k = 0 := by
  constructor
  · intro h
    have hMod : (n + 1) % 2 ^ w = (n + k + 1) % 2 ^ w := by
      simpa [ticket] using congrArg BitVec.toNat h
    have hZero : 0 ≡ k [MOD 2 ^ w] := by
      refine Nat.ModEq.add_left_cancel' (n + 1) ?_
      show (n + 1 + 0) % 2 ^ w = (n + 1 + k) % 2 ^ w
      rw [Nat.add_zero, hMod, Nat.add_right_comm]
    rw [Nat.ModEq, Nat.zero_mod, Nat.mod_eq_of_lt hk] at hZero
    exact hZero.symm
  · rintro rfl
    rfl

end Tickets

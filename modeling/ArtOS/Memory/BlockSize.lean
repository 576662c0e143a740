import ArtOS.Memory.HeapRun
import Mathlib.Order.Bounds.Basic

/-! The size of the block that answers a request. The doubling loop of `pnode_exp` ends for sums up to
`2 ^ 31`, and the sum of the request and its prefix wraps at `2 ^ 32`. -/
namespace ArtOS

section Exponent

variable {sz e : Nat}

/-- The exponent of the smallest block that has `sz` bytes behind its prefix. -/
def SmallestFor (sz e : Nat) : Prop := IsLeast {e | pnodeMin ≤ e ∧ sz + sizeofPnode ≤ 2 ^ e} e

theorem pnodeExp_least (hExp : pnodeExp sz = some e) : IsLeast {e | pnodeMin ≤ e ∧ sz ≤ 2 ^ e} e := by
  obtain ⟨hMin, hMax, hSize⟩ := pnodeExp_spec hExp
  refine ⟨⟨hMin, hSize⟩, ?_⟩
  rintro k ⟨hk, hEnough⟩
  by_cases hTop : k < pnodeMax
  · obtain ⟨e', he', hExp'⟩ := pnodeExp_total hTop hEnough
    obtain rfl := Option.some.inj (hExp.symm.trans hExp')
    rwa [Nat.max_eq_left hk] at he'
  · omega

/-- The loop ends exactly for the sizes that some list serves. -/
theorem pnodeExp_isSome_iff : (pnodeExp sz).isSome ↔ sz ≤ 2 ^ 31 := by
  constructor
  · intro h
    obtain ⟨e, hExp⟩ := Option.isSome_iff_exists.mp h
    obtain ⟨_, hMax, hSize⟩ := pnodeExp_spec hExp
    have hTop : e ≤ 31 := Nat.le_of_lt_succ hMax
    exact hSize.trans (Nat.pow_le_pow_right (by decide) hTop)
  · intro h
    obtain ⟨e, _, hExp⟩ := pnodeExp_total (k := 31) (by decide) h
    exact Option.isSome_iff_exists.mpr ⟨e, hExp⟩

theorem pnodeExp_wrapped (h : sz ≤ 3) : pnodeExp sz = some 3 := by
  obtain rfl | rfl | rfl | rfl : sz = 0 ∨ sz = 1 ∨ sz = 2 ∨ sz = 3 := by omega
  all_goals decide

end Exponent

namespace HeapRun

variable {s : HeapRun} {palloc : Allocator Ledger} {sz p e : Nat} {pins : List (Nat × Nat)}

/-- What a request of `sz` bytes may rely on, whatever the free lists hold and `palloc` answers: the
size computation has a result, and a block that is returned is apart from all others, has `sz` bytes
behind its prefix and is no larger than that takes. -/
structure Served (sz : Nat) : Prop where
  computed : sz ≠ 0 → (pnodeExp (Word.add sz sizeofPnode)).isSome
  answer : ∀ (nested : HeapRun → HeapRun → Prop) (pins : List (Nat × Nat)) (palloc : Allocator Ledger)
    (s t : HeapRun) (addr : Nat), s.Pinned pins → (∀ u, nested s u → u.Pinned pins) →
    Lawful nested palloc → kmallocWith palloc sz s = some (t, some addr) →
    ∃ p e, addr = p + sizeofPnode ∧ SmallestFor sz e ∧ t.Pinned ((p, e) :: pins)

theorem Pinned.exponent_lt (h : s.Pinned ((p, e) :: pins)) : e < pnodeMax := by
  obtain ⟨_, hs⟩ := h
  exact (hs.size (p, e) List.mem_cons_self).2

theorem unused_answers : ∃ t addr, kmallocWith (offer 0x100000) 1 unused = some (t, some addr) := by
  have hView : (kmallocWith (offer 0x100000) 1 unused).map (fun a => a.2) = some (some 0x100004) := by
    decide
  obtain ⟨⟨t, r⟩, hCall, hAddr⟩ := Option.map_eq_some_iff.mp hView
  exact ⟨t, 0x100004, hCall.trans (congrArg (fun r => some (t, r)) hAddr)⟩

/-- A sum that wraps asks for a block of the smallest size. -/
theorem kmallocWith_wrapped (hSize : sz < 2 ^ 32) (hWrap : 2 ^ 32 ≤ sz + sizeofPnode) :
    kmallocWith palloc sz s = kmallocWith palloc 1 s := by
  have hWord : sizeofPnode = 4 := rfl
  have hSum : Word.add sz sizeofPnode ≤ 3 := by
    rw [Word.add]
    omega
  rw [kmallocWith_eq (by omega) (pnodeExp_wrapped hSum),
    kmallocWith_eq one_ne_zero (by decide : pnodeExp (Word.add 1 sizeofPnode) = some 3)]

end HeapRun
end ArtOS

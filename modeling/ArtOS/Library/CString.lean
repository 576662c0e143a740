import Mathlib.Data.BitVec
import Mathlib.Data.List.GetD

/-! Strings that end with a zero byte, in a memory of bytes. -/
namespace CString

variable {mem mem' : Nat → BitVec 8} {p : Nat} {c : BitVec 8} {s t : List (BitVec 8)}

/-- The string at `p` is `s`. -/
def Holds (mem : Nat → BitVec 8) : Nat → List (BitVec 8) → Prop
  | p, [] => mem p = 0
  | p, c :: s => mem p = c ∧ c ≠ 0 ∧ Holds mem (p + 1) s

@[simp] theorem holds_nil : Holds mem p [] ↔ mem p = 0 := Iff.rfl

@[simp] theorem holds_cons : Holds mem p (c :: s) ↔ mem p = c ∧ c ≠ 0 ∧ Holds mem (p + 1) s := Iff.rfl

/-- The memory determines the string. -/
theorem Holds.unique (hs : Holds mem p s) (ht : Holds mem p t) : s = t := by
  induction s generalizing p t with
  | nil =>
      cases t with
      | nil => rfl
      | cons d t => exact absurd (ht.1.symm.trans hs) ht.2.1
  | cons c s ih =>
      cases t with
      | nil => exact absurd (hs.1.symm.trans ht) hs.2.1
      | cons d t =>
          rw [hs.1.symm.trans ht.1, ih hs.2.2 ht.2.2]

theorem Holds.eq_nil_iff (h : Holds mem p s) : s = [] ↔ mem p = 0 := by
  cases s with
  | nil => exact iff_of_true rfl h
  | cons c s => exact iff_of_false (List.cons_ne_nil c s) fun hZero => h.2.1 (h.1.symm.trans hZero)

/-- Only the bytes of the string are read. -/
theorem Holds.congr (h : Holds mem p s) (hSame : ∀ i ≤ s.length, mem' (p + i) = mem (p + i)) :
    Holds mem' p s := by
  induction s generalizing p with
  | nil => exact (hSame 0 (Nat.le_refl 0)).trans h
  | cons c s ih =>
      refine ⟨(hSame 0 (Nat.zero_le _)).trans h.1, h.2.1, ih h.2.2 ?_⟩
      intro i hi
      rw [Nat.add_assoc, Nat.add_comm 1 i]
      exact hSame (i + 1) (Nat.succ_le_succ hi)

/-- Nonzero bytes and then a zero. -/
theorem holds_iff : Holds mem p s ↔
    (∀ i c, s[i]? = some c → mem (p + i) = c ∧ c ≠ 0) ∧ mem (p + s.length) = 0 := by
  induction s generalizing p with
  | nil => simp
  | cons d s ih =>
      rw [holds_cons, ih, List.length_cons]
      have hShift : ∀ i, p + 1 + i = p + (i + 1) := fun i => by omega
      constructor
      · rintro ⟨hd, hNonzero, hs, hEnd⟩
        rw [hShift] at hEnd
        refine ⟨?_, hEnd⟩
        intro i c hi
        cases i with
        | zero => exact Option.some.inj hi ▸ ⟨hd, hNonzero⟩
        | succ i =>
            rw [← hShift]
            exact hs i c hi
      · rintro ⟨hs, hEnd⟩
        obtain ⟨hd, hNonzero⟩ := hs 0 d rfl
        have hLast : mem (p + 1 + s.length) = 0 := by
          rw [hShift]
          exact hEnd
        refine ⟨hd, hNonzero, ?_, hLast⟩
        intro i c hi
        rw [hShift]
        exact hs (i + 1) c hi

/-- A string in a memory of its own. -/
theorem holds_getD (hs : ∀ c ∈ s, c ≠ 0) : Holds (fun i => s.getD i 0) 0 s := by
  refine holds_iff.mpr ⟨?_, ?_⟩
  · intro i c hc
    rw [Nat.zero_add, List.getD_eq_getElem?_getD, hc]
    exact ⟨rfl, hs c (List.mem_of_getElem? hc)⟩
  · rw [Nat.zero_add]
    exact List.getD_eq_default _ _ le_rfl

end CString

import ArtOS.Tasks.Syscall

/-! The break of the heap over a run of `sys_sbrk`. The sum of the old end and the increment is a word
that may have wrapped around either way; it is compared with the start of the heap only. -/
namespace ArtOS.SyscallState

variable {Input : Type} {s s' : SyscallState Input} {start endAddr incr : BitVec 32}

/-- What a call of `sys_sbrk` should do to a heap that ends at `endAddr`. -/
structure Moves (start endAddr incr ret newEnd : BitVec 32) : Prop where
  lower : start ≤ newEnd
  upper : newEnd.toNat ≤ vmaUserMax
  returned : ret = endAddr
  shrinks : incr.toInt ≤ 0 → newEnd ≤ endAddr
  grows : 0 < incr.toInt → endAddr ≤ newEnd
  moved : start.toNat ≤ endAddr.toNat + incr.toInt → endAddr.toNat + incr.toInt ≤ vmaUserMax →
    newEnd.toNat = endAddr.toNat + incr.toInt

/-- The call finds the heap and moves its end. -/
def MovesHeap (s : SyscallState Input) (incr : BitVec 32) : Prop :=
  ∃ start endAddr newEnd, s.heap = some (start, endAddr) ∧
    (s.sysSbrk incr).1.heap = some (start, newEnd) ∧
      Moves start endAddr incr (s.sysSbrk incr).2 newEnd

/-- Every call of the run does. -/
def MovesAlong : SyscallState Input → List (BitVec 32) → Prop
  | _, [] => True
  | s, incr :: rest => MovesHeap s incr ∧ MovesAlong (s.sysSbrk incr).1 rest

/-- The sum lies between zero and `VMA_USER_MAX`, or it wraps around while the heap is empty. -/
def Steady (start endAddr incr : BitVec 32) : Prop :=
  0 ≤ endAddr.toNat + incr.toInt ∧
    (endAddr.toNat + incr.toInt ≤ vmaUserMax ∨
      endAddr = start ∧ 2 ^ 32 ≤ endAddr.toNat + incr.toInt)

instance : Decidable (Steady start endAddr incr) := inferInstanceAs (Decidable (_ ∧ _))

def SteadyAlong : SyscallState Input → List (BitVec 32) → Prop
  | _, [] => True
  | s, incr :: rest =>
      (∀ start endAddr, s.heap = some (start, endAddr) → Steady start endAddr incr) ∧
        SteadyAlong (s.sysSbrk incr).1 rest

/-- A heap between `KERNEL_SPACE` and `VMA_USER_MAX`. -/
structure HeapBetween (start endAddr : BitVec 32) : Prop where
  kernel : kernelSpace ≤ start.toNat
  proper : start ≤ endAddr
  upper : endAddr.toNat ≤ vmaUserMax

/-- The end that `sys_sbrk` leaves. -/
def breakAt (start endAddr incr : BitVec 32) : BitVec 32 :=
  if endAddr + incr < start then start else endAddr + incr

theorem sysSbrk_eq (h : s.heap = some (start, endAddr)) : s.sysSbrk incr =
    ({ s with heap := some (start, breakAt start endAddr incr) }, endAddr) := by
  rw [sysSbrk, h]
  rfl

/-- The sum wraps around at most once, and then it is clamped. -/
theorem toNat_breakAt (start : BitVec 32) {sum : Int} (hSum : sum = endAddr.toNat + incr.toInt) :
    (0 ≤ sum ∧ sum < 2 ^ 32 ∧ ((breakAt start endAddr incr).toNat : Int) = max (start.toNat : Int) sum) ∨
      (sum < 0 ∧ ((breakAt start endAddr incr).toNat : Int) = max (start.toNat : Int) (sum + 2 ^ 32)) ∨
      (2 ^ 32 ≤ sum ∧
        ((breakAt start endAddr incr).toNat : Int) = max (start.toNat : Int) (sum - 2 ^ 32)) := by
  have hEnd := endAddr.isLt
  have hIncr := incr.isLt
  have hInt : incr.toInt = incr.toNat ∧ incr.toNat < 2 ^ 31 ∨
      incr.toInt = incr.toNat - 2 ^ 32 ∧ 2 ^ 31 ≤ incr.toNat := by
    rw [BitVec.toInt_eq_toNat_cond]
    split <;> omega
  have hBreak : (breakAt start endAddr incr).toNat =
      max start.toNat ((endAddr.toNat + incr.toNat) % 2 ^ 32) := by
    rw [breakAt, ← BitVec.toNat_add]
    split
    next hLess => exact (Nat.max_eq_left (Nat.le_of_lt hLess)).symm
    next hMore => exact (Nat.max_eq_right (Nat.le_of_not_lt hMore)).symm
  omega

/-- One call moves the end as it should exactly when the sum does not wrap around and stays below the
limit. -/
theorem moves_iff (h : HeapBetween start endAddr) :
    Moves start endAddr incr endAddr (breakAt start endAddr incr) ↔ Steady start endAddr incr := by
  obtain ⟨sum, hSum⟩ : ∃ sum : Int, sum = endAddr.toNat + incr.toInt := ⟨_, rfl⟩
  have hBreak := toNat_breakAt start hSum
  have hKernel : 0x40000000 ≤ start.toNat := h.kernel
  have hProper : start.toNat ≤ endAddr.toNat := h.proper
  have hUpper : endAddr.toNat ≤ 0xFF400000 := h.upper
  have hLimit : vmaUserMax = 0xFF400000 := rfl
  have hLeast := incr.le_toInt
  have hMost := incr.toInt_lt
  have hSame : endAddr = start ↔ endAddr.toNat = start.toNat := BitVec.toNat_inj.symm
  rw [Steady, ← hSum, hSame]
  constructor
  · intro hMoves
    have hMax : (breakAt start endAddr incr).toNat ≤ 0xFF400000 := hMoves.upper
    have hShrinks : incr.toInt ≤ 0 → (breakAt start endAddr incr).toNat ≤ endAddr.toNat := hMoves.shrinks
    have hGrows : 0 < incr.toInt → endAddr.toNat ≤ (breakAt start endAddr incr).toNat := hMoves.grows
    omega
  · rintro ⟨hZero, hTop⟩
    have hMoved : (start.toNat : Int) ≤ sum → sum ≤ 0xFF400000 →
        ((breakAt start endAddr incr).toNat : Int) = sum := by omega
    refine ⟨?_, ?_, rfl, fun hNeg => ?_, fun hPos => ?_, hSum ▸ hMoved⟩
    · show start.toNat ≤ (breakAt start endAddr incr).toNat
      omega
    · show (breakAt start endAddr incr).toNat ≤ 0xFF400000
      omega
    · show (breakAt start endAddr incr).toNat ≤ endAddr.toNat
      omega
    · show endAddr.toNat ≤ (breakAt start endAddr incr).toNat
      omega

theorem movesHeap_iff (h : s.heap = some (start, endAddr)) : MovesHeap s incr ↔
    Moves start endAddr incr endAddr (breakAt start endAddr incr) := by
  constructor
  · rintro ⟨start', endAddr', newEnd, hHeap, hNew, hMoves⟩
    obtain ⟨rfl, rfl⟩ : start = start' ∧ endAddr = endAddr' := by
      rw [h, Option.some.injEq, Prod.mk.injEq] at hHeap
      exact hHeap
    rw [sysSbrk_eq h] at hNew hMoves
    obtain rfl : breakAt start endAddr incr = newEnd := by
      dsimp only at hNew
      rw [Option.some.injEq, Prod.mk.injEq] at hNew
      exact hNew.2
    exact hMoves
  · intro hMoves
    refine ⟨start, endAddr, breakAt start endAddr incr, h, ?_, ?_⟩
    · rw [sysSbrk_eq h]
    · rw [sysSbrk_eq h]
      exact hMoves

/-- The break is moved as it should all along a run exactly when no sum wraps around or goes beyond
`VMA_USER_MAX`. -/
theorem movesAlong_iff (h : s.heap = some (start, endAddr)) (hBetween : HeapBetween start endAddr)
    (incrs : List (BitVec 32)) : MovesAlong s incrs ↔ SteadyAlong s incrs := by
  induction incrs generalizing s endAddr with
  | nil => exact Iff.rfl
  | cons incr rest ih =>
      have hStep : MovesHeap s incr ↔
          ∀ start endAddr, s.heap = some (start, endAddr) → Steady start endAddr incr := by
        rw [movesHeap_iff h, moves_iff hBetween]
        constructor
        · intro hSteady start' endAddr' hHeap
          rw [h, Option.some.injEq, Prod.mk.injEq] at hHeap
          rw [← hHeap.1, ← hHeap.2]
          exact hSteady
        · intro hAll
          exact hAll start endAddr h
      rw [MovesAlong, SteadyAlong, ← hStep]
      refine and_congr_right fun hMoves => ?_
      have hAfter := (movesHeap_iff h).mp hMoves
      exact ih (congrArg (fun x => x.1.heap) (sysSbrk_eq h)) ⟨hBetween.kernel, hAfter.lower, hAfter.upper⟩

/-- The heap that `load_task` leaves. -/
theorem sbrk_moves_iff (h : s.heap = some (start, start)) (hKernel : kernelSpace ≤ start.toNat)
    (hUpper : start.toNat ≤ vmaUserMax) (incrs : List (BitVec 32)) :
    MovesAlong s incrs ↔ SteadyAlong s incrs :=
  movesAlong_iff h ⟨hKernel, BitVec.le_refl start, hUpper⟩ incrs

/-- An empty heap at 0x50000000. -/
def emptyHeap : SyscallState Unit := { quiet with heap := some (0x50000000, 0x50000000) }

/-- Growing by a page and shrinking by two. -/
theorem sbrk_moves_page : MovesAlong emptyHeap [0x1000, -0x2000] := by
  have hHeap : emptyHeap.heap = some (0x50000000, 0x50000000) := rfl
  refine (sbrk_moves_iff hHeap (by decide) (by decide) _).mpr ⟨?_, ?_, trivial⟩
  · intro start endAddr hHeap
    obtain ⟨rfl, rfl⟩ : (0x50000000, 0x50000000) = (start, endAddr) := Option.some.inj hHeap
    decide
  · intro start endAddr hHeap
    obtain ⟨rfl, rfl⟩ : (0x50000000, 0x50001000) = (start, endAddr) := Option.some.inj hHeap
    decide

/-- Giving back 0x60000000 bytes that the heap does not have moves its end up to 0xF0000000. -/
theorem sbrk_wraps : ¬ ∀ (s : SyscallState Unit) (start : BitVec 32), s.heap = some (start, start) →
    kernelSpace ≤ start.toNat → start.toNat ≤ vmaUserMax →
      ∀ incrs, MovesAlong s incrs := by
  intro h
  obtain ⟨⟨start, endAddr, newEnd, hHeap, hNew, hMoves⟩, _⟩ :=
    h emptyHeap 0x50000000 rfl (by decide) (by decide) [-0x60000000]
  obtain ⟨rfl, rfl⟩ : (0x50000000, 0x50000000) = (start, endAddr) := Option.some.inj hHeap
  obtain ⟨_, rfl⟩ : True ∧ 0xF0000000 = newEnd := ⟨trivial, congrArg Prod.snd (Option.some.inj hNew)⟩
  exact absurd (hMoves.shrinks (by decide)) (by decide)

end ArtOS.SyscallState

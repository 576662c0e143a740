import ArtOS.Tasks.Fpu
import ArtOS.Tasks.Untouched

/-! Which operations of the kernel touch the FPU data, and from that: in runs
of clean steps every task finds its own values in the registers. -/
namespace ArtOS

namespace Kernel

variable {k k' k₁ : Kernel} {a : RunQueue} {t u orig : TaskPtr} {p : Nat}

/-- The FPU data of a task. -/
def fpuData (x : Task) : BitVec 8 × FpuState := (x.flags, x.fpu)

theorem fpuData_unscheduled : Unscheduled fpuData :=
  ⟨⟨fun _ _ => rfl, fun _ _ _ => rfl, fun _ _ _ => rfl⟩, fun _ _ _ _ => rfl⟩

theorem Same.flags (h : Same fpuData k k') (t : TaskPtr) : (k'.task t).flags = (k.task t).flags :=
  congrArg Prod.fst (h.task t)

theorem Same.fpu (h : Same fpuData k k') (t : TaskPtr) : (k'.task t).fpu = (k.task t).fpu :=
  congrArg Prod.snd (h.task t)

theorem createTask_fpuData {ep arg prio : Nat} {pages : PageOutcome}
    (h : (k.createTask ep arg prio pages).map Prod.fst = some k') : Same fpuData k k' := by
  cases fpuData_unscheduled.createTask h with
  | inl hSame =>
      subst hSame
      exact Same.refl
  | inr hNew =>
      obtain ⟨i, _, hFilled⟩ := hNew
      exact Same.trans (Same.setTask Same.refl rfl) hFilled

theorem takeFirst_status (h : k.takeFirst p = some k') (hu : u ≠ k'.currentTask) :
    k'.task.status u = k.task.status u := by
  obtain ⟨t, _, hTaken⟩ := Option.map_eq_some_iff.mp h
  dsimp only at hTaken
  split at hTaken
  · subst hTaken
    have hne : u ≠ t := hu
    simp [hne]
  · subst hTaken
    have hne : u ≠ t := hu
    simp [hne]

/-- A running task that is switched away is ready. -/
theorem pickTask_status (h : k.pickTask = some k') (hSwitch : k'.currentTask ≠ k.currentTask) :
    k'.task.status k.currentTask = .ready ↔
      k.currentStatus = .running ∨ k.currentStatus = .ready := by
  rw [pickTask] at h
  split at h
  · split at h
    · cases h
      exact absurd rfl hSwitch
    · rename_i hIdle
      cases h
      exact ⟨Or.inr, fun hs => hs.resolve_left fun hr => hIdle (Or.inl hr)⟩
  · split at h
    · cases h
      exact absurd rfl hSwitch
    · have hPreempt : k.preemptCurrent.task.status k.currentTask =
          if k.currentStatus = .running then .ready else k.currentStatus := by
        rw [preemptCurrent]
        split
        · simp
        · rfl
      rw [takeFirst_status h hSwitch.symm, hPreempt]
      split
      · rename_i hRunning
        exact iff_of_true rfl (Or.inl hRunning)
      · rename_i hOther
        exact ⟨Or.inr, fun hs => hs.resolve_left hOther⟩

theorem retireCurrent_status : k.retireCurrent.task.status k.currentTask =
    if k.currentStatus = .finished then .invalid else k.currentStatus := by
  rw [retireCurrent]
  split
  · simp
  · rfl

/-- A switch away from a task saves the registers when the task is marked as using them and
gives way as a ready one; everything else leaves the FPU data alone. -/
theorem reschedule_fpu (h : k.reschedule = some k') :
    (k'.currentTask = k.currentTask ∧ Same fpuData k k') ∨
      (k'.currentTask ≠ k.currentTask ∧ ∃ k₁, Same fpuData k k₁ ∧
        (k₁.task.status k.currentTask = .ready ↔
          k.currentStatus = .running ∨ k.currentStatus = .ready) ∧
        Same fpuData (k₁.saveFpu k.currentTask) k') := by
  rw [reschedule_eq] at h
  obtain ⟨k₁, hPick, hFinish⟩ := Option.bind_eq_some_iff.mp h
  have hSame := fpuData_unscheduled.retireCurrent.trans (fpuData_unscheduled.pickTask hPick)
  split at hFinish
  · rename_i hStay
    cases hFinish
    exact Or.inl ⟨hStay, hSame⟩
  · rename_i hSwitch
    have hCurrent := (finishTaskSwitch_current hFinish).trans saveFpu_current
    have hStatus := pickTask_status hPick (retireCurrent_current.symm ▸ hSwitch)
    rw [currentStatus, retireCurrent_current, retireCurrent_status] at hStatus
    refine Or.inr ⟨hCurrent ▸ hSwitch, k₁, hSame, hStatus.trans ?_, fpuData_unscheduled.finishTaskSwitch hFinish⟩
    split
    · rename_i hFinished
      rw [hFinished]
      decide
    · rfl

/-- With no task waiting the idle task stays. -/
theorem reschedule_idle (h : k.reschedule = some k') (hIdle : k.currentStatus = .idle)
    (hBitmap : k.prioBitmap = 0) : k'.currentTask = k.currentTask := by
  have hRetire : k.retireCurrent = k.setOldTask none := by
    rw [retireCurrent, if_neg]
    rw [show k.task.status k.currentTask = .idle from hIdle]
    decide
  have hMsb : maxPrio < msb k.prioBitmap := by
    rw [hBitmap]
    decide
  have hPick : k.retireCurrent.pickTask = some (k.setOldTask none) := by
    rw [hRetire, pickTask]
    exact (if_pos hMsb).trans (if_pos (Or.inr hIdle))
  have hStay : (k.setOldTask none).currentTask = k.currentTask := rfl
  rw [reschedule_eq, hPick, Option.bind_some, if_pos hStay] at h
  cases h
  rfl

end Kernel

namespace FpuRun

open Kernel

variable {unit : FpuUnit} {r : FpuRun} {k k₁ k' : Kernel} {a a' : RunQueue} {t u : TaskPtr}

/-- The registers that a task gets back from its saved image. -/
def image (unit : FpuUnit) (k : Kernel) (t : TaskPtr) : FpuState :=
  unit.restoreFpuState (if k.FpuInit t then (k.task t).fpu else unit.fpuInit)

/-- What holds between two steps. The image of a task is up to date, unless the registers
themselves hold its values; then the task is marked. -/
structure Inv (unit : FpuUnit) (r : FpuRun) (a : RunQueue) : Prop where
  sound : r.kernel.Sound a
  lawful : ∀ regs, unit.restoreFpuState (r.kernel.saveFpuState regs).1 = regs
  registers : r.ts = false → r.kernel.fpuRegs = r.expected unit r.kernel.currentTask
  marked : r.ts = false → r.kernel.currentTask ≠ 0 → r.kernel.FpuUsed r.kernel.currentTask
  stored : ∀ t, a.status t ≠ .invalid → t ≠ r.kernel.currentTask ∨ r.ts = true ∨ r.left t = none →
    image unit r.kernel t = r.expected unit t
  inited : ∀ t, a.status t ≠ .invalid → r.kernel.FpuInit t → r.left t ≠ none
  usedInit : ∀ t, r.kernel.FpuUsed t → r.kernel.FpuInit t
  used : ∀ t, a.status t ≠ .invalid → r.kernel.FpuUsed t →
    t = r.kernel.currentTask ∧ r.ts = false

theorem same_init (h : Same fpuData k k') : k'.FpuInit t ↔ k.FpuInit t := by
  rw [FpuInit, FpuInit, h.flags]

theorem same_used (h : Same fpuData k k') : k'.FpuUsed t ↔ k.FpuUsed t := by
  rw [FpuUsed, FpuUsed, h.flags]

theorem same_image (h : Same fpuData k k') : image unit k' t = image unit k t := by
  rw [image, image, h.fpu]
  simp only [same_init h]

theorem left_of_live (h : r.kernel.Sound a) (hLive : a.status t ≠ .invalid) :
    (r.after k').left t = r.left t := by
  rw [← h.represents.status] at hLive
  exact if_neg hLive

theorem expected_of_live (h : r.kernel.Sound a) (hLive : a.status t ≠ .invalid) :
    (r.after k').expected unit t = r.expected unit t := by
  rw [expected, expected, left_of_live h hLive]

theorem Inv.current (h : r.Inv unit a) : a.status r.kernel.currentTask ≠ .invalid := by
  rw [h.sound.represents.current]
  exact h.sound.inv.current

/-- A call after which the same task runs. -/
theorem Inv.stay (h : r.Inv unit a) (hSound : k'.Sound a') (hSame : Same fpuData r.kernel k')
    (hCurrent : k'.currentTask = r.kernel.currentTask)
    (hLive : ∀ t, a'.status t ≠ .invalid → a.status t ≠ .invalid ∨
      (a.status t = .invalid ∧ ¬ r.kernel.FpuInit t)) : (r.after k').Inv unit a' := by
  have hTs : (r.after k').ts = r.ts := by simp [after, hCurrent]
  have hFresh : ∀ t, a.status t = .invalid → (r.after k').left t = none := fun t ht => by
    rw [← h.sound.represents.status] at ht
    exact if_pos ht
  refine ⟨hSound, fun regs => ?_, fun hReg => ?_, fun hReg hne => ?_, fun t ht hStored => ?_,
    fun t ht hInit => ?_, fun t hUsed => ?_, fun t ht hUsed => ?_⟩
  · show unit.restoreFpuState (k'.saveFpuState regs).1 = regs
    rw [hSame.save]
    exact h.lawful regs
  · show k'.fpuRegs = _
    rw [hSame.regs, h.registers (hTs ▸ hReg)]
    show _ = (r.after k').expected unit k'.currentTask
    rw [hCurrent, expected_of_live h.sound h.current]
  · apply (same_used hSame).mpr
    show r.kernel.FpuUsed k'.currentTask
    rw [hCurrent]
    exact h.marked (hTs ▸ hReg) (hCurrent ▸ hne)
  · show image unit k' t = _
    rw [same_image hSame]
    cases hLive t ht with
    | inl hOld =>
        rw [expected_of_live h.sound hOld]
        rw [hTs, left_of_live h.sound hOld] at hStored
        exact h.stored t hOld (hCurrent ▸ hStored)
    | inr hNew =>
        rw [image, if_neg hNew.2, expected, hFresh t hNew.1]
        rfl
  · have hInit' := (same_init hSame).mp hInit
    cases hLive t ht with
    | inl hOld =>
        rw [left_of_live h.sound hOld]
        exact h.inited t hOld hInit'
    | inr hNew => exact absurd hInit' hNew.2
  · exact (same_init hSame).mpr (h.usedInit t ((same_used hSame).mp hUsed))
  · have hUsed' := (same_used hSame).mp hUsed
    cases hLive t ht with
    | inl hOld =>
        rw [hTs]
        show t = k'.currentTask ∧ _
        rw [hCurrent]
        exact h.used t hOld hUsed'
    | inr hNew => exact absurd (h.usedInit t hUsed') hNew.2

theorem saveFpu_flags (hne : t ≠ u) : (k.saveFpu u).task t = k.task t := by
  rw [saveFpu]
  split
  · simp [hne]
  · rfl

/-- What the save does to the task that gives way. -/
theorem saveFpu_marked (hUsed : k.FpuUsed t) (hReady : k.task.status t = .ready) :
    ((k.saveFpu t).task t).flags = (k.task t).flags &&& ~~~taskFpuUsed ∧
      ((k.saveFpu t).task t).fpu = (k.saveFpuState k.fpuRegs).1 := by
  have hSave : (k.task t).flags &&& taskFpuUsed ≠ 0 ∧ k.task.status t = .ready := ⟨hUsed, hReady⟩
  rw [saveFpu, if_pos hSave]
  simp

theorem saveFpu_unmarked (hUsed : ¬ k.FpuUsed t) : k.saveFpu t = k :=
  if_neg fun h => hUsed h.1

theorem saveFpu_save : (k.saveFpu t).saveFpuState = k.saveFpuState := by
  rw [saveFpu]
  split <;> rfl

theorem saveFpu_init : (k.saveFpu u).FpuInit t ↔ k.FpuInit t := by
  by_cases hne : t = u
  · subst hne
    rw [saveFpu]
    split
    · simp [FpuInit, BitVec.and_assoc]
    · rfl
  · rw [FpuInit, FpuInit, saveFpu_flags hne]

theorem saveFpu_used : (k.saveFpu u).FpuUsed t → k.FpuUsed t := by
  by_cases hne : t = u
  · subst hne
    rw [saveFpu]
    split
    · simp [FpuUsed, BitVec.and_assoc]
    · exact id
  · rw [FpuUsed, FpuUsed, saveFpu_flags hne]
    exact id

/-- A call after which another task runs. A marked task that stays in use has been saved. -/
theorem Inv.switch (h : r.Inv unit a) (hSound : k'.Sound a') (hBefore : Same fpuData r.kernel k₁)
    (hAfter : Same fpuData (k₁.saveFpu r.kernel.currentTask) k')
    (hCurrent : k'.currentTask ≠ r.kernel.currentTask)
    (hLive : ∀ t, a'.status t ≠ .invalid → a.status t ≠ .invalid)
    (hIdle : r.kernel.currentTask = 0 → ¬ r.Live)
    (hReady : a'.status r.kernel.currentTask ≠ .invalid → r.kernel.FpuUsed r.kernel.currentTask →
      k₁.task.status r.kernel.currentTask = .ready) : (r.after k').Inv unit a' := by
  have hTs : (r.after k').ts = true := by simp [after, hCurrent]
  have hInit : ∀ t, k'.FpuInit t ↔ r.kernel.FpuInit t := fun t =>
    (same_init hAfter).trans (saveFpu_init.trans (same_init hBefore))
  have hUsedBefore : ∀ t, k'.FpuUsed t → r.kernel.FpuUsed t := fun t ht =>
    (same_used hBefore).mp (saveFpu_used ((same_used hAfter).mp ht))
  have hOther : ∀ t, t ≠ r.kernel.currentTask → image unit k' t = image unit r.kernel t :=
    fun t ht => by
      rw [same_image hAfter, ← same_image hBefore, image, image, saveFpu_flags ht]
      simp only [saveFpu_init]
  refine ⟨hSound, fun regs => ?_, fun hReg => ?_, fun hReg => ?_, fun t ht _ => ?_,
    fun t ht hIn => ?_, fun t hUsed => ?_, fun t ht hUsed => ?_⟩
  · show unit.restoreFpuState (k'.saveFpuState regs).1 = regs
    rw [hAfter.save, saveFpu_save, hBefore.save]
    exact h.lawful regs
  · exact absurd hReg (by simp [hTs])
  · exact absurd hReg (by simp [hTs])
  · have hOld := hLive t ht
    rw [expected_of_live h.sound hOld]
    by_cases hne : t = r.kernel.currentTask
    · subst hne
      by_cases hUsed : r.kernel.FpuUsed r.kernel.currentTask
      · have hUsed₁ := (same_used hBefore).mpr hUsed
        have hSaved := saveFpu_marked hUsed₁ (hReady ht hUsed)
        have hFpu := hAfter.fpu r.kernel.currentTask
        rw [hSaved.2, hBefore.save, hBefore.regs] at hFpu
        show image unit k' _ = _
        rw [image, if_pos ((hInit _).mpr (h.usedInit _ hUsed)), hFpu, h.lawful]
        exact h.registers (h.used _ hOld hUsed).2
      · have hUsed₁ := mt (same_used hBefore).mp hUsed
        rw [saveFpu_unmarked hUsed₁] at hAfter
        show image unit k' _ = _
        rw [same_image (hBefore.trans hAfter)]
        apply h.stored _ hOld
        by_cases hReg : r.ts = true
        · exact Or.inr (Or.inl hReg)
        · have hOff : r.ts = false := by simpa using hReg
          have hZero := not_not.mp (mt (h.marked hOff) hUsed)
          exact Or.inr (Or.inr (not_not.mp fun hLeft => hIdle hZero ⟨hOff, hLeft⟩))
    · show image unit k' t = _
      rw [hOther t hne]
      exact h.stored t hOld (Or.inl hne)
  · have hOld := hLive t ht
    rw [left_of_live h.sound hOld]
    exact h.inited t hOld ((hInit t).mp hIn)
  · exact (hInit t).mpr (h.usedInit t (hUsedBefore t hUsed))
  · have hMarked := h.used t (hLive t ht) (hUsedBefore t hUsed)
    obtain rfl := hMarked.1
    have hUsed₁ := (same_used hBefore).mpr (hUsedBefore _ hUsed)
    have hFlags := hAfter.flags r.kernel.currentTask
    rw [(saveFpu_marked hUsed₁ (hReady ht (hUsedBefore _ hUsed))).1] at hFlags
    have hMask : ~~~taskFpuUsed &&& taskFpuUsed = 0 := by decide
    refine absurd ?_ hUsed
    show (k'.task _).flags &&& taskFpuUsed = 0
    rw [hFlags, BitVec.and_assoc, hMask]
    simp

theorem handler_current : (k.fpuHandler unit).currentTask = k.currentTask := by
  rw [fpuHandler]
  split <;> rfl

theorem handler_other (hne : t ≠ k.currentTask) : (k.fpuHandler unit).task t = k.task t := by
  rw [fpuHandler]
  split
  · simp [hne]
  · simp [hne]

/-- The handler loads the image of the current task and marks the task. -/
theorem handler_loads :
    (k.fpuHandler unit).fpuRegs = image unit k k.currentTask ∧
      (k.fpuHandler unit).FpuInit k.currentTask ∧ (k.fpuHandler unit).FpuUsed k.currentTask := by
  have hBoth : ∀ flags : BitVec 8, (flags ||| taskFpuUsed) &&& taskFpuUsed ≠ 0 ∧
      (flags ||| taskFpuInit ||| taskFpuUsed) &&& taskFpuInit ≠ 0 ∧
      (flags &&& taskFpuInit ≠ 0 → (flags ||| taskFpuUsed) &&& taskFpuInit ≠ 0) := by
    decide
  rw [fpuHandler, image]
  by_cases h : k.FpuInit k.currentTask
  · rw [if_pos h, if_pos h]
    refine ⟨rfl, ?_, ?_⟩
    · simpa [FpuInit] using (hBoth _).2.2 h
    · simpa [FpuUsed] using (hBoth _).1
  · rw [if_neg h, if_neg h]
    refine ⟨by simp, ?_, ?_⟩
    · simpa [FpuInit] using (hBoth _).2.1
    · simpa [FpuUsed] using (hBoth _).1

theorem handler_sound (h : k.Sound a) : (k.fpuHandler unit).Sound a := by
  have hOld : (k.fpuHandler unit).oldTask = none := by
    rw [fpuHandler]
    split <;> exact h.represents.oldTask
  have hStores : (k.fpuHandler unit).Stores a (k.fpuHandler unit).oldTask := by
    refine h.represents.congr ?_ ?_ ?_ ?_ ?_ ?_ ?_ ?_ ?_
    all_goals rw [fpuHandler]; split
    all_goals simp
  rw [hOld] at hStores
  exact ⟨h.inv, h.settled, hStores⟩

/-- An FPU instruction finds what the task left. -/
theorem Inv.private (h : r.Inv unit a) : r.Private unit := by
  rw [Private, touch]
  by_cases hTs : r.ts = true
  · rw [if_pos hTs]
    exact handler_loads.1.trans (h.stored _ h.current (Or.inr (Or.inl hTs)))
  · rw [if_neg hTs]
    exact h.registers (by simpa using hTs)

theorem Inv.touch (h : r.Inv unit a) :
    (r.touch unit).kernel.Sound a ∧ (r.touch unit).ts = false ∧ (r.touch unit).left = r.left ∧
      (r.touch unit).kernel.saveFpuState = r.kernel.saveFpuState ∧
      (r.touch unit).kernel.currentTask = r.kernel.currentTask ∧
      (∀ t, t ≠ r.kernel.currentTask → (r.touch unit).kernel.task t = r.kernel.task t) ∧
      (r.kernel.currentTask ≠ 0 → (r.touch unit).kernel.FpuUsed r.kernel.currentTask) ∧
      ((r.touch unit).kernel.FpuUsed r.kernel.currentTask →
        (r.touch unit).kernel.FpuInit r.kernel.currentTask) := by
  rw [FpuRun.touch]
  by_cases hTs : r.ts = true
  · rw [if_pos hTs]
    have hSave : (r.kernel.fpuHandler unit).saveFpuState = r.kernel.saveFpuState := by
      rw [fpuHandler]
      split <;> rfl
    exact ⟨handler_sound h.sound, rfl, rfl, hSave, handler_current, fun t ht => handler_other ht,
      fun _ => handler_loads.2.2, fun _ => handler_loads.2.1⟩
  · rw [if_neg hTs]
    have hOff : r.ts = false := by simpa using hTs
    exact ⟨h.sound, hOff, rfl, rfl, rfl, fun _ _ => rfl, h.marked hOff, h.usedInit _⟩

theorem Inv.compute (h : r.Inv unit a) (value : FpuState) : (r.compute unit value).Inv unit a := by
  obtain ⟨hSound, hTs, hLeft, hSave, hCurrent, hOther, hMarked, hUsedInit⟩ := h.touch
  have hSelf : (r.compute unit value).left r.kernel.currentTask = some value := by
    show Function.update (r.touch unit).left (r.touch unit).kernel.currentTask _ _ = _
    rw [hCurrent]
    simp
  have hElse : ∀ t, t ≠ r.kernel.currentTask → (r.compute unit value).left t = r.left t :=
    fun t ht => by
      show Function.update (r.touch unit).left (r.touch unit).kernel.currentTask _ _ = _
      rw [hCurrent, hLeft]
      simp [ht]
  have hInitElse : ∀ t, t ≠ r.kernel.currentTask →
      ((r.compute unit value).kernel.FpuInit t ↔ r.kernel.FpuInit t) := fun t ht => by
    show (r.touch unit).kernel.FpuInit t ↔ _
    rw [FpuInit, FpuInit, hOther t ht]
  have hUsedElse : ∀ t, t ≠ r.kernel.currentTask →
      ((r.compute unit value).kernel.FpuUsed t ↔ r.kernel.FpuUsed t) := fun t ht => by
    show (r.touch unit).kernel.FpuUsed t ↔ _
    rw [FpuUsed, FpuUsed, hOther t ht]
  refine ⟨⟨hSound.inv, hSound.settled, ?_⟩, fun regs => ?_, fun _ => ?_, fun _ => ?_,
    fun t ht hStored => ?_, fun t ht hInit => ?_, fun t hUsed => ?_, fun t ht hUsed => ?_⟩
  · show ((r.touch unit).kernel.setFpuRegs value).Represents a
    have hOld : ((r.touch unit).kernel.setFpuRegs value).oldTask = none := hSound.represents.oldTask
    have hStores : ((r.touch unit).kernel.setFpuRegs value).Stores a
        ((r.touch unit).kernel.setFpuRegs value).oldTask :=
      hSound.represents.congr rfl rfl rfl rfl rfl rfl rfl rfl rfl
    rw [hOld] at hStores
    exact hStores
  · show unit.restoreFpuState ((r.touch unit).kernel.saveFpuState regs).1 = regs
    rw [hSave]
    exact h.lawful regs
  · show value = (r.compute unit value).expected unit (r.touch unit).kernel.currentTask
    rw [hCurrent, expected, hSelf]
    rfl
  · show (r.touch unit).kernel.currentTask ≠ 0 →
      (r.touch unit).kernel.FpuUsed (r.touch unit).kernel.currentTask
    rw [hCurrent]
    exact hMarked
  · by_cases hne : t = r.kernel.currentTask
    · subst hne
      rw [hSelf] at hStored
      have hOff : (r.compute unit value).ts = false := hTs
      have hNow : (r.compute unit value).kernel.currentTask = r.kernel.currentTask := hCurrent
      rw [hOff, hNow] at hStored
      simp at hStored
    · show image unit (r.touch unit).kernel t = _
      rw [expected, hElse t hne, image, hOther t hne]
      have hImage := h.stored t ht (Or.inl hne)
      rw [image] at hImage
      refine Eq.trans ?_ hImage
      have hInit : (r.touch unit).kernel.FpuInit t ↔ r.kernel.FpuInit t := hInitElse t hne
      simp only [hInit]
  · by_cases hne : t = r.kernel.currentTask
    · rw [hne, hSelf]
      simp
    · rw [hElse t hne]
      exact h.inited t ht ((hInitElse t hne).mp hInit)
  · by_cases hne : t = r.kernel.currentTask
    · subst hne
      exact hUsedInit hUsed
    · exact (hInitElse t hne).mpr (h.usedInit t ((hUsedElse t hne).mp hUsed))
  · by_cases hne : t = r.kernel.currentTask
    · exact ⟨hne.trans hCurrent.symm, hTs⟩
    · exact absurd (h.used t ht ((hUsedElse t hne).mp hUsed)).1 hne

theorem initial_inv (h : Initial unit r) : r.Inv unit bootQueue := by
  obtain ⟨hBoot, hRegs, hTs, hLeft, hLawful⟩ := h
  have hSound := hBoot.sound.1
  obtain ⟨regs, save, cr3, hKernel⟩ := hBoot
  have hFlags : ∀ t, (r.kernel.task t).flags = 0 := fun t => by
    have hIdle : (bootKernel regs save).task.status 0 = .idle := rfl
    rw [hKernel, multitaskingInit, if_pos hIdle]
    by_cases ht : t = 0
    · subst ht
      simp [bootKernel]
    · simp [bootKernel, ht]
  have hInit : ∀ t, ¬ r.kernel.FpuInit t := fun t => by simp [FpuInit, hFlags]
  have hUsed : ∀ t, ¬ r.kernel.FpuUsed t := fun t => by simp [FpuUsed, hFlags]
  have hExpected : ∀ t, r.expected unit t = unit.restoreFpuState unit.fpuInit := fun t => by
    rw [expected, hLeft]
    rfl
  refine ⟨hSound, hLawful, fun _ => hRegs.trans (hExpected _).symm, fun _ hne => ?_,
    fun t _ _ => ?_, fun t _ h => absurd h (hInit t), fun t h => absurd h (hUsed t),
    fun t _ h => absurd h (hUsed t)⟩
  · exact absurd hSound.represents.current hne
  · rw [image, if_neg (hInit t), hExpected]

/-- Clean steps keep the invariant. -/
theorem Inv.step {r' : FpuRun} (h : r.Inv unit a) (hStep : Step unit Clean r r') :
    ∃ a', r'.Inv unit a' := by
  rcases hStep with ⟨call, k', hAllowed, hClean, hExec, rfl⟩ | ⟨value, rfl⟩
  · obtain ⟨k₂, a', hExec', hEffect, hSound, _⟩ :=
      exec_refines call h.sound (Allowed.mono call hAllowed not_ready_of_running)
    obtain rfl := Option.some.inj (hExec.symm.trans hExec')
    refine ⟨a', ?_⟩
    have hStatus := h.sound.represents.status
    cases call with
    | create ep arg prio pages =>
        refine h.stay hSound (createTask_fpuData hExec) ?_ fun t ht => ?_
        · rw [hSound.represents.current, h.sound.represents.current]
          cases hEffect with
          | inl hSame => rw [hSame]
          | inr hNew =>
              obtain ⟨t, _, rfl⟩ := hNew
              rfl
        · rw [← hSound.represents.status] at ht
          by_cases hInvalid : a.status t = .invalid
          · rw [← hStatus] at hInvalid
            have hFree := (createTask_status hExec ht).resolve_left (not_not.mpr hInvalid)
            exact Or.inr ⟨hStatus ▸ hInvalid, hClean t hFree⟩
          · exact Or.inl hInvalid
    | schedule =>
        have hLive : ∀ t, a'.status t ≠ .invalid → a.status t ≠ .invalid := fun t ht => by
          rw [show a' = a.reschedule from hEffect] at ht
          exact h.sound.inv.reschedule_live ht
        cases reschedule_fpu hExec with
        | inl hStay => exact h.stay hSound hStay.2 hStay.1 fun t ht => Or.inl (hLive t ht)
        | inr hSwitch =>
            obtain ⟨hCurrent, k₁, hBefore, hReady, hAfter⟩ := hSwitch
            have hBusy : r.Live → r.kernel.currentStatus ≠ .idle := fun hValues hs =>
              hCurrent (reschedule_idle hExec hs ((hClean hValues).2 hs))
            refine h.switch hSound hBefore hAfter hCurrent hLive (fun hZero hValues => ?_)
              fun _ hUsed => hReady.mpr ?_
            · apply hBusy hValues
              rw [currentStatus, hStatus, hZero]
              exact (h.sound.inv.idle 0).mpr rfl
            · have hOff := (h.used _ h.current hUsed).2
              have hValues : r.Live := ⟨hOff, h.inited _ h.current (h.usedInit _ hUsed)⟩
              have hLeaves := h.current
              rw [← hStatus] at hLeaves
              have hSettled := h.sound.settled r.kernel.currentTask
              rw [← hStatus] at hSettled
              have hBlocked := (hClean hValues).1
              have hNotIdle := hBusy hValues
              cases hNow : r.kernel.currentStatus with
              | ready => exact Or.inr rfl
              | running => exact Or.inl rfl
              | invalid => exact absurd hNow hLeaves
              | blocked => exact absurd hNow hBlocked
              | finished => exact absurd hNow hSettled
              | idle => exact absurd hNow hNotIdle
    | block =>
        have hBlock : a' = a.block := hEffect
        refine h.stay hSound (fpuData_unscheduled.blockCurrentTask hExec) ?_ fun t ht => Or.inl ?_
        · rw [hSound.represents.current, h.sound.represents.current, hBlock, RunQueue.block]
          split <;> rfl
        · rw [hBlock] at ht
          exact RunQueue.block_live h.sound.inv ht
    | wakeup id =>
        have hWake : a' = a.wake id := hEffect
        refine h.stay hSound (fpuData_unscheduled.wakeupTask hExec) ?_ fun t ht => Or.inl ?_
        · rw [hSound.represents.current, h.sound.represents.current, hWake, RunQueue.wake]
          split <;> rfl
        · rw [hWake] at ht
          exact RunQueue.wake_live ht
    | exit =>
        have hExit : a' = a.exit.reschedule := hEffect
        have hCurrent := h.sound.represents.current
        have hZero : r.kernel.currentTask ≠ 0 := h.sound.represents.idle ▸ hAllowed.1
        have hInv := h.sound.exit_inv hAllowed
        have hGone : a'.status r.kernel.currentTask = .invalid := by
          rw [hExit, hCurrent]
          exact hInv.reschedule_finished (by simp [RunQueue.exit])
        have hMoved : k'.currentTask ≠ r.kernel.currentTask := fun he => by
          have hNew := hSound.inv.current
          rw [← hSound.represents.current, he] at hNew
          exact hNew hGone
        have hDone : r.kernel.doExit.currentTask = r.kernel.currentTask := by simp [doExit]
        cases reschedule_fpu (k := r.kernel.doExit) hExec with
        | inl hStay => exact absurd (hStay.1.trans hDone) hMoved
        | inr hSwitch =>
            obtain ⟨_, k₁, hBefore, _, hAfter⟩ := hSwitch
            rw [hDone] at hAfter
            refine h.switch hSound (fpuData_unscheduled.doExit.trans hBefore) hAfter hMoved (fun t ht => ?_)
              (fun hIdle => absurd hIdle hZero) fun hLeft => absurd hGone hLeft
            rw [hExit] at ht
            exact RunQueue.exit_live h.sound.inv (hInv.reschedule_live ht)
  · exact ⟨a, h.compute value⟩

/-- In a run of clean steps every task finds its own values in the registers. -/
theorem reachable_private (h : Reachable unit Clean r) : r.Private unit := by
  have hInv : ∃ a, r.Inv unit a := by
    refine h.invariant (P := fun r => ∃ a, r.Inv unit a) (fun r hr => ⟨_, initial_inv hr⟩) ?_
    intro r r' hr hStep
    exact hr.elim fun a ha => ha.step hStep
  exact hInv.elim fun a ha => ha.private

/-- One entry of a test run: a call, or an FPU instruction that leaves a value. -/
abbrev Action := Call ⊕ FpuState

def run (unit : FpuUnit) (may : FpuRun → Call → Prop) [∀ r call, Decidable (may r call)] :
    List Action → FpuRun → Option FpuRun
  | [], r => some r
  | .inl call :: rest, r =>
      if call.Allowed (fun k => k.currentStatus = .running) r.kernel ∧ may r call then
        (call.exec r.kernel).bind fun k => run unit may rest (r.after k)
      else none
  | .inr value :: rest, r => run unit may rest (r.compute unit value)

theorem reachable_of_run {may : FpuRun → Call → Prop} [∀ r call, Decidable (may r call)]
    {actions : List Action} {r' : FpuRun} (h : Reachable unit may r)
    (hRun : run unit may actions r = some r') : Reachable unit may r' := by
  induction actions generalizing r with
  | nil => exact Option.some.inj hRun ▸ h
  | cons action rest ih =>
      cases action with
      | inl call =>
          unfold run at hRun
          split at hRun
          · rename_i hMay
            obtain ⟨k, hExec, hRest⟩ := Option.bind_eq_some_iff.mp hRun
            exact ih (h.next (Or.inl ⟨call, k, hMay.1, hMay.2, hExec, rfl⟩)) hRest
          · cases hRun
      | inr value => exact ih (h.next (Or.inr ⟨value, rfl⟩)) hRun

/-- An FPU with registers of one byte that is saved and restored as it is. -/
def plainUnit : FpuUnit := ⟨[0], id⟩

def plainStart : FpuRun where
  kernel := ((bootKernel [0] fun regs => (regs, regs)).multitaskingInit 4096).1
  ts := false
  left _ := none

theorem plainStart_reachable {may : FpuRun → Call → Prop} : Reachable plainUnit may plainStart :=
  Transition.Reachable.of_init ⟨⟨_, _, _, rfl⟩, rfl, rfl, fun _ => rfl, fun _ => rfl⟩

instance (r : FpuRun) (call : Call) : Decidable (r.Clean call) :=
  match call with
  | .schedule => inferInstanceAs (Decidable (_ ∧ _ → _ ∧ _))
  | .create _ _ _ _ => inferInstanceAs (Decidable (∀ _, _))
  | .block | .wakeup _ | .exit => isTrue trivial

instance (unit : FpuUnit) (r : FpuRun) : Decidable (r.Private unit) :=
  inferInstanceAs (Decidable (_ = _))

/-- Two tasks of one priority that take turns with the registers, one of them preempted. -/
def turns : List Action :=
  [.inl (.create 1 0 5 ⟨4096, 0⟩), .inl (.create 1 0 5 ⟨8192, 0⟩), .inl .schedule, .inr [7],
    .inl .schedule, .inr [9], .inl .schedule]

theorem reachable_private_example :
    ∃ r, run plainUnit Clean turns plainStart = some r ∧ r.ts = true ∧ r.Private plainUnit := by
  have hSome : ((run plainUnit Clean turns plainStart).map FpuRun.ts) = some true := by
    decide
  obtain ⟨r, hRun, hTs⟩ := Option.map_eq_some_iff.mp hSome
  exact ⟨r, hRun, hTs, reachable_private (reachable_of_run plainStart_reachable hRun)⟩

/-- A task that blocks leaves the registers to the next one without a save. -/
theorem blocked_loses_registers :
    ¬ ∀ (unit : FpuUnit) (r : FpuRun), Reachable unit (fun _ _ => True) r → r.Private unit := by
  intro h
  have hRun : (run plainUnit (fun _ _ => True)
      [.inl (.create 1 0 5 ⟨4096, 0⟩), .inl (.create 1 0 5 ⟨8192, 0⟩), .inl .schedule, .inr [7],
        .inl .block, .inl .schedule, .inr [9], .inl (.wakeup 1), .inl .schedule]
      plainStart).map (fun r => decide (r.Private plainUnit)) = some false := by
    decide
  obtain ⟨r, hRun, hPrivate⟩ := Option.map_eq_some_iff.mp hRun
  exact of_decide_eq_false hPrivate (h plainUnit r (reachable_of_run plainStart_reachable hRun))

end FpuRun
end ArtOS

import ArtOS.Library.Counting
import ArtOS.Sync.WaitQueue

/-! When a post can leave a task asleep although there is a unit for it. A
`sem_post` that finds the value positive wakes nobody, so units pile up behind
tasks that were woken before but have not run yet. -/
namespace ArtOS.SemRun

/-- The tasks that were woken and have not tried again. -/
def wokenCount (r : SemRun) : Nat := Counting.count r.pc (· = .woken)

/-- A task is blocked in `sem_wait` and its id is still in the queue. -/
def Sleeps (r : SemRun) (t : TaskPtr) : Prop :=
  r.pc t = .waiting ∧ r.kernel.task.status t = .blocked ∧ ∃ j < maxTasks, r.sem.queue j = t

/-- As long as a task sleeps, every unit has a woken task that is going to ask for it. -/
def NoLostWakeup (r : SemRun) : Prop := (∃ t, r.Sleeps t) → r.sem.value ≤ r.wokenCount

/-- A post in this state adds a unit that no woken task is there for. -/
def Overposts (r : SemRun) : Prop :=
  0 < r.sem.value ∧ (∃ t, r.pc t = .waiting) ∧ r.wokenCount ≤ r.sem.value

instance (r : SemRun) : Decidable r.Overposts := inferInstanceAs (Decidable (_ ∧ _ ∧ _))

variable {r r' : SemRun} {t : TaskPtr}

theorem Sound.sleeps_iff (h : r.Sound) : r.Sleeps t ↔ r.pc t = .waiting := by
  obtain ⟨_, log, lo, hQueued⟩ := h
  refine ⟨fun hs => hs.1, fun hw => ⟨hw, hQueued.blocked t hw, ?_⟩⟩
  obtain ⟨j, ⟨hj, hQueue⟩, _⟩ := hQueued.existsUnique_slot hw
  exact ⟨j, hj, hQueue⟩

/-- The property in terms of the positions of the tasks. -/
theorem Sound.noLostWakeup_iff (h : r.Sound) :
    r.NoLostWakeup ↔ ((∃ t, r.pc t = .waiting) → r.sem.value ≤ r.wokenCount) := by
  simp only [NoLostWakeup, h.sleeps_iff]

theorem wokenCount_le : r.wokenCount ≤ maxTasks :=
  Counting.count_le_card.trans (le_of_eq (Fintype.card_fin maxTasks))

/-- A task that runs gives up at most its own place among the woken tasks. -/
theorem wokenCount_update {pc : SemPc} (hPc : r'.pc = Function.update r.pc t pc) :
    r.wokenCount ≤ r'.wokenCount + 1 ∧ (pc = .woken → r.pc t ≠ .woken →
      r'.wokenCount = r.wokenCount + 1) := by
  have hCount := Counting.count_update (f := r.pc) (p := (· = .woken)) t pc
  rw [wokenCount, wokenCount, hPc]
  refine ⟨?_, fun hNew hOld => ?_⟩
  · split at hCount <;> omega
  · simpa [hNew, hOld] using hCount

/-- Waiting leaves no unit behind, whether it takes one or finds none. -/
theorem NoLostWakeup.wait (h : r.NoLostWakeup) (hSound : r.Sound) (hAllowed : r.Allowed .wait)
    (hExec : r.exec .wait = some r') : r'.NoLostWakeup := by
  rw [hSound.noLostWakeup_iff] at h
  rcases Nat.eq_zero_or_pos r.sem.value with hValue | hValue
  · obtain ⟨r₁, hExec', _, hValue', _⟩ := hSound.wait_block hAllowed hValue
    obtain rfl := Option.some.inj (hExec.symm.trans hExec')
    exact fun _ => hValue' ▸ Nat.zero_le _
  · obtain ⟨r₁, hExec', hSound', hValue', hPc⟩ := hSound.wait_got hAllowed hValue
    obtain rfl := Option.some.inj (hExec.symm.trans hExec')
    rw [hSound'.noLostWakeup_iff]
    rintro ⟨t, ht⟩
    have hne : t ≠ r.kernel.currentTask := fun he => by simp [hPc, he] at ht
    have hOld := h ⟨t, by simpa [hPc, hne] using ht⟩
    have hWoken := (wokenCount_update hPc).1
    omega

theorem NoLostWakeup.trywait (h : r.NoLostWakeup) (hSound : r.Sound)
    (hExec : r.exec .trywait = some r') : r'.NoLostWakeup := by
  obtain ⟨r₁, hExec', hSound', hValue, hPc⟩ := hSound.trywait
  obtain rfl := Option.some.inj (hExec.symm.trans hExec')
  rw [hSound.noLostWakeup_iff] at h
  rw [hSound'.noLostWakeup_iff, wokenCount, hPc, hValue]
  exact fun hWaiting => (Nat.sub_le _ _).trans (h hWaiting)

theorem NoLostWakeup.switch {k : Kernel} (h : r.NoLostWakeup) (hSound : r.Sound)
    (hSwitch : r.Switch k) : NoLostWakeup { r with kernel := k } := by
  rw [hSound.noLostWakeup_iff] at h
  rw [(hSound.switch hSwitch).noLostWakeup_iff]
  exact h

/-- A post keeps the property exactly when it does not overpost. -/
theorem NoLostWakeup.post_iff (h : r.NoLostWakeup) (hSound : r.Sound)
    (hExec : r.exec .post = some r') : r'.NoLostWakeup ↔ ¬ r.Overposts := by
  rw [hSound.noLostWakeup_iff] at h
  have hSmall := wokenCount_le (r := r)
  by_cases hNobody : 0 < r.sem.value ∨ ∀ t, r.pc t ≠ .waiting
  · obtain ⟨r₁, hExec', hSound', hValue, hPc, _⟩ := hSound.post_count hNobody
    obtain rfl := Option.some.inj (hExec.symm.trans hExec')
    rw [hSound'.noLostWakeup_iff, wokenCount, hPc, hValue, ← wokenCount]
    by_cases hWaiting : ∃ t, r.pc t = .waiting
    · have hOld := h hWaiting
      have hPos : 0 < r.sem.value := hNobody.resolve_right fun hn =>
        hWaiting.elim fun t ht => hn t ht
      have hIncr : incr32 r.sem.value = r.sem.value + 1 :=
        incr32_eq ((Nat.succ_le_succ (hOld.trans hSmall)).trans_lt (by decide))
      simp only [Overposts, hWaiting, hPos, hIncr, true_and, true_imp_iff, not_le]
      exact Nat.succ_le_iff
    · simp [Overposts, hWaiting]
  · simp only [not_or, not_lt, Nat.le_zero, not_forall, not_not] at hNobody
    obtain ⟨r₁, _, _, t, _, hExec', hSound', hValue, hWait, _, hPc, _⟩ :=
      hSound.post_wake hNobody.1 hNobody.2
    obtain rfl := Option.some.inj (hExec.symm.trans hExec')
    have hWoken := (wokenCount_update hPc).2 rfl (by simp [hWait])
    refine iff_of_true (fun _ => by omega) fun hOver => ?_
    exact absurd hOver.1 (by omega)

/-- Without overposting no wakeup is lost; and a post that overposts loses one at once. -/
theorem reachable_noLostWakeup (h : Reachable (fun r => ¬ r.Overposts) r) :
    r.NoLostWakeup ∧ ∀ r', r.exec .post = some r' → (r'.NoLostWakeup ↔ ¬ r.Overposts) := by
  have hSound := reachable_sound h
  have hHolds : r.NoLostWakeup := by
    refine (h.invariant (P := fun r => r.Sound ∧ r.NoLostWakeup) ?_ ?_).2
    · refine fun r hr => ⟨hr.sound, ?_⟩
      rintro ⟨t, ht, _⟩
      simp [hr.2.2 t] at ht
    · rintro r r' ⟨hSound, hHolds⟩ hStep
      refine ⟨hSound.step hStep, ?_⟩
      rcases hStep with ⟨code, hAllowed, hMay, hExec⟩ | ⟨k, hSwitch, rfl⟩
      · cases code with
        | wait => exact hHolds.wait hSound hAllowed hExec
        | trywait => exact hHolds.trywait hSound hExec
        | post => exact (hHolds.post_iff hSound hExec).mpr (hMay rfl)
      · exact hHolds.switch hSound hSwitch
  exact ⟨hHolds, fun r' hExec => hHolds.post_iff hSound hExec⟩

theorem reachable_noLostWakeup_example :
    ∃ r, Reachable (fun r => ¬ r.Overposts) r ∧ r.sem.value = 1 ∧ r.pc 2 = .waiting ∧
      r.NoLostWakeup := by
  have hObserve : observe (fun r => ¬ r.Overposts) [some .wait, none, some .wait, none, some .post]
      (fun r => (r.sem.value, r.pc 2)) = some (1, .waiting) := by decide +kernel
  obtain ⟨r, hReach, hView⟩ := exists_of_observe hObserve
  obtain ⟨hValue, hPc⟩ := Prod.mk.inj hView
  exact ⟨r, hReach, hValue, hPc, (reachable_noLostWakeup hReach).1⟩

/-- Two tasks block, a third posts twice: the second unit wakes nobody. -/
theorem second_post_loses_wakeup :
    ¬ ∀ r, Reachable (fun _ => True) r → r.NoLostWakeup := by
  intro h
  have hObserve : observe (fun _ => True)
      [some .wait, none, some .wait, none, some .post, some .post]
      (fun r => (r.sem.value, r.pc 2, decide (r.wokenCount = 1))) = some (2, .waiting, true) := by
    decide +kernel
  obtain ⟨r, hReach, hView⟩ := exists_of_observe hObserve
  simp only [Prod.mk.injEq, decide_eq_true_eq] at hView
  obtain ⟨hValue, hPc, hWoken⟩ := hView
  have hHolds := h r hReach
  rw [(reachable_sound hReach).noLostWakeup_iff, hValue, hWoken] at hHolds
  exact absurd (hHolds ⟨2, hPc⟩) (by decide)

end ArtOS.SemRun

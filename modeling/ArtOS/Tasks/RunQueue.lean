import ArtOS.Library.Counting
import ArtOS.Tasks.Types

/-! The scheduler without pointers: every task has a status and a priority,
and the ready tasks of each priority wait in a list, the oldest first. This
is what the linked queues, the bitmap and `msb` are for. -/
namespace ArtOS

structure RunQueue where
  status : TaskPtr → TaskStatus
  prio : TaskPtr → Nat
  current : TaskPtr
  waiting : Nat → List TaskPtr

namespace RunQueue

/-- The highest priority below `n` with a waiting task. -/
def topBelow (waiting : Nat → List TaskPtr) : Nat → Option Nat
  | 0 => none
  | n + 1 => if waiting n ≠ [] then some n else topBelow waiting n

def top (a : RunQueue) : Option Nat := topBelow a.waiting (maxPrio + 1)

/-- A task becomes ready and is the youngest of its priority. -/
def enqueue (a : RunQueue) (t : TaskPtr) : RunQueue :=
  { a with
    status := Function.update a.status t .ready
    waiting := Function.update a.waiting (a.prio t) (a.waiting (a.prio t) ++ [t]) }

def create (a : RunQueue) (t : TaskPtr) (p : Nat) : RunQueue :=
  { a with prio := Function.update a.prio t p }.enqueue t

def wake (a : RunQueue) (t : TaskPtr) : RunQueue :=
  if a.status t = .blocked then a.enqueue t else a

def block (a : RunQueue) : RunQueue :=
  if a.status a.current = .running then
    { a with status := Function.update a.status a.current .blocked }
  else a

def exit (a : RunQueue) : RunQueue :=
  { a with status := Function.update a.status a.current .finished }

/-- A finished current task gives up its table entry. -/
def retire (a : RunQueue) : RunQueue :=
  if a.status a.current = .finished then
    { a with status := Function.update a.status a.current .invalid }
  else a

/-- The oldest task of priority `p` becomes current. -/
def pick (a : RunQueue) (p : Nat) : RunQueue :=
  match a.waiting p with
  | [] => a
  | t :: rest =>
      { a with
        status := Function.update a.status t .running
        current := t
        waiting := Function.update a.waiting p rest }

def reschedule (a : RunQueue) : RunQueue :=
  match a.top with
  | none =>
      if a.status a.current = .running ∨ a.status a.current = .idle then a
      else { a.retire with current := 0 }
  | some p =>
      if p < a.prio a.current ∧ a.status a.current = .running then a
      else if a.status a.current = .running then (a.pick p).enqueue a.current
      else a.retire.pick p

abbrev Runnable (s : TaskStatus) : Prop := s = .ready ∨ s = .running

/-- The number of tasks that are ready or running. -/
def runnable (a : RunQueue) : Nat := Counting.count a.status Runnable

/-- Between two operations: exactly the ready tasks wait, each once and at its
own priority, and only the current task runs or has finished. -/
structure Inv (a : RunQueue) : Prop where
  waiting : ∀ t p, t ∈ a.waiting p ↔ a.status t = .ready ∧ a.prio t = p
  nodup : ∀ p, (a.waiting p).Nodup
  idle : ∀ t, a.status t = .idle ↔ t = 0
  prio : ∀ t, a.status t ≠ .invalid → t ≠ 0 → 1 ≤ a.prio t ∧ a.prio t ≤ maxPrio
  running : ∀ t, a.status t = .running → t = a.current
  finished : ∀ t, a.status t = .finished → t = a.current
  current : a.status a.current ≠ .invalid

/-- No exit is under way. -/
def Settled (a : RunQueue) : Prop := ∀ t, a.status t ≠ .finished

theorem topBelow_eq_none {waiting : Nat → List TaskPtr} {n : Nat} :
    topBelow waiting n = none ↔ ∀ p < n, waiting p = [] := by
  induction n with
  | zero => simp [topBelow]
  | succ n ih =>
      by_cases h : waiting n = []
      · simp only [topBelow, h, ne_eq, not_true_eq_false, if_false, ih, Nat.lt_succ_iff_lt_or_eq]
        exact ⟨fun hp p hlt => hlt.elim (hp p) (fun he => he ▸ h), fun hp p hlt => hp p (.inl hlt)⟩
      · simp only [topBelow, h, ne_eq, not_false_eq_true, if_true, reduceCtorEq, false_iff]
        exact fun hp => h (hp n (Nat.lt_succ_self n))

theorem topBelow_eq_some {waiting : Nat → List TaskPtr} {n p : Nat} :
    topBelow waiting n = some p ↔
      p < n ∧ waiting p ≠ [] ∧ ∀ p', p < p' → p' < n → waiting p' = [] := by
  induction n with
  | zero => simp [topBelow]
  | succ n ih =>
      by_cases h : waiting n = []
      · simp only [topBelow, h, ne_eq, not_true_eq_false, if_false, ih]
        constructor
        · rintro ⟨hlt, hFull, hAbove⟩
          refine ⟨by omega, hFull, fun p' h₁ h₂ => ?_⟩
          rcases Nat.lt_succ_iff_lt_or_eq.mp h₂ with h₃ | rfl
          · exact hAbove p' h₁ h₃
          · exact h
        · rintro ⟨hlt, hFull, hAbove⟩
          have hne : p ≠ n := fun he => hFull (he ▸ h)
          exact ⟨by omega, hFull, fun p' h₁ h₂ => hAbove p' h₁ (by omega)⟩
      · simp only [topBelow, h, ne_eq, not_false_eq_true, if_true, Option.some.injEq]
        constructor
        · rintro rfl
          exact ⟨by omega, h, fun p' h₁ h₂ => by omega⟩
        · rintro ⟨hlt, _, hAbove⟩
          by_contra hne
          exact h (hAbove n (by omega) (by omega))

variable {a : RunQueue} {t u : TaskPtr} {p : Nat} {s : TaskStatus}

theorem Inv.ne_zero (h : a.Inv) (hIdle : a.status t ≠ .idle) : t ≠ 0 :=
  fun he => hIdle ((h.idle t).mpr he)

theorem Inv.waiting_range (h : a.Inv) (hMem : t ∈ a.waiting p) : 1 ≤ p ∧ p ≤ maxPrio := by
  obtain ⟨hReady, rfl⟩ := (h.waiting t p).mp hMem
  exact h.prio t (by simp [hReady]) (h.ne_zero (by simp [hReady]))

theorem Inv.top_eq_none (h : a.Inv) : a.top = none ↔ ∀ t, a.status t ≠ .ready := by
  rw [top, topBelow_eq_none]
  constructor
  · intro hEmpty t hReady
    have hMem := (h.waiting t (a.prio t)).mpr ⟨hReady, rfl⟩
    have hRange := h.waiting_range hMem
    simp [hEmpty (a.prio t) (by omega)] at hMem
  · intro hNone p _
    refine List.eq_nil_iff_forall_not_mem.mpr fun t ht => ?_
    exact hNone t ((h.waiting t p).mp ht).1

theorem Inv.top_eq_some (h : a.Inv) :
    a.top = some p ↔
      (∃ t, a.status t = .ready ∧ a.prio t = p) ∧ ∀ t, a.status t = .ready → a.prio t ≤ p := by
  rw [top, topBelow_eq_some]
  constructor
  · rintro ⟨_, hFull, hAbove⟩
    obtain ⟨t, ht⟩ := List.exists_mem_of_ne_nil _ hFull
    refine ⟨⟨t, (h.waiting t p).mp ht⟩, fun u hu => ?_⟩
    have hMem := (h.waiting u (a.prio u)).mpr ⟨hu, rfl⟩
    by_contra hlt
    have hRange := h.waiting_range hMem
    simp [hAbove (a.prio u) (by omega) (by omega)] at hMem
  · rintro ⟨⟨t, hReady, hPrio⟩, hMax⟩
    have hMem := (h.waiting t p).mpr ⟨hReady, hPrio⟩
    refine ⟨by have := h.waiting_range hMem; omega, List.ne_nil_of_mem hMem, fun p' hlt _ => ?_⟩
    refine List.eq_nil_iff_forall_not_mem.mpr fun u hu => ?_
    obtain ⟨hReady', rfl⟩ := (h.waiting u p').mp hu
    exact absurd (hMax u hReady') (by omega)

/-- Any task that is not ready, apart from the idle task, may become ready. -/
theorem Inv.enqueue (h : a.Inv) (hReady : a.status t ≠ .ready) (hIdle : t ≠ 0)
    (hPrio : 1 ≤ a.prio t ∧ a.prio t ≤ maxPrio) : (a.enqueue t).Inv := by
  have hOff : ∀ p, t ∉ a.waiting p := fun p ht => hReady ((h.waiting t p).mp ht).1
  have hStatus : ∀ u, u ≠ t → (a.enqueue t).status u = a.status u := fun u hu => by
    simp [RunQueue.enqueue, hu]
  have hSelf : (a.enqueue t).status t = .ready := by simp [RunQueue.enqueue]
  refine ⟨fun u p => ?_, fun p => ?_, fun u => ?_, fun u => ?_, fun u => ?_, fun u => ?_, ?_⟩
  · by_cases hp : p = a.prio t
    · subst hp
      by_cases hu : u = t
      · simp [RunQueue.enqueue, hu]
      · simp [RunQueue.enqueue, hu, h.waiting]
    · by_cases hu : u = t
      · simp [RunQueue.enqueue, hp, hu, hOff, Ne.symm hp]
      · simp [RunQueue.enqueue, hp, hu, h.waiting]
  · by_cases hp : p = a.prio t
    · subst hp
      have hNew : ∀ u ∈ a.waiting (a.prio t), u ≠ t := fun u hu he => hOff _ (he ▸ hu)
      simpa [RunQueue.enqueue, List.nodup_append, h.nodup] using hNew
    · simpa [RunQueue.enqueue, hp] using h.nodup p
  · by_cases hu : u = t
    · simp [hu, hSelf, hIdle]
    · rw [hStatus u hu, h.idle]
  · by_cases hu : u = t
    · exact fun _ _ => hu ▸ hPrio
    · rw [hStatus u hu]
      exact h.prio u
  · by_cases hu : u = t
    · simp [hu, hSelf]
    · rw [hStatus u hu]
      exact h.running u
  · by_cases hu : u = t
    · simp [hu, hSelf]
    · rw [hStatus u hu]
      exact h.finished u
  · by_cases hu : a.current = t
    · simp [RunQueue.enqueue, hu]
    · simpa [RunQueue.enqueue, hu] using h.current

theorem Settled.enqueue (h : a.Settled) : (a.enqueue t).Settled := by
  intro u
  by_cases hu : u = t
  · simp [RunQueue.enqueue, hu]
  · simpa [RunQueue.enqueue, hu] using h u

theorem Settled.wake (h : a.Settled) : (a.wake t).Settled := by
  unfold RunQueue.wake
  split
  · exact h.enqueue
  · exact h

theorem Settled.block (h : a.Settled) : a.block.Settled := by
  unfold RunQueue.block
  split
  · intro u
    by_cases hu : u = a.current
    · simp [hu]
    · simpa [hu] using h u
  · exact h

theorem Inv.create (h : a.Inv) (hInvalid : a.status t = .invalid)
    (hPrio : 1 ≤ p ∧ p ≤ maxPrio) : (a.create t p).Inv := by
  have hIdle : t ≠ 0 := h.ne_zero (by simp [hInvalid])
  refine Inv.enqueue ⟨fun u p' => ?_, h.nodup, h.idle, fun u hu hu' => ?_, h.running,
    h.finished, h.current⟩ (by simp [hInvalid]) hIdle (by simpa using hPrio)
  · by_cases he : u = t
    · simp [he, hInvalid, h.waiting]
    · simp [he, h.waiting]
  · have he : u ≠ t := fun he => hu (he ▸ hInvalid)
    simpa [he] using h.prio u hu hu'

theorem Inv.wake (h : a.Inv) : (a.wake t).Inv := by
  by_cases hBlocked : a.status t = .blocked
  · have hIdle : t ≠ 0 := h.ne_zero (by simp [hBlocked])
    rw [RunQueue.wake, if_pos hBlocked]
    exact h.enqueue (by simp [hBlocked]) hIdle (h.prio t (by simp [hBlocked]) hIdle)
  · rwa [RunQueue.wake, if_neg hBlocked]

/-- The current task, unless it is ready or idle, gets a status under which it does not wait. -/
theorem Inv.unqueued (h : a.Inv) {s : TaskStatus} (hReady : a.status a.current ≠ .ready)
    (hIdle : a.status a.current ≠ .idle) (hNew : s ≠ .ready) (hNewIdle : s ≠ .idle) :
    let status := Function.update a.status a.current s
    (∀ t p, t ∈ a.waiting p ↔ status t = .ready ∧ a.prio t = p) ∧ (∀ t, status t = .idle ↔ t = 0) ∧
      ∀ t, status t ≠ .invalid → t ≠ 0 → 1 ≤ a.prio t ∧ a.prio t ≤ maxPrio := by
  have hZero := h.ne_zero hIdle
  refine ⟨fun u p => ?_, fun u => ?_, fun u => ?_⟩
  · by_cases hu : u = a.current
    · simp [hu, h.waiting, hReady, hNew]
    · simp [hu, h.waiting]
  · by_cases hu : u = a.current
    · simp [hu, hZero, hNewIdle]
    · simp [hu, h.idle]
  · by_cases hu : u = a.current
    · subst hu
      exact fun _ => h.prio _ h.current
    · simpa [hu] using h.prio u

/-- It blocks or finishes. -/
theorem Inv.setCurrent (h : a.Inv) {s : TaskStatus} (hReady : a.status a.current ≠ .ready)
    (hIdle : a.status a.current ≠ .idle) (hNew : s = .blocked ∨ s = .finished) :
    Inv { a with status := Function.update a.status a.current s } := by
  have hNotReady : s ≠ .ready := by rcases hNew with rfl | rfl <;> decide
  have hNotIdle : s ≠ .idle := by rcases hNew with rfl | rfl <;> decide
  obtain ⟨hWaiting, hIdles, hPrio⟩ := h.unqueued hReady hIdle hNotReady hNotIdle
  refine ⟨hWaiting, h.nodup, hIdles, hPrio, fun u => ?_, fun u => ?_, ?_⟩
  · exact fun hu => by_contra fun hne => hne (h.running u (by simpa [hne] using hu))
  · exact fun hu => by_contra fun hne => hne (h.finished u (by simpa [hne] using hu))
  · rcases hNew with rfl | rfl <;> simp

theorem Inv.block (h : a.Inv) : a.block.Inv := by
  by_cases hRunning : a.status a.current = .running
  · rw [RunQueue.block, if_pos hRunning]
    exact h.setCurrent (by simp [hRunning]) (by simp [hRunning]) (.inl rfl)
  · rwa [RunQueue.block, if_neg hRunning]

theorem Inv.exit (h : a.Inv) (hReady : a.status a.current ≠ .ready)
    (hIdle : a.current ≠ 0) : a.exit.Inv :=
  h.setCurrent hReady (fun he => hIdle ((h.idle _).mp he)) (.inr rfl)

/-- The moment inside `reschedule` when the old task has left the processor
and no new one has been chosen. -/
structure Vacant (a : RunQueue) : Prop where
  waiting : ∀ t p, t ∈ a.waiting p ↔ a.status t = .ready ∧ a.prio t = p
  nodup : ∀ p, (a.waiting p).Nodup
  idle : ∀ t, a.status t = .idle ↔ t = 0
  prio : ∀ t, a.status t ≠ .invalid → t ≠ 0 → 1 ≤ a.prio t ∧ a.prio t ≤ maxPrio
  running : ∀ t, a.status t ≠ .running
  finished : ∀ t, a.status t ≠ .finished

/-- The old task leaves with a status under which it neither waits nor runs. -/
theorem Inv.leave (h : a.Inv) {s : TaskStatus} (hReady : a.status a.current ≠ .ready)
    (hIdle : a.status a.current ≠ .idle) (hNew : s = .blocked ∨ s = .invalid) :
    Vacant { a with status := Function.update a.status a.current s } := by
  have hNotReady : s ≠ .ready := by rcases hNew with rfl | rfl <;> decide
  have hNotIdle : s ≠ .idle := by rcases hNew with rfl | rfl <;> decide
  obtain ⟨hWaiting, hIdles, hPrio⟩ := h.unqueued hReady hIdle hNotReady hNotIdle
  refine ⟨hWaiting, h.nodup, hIdles, hPrio, fun u hu => ?_, fun u hu => ?_⟩
  all_goals by_cases hc : u = a.current
  · rcases hNew with rfl | rfl <;> simp [hc] at hu
  · exact hc (h.running u (by simpa [hc] using hu))
  · rcases hNew with rfl | rfl <;> simp [hc] at hu
  · exact hc (h.finished u (by simpa [hc] using hu))

@[simp] theorem retire_waiting : a.retire.waiting = a.waiting := by
  unfold RunQueue.retire
  split <;> rfl

@[simp] theorem retire_prio : a.retire.prio = a.prio := by
  unfold RunQueue.retire
  split <;> rfl

@[simp] theorem retire_current : a.retire.current = a.current := by
  unfold RunQueue.retire
  split <;> rfl

@[simp] theorem retire_top : a.retire.top = a.top := by
  rw [RunQueue.top, retire_waiting, RunQueue.top]

theorem retire_eq_self (h : a.status a.current ≠ .finished) : a.retire = a := if_neg h

theorem retire_status (h : a.status a.current = .finished) :
    a.retire.status = Function.update a.status a.current .invalid := by
  rw [RunQueue.retire, if_pos h]

theorem Inv.retire (h : a.Inv) (hRunning : a.status a.current ≠ .running) :
    a.retire.Vacant := by
  by_cases hFinished : a.status a.current = .finished
  · rw [RunQueue.retire, if_pos hFinished]
    exact h.leave (by simp [hFinished]) (by simp [hFinished]) (.inr rfl)
  · rw [RunQueue.retire, if_neg hFinished]
    exact ⟨h.waiting, h.nodup, h.idle, h.prio, fun t ht => hRunning (h.running t ht ▸ ht),
      fun t ht => hFinished (h.finished t ht ▸ ht)⟩

theorem pick_eq {rest : List TaskPtr} (hQueue : a.waiting p = t :: rest) :
    a.pick p =
      { a with
        status := Function.update a.status t .running
        current := t
        waiting := Function.update a.waiting p rest } := by
  simp [pick, hQueue]

theorem Vacant.pick (h : a.Vacant) (hFull : a.waiting p ≠ []) :
    (a.pick p).Inv ∧ (a.pick p).Settled := by
  obtain ⟨t, rest, hQueue⟩ := List.exists_cons_of_ne_nil hFull
  obtain ⟨hReady, hPrio⟩ := (h.waiting t p).mp (by simp [hQueue])
  have hZero : t ≠ 0 := fun he => by simp [(h.idle t).mpr he] at hReady
  have hNodup := h.nodup p
  rw [hQueue, List.nodup_cons] at hNodup
  rw [pick_eq hQueue]
  refine ⟨⟨fun u p' => ?_, fun p' => ?_, fun u => ?_, fun u => ?_, fun u hu => ?_,
    fun u hu => ?_, by simp⟩, fun u hu => ?_⟩
  · by_cases hp : p' = p
    · subst hp
      by_cases hu : u = t
      · simp [hu, hNodup.1]
      · have hMem := h.waiting u p'
        simp only [hQueue, List.mem_cons, hu, false_or] at hMem
        simp [hu, hMem]
    · by_cases hu : u = t
      · have hOff := h.waiting t p'
        simp [hu, hp, hOff, hPrio, Ne.symm hp]
      · simp [hu, hp, h.waiting]
  · by_cases hp : p' = p
    · subst hp
      simpa using hNodup.2
    · simpa [hp] using h.nodup p'
  · by_cases hu : u = t
    · simp [hu, hZero]
    · simp [hu, h.idle]
  · by_cases hu : u = t
    · exact fun _ _ => hu ▸ h.prio t (by simp [hReady]) hZero
    · simpa [hu] using h.prio u
  all_goals by_cases hc : u = t
  · exact hc
  · exact absurd (by simpa [hc] using hu) (h.running u)
  · exact hc
  · exact absurd (by simpa [hc] using hu) (h.finished u)
  · simp [hc] at hu
  · exact absurd (by simpa [hc] using hu) (h.finished u)

theorem pick_prio : (a.pick p).prio = a.prio := by
  unfold RunQueue.pick
  split <;> rfl

/-- Only a ready task is picked. -/
theorem pick_status_of_not_ready (h : a.Vacant) (hReady : a.status t ≠ .ready) :
    (a.pick p).status t ≠ .ready := by
  unfold RunQueue.pick
  split
  · exact hReady
  · next u rest hQueue =>
      have hu := ((h.waiting u p).mp (by simp [hQueue])).1
      have hne : t ≠ u := fun he => hReady (he ▸ hu)
      simpa [hne] using hReady

theorem Vacant.toIdle (h : a.Vacant) :
    Inv { a with current := 0 } ∧ Settled { a with current := 0 } :=
  ⟨⟨h.waiting, h.nodup, h.idle, h.prio, fun t ht => absurd ht (h.running t),
    fun t ht => absurd ht (h.finished t), by simp [(h.idle 0).mpr rfl]⟩, h.finished⟩

/-- A preempted task is not part of the choice: whatever its status is while
the next task is picked, it ends up ready. -/
theorem preempt_eq (s : TaskStatus) (hRunning : a.status a.current = .running)
    (hFull : a.waiting p ≠ []) (h : a.Inv) :
    (a.pick p).enqueue a.current =
      (RunQueue.pick { a with status := Function.update a.status a.current s }
        p).enqueue a.current := by
  obtain ⟨t, rest, hQueue⟩ := List.exists_cons_of_ne_nil hFull
  have hReady := ((h.waiting t p).mp (by simp [hQueue])).1
  have hne : a.current ≠ t := fun he => by simp [← he, hRunning] at hReady
  rw [pick_eq hQueue,
    pick_eq (a := { a with status := Function.update a.status a.current s }) hQueue]
  simp [RunQueue.enqueue, Function.update_comm hne]

/-- The invariant survives `reschedule`, which also completes an exit. -/
theorem Inv.reschedule (h : a.Inv) : a.reschedule.Inv ∧ a.reschedule.Settled := by
  have hStay : a.status a.current ≠ .finished → a.Settled := fun hc t ht =>
    hc (h.finished t ht ▸ ht)
  unfold RunQueue.reschedule
  cases hTop : a.top with
  | none =>
      by_cases hKeep : a.status a.current = .running ∨ a.status a.current = .idle
      · simp only [hKeep, if_true]
        exact ⟨h, hStay (by rcases hKeep with hc | hc <;> simp [hc])⟩
      · simp only [hKeep, if_false]
        exact (h.retire fun hc => hKeep (.inl hc)).toIdle
  | some p =>
      have hFull : a.waiting p ≠ [] := (topBelow_eq_some.mp hTop).2.1
      by_cases hHigher : p < a.prio a.current ∧ a.status a.current = .running
      · simp only [hHigher, and_self, if_true]
        exact ⟨h, hStay (by simp [hHigher.2])⟩
      · simp only [hHigher, if_false]
        by_cases hRunning : a.status a.current = .running
        · simp only [hRunning, if_true]
          have hNotIdle : a.status a.current ≠ .idle := by simp [hRunning]
          have hVacant := h.leave (s := .blocked) (by simp [hRunning]) hNotIdle (.inl rfl)
          obtain ⟨hInv, hSettled⟩ := hVacant.pick hFull
          rw [preempt_eq .blocked hRunning hFull h]
          refine ⟨hInv.enqueue ?_ (h.ne_zero hNotIdle) ?_, hSettled.enqueue⟩
          · exact pick_status_of_not_ready hVacant (by simp)
          · rw [pick_prio]
            exact h.prio _ h.current (h.ne_zero hNotIdle)
        · simp only [hRunning, if_false]
          exact (h.retire hRunning).pick (by rwa [retire_waiting])

/-- Only a ready task is picked; the others keep their status. -/
theorem pick_unready (h : ∀ t p, t ∈ a.waiting p → a.status t = .ready) (hs : s ≠ .ready)
    (ht : a.status t = s) : (a.pick p).status t = s := by
  cases hQueue : a.waiting p with
  | nil => simpa [RunQueue.pick, hQueue] using ht
  | cons u rest =>
      have hReady := h u p (by simp [hQueue])
      have hne : t ≠ u := fun he => hs (by rw [← ht, he, hReady])
      rw [pick_eq hQueue]
      simpa [hne] using ht

/-- The scheduler leaves blocked tasks alone. -/
theorem Inv.reschedule_blocked (h : a.Inv) (hBlocked : a.status t = .blocked) :
    a.reschedule.status t = .blocked := by
  have hReady : ∀ t p, t ∈ a.waiting p → a.status t = .ready := fun t p ht =>
    ((h.waiting t p).mp ht).1
  have hRetire : a.retire.status t = .blocked := by
    unfold RunQueue.retire
    split
    · next hFinished =>
        have hne : t ≠ a.current := fun he => by simp [he, hFinished] at hBlocked
        simpa [hne] using hBlocked
    · exact hBlocked
  unfold RunQueue.reschedule
  split
  · split
    · exact hBlocked
    · exact hRetire
  · split
    · exact hBlocked
    · split
      · next hRunning =>
          have hne : t ≠ a.current := fun he => by simp [he, hRunning] at hBlocked
          simpa [RunQueue.enqueue, hne] using pick_unready hReady (by simp) hBlocked
      · next hRunning =>
          refine pick_unready (fun t p ht => (((h.retire hRunning).waiting t p).mp ht).1) ?_ hRetire
          simp

/-- Switching brings no table entry into use. -/
theorem Inv.reschedule_live (h : a.Inv) (hLive : a.reschedule.status t ≠ .invalid) :
    a.status t ≠ .invalid := by
  intro hInvalid
  have hRetire : a.retire.status t = .invalid := by
    by_cases hc : a.status a.current = .finished
    · by_cases ht : t = a.current
      · simp [retire_status hc, ht]
      · simp [retire_status hc, ht, hInvalid]
    · rwa [retire_eq_self hc]
  apply hLive
  unfold RunQueue.reschedule
  split
  · split
    · exact hInvalid
    · exact hRetire
  · split
    · exact hInvalid
    · split
      · have hne : t ≠ a.current := fun he => h.current (he ▸ hInvalid)
        have hReady : ∀ t p, t ∈ a.waiting p → a.status t = .ready := fun t p ht =>
          ((h.waiting t p).mp ht).1
        simpa [RunQueue.enqueue, hne] using pick_unready hReady (by simp) hInvalid
      · next hRunning =>
          refine pick_unready (fun t p ht => (((h.retire hRunning).waiting t p).mp ht).1) ?_ hRetire
          simp

/-- Only the current task can give its table entry up. -/
theorem reschedule_alive (ht : t ≠ a.current) (hLive : a.status t ≠ .invalid) :
    a.reschedule.status t ≠ .invalid := by
  have hRetire : a.retire.status t = a.status t := by
    unfold RunQueue.retire
    split
    · exact Function.update_of_ne ht _ _
    · rfl
  have hPick : ∀ (b : RunQueue) (p : Nat), b.status t = a.status t → (b.pick p).status t ≠ .invalid := by
    intro b p hb
    unfold RunQueue.pick
    split
    · exact hb ▸ hLive
    · next u rest _ =>
        by_cases hu : t = u
        · simp [hu]
        · simpa [hu, hb] using hLive
  unfold RunQueue.reschedule
  split
  · split
    · exact hLive
    · exact hRetire ▸ hLive
  · split
    · exact hLive
    · split
      · simpa [RunQueue.enqueue, ht] using hPick a _ rfl
      · exact hPick a.retire _ hRetire

/-- An exited task has given its table entry up after the switch. -/
theorem Inv.reschedule_finished (h : a.Inv) (hFinished : a.status a.current = .finished) :
    a.reschedule.status a.current = .invalid := by
  have hRunning : a.status a.current ≠ .running := by simp [hFinished]
  have hRetire : a.retire.status a.current = .invalid := by simp [retire_status hFinished]
  unfold RunQueue.reschedule
  split
  · rw [if_neg (by simp [hFinished])]
    exact hRetire
  · rw [if_neg (by simp [hFinished]), if_neg hRunning]
    refine pick_unready (fun t p ht => (((h.retire hRunning).waiting t p).mp ht).1) ?_ hRetire
    simp

theorem block_live (h : a.Inv) (hLive : a.block.status t ≠ .invalid) : a.status t ≠ .invalid := by
  by_cases ht : t = a.current
  · exact ht ▸ h.current
  · rw [RunQueue.block] at hLive
    split at hLive
    · simpa [ht] using hLive
    · exact hLive

theorem wake_live (hLive : (a.wake u).status t ≠ .invalid) : a.status t ≠ .invalid := by
  rw [RunQueue.wake] at hLive
  split at hLive
  · rename_i hBlocked
    by_cases ht : t = u
    · simp [ht, hBlocked]
    · simpa [RunQueue.enqueue, ht] using hLive
  · exact hLive

theorem exit_live (h : a.Inv) (hLive : a.exit.status t ≠ .invalid) : a.status t ≠ .invalid := by
  by_cases ht : t = a.current
  · exact ht ▸ h.current
  · simpa [RunQueue.exit, ht] using hLive

theorem runnable_enqueue (hNew : ¬ Runnable (a.status t)) :
    (a.enqueue t).runnable = a.runnable + 1 :=
  Counting.count_update_gain hNew (.inl rfl)

theorem runnable_wake (hBlocked : a.status t = .blocked) :
    (a.wake t).runnable = a.runnable + 1 := by
  rw [wake, if_pos hBlocked, runnable_enqueue (by simp [hBlocked])]

theorem runnable_create (hInvalid : a.status t = .invalid) :
    (a.create t p).runnable = a.runnable + 1 :=
  runnable_enqueue (a := { a with prio := Function.update a.prio t p }) (by simp [hInvalid])

/-- A running task that leaves is no longer counted. -/
theorem runnable_leave {s : TaskStatus} (hRunning : a.status a.current = .running)
    (hNew : ¬ Runnable s) :
    runnable { a with status := Function.update a.status a.current s } + 1 = a.runnable :=
  Counting.count_update_lose (.inr hRunning) hNew

theorem runnable_block (hRunning : a.status a.current = .running) :
    a.block.runnable + 1 = a.runnable := by
  rw [block, if_pos hRunning, runnable_leave hRunning (by simp)]

theorem runnable_exit (hRunning : a.status a.current = .running) :
    a.exit.runnable + 1 = a.runnable :=
  runnable_leave hRunning (by simp)

theorem runnable_retire : a.retire.runnable = a.runnable := by
  by_cases h : a.status a.current = .finished
  · rw [retire, if_pos h]
    exact Counting.count_update_of_iff (by simp [h, Runnable])
  · rw [retire, if_neg h]

theorem runnable_pick (h : ∀ t p, t ∈ a.waiting p → a.status t = .ready) :
    (a.pick p).runnable = a.runnable := by
  cases hQueue : a.waiting p with
  | nil => simp [pick, hQueue]
  | cons t rest =>
      rw [pick_eq hQueue]
      exact Counting.count_update_of_iff (by simp [h t p (by simp [hQueue]), Runnable])

/-- Switching tasks neither creates nor loses a runnable task. -/
theorem Inv.runnable_reschedule (h : a.Inv) : a.reschedule.runnable = a.runnable := by
  unfold RunQueue.reschedule
  cases hTop : a.top with
  | none =>
      simp only
      split
      · rfl
      · exact runnable_retire
  | some p =>
      simp only
      split
      · rfl
      · split
        · next hRunning =>
            have hFull := (topBelow_eq_some.mp hTop).2.1
            have hVacant := h.leave (s := .blocked) (by simp [hRunning]) (by simp [hRunning])
              (.inl rfl)
            obtain ⟨t, rest, hQueue⟩ := List.exists_cons_of_ne_nil hFull
            have hReady := ((h.waiting t p).mp (by simp [hQueue])).1
            have hne : a.current ≠ t := fun he => by simp [← he, hRunning] at hReady
            rw [preempt_eq .blocked hRunning hFull h, runnable_enqueue,
              runnable_pick fun t p ht => ((hVacant.waiting t p).mp ht).1]
            · exact runnable_leave hRunning (by simp)
            · rw [pick_eq (by exact hQueue)]
              simp [hne]
        · next hRunning =>
            rw [runnable_pick fun t p ht => (((h.retire hRunning).waiting t p).mp ht).1,
              runnable_retire]

theorem runnable_le : a.runnable ≤ maxTasks :=
  Counting.count_le_card.trans (le_of_eq (Fintype.card_fin maxTasks))

end RunQueue
end ArtOS

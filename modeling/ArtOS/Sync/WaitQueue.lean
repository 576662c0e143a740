import ArtOS.Sync.Semaphore

/-! The waiters of a semaphore form a first-in first-out queue: the ring holds
the tasks that are blocked in `sem_wait`, in the order in which they joined. -/
namespace ArtOS.SemRun

/-- The log lists the tasks that ever joined the queue; those from `lo` on are
still waiting. -/
structure Queued (r : SemRun) (log : List TaskPtr) (lo : Nat) : Prop where
  ring : Ring.Holds maxTasks r.sem.slot log lo
  pos : r.sem.pos = log.length % maxTasks
  waiting : ∀ t, r.pc t = .waiting ↔ t ∈ log.drop lo
  sorted : (log.drop lo).Pairwise fun t u => r.since t < r.since u
  past : ∀ t, r.pc t = .waiting → r.since t < r.clock
  blocked : ∀ t, r.pc t = .waiting → r.kernel.task.status t = .blocked
  value : r.sem.value < 2 ^ 32

def Sound (r : SemRun) : Prop := (∃ a, r.kernel.Sound a) ∧ ∃ log lo, r.Queued log lo

variable {r r' : SemRun} {log : List TaskPtr} {lo : Nat} {t : TaskPtr} {k : Kernel}
  {a : RunQueue}

theorem Initial.sound (h : r.Initial) : r.Sound := by
  obtain ⟨hKernel, ⟨v, hv, hSem⟩, hPc⟩ := h
  refine ⟨hKernel, [], 0, Ring.Holds.start fun j _ => ?_, ?_, fun t => ?_, List.Pairwise.nil,
    fun t ht => ?_, fun t ht => ?_, ?_⟩
  · rw [Sem.slot_eq_none, hSem]
    exact lt_irrefl maxTasks
  · rw [hSem]
    rfl
  · simp [hPc]
  · simp [hPc] at ht
  · simp [hPc] at ht
  · rwa [hSem]

/-- The kernel may go on as it likes while nobody wakes a waiting task. -/
theorem Sound.switch (h : r.Sound) (hSwitch : r.Switch k) : Sound { r with kernel := k } := by
  obtain ⟨_, log, lo, hQueued⟩ := h
  exact ⟨hSwitch.1, log, lo, hQueued.ring, hQueued.pos, hQueued.waiting, hQueued.sorted,
    hQueued.past, hSwitch.2, hQueued.value⟩

theorem Queued.nodup (h : r.Queued log lo) : (log.drop lo).Nodup :=
  h.sorted.imp fun hlt he => (he ▸ hlt).false

/-- The idle task never waits, so a slot of the ring is always empty. -/
theorem Queued.room (h : r.Queued log lo) (hKernel : r.kernel.Sound a) :
    log.length < lo + maxTasks := by
  have hIdle : (0 : TaskPtr) ∉ log.drop lo := fun hMem => by
    have hBlocked := h.blocked 0 ((h.waiting 0).mpr hMem)
    rw [hKernel.represents.status, (hKernel.inv.idle 0).mpr rfl] at hBlocked
    simp at hBlocked
  have hCard := (List.nodup_cons.mpr ⟨hIdle, h.nodup⟩).length_le_card
  rw [List.length_cons, List.length_drop, Fintype.card_fin] at hCard
  omega

theorem Queued.not_waiting (h : r.Queued log lo) (hRunning : r.kernel.currentStatus = .running) :
    r.pc r.kernel.currentTask ≠ .waiting := fun hWaiting => by
  have hBlocked := h.blocked _ hWaiting
  simp [Kernel.currentStatus, hBlocked] at hRunning

/-- A waiting task occupies exactly one slot. -/
theorem Queued.existsUnique_slot (h : r.Queued log lo) (hWaiting : r.pc t = .waiting) :
    ∃! j, j < maxTasks ∧ r.sem.queue j = t := by
  obtain ⟨i, hi, hEntry⟩ := List.getElem_of_mem ((h.waiting t).mp hWaiting)
  have hEntry' : log[lo + i]? = some t := by
    rw [← List.getElem?_drop, List.getElem?_eq_getElem hi, hEntry]
  have hSlot := h.ring.get (by decide) (Nat.le_add_right lo i) hEntry'
  refine ⟨(lo + i) % maxTasks, ⟨Nat.mod_lt _ (by decide), Sem.slot_eq_some.mp hSlot⟩, ?_⟩
  rintro j ⟨hj, hQueue⟩
  obtain ⟨i', hLow, hEntry'', hMod⟩ := (h.ring.content j hj t).mp (Sem.slot_eq_some.mpr hQueue)
  have hSame : i = i' - lo := by
    refine (List.getElem?_inj hi h.nodup).mp ?_
    rw [List.getElem?_drop, List.getElem?_drop, hEntry', Nat.add_sub_cancel' hLow, hEntry'']
  rw [← hMod, hSame, Nat.add_sub_cancel' hLow]

/-- The first part of `sem_wait` when there is a unit. -/
theorem Sound.wait_got (h : r.Sound) (hRunning : r.kernel.currentStatus = .running)
    (hValue : 0 < r.sem.value) :
    ∃ r', r.exec .wait = some r' ∧ r'.Sound ∧ r'.sem.value + 1 = r.sem.value ∧
      r'.pc = Function.update r.pc r.kernel.currentTask .outside := by
  obtain ⟨hKernel, log, lo, hQueued⟩ := h
  have hCurrent := hQueued.not_waiting hRunning
  have hWaiting : ∀ t, Function.update r.pc r.kernel.currentTask .outside t = .waiting ↔
      r.pc t = .waiting := fun t => by
    by_cases ht : t = r.kernel.currentTask
    · simp [ht, hCurrent]
    · simp [ht]
  refine ⟨{ r with
      sem := { r.sem with value := r.sem.value - 1 }
      pc := Function.update r.pc r.kernel.currentTask .outside
      clock := r.clock + 1 }, by rw [exec, Sem.wait, if_pos hValue]; rfl,
    ⟨hKernel, log, lo, hQueued.ring, hQueued.pos,
      fun t => (hWaiting t).trans (hQueued.waiting t), hQueued.sorted, fun t ht => ?_,
      fun t ht => hQueued.blocked t ((hWaiting t).mp ht), ?_⟩, Nat.sub_add_cancel hValue, rfl⟩
  · exact (hQueued.past t ((hWaiting t).mp ht)).trans (Nat.lt_succ_self _)
  · exact (Nat.sub_le _ _).trans_lt hQueued.value

/-- Without a unit the task joins the queue and blocks. -/
theorem Sound.wait_block (h : r.Sound) (hRunning : r.kernel.currentStatus = .running)
    (hValue : r.sem.value = 0) :
    ∃ r', r.exec .wait = some r' ∧ r'.Sound ∧ r'.sem.value = 0 ∧
      r'.pc = Function.update r.pc r.kernel.currentTask .waiting := by
  obtain ⟨⟨a, hInv, hSettled, hRep⟩, log, lo, hQueued⟩ := h
  obtain ⟨k', ret, hBlock, hRep', _⟩ := Kernel.blockCurrentTask_refines hInv hRep
  have hCurrent := hQueued.not_waiting hRunning
  have hRoom := hQueued.room ⟨hInv, hSettled, hRep⟩
  have hNew : r.kernel.currentTask ∉ log.drop lo := mt (hQueued.waiting _).mpr hCurrent
  have hId : r.kernel.task.id r.kernel.currentTask = r.kernel.currentTask := by
    rw [hRep.current]
    exact hRep.id _ hInv.current
  have hDrop : (log ++ [r.kernel.currentTask]).drop lo = log.drop lo ++ [r.kernel.currentTask] :=
    List.drop_append_of_le_length hQueued.ring.low
  have hStatus : k'.task.status =
      Function.update r.kernel.task.status r.kernel.currentTask .blocked := by
    rw [Kernel.currentStatus, hRep.status, hRep.current] at hRunning
    rw [hRep'.status, RunQueue.block, if_pos hRunning, hRep.status, hRep.current]
  have hSince : ∀ t ∈ log.drop lo,
      Function.update r.since r.kernel.currentTask r.clock t = r.since t := fun t ht => by
    have hne : t ≠ r.kernel.currentTask := fun he => hNew (he ▸ ht)
    simp [hne]
  refine ⟨{
      kernel := k'
      sem := { r.sem with
        queue := Function.update r.sem.queue r.sem.pos (r.kernel.task.id r.kernel.currentTask)
        pos := (r.sem.pos + 1) % maxTasks }
      pc := Function.update r.pc r.kernel.currentTask .waiting
      clock := r.clock + 1
      since := Function.update r.since r.kernel.currentTask r.clock },
    by simp [exec, Sem.wait, hValue, hBlock],
    ⟨⟨a.block, hInv.block, hSettled.block, hRep'⟩, log ++ [r.kernel.currentTask], lo, ?_⟩,
    hValue, rfl⟩
  refine ⟨?_, ?_, fun t => ?_, ?_, fun t ht => ?_, fun t ht => ?_, hQueued.value⟩
  · have hPush := hQueued.ring.push hRoom r.kernel.currentTask
    rw [← hQueued.pos, ← Sem.slot_update_id, ← hId] at hPush
    exact hPush
  · simp [hQueued.pos]
  · rw [hDrop, List.mem_append, List.mem_singleton, ← hQueued.waiting]
    by_cases ht : t = r.kernel.currentTask <;> simp [ht]
  · rw [hDrop, List.pairwise_append]
    refine ⟨hQueued.sorted.imp_of_mem fun ht hu hlt => ?_, List.pairwise_singleton _ _,
      fun t ht u hu => ?_⟩
    · simpa only [hSince _ ht, hSince _ hu] using hlt
    · simpa only [List.mem_singleton.mp hu, Function.update_self, hSince _ ht] using
        hQueued.past t ((hQueued.waiting t).mpr ht)
  · by_cases hc : t = r.kernel.currentTask
    · simp [hc]
    · have hPast := hQueued.past t (by simpa [hc] using ht)
      simpa [hc] using hPast.trans (Nat.lt_succ_self _)
  · by_cases hc : t = r.kernel.currentTask
    · simp [hStatus, hc]
    · simpa [hStatus, hc] using hQueued.blocked t (by simpa [hc] using ht)

theorem Sound.trywait (h : r.Sound) :
    ∃ r', r.exec .trywait = some r' ∧ r'.Sound ∧ r'.sem.value = r.sem.value - 1 ∧ r'.pc = r.pc := by
  obtain ⟨hKernel, log, lo, hQueued⟩ := h
  by_cases hValue : 0 < r.sem.value
  · refine ⟨{ r with sem := { r.sem with value := r.sem.value - 1 } },
      by simp [exec, Sem.trywait, hValue], ⟨hKernel, log, lo, hQueued.ring, hQueued.pos,
        hQueued.waiting, hQueued.sorted, hQueued.past, hQueued.blocked, ?_⟩, rfl, rfl⟩
    exact (Nat.sub_le _ _).trans_lt hQueued.value
  · exact ⟨r, by simp [exec, Sem.trywait, hValue], ⟨hKernel, log, lo, hQueued⟩, by omega, rfl⟩

/-- A post that finds units, or nobody to wake, only counts. -/
theorem Sound.post_count (h : r.Sound) (hNobody : 0 < r.sem.value ∨ ∀ t, r.pc t ≠ .waiting) :
    ∃ r', r.exec .post = some r' ∧ r'.Sound ∧ r'.sem.value = incr32 r.sem.value ∧
      r'.pc = r.pc ∧ r'.kernel = r.kernel := by
  obtain ⟨hKernel, log, lo, hQueued⟩ := h
  refine ⟨{ r with sem := { r.sem with value := incr32 r.sem.value } }, ?_,
    ⟨hKernel, log, lo, hQueued.ring, hQueued.pos, hQueued.waiting, hQueued.sorted, hQueued.past,
      hQueued.blocked, Nat.mod_lt _ (by decide)⟩, rfl, rfl, rfl⟩
  by_cases hValue : 0 < r.sem.value
  · simp [exec, Sem.post, hValue]
  · have hEmpty : log.drop lo = [] := List.eq_nil_iff_forall_not_mem.mpr fun t ht =>
      hNobody.resolve_left hValue t ((hQueued.waiting t).mpr ht)
    have hLength : log.length ≤ lo := List.drop_eq_nil_iff.mp hEmpty
    have hPos : r.sem.pos < maxTasks := hQueued.pos ▸ Nat.mod_lt _ (by decide)
    have hNone : r.sem.findWaiter maxTasks r.sem.pos = none :=
      Sem.findWaiter_eq_none
        (fun j hj => hQueued.ring.eq_none hj fun i hi hi' => by omega) hPos
    simp [exec, Sem.post, hValue, hNone]

/-- The search from `pos` on passes the empty slots and meets the oldest entry. -/
theorem findWaiter_oldest (h : r.Queued log lo) (hFull : lo < log.length)
    (hSlot : r.sem.slot (lo % maxTasks) ≠ none) :
    r.sem.findWaiter maxTasks r.sem.pos = some (lo % maxTasks) := by
  have hRoom := h.ring.room
  have hPos : r.sem.pos < maxTasks := h.pos ▸ Nat.mod_lt _ (by decide)
  have hWalk : ∀ k, (r.sem.pos + k) % maxTasks = (log.length + k) % maxTasks := fun k => by
    rw [h.pos, Nat.mod_add_mod]
  obtain ⟨k, hk⟩ := Nat.exists_eq_add_of_le hRoom
  have hOldest : (r.sem.pos + k) % maxTasks = lo % maxTasks := by
    rw [hWalk, Ring.walk_oldest hk.symm]
  rw [← hOldest]
  refine Sem.findWaiter_spec (by omega) (fun k' hk' => ?_) (hOldest ▸ hSlot) hPos
  rw [hWalk]
  exact h.ring.walk_eq_none (by omega)

/-- A post that finds no unit wakes the task that has waited longest, and only it. -/
theorem Sound.post_wake (h : r.Sound) (hValue : r.sem.value = 0)
    (hWaiting : ∃ t, r.pc t = .waiting) :
    ∃ r' s k t, r.sem.post r.kernel = some (s, k, some t) ∧ r.exec .post = some r' ∧ r'.Sound ∧
      r'.sem.value = 1 ∧ r.pc t = .waiting ∧
      (∀ u, r.pc u = .waiting → u ≠ t → r.since t < r.since u) ∧
      r'.pc = Function.update r.pc t .woken ∧
      k.task.status = Function.update r.kernel.task.status t .ready := by
  obtain ⟨⟨a, hInv, hSettled, hRep⟩, log, lo, hQueued⟩ := h
  obtain ⟨u, hu⟩ := hWaiting
  have hFull : lo < log.length := by
    have hLength := List.length_pos_of_mem ((hQueued.waiting u).mp hu)
    rw [List.length_drop] at hLength
    omega
  obtain ⟨t, hEntry⟩ : ∃ t, log[lo] = t := ⟨_, rfl⟩
  have hDrop : log.drop lo = t :: log.drop (lo + 1) := by
    rw [List.drop_eq_getElem_cons hFull, hEntry]
  have hWait : r.pc t = .waiting := (hQueued.waiting t).mpr (by simp [hDrop])
  have hSorted := hQueued.sorted
  have hNodup := hQueued.nodup
  rw [hDrop, List.pairwise_cons] at hSorted
  rw [hDrop, List.nodup_cons] at hNodup
  have hSlot : r.sem.slot (lo % maxTasks) = some t :=
    hQueued.ring.get (by decide) le_rfl (by rw [List.getElem?_eq_getElem hFull, hEntry])
  have hFind : r.sem.findWaiter maxTasks r.sem.pos = some (lo % maxTasks) :=
    findWaiter_oldest hQueued hFull (by simp [hSlot])
  have hQueue : r.sem.queue (lo % maxTasks) = t := Sem.slot_eq_some.mp hSlot
  have hBlocked : a.status t = .blocked := by rw [← hRep.status, hQueued.blocked t hWait]
  obtain ⟨k', ret, hWake, hRep', _⟩ := Kernel.wakeupTask_refines (t := t) hInv hRep
  have hStatus : k'.task.status = Function.update r.kernel.task.status t .ready := by
    rw [hRep'.status, RunQueue.wake, if_pos hBlocked, hRep.status]
    rfl
  have hPost : r.sem.post r.kernel = some ({ r.sem with
      value := 1, queue := Function.update r.sem.queue (lo % maxTasks) maxTasks }, k', some t) := by
    simp [Sem.post, hValue, hFind, hQueue, hWake, incr32]
  have hLeft : ∀ u, Function.update r.pc t .woken u = .waiting ↔ u ∈ log.drop (lo + 1) := by
    intro u
    by_cases hc : u = t
    · simp [hc, hNodup.1]
    · simp [hc, hQueued.waiting, hDrop]
  have hStill : ∀ u, Function.update r.pc t .woken u = .waiting → u ≠ t ∧ r.pc u = .waiting := by
    intro u hu
    have hc : u ≠ t := fun he => by simp [he] at hu
    exact ⟨hc, by simpa [hc] using hu⟩
  refine ⟨{ r with
      kernel := k'
      sem := { r.sem with
        value := 1, queue := Function.update r.sem.queue (lo % maxTasks) maxTasks }
      pc := Function.update r.pc t .woken }, _, k', t, hPost, by simp [exec, hPost],
    ⟨⟨a.wake t, hInv.wake, hSettled.wake, hRep'⟩, log, lo + 1, ?_, hQueued.pos, hLeft, hSorted.2,
      fun u hu => hQueued.past u (hStill u hu).2, fun u hu => ?_, by simp⟩, rfl, hWait,
    fun u hu hc => hSorted.1 u ?_, rfl, hStatus⟩
  · have hPop := hQueued.ring.pop hFull
    rw [← Sem.slot_update_maxTasks] at hPop
    exact hPop
  · obtain ⟨hc, hPc⟩ := hStill u hu
    simpa [hStatus, hc] using hQueued.blocked u hPc
  · have hMem := (hQueued.waiting u).mp hu
    simpa [hDrop, hc] using hMem

variable {mayPost : SemRun → Prop}

/-- Every allowed section has a result, and all steps keep the queue in order. -/
theorem Sound.exec (h : r.Sound) {code : SemSection} (hAllowed : r.Allowed code) :
    ∃ r', r.exec code = some r' ∧ r'.Sound := by
  cases code with
  | wait =>
      rcases Nat.eq_zero_or_pos r.sem.value with hValue | hValue
      · obtain ⟨r', hExec, hSound, _⟩ := h.wait_block hAllowed hValue
        exact ⟨r', hExec, hSound⟩
      · obtain ⟨r', hExec, hSound, _⟩ := h.wait_got hAllowed hValue
        exact ⟨r', hExec, hSound⟩
  | trywait =>
      obtain ⟨r', hExec, hSound, _⟩ := h.trywait
      exact ⟨r', hExec, hSound⟩
  | post =>
      by_cases hNobody : 0 < r.sem.value ∨ ∀ t, r.pc t ≠ .waiting
      · obtain ⟨r', hExec, hSound, _⟩ := h.post_count hNobody
        exact ⟨r', hExec, hSound⟩
      · simp only [not_or, not_lt, Nat.le_zero, not_forall, not_not] at hNobody
        obtain ⟨r', _, _, _, _, hExec, hSound, _⟩ := h.post_wake hNobody.1 hNobody.2
        exact ⟨r', hExec, hSound⟩

theorem Sound.step (h : r.Sound) (hStep : Step mayPost r r') : r'.Sound := by
  rcases hStep with ⟨code, hAllowed, _, hExec⟩ | ⟨k, hSwitch, rfl⟩
  · obtain ⟨r₁, hExec', hSound⟩ := h.exec hAllowed
    exact Option.some.inj (hExec.symm.trans hExec') ▸ hSound
  · exact h.switch hSwitch

theorem reachable_sound (h : Reachable mayPost r) : r.Sound :=
  h.invariant (P := Sound) (fun _ hr => hr.sound) fun _ _ hr hStep => hr.step hStep

/-- The scheduler is one of the things that may happen between two sections. -/
theorem Switch.reschedule (h : r.Sound) (hExec : r.kernel.reschedule = some k) : r.Switch k := by
  obtain ⟨⟨a, hInv, _, hRep⟩, log, lo, hQueued⟩ := h
  obtain ⟨k', hExec', hRep', _⟩ := Kernel.reschedule_refines hInv hRep
  obtain rfl := Option.some.inj (hExec.symm.trans hExec')
  obtain ⟨hInv', hSettled'⟩ := hInv.reschedule
  refine ⟨⟨a.reschedule, hInv', hSettled', hRep'⟩, fun t ht => ?_⟩
  rw [hRep'.status]
  exact hInv.reschedule_blocked (by rw [← hRep.status, hQueued.blocked t ht])

instance (r : SemRun) (code : SemSection) : Decidable (r.Allowed code) :=
  match code with
  | .wait => inferInstanceAs (Decidable (_ = _))
  | .trywait | .post => inferInstanceAs (Decidable (_ ∧ _))

/-- A test run: the current task executes a section, or `reschedule` runs. -/
def play (mayPost : SemRun → Prop) [DecidablePred mayPost] :
    List (Option SemSection) → SemRun → Option SemRun
  | [], r => some r
  | none :: rest, r =>
      r.kernel.reschedule.bind fun k => play mayPost rest { r with kernel := k }
  | some code :: rest, r =>
      if r.Allowed code ∧ (code = .post → mayPost r) then
        (r.exec code).bind (play mayPost rest)
      else none

theorem reachable_play [DecidablePred mayPost] {script : List (Option SemSection)}
    (h : Reachable mayPost r) (hPlay : play mayPost script r = some r') :
    Reachable mayPost r' := by
  induction script generalizing r with
  | nil => exact Option.some.inj hPlay ▸ h
  | cons event rest ih =>
      cases event with
      | none =>
          obtain ⟨k, hExec, hRest⟩ := Option.bind_eq_some_iff.mp hPlay
          exact ih (h.next (.inr ⟨k, Switch.reschedule (reachable_sound h) hExec, rfl⟩)) hRest
      | some code =>
          unfold play at hPlay
          split at hPlay
          · next hAllowed =>
              obtain ⟨r₁, hExec, hRest⟩ := Option.bind_eq_some_iff.mp hPlay
              exact ih (h.next (.inl ⟨code, hAllowed.1, hAllowed.2, hExec⟩)) hRest
          · simp at hPlay

/-- Three tasks of one priority, the first of them running, and a semaphore without units. -/
def exampleRun (k : Kernel) : SemRun := ⟨k, Sem.init 0, fun _ => .outside, 0, fun _ => 0⟩

def exampleCalls : List Call :=
  [.create 1 0 5 ⟨4096, 0⟩, .create 1 0 5 ⟨8192, 0⟩, .create 1 0 5 ⟨12288, 0⟩, .schedule]

theorem exampleRun_reachable
    (hRun : Call.run (fun k => k.currentStatus ≠ .ready) exampleCalls Kernel.exampleKernel =
      some k) : Reachable mayPost (exampleRun k) :=
  Transition.Reachable.of_init ⟨Kernel.reachable_sound
    (Kernel.reachable_run Kernel.exampleKernel_reachable hRun), ⟨0, by decide, rfl⟩, fun _ => rfl⟩

/-- The waiters of a semaphore, in any interleaving of its sections: each of them
stands in one slot, the slot that `sem_wait` writes to is free, and a post that
finds no unit wakes the one that joined first. -/
theorem reachable_waiters (h : Reachable mayPost r) :
    (∀ t, r.pc t = .waiting →
      r.kernel.task.status t = .blocked ∧ ∃! j, j < maxTasks ∧ r.sem.queue j = t) ∧
    ¬ r.sem.queue r.sem.pos < maxTasks ∧
    (r.Allowed .post → r.sem.value = 0 → (∃ t, r.pc t = .waiting) →
      ∃ s k t, r.sem.post r.kernel = some (s, k, some t) ∧ r.pc t = .waiting ∧
        (∀ u, r.pc u = .waiting → u ≠ t → r.since t < r.since u) ∧
        k.task.status = Function.update r.kernel.task.status t .ready) ∧
    ∀ code, r.Allowed code → ∃ r', r.exec code = some r' := by
  have hSound := reachable_sound h
  obtain ⟨⟨a, hKernel⟩, log, lo, hQueued⟩ := id hSound
  refine ⟨fun t ht => ⟨hQueued.blocked t ht, hQueued.existsUnique_slot ht⟩, ?_,
    fun _ hValue hWaiting => ?_, fun code hAllowed => ?_⟩
  · rw [← Sem.slot_eq_none, hQueued.pos]
    exact hQueued.ring.next_eq_none (hQueued.room hKernel)
  · obtain ⟨_, s, k, t, hPost, _, _, _, hWait, hOldest, _, hStatus⟩ :=
      hSound.post_wake hValue hWaiting
    exact ⟨s, k, t, hPost, hWait, hOldest, hStatus⟩
  · obtain ⟨r', hExec, _⟩ := hSound.exec hAllowed
    exact ⟨r', hExec⟩

/-- What a test run on the example shows, as a computation. -/
def observe {Value : Type*} (mayPost : SemRun → Prop) [DecidablePred mayPost]
    (script : List (Option SemSection)) (view : SemRun → Value) : Option Value :=
  (Call.run (fun k => k.currentStatus ≠ .ready) exampleCalls Kernel.exampleKernel).bind fun k =>
    (play mayPost script (exampleRun k)).map view

theorem exists_of_observe {Value : Type*} [DecidablePred mayPost]
    {script : List (Option SemSection)} {view : SemRun → Value} {value : Value}
    (h : observe mayPost script view = some value) :
    ∃ r, Reachable mayPost r ∧ view r = value := by
  obtain ⟨k, hRun, hRest⟩ := Option.bind_eq_some_iff.mp h
  obtain ⟨r, hPlay, hView⟩ := Option.map_eq_some_iff.mp hRest
  exact ⟨r, reachable_play (exampleRun_reachable hRun) hPlay, hView⟩

theorem reachable_waiters_example :
    ∃ r, Reachable (fun _ => True) r ∧ r.pc 1 = .waiting ∧
      ∃! j, j < maxTasks ∧ r.sem.queue j = (1 : TaskPtr) := by
  have hObserve : observe (fun _ => True) [some .wait, none, some .wait, none]
      (fun r => r.pc 1) = some SemPc.waiting := by decide +kernel
  obtain ⟨r, hReach, hView⟩ := exists_of_observe hObserve
  exact ⟨r, hReach, hView, ((reachable_waiters hReach).1 1 hView).2⟩

end ArtOS.SemRun

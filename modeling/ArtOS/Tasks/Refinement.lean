import ArtOS.Tasks.ReadyQueue
import ArtOS.Tasks.RunQueue

/-! Every scheduling operation of the source does to the pointers, the bitmap
and the table what the corresponding operation of `RunQueue` does to lists. -/
namespace ArtOS.Kernel

open LinkedList

/-- `k` stores the run queue `a`, and `old` still has to be dealt with by
`finish_task_switch`. -/
structure Stores (k : Kernel) (a : RunQueue) (old : Option TaskPtr) : Prop where
  threaded : k.Threaded a.waiting
  bitmap : Bitmap k.prioBitmap a.waiting
  status : k.task.status = a.status
  prio : k.task.prio = a.prio
  current : k.currentTask = a.current
  idle : k.idle = 0
  oldTask : k.oldTask = old
  id : ∀ t, a.status t ≠ .invalid → k.task.id t = t
  unlinked : a.status a.current = .running →
    k.task.next a.current = none ∧ k.task.prev a.current = none

abbrev Represents (k : Kernel) (a : RunQueue) : Prop := k.Stores a none

variable {k k' : Kernel} {a : RunQueue} {old : Option TaskPtr} {t : TaskPtr} {p : Nat}

/-- `prio_bitmap` and `msb` find the highest priority with a waiting task. -/
theorem msb_prioBitmap (h : Bitmap k.prioBitmap a.waiting) :
    match a.top with
    | none => msb k.prioBitmap = 32
    | some p => msb k.prioBitmap = p := by
  cases hTop : a.top with
  | none =>
      have hEmpty := RunQueue.topBelow_eq_none.mp hTop
      have hZero : k.prioBitmap = 0 := by
        refine BitVec.eq_of_getLsbD_eq fun i hi => ?_
        have hi' := (h i hi).not_left.mpr (hEmpty i hi)
        simpa using hi'
      rw [hZero]
      exact msb_zero
  | some p =>
      obtain ⟨hlt, hFull, hAbove⟩ := RunQueue.topBelow_eq_some.mp hTop
      have hBit := (h p hlt).mpr hFull
      have hne : k.prioBitmap ≠ 0 := fun he => by simp [he] at hBit
      obtain ⟨hRange, hSet, hHigh⟩ := msb_spec hne
      have hFull' := (h _ hRange).mp hSet
      have hLe : msb k.prioBitmap ≤ p := by
        by_contra hgt
        exact hFull' (hAbove _ (by omega) hRange)
      rcases Nat.lt_or_ge (msb k.prioBitmap) p with hlt' | hge
      · simp [hHigh p hlt'] at hBit
      · simp only
        omega

/-- A task that is already marked ready is queued: together with a fitting
bitmap this is `RunQueue.enqueue`. -/
theorem Stores.linkLast (before : BitVec 32) {tested : Option TaskPtr}
    (h : (k.setBitmap before).Stores { a with status := Function.update a.status t .ready } old)
    (hOff : ∀ p, t ∉ a.waiting p)
    (hRunning : a.status a.current = .running → ∀ p, a.current ∉ a.waiting p)
    (hTested : tested = none ↔ a.waiting (a.prio t) = []) :
    ∃ k', k.linkLast (a.prio t) t tested = some k' ∧ k.Relinked k' ∧
      ∀ b, Bitmap b (a.enqueue t).waiting → (k'.setBitmap b).Stores (a.enqueue t) old := by
  have hThreaded : k.Threaded a.waiting := h.threaded.congr rfl rfl
  obtain ⟨k', hLink, hSame, hThreaded', hFrame⟩ := hThreaded.linkLast hOff hTested
  refine ⟨k', hLink, hSame, fun b hBitmap => ?_⟩
  refine ⟨hThreaded'.congr rfl rfl, hBitmap, hSame.status.trans h.status,
    hSame.prio.trans h.prio, hSame.currentTask.trans h.current, hSame.idle.trans h.idle,
    hSame.oldTask.trans h.oldTask, fun u hu => ?_, fun hc => ?_⟩
  · exact (congrFun hSame.id u).trans (h.id u hu)
  · have hne : a.current ≠ t := fun he => by simp [RunQueue.enqueue, he] at hc
    have hc' : a.status a.current = .running := by simpa [RunQueue.enqueue, hne] using hc
    obtain ⟨hNext, hPrev⟩ := h.unlinked hc
    obtain ⟨hNext', hPrev'⟩ := hFrame _ hne (hRunning hc' _)
    exact ⟨hNext'.trans hNext, hPrev'.trans hPrev⟩

theorem Stores.bitmap_push (h : Bitmap k.prioBitmap a.waiting) :
    Bitmap (k.prioBitmap ||| prioBit (a.prio t)) (a.enqueue t).waiting :=
  h.push (by simp)

theorem not_mem_waiting (hInv : a.Inv) (hReady : a.status t ≠ .ready) (p : Nat) :
    t ∉ a.waiting p := fun ht => hReady ((hInv.waiting t p).mp ht).1

/-- Assigning a status other than running; the entry keeps its links. -/
theorem Stores.setStatus {f : Task → Task} {s : TaskStatus} (h : k.Stores a old)
    (hf : ∀ x, (f x).status = s ∧ (f x).prio = x.prio ∧ (f x).id = x.id ∧
      (f x).next = x.next ∧ (f x).prev = x.prev)
    (hs : s ≠ .running) (hId : s ≠ .invalid → a.status t ≠ .invalid) :
    (k.setTask t f).Stores { a with status := Function.update a.status t s } old := by
  obtain ⟨hStatus, hPrio, hTaskId, hNext, hPrev⟩ := hf (k.task t)
  have hNext' : (k.setTask t f).task.next = k.task.next := by simp [hNext]
  have hPrev' : (k.setTask t f).task.prev = k.task.prev := by simp [hPrev]
  refine ⟨h.threaded.congr hNext' rfl, h.bitmap, by simp [hStatus, h.status],
    by simp [hPrio, h.prio], h.current, h.idle, h.oldTask, fun u hu => ?_, fun hc => ?_⟩
  · have hu' : a.status u ≠ .invalid := by
      by_cases he : u = t
      · exact he ▸ hId (by simpa [he] using hu)
      · simpa [he] using hu
    simpa [hTaskId] using h.id u hu'
  · have hne : a.current ≠ t := fun he => hs (by simpa [he] using hc)
    rw [hNext', hPrev']
    exact h.unlinked (by simpa [hne] using hc)

/-- Fields outside the scheduler's view. -/
theorem Stores.congr (h : k.Stores a old) (hStatus : k'.task.status = k.task.status)
    (hPrio : k'.task.prio = k.task.prio) (hId : k'.task.id = k.task.id)
    (hNext : k'.task.next = k.task.next) (hPrev : k'.task.prev = k.task.prev)
    (hQueue : k'.queue = k.queue) (hBitmap : k'.prioBitmap = k.prioBitmap)
    (hCurrent : k'.currentTask = k.currentTask) (hIdle : k'.idle = k.idle) :
    k'.Stores a k'.oldTask :=
  ⟨h.threaded.congr hNext hQueue, hBitmap ▸ h.bitmap, hStatus.trans h.status,
    hPrio.trans h.prio, hCurrent.trans h.current, hIdle.trans h.idle, rfl,
    fun t ht => hId ▸ h.id t ht, fun hc => by rw [hNext, hPrev]; exact h.unlinked hc⟩

theorem Stores.setOldTask (h : k.Stores a old) (o : Option TaskPtr) :
    (k.setOldTask o).Stores a o :=
  h.congr rfl rfl rfl rfl rfl rfl rfl rfl rfl

theorem Stores.setNrTasks (h : k.Stores a old) (n : Nat) : (k.setNrTasks n).Stores a old :=
  ⟨h.threaded.congr rfl rfl, h.bitmap, h.status, h.prio, h.current, h.idle, h.oldTask, h.id,
    h.unlinked⟩

theorem wakeupTask_refines (hInv : a.Inv) (h : k.Represents a) :
    ∃ k' ret, k.wakeupTask t = some (k', ret) ∧ k'.Represents (a.wake t) ∧
      k'.nrTasks = if a.status t = .blocked then incr32 k.nrTasks else k.nrTasks := by
  by_cases hBlocked : a.status t = .blocked
  · have hStatus : k.task.status t = .blocked := by rw [h.status, hBlocked]
    have hPrio : k.task.prio t = a.prio t := by rw [h.prio]
    have hOff := not_mem_waiting hInv (t := t) (by simp [hBlocked])
    have hMarked := (h.setStatus (t := t) (f := fun x => { x with status := .ready })
      (fun _ => ⟨rfl, rfl, rfl, rfl, rfl⟩) (by simp) (by simp [hBlocked])).setNrTasks
        (incr32 k.nrTasks)
    have hTested := h.threaded.last_eq_none (a.prio t)
    obtain ⟨k', hLink, hSame, hStores⟩ := Stores.linkLast (a := a) (t := t)
      (k := (k.setTask t fun x => { x with status := .ready }).setNrTasks (incr32 k.nrTasks))
      k.prioBitmap hMarked hOff (fun hc => not_mem_waiting hInv (by simp [hc])) hTested
    let bitmap := if (k.queue (a.prio t)).last = none then
      k.prioBitmap ||| prioBit (a.prio t) else k.prioBitmap
    have hBitmap : Bitmap bitmap (a.enqueue t).waiting := by
      simp only [bitmap]
      split
      · exact Stores.bitmap_push h.bitmap
      · next hLast =>
          refine h.bitmap.mono (p := a.prio t) (fun i _ hi => ?_) fun hp => ?_
          · simp [RunQueue.enqueue, hi]
          · simpa [RunQueue.enqueue] using (h.bitmap _ hp).mpr (mt hTested.mpr hLast)
    refine ⟨k'.setBitmap bitmap, 0, ?_, ?_, ?_⟩
    · simp only [wakeupTask, hStatus, if_true, hPrio]
      exact congrArg (Option.map fun k' => (k'.setBitmap bitmap, (0 : Int))) hLink
    · rw [RunQueue.wake, if_pos hBlocked]
      exact hStores bitmap hBitmap
    · simp [hBlocked, hSame.nrTasks]
  · have hStatus : k.task.status t ≠ .blocked := by rwa [h.status]
    exact ⟨k, -einval, by simp [wakeupTask, hStatus], by simpa [RunQueue.wake, hBlocked] using h,
      by simp [hBlocked]⟩

/-- The running task is on no queue and has no neighbours, so the removal
code of `block_current_task` has nothing to remove. -/
theorem unlink_eq_self (h : k.Threaded a.waiting) (hBitmap : Bitmap k.prioBitmap a.waiting)
    (hOff : t ∉ a.waiting p) (hNext : k.task.next t = none)
    (hPrev : k.task.prev t = none) : k.unlink p t = k := by
  have hFirst : (k.queue p).first ≠ some t := by
    rw [(h.chain p).head?]
    exact fun he => hOff (List.mem_of_mem_head? he)
  have hLast : (k.queue p).last ≠ some t := by
    rw [h.last]
    exact fun he => hOff (List.mem_of_getLast? he)
  simp only [unlink, hNext, hPrev, hFirst, hLast, if_false]
  split
  · next hEmpty =>
      have hClear : k.prioBitmap &&& ~~~prioBit p = k.prioBitmap := by
        refine BitVec.eq_of_getLsbD_eq fun i hi => ?_
        simp only [BitVec.getLsbD_and, BitVec.getLsbD_not, getLsbD_prioBit hi]
        by_cases hp : i = p
        · have hBit := (hBitmap i hi).not_left.mpr (hp ▸ (h.first_eq_none p).mp hEmpty)
          simp [hBit]
        · simp [hp, hi]
      rw [hClear]
      rfl
  · rfl

theorem blockCurrentTask_refines (hInv : a.Inv) (h : k.Represents a) :
    ∃ k' ret, k.blockCurrentTask = some (k', ret) ∧ k'.Represents a.block ∧
      k'.nrTasks = if a.status a.current = .running then decr32 k.nrTasks else k.nrTasks := by
  have hId : k.task.id k.currentTask = a.current := by rw [h.current, h.id _ hInv.current]
  have hRange : k.task.id k.currentTask < maxTasks := hId ▸ a.current.isLt
  have hSelf : (⟨k.task.id k.currentTask, hRange⟩ : TaskPtr) = a.current := Fin.ext hId
  rw [blockCurrentTask, dif_pos hRange, hSelf]
  by_cases hRunning : a.status a.current = .running
  · have hStatus : k.task.status a.current = .running := by rw [h.status, hRunning]
    have hOff := not_mem_waiting hInv (t := a.current) (by simp [hRunning])
    obtain ⟨hNext, hPrev⟩ := h.unlinked hRunning
    let k₁ := (k.setTask a.current fun x => { x with status := .blocked }).setNrTasks
      (decr32 k.nrTasks)
    have hMarked : k₁.Represents a.block := by
      rw [RunQueue.block, if_pos hRunning]
      exact (h.setStatus (t := a.current) (f := fun x => { x with status := .blocked })
        (fun _ => ⟨rfl, rfl, rfl, rfl, rfl⟩) (by simp) (by simp [hRunning])).setNrTasks _
    have hUnlink : k₁.unlink (a.prio a.current) a.current = k₁ := by
      refine unlink_eq_self (a := a) (h.threaded.congr ?_ rfl) h.bitmap (hOff _) ?_ ?_
      · simp [k₁]
      · simpa [k₁] using hNext
      · simpa [k₁] using hPrev
    refine ⟨k₁, 0, ?_, hMarked, by simp [hRunning, k₁]⟩
    simp only [hStatus, if_true, h.current, h.prio]
    exact congrArg (fun k => some (k, (0 : Int))) hUnlink
  · have hStatus : k.task.status a.current ≠ .running := by rwa [h.status]
    exact ⟨k, -einval, if_neg hStatus, by simpa [RunQueue.block, hRunning] using h,
      by simp [hRunning]⟩

theorem doExit_refines (hInv : a.Inv) (h : k.Represents a) :
    k.doExit.Represents a.exit := by
  rw [doExit, h.current]
  exact (h.setNrTasks _).setStatus (fun _ => ⟨rfl, rfl, rfl, rfl, rfl⟩) (by simp)
    (fun _ => hInv.current)

/-- The first free table entry, if there is one. -/
theorem find_invalid (table : TaskTable) :
    (∀ t, table.status t ≠ .invalid) ∧
        ((List.finRange maxTasks).find? fun i => table.status i = .invalid) = none ∨
      ∃ t, table.status t = .invalid ∧
        ((List.finRange maxTasks).find? fun i => table.status i = .invalid) = some t := by
  cases hFind : (List.finRange maxTasks).find? fun i => table.status i = .invalid with
  | none => exact .inl ⟨fun t ht => by simpa [ht] using List.find?_eq_none.mp hFind t, rfl⟩
  | some t => exact .inr ⟨t, by simpa using List.find?_some hFind, rfl⟩

theorem createDefaultFrame_links (x : Task) (ep arg : Nat) :
    let built := (createDefaultFrame x ep arg).1
    built.status = x.status ∧ built.prio = x.prio ∧ built.id = x.id ∧
      built.next = x.next ∧ built.prev = x.prev := by
  unfold createDefaultFrame
  split <;> exact ⟨rfl, rfl, rfl, rfl, rfl⟩

/-- Filling a free table entry, up to the enqueue sequence. -/
theorem Stores.fillEntry {x : Task} (h : k.Represents a)
    (hFill : x.status = .ready ∧ x.prio = p ∧ x.id = t ∧
      x.next = k.task.next t ∧ x.prev = k.task.prev t) :
    (k.setTask t fun _ => x).Stores
      { a with
        prio := Function.update a.prio t p
        status := Function.update a.status t .ready } none := by
  obtain ⟨hStatus, hPrio, hId, hNext, hPrev⟩ := hFill
  have hNext' : (k.setTask t fun _ => x).task.next = k.task.next := by simp [hNext]
  have hPrev' : (k.setTask t fun _ => x).task.prev = k.task.prev := by simp [hPrev]
  refine ⟨h.threaded.congr hNext' rfl, h.bitmap, by simp [hStatus, h.status],
    by simp [hPrio, h.prio], h.current, h.idle, h.oldTask, fun u hu => ?_, fun hc => ?_⟩
  · by_cases he : u = t
    · simp [he, hId]
    · simpa [he] using h.id u (by simpa [he] using hu)
  · have hne : a.current ≠ t := fun he => by simp [he] at hc
    rw [hNext', hPrev']
    exact h.unlinked (by simpa [hne] using hc)

/-- A call that finds a free entry and gets its frames starts one ready task;
every other call changes nothing. -/
theorem createTask_refines (ep arg : Nat) {pages : PageOutcome} (hInv : a.Inv)
    (h : k.Represents a) (hPrio : 1 ≤ p ∧ p ≤ maxPrio) (hFrame : pages.frame ≠ 0) :
    ∃ k' ret, k.createTask ep arg p pages = some (k', ret) ∧
      (k' = k ∨ ∃ t, a.status t = .invalid ∧ k'.Represents (a.create t p) ∧
        k'.nrTasks = incr32 k.nrTasks) := by
  by_cases hEp : ep = 0
  · exact ⟨k, -einval, by simp [createTask, hEp], .inl rfl⟩
  have hLow : p ≠ idlePrio := Nat.one_le_iff_ne_zero.mp hPrio.1
  have hHigh : ¬ maxPrio < p := Nat.not_lt.mpr hPrio.2
  simp only [createTask, hEp, hLow, hHigh, if_false]
  rcases find_invalid k.task with ⟨_, hFind⟩ | ⟨t, hInvalid, hFind⟩
  · exact ⟨k, -enomem, by rw [hFind], .inl rfl⟩
  rw [hFind]
  simp only [hFrame, if_false]
  have hInvalid' : a.status t = .invalid := by rw [← h.status, hInvalid]
  let entry : Task := { newTask t p pages.frame (k.task t) with userUsage := pages.copied }
  let built := createDefaultFrame entry ep arg
  have hFilled := (Stores.fillEntry (t := t) (x := built.1) h
    (createDefaultFrame_links entry ep arg)).setNrTasks (incr32 k.nrTasks)
  have hOff := not_mem_waiting hInv (t := t) (by simp [hInvalid'])
  have hRunning (hc : a.status a.current = .running) : ∀ p, a.current ∉ a.waiting p :=
    not_mem_waiting hInv (by simp [hc])
  obtain ⟨k', hLink, hSame, hStores⟩ := Stores.linkLast (t := t)
    (a := { a with prio := Function.update a.prio t p })
    (k := ((k.setTask t fun _ => built.1).setBitmap
      (k.prioBitmap ||| prioBit p)).setNrTasks (incr32 k.nrTasks))
    k.prioBitmap hFilled hOff hRunning (by simpa using h.threaded.first_eq_none p)
  refine ⟨k', built.2, ?_, .inr ⟨t, hInvalid', ?_, hSame.nrTasks⟩⟩
  · simp only [Function.update_self] at hLink
    simp only [setTask_setTask, setTask_task, Function.update_self]
    exact congrArg (Option.map fun k' => (k', built.2)) hLink
  · have hBitmap : Bitmap k'.prioBitmap (a.create t p).waiting := by
      rw [hSame.prioBitmap]
      simpa [RunQueue.create] using Stores.bitmap_push (t := t)
        (a := { a with prio := Function.update a.prio t p }) h.bitmap
    exact hStores k'.prioBitmap hBitmap

theorem Stores.saveFpu (h : k.Stores a old) (orig : TaskPtr) :
    (k.saveFpu orig).Stores a old ∧ (k.saveFpu orig).nrTasks = k.nrTasks := by
  unfold Kernel.saveFpu
  split
  · refine ⟨?_, rfl⟩
    rw [← h.oldTask]
    exact h.congr (by simp) (by simp) (by simp) (by simp) (by simp) rfl rfl rfl rfl
  · exact ⟨h, rfl⟩

theorem finishTaskSwitch_none (h : k.Stores a none) :
    k.finishTaskSwitch.map Prod.fst = some k := by
  simp [finishTaskSwitch, h.oldTask]

/-- An exited task gives its stack back. -/
theorem finishTaskSwitch_retired (h : k.Stores a (some t)) (hInvalid : a.status t = .invalid) :
    ∃ k', k.finishTaskSwitch.map Prod.fst = some k' ∧ k'.Represents a ∧
      k'.nrTasks = k.nrTasks := by
  have hStatus : k.task.status t = .invalid := by rw [h.status, hInvalid]
  refine ⟨(k.setTask t fun x => { x with stack := none, lastStackPointer := none }).setOldTask
    none, by simp [finishTaskSwitch, h.oldTask, hStatus], ?_, rfl⟩
  exact h.congr (by simp) (by simp) (by simp) (by simp) (by simp) rfl rfl rfl rfl

/-- A preempted task is queued at last. -/
theorem finishTaskSwitch_preempted (h : k.Stores a (some t)) (hReady : a.status t = .ready)
    (hOff : ∀ p, t ∉ a.waiting p)
    (hRunning : a.status a.current = .running → ∀ p, a.current ∉ a.waiting p) :
    ∃ k', k.finishTaskSwitch.map Prod.fst = some k' ∧ k'.Represents (a.enqueue t) ∧
      k'.nrTasks = k.nrTasks := by
  have hStatus : k.task.status t ≠ .invalid := by simp [h.status, hReady]
  have hSame : { a with status := Function.update a.status t .ready } = a := by
    simp [← hReady]
  have hTested : (k.queue (k.task.prio t)).first = none ↔ a.waiting (a.prio t) = [] := by
    rw [h.threaded.first_eq_none, h.prio]
  obtain ⟨k', hLink, hRelinked, hStores⟩ :=
    Stores.linkLast (t := t) (a := a) k.prioBitmap (hSame.symm ▸ h) hOff hRunning hTested
  have hBitmap : Bitmap (k'.prioBitmap ||| prioBit (a.prio t)) (a.enqueue t).waiting := by
    rw [hRelinked.prioBitmap]
    exact Stores.bitmap_push h.bitmap
  refine ⟨(k'.setOldTask none).setBitmap (k'.prioBitmap ||| prioBit (a.prio t)), ?_,
    (hStores _ hBitmap).setOldTask none, hRelinked.nrTasks⟩
  rw [← h.prio] at hLink ⊢
  simp [finishTaskSwitch, h.oldTask, hStatus, hLink]

/-- The head of a queue becomes current. -/
theorem Stores.takeFirst {rest : List TaskPtr} (h : k.Stores a old)
    (hQueue : a.waiting p = t :: rest) (hReady : a.status t = .ready) :
    ∃ k', k.takeFirst p = some k' ∧ k'.Stores (a.pick p) old ∧ k'.nrTasks = k.nrTasks := by
  obtain ⟨k', hTake, hThreaded, hTaken⟩ := h.threaded.takeFirst hQueue
  refine ⟨k', hTake, ?_, hTaken.nrTasks⟩
  rw [RunQueue.pick_eq hQueue]
  refine ⟨hThreaded, ?_, by rw [hTaken.status, h.status], hTaken.prio.trans h.prio,
    hTaken.currentTask, hTaken.idle.trans h.idle, hTaken.oldTask.trans h.oldTask,
    fun u hu => ?_, fun _ => ⟨hTaken.next, hTaken.prev⟩⟩
  · rw [hTaken.prioBitmap]
    exact h.bitmap.pop (by simp [hQueue])
  · rw [hTaken.id]
    by_cases he : u = t
    · exact he ▸ h.id t (by simp [hReady])
    · exact h.id u (by simpa [he] using hu)

theorem retireCurrent_refines (h : k.Represents a) :
    k.retireCurrent.Stores a.retire
      (if a.status a.current = .finished then some a.current else none) := by
  unfold retireCurrent RunQueue.retire
  rw [h.current, h.status]
  split
  · exact (h.setStatus (t := a.current) (f := fun x => { x with status := .invalid })
      (fun _ => ⟨rfl, rfl, rfl, rfl, rfl⟩) (by simp) (by simp)).setOldTask _
  · exact h.setOldTask none

theorem reschedule_eq :
    k.reschedule = k.retireCurrent.pickTask.bind fun k' =>
      if k'.currentTask = k.currentTask then some k'
      else (k'.saveFpu k.currentTask).finishTaskSwitch.map Prod.fst := by
  unfold reschedule scheduler
  cases k.retireCurrent.pickTask with
  | none => rfl
  | some k' => by_cases h : k'.currentTask = k.currentTask <;> simp [h]

theorem pickTask_stay (h : k.Stores a old)
    (hStay : a.top = none ∧ (a.status a.current = .running ∨ a.status a.current = .idle) ∨
      ∃ p, a.top = some p ∧ p < a.prio a.current ∧ a.status a.current = .running) :
    k.pickTask = some k := by
  have hMsb := msb_prioBitmap h.bitmap
  unfold pickTask
  rw [h.status, h.prio, h.current]
  rcases hStay with ⟨hTop, hStatus⟩ | ⟨p, hTop, hHigher⟩
  · simp only [hTop] at hMsb
    simp [hMsb, hStatus]
  · simp only [hTop] at hMsb
    have hRange : p ≤ maxPrio := Nat.lt_succ_iff.mp (RunQueue.topBelow_eq_some.mp hTop).1
    simp [hMsb, hHigher, Nat.not_lt.mpr hRange]

theorem pickTask_toIdle (h : k.Stores a old) (hTop : a.top = none)
    (hLeave : ¬ (a.status a.current = .running ∨ a.status a.current = .idle)) :
    k.pickTask = some (k.setCurrentTask 0) := by
  have hMsb := msb_prioBitmap h.bitmap
  simp only [hTop] at hMsb
  unfold pickTask
  rw [h.status, h.prio, h.current, h.idle]
  simp [hMsb, hLeave]

theorem pickTask_take (h : k.Stores a old) (hTop : a.top = some p)
    (hLower : ¬ (p < a.prio a.current ∧ a.status a.current = .running)) :
    k.pickTask = k.preemptCurrent.takeFirst p := by
  have hMsb := msb_prioBitmap h.bitmap
  simp only [hTop] at hMsb
  have hRange : p ≤ maxPrio := Nat.lt_succ_iff.mp (RunQueue.topBelow_eq_some.mp hTop).1
  unfold pickTask
  rw [h.status, h.prio, h.current]
  simp [hMsb, hLower, Nat.not_lt.mpr hRange]

/-- A switch that leaves no task to be queued: the old task, if it finished,
only gives its stack back. -/
theorem reschedule_of_pick (k₁ : Kernel) {b : RunQueue} (h : k.Represents a)
    (hPick : k.retireCurrent.pickTask = some k₁)
    (hStores : k₁.Stores b (if a.status a.current = .finished then some a.current else none))
    (hGone : a.status a.current = .finished →
      b.status a.current = .invalid ∧ b.current ≠ a.current) :
    ∃ k', k.reschedule = some k' ∧ k'.Represents b ∧ k'.nrTasks = k₁.nrTasks := by
  rw [reschedule_eq, hPick, Option.bind_some, hStores.current, h.current]
  obtain ⟨hSaved, hCount⟩ := hStores.saveFpu a.current
  by_cases hFinished : a.status a.current = .finished
  · obtain ⟨hInvalid, hSwitch⟩ := hGone hFinished
    rw [if_pos hFinished] at hSaved
    rw [if_neg hSwitch]
    obtain ⟨k', hFinish, hRep, hNr⟩ := finishTaskSwitch_retired hSaved hInvalid
    exact ⟨k', hFinish, hRep, hNr.trans hCount⟩
  · rw [if_neg hFinished] at hSaved hStores
    split
    · exact ⟨k₁, rfl, hStores, rfl⟩
    · exact ⟨_, finishTaskSwitch_none hSaved, hSaved, hCount⟩

theorem retireCurrent_nrTasks : k.retireCurrent.nrTasks = k.nrTasks := by
  unfold retireCurrent
  split <;> rfl

/-- Without a ready task the current task stays, or the idle task takes over. -/
theorem reschedule_none (hInv : a.Inv) (h : k.Represents a) (hTop : a.top = none) :
    ∃ k', k.reschedule = some k' ∧ k'.Represents a.reschedule ∧ k'.nrTasks = k.nrTasks := by
  have hRetired := retireCurrent_refines h
  simp only [RunQueue.reschedule, hTop]
  rw [← retireCurrent_nrTasks (k := k)]
  by_cases hKeep : a.status a.current = .running ∨ a.status a.current = .idle
  · have hFinished : a.status a.current ≠ .finished := by
      rcases hKeep with hc | hc <;> simp [hc]
    rw [if_pos hKeep]
    rw [RunQueue.retire_eq_self hFinished] at hRetired
    exact reschedule_of_pick _ h (pickTask_stay hRetired (.inl ⟨hTop, hKeep⟩)) hRetired
      (fun hc => absurd hc hFinished)
  · rw [if_neg hKeep]
    have hVacant := hInv.retire fun hc => hKeep (.inl hc)
    refine reschedule_of_pick (k.retireCurrent.setCurrentTask 0) h
      (pickTask_toIdle hRetired (by simpa using hTop) ?_) ?_ fun hFinished => ⟨?_, ?_⟩
    · rw [RunQueue.retire_current, hVacant.idle]
      rintro (hc | hc)
      · exact hVacant.running _ hc
      · exact hKeep (.inr ((hInv.idle _).mpr hc))
    · exact ⟨hRetired.threaded.congr rfl rfl, hRetired.bitmap, hRetired.status, hRetired.prio, rfl,
        hRetired.idle, hRetired.oldTask, hRetired.id, fun hc => absurd hc (hVacant.running _)⟩
    · simp [RunQueue.retire_status hFinished]
    · exact (hInv.ne_zero (by simp [hFinished])).symm

theorem preemptCurrent_eq_self (h : k.Stores a old) (hRunning : a.status a.current ≠ .running) :
    k.preemptCurrent = k := by
  rw [preemptCurrent, h.status, h.current, if_neg hRunning]

theorem preemptCurrent_refines (h : k.Stores a old) (hRunning : a.status a.current = .running) :
    k.preemptCurrent.Stores { a with status := Function.update a.status a.current .ready }
        (some a.current) ∧ k.preemptCurrent.nrTasks = k.nrTasks := by
  rw [preemptCurrent, h.status, h.current, if_pos hRunning]
  exact ⟨(h.setStatus (t := a.current) (f := fun x => { x with status := .ready })
    (fun _ => ⟨rfl, rfl, rfl, rfl, rfl⟩) (by simp) (by simp [hRunning])).setOldTask _, rfl⟩

/-- A running task gives way: it keeps running until `scheduler` has picked
its successor, and is queued behind the ready tasks of its priority afterwards. -/
theorem reschedule_preempt (hInv : a.Inv) (h : k.Represents a) (hTop : a.top = some p)
    (hLower : ¬ (p < a.prio a.current ∧ a.status a.current = .running))
    (hRunning : a.status a.current = .running) :
    ∃ k', k.reschedule = some k' ∧ k'.Represents ((a.pick p).enqueue a.current) ∧
      k'.nrTasks = k.nrTasks := by
  obtain ⟨_, hFull, _⟩ := RunQueue.topBelow_eq_some.mp hTop
  obtain ⟨t, rest, hQueue⟩ := List.exists_cons_of_ne_nil hFull
  have hReady := ((hInv.waiting t p).mp (by simp [hQueue])).1
  have hne : t ≠ a.current := fun he => by simp [he, hRunning] at hReady
  have hFinished : a.status a.current ≠ .finished := by simp [hRunning]
  have hRetired := retireCurrent_refines h
  rw [RunQueue.retire_eq_self hFinished] at hRetired
  obtain ⟨hPreempted, hCount₁⟩ := preemptCurrent_refines hRetired hRunning
  obtain ⟨k₁, hTake, hPicked, hCount₂⟩ := hPreempted.takeFirst (p := p) hQueue
    (by simpa [hne] using hReady)
  have hOff := not_mem_waiting hInv (t := a.current) (by simp [hRunning])
  obtain ⟨hSaved, hCount₃⟩ := hPicked.saveFpu a.current
  have hNodup := hInv.nodup p
  rw [hQueue, List.nodup_cons] at hNodup
  rw [RunQueue.preempt_eq .ready hRunning hFull hInv]
  rw [RunQueue.pick_eq (by exact hQueue)] at hPicked hSaved ⊢
  have hRest : ∀ u ∉ rest, (∀ p', p' ≠ p → u ∉ a.waiting p') →
      ∀ p', u ∉ Function.update a.waiting p rest p' := fun u hu hOther p' => by
    by_cases hp : p' = p
    · simpa [hp] using hu
    · simpa [hp] using hOther p' hp
  obtain ⟨k', hFinish, hRep, hCount₄⟩ := finishTaskSwitch_preempted hSaved
    (by simp [hne.symm]) (hRest _ (fun hu => hOff p (by simp [hQueue, hu])) fun p' _ => hOff p')
    (fun _ => hRest t hNodup.1 fun p' hp hu =>
      hp (((hInv.waiting t p').mp hu).2.symm.trans ((hInv.waiting t p).mp (by simp [hQueue])).2))
  refine ⟨k', ?_, hRep, ?_⟩
  · rw [reschedule_eq, pickTask_take hRetired hTop hLower, hTake, Option.bind_some,
      hPicked.current, h.current, if_neg hne]
    exact hFinish
  · rw [hCount₄, hCount₃, hCount₂, hCount₁, retireCurrent_nrTasks]

/-- `scheduler` and `finish_task_switch` together are the choice of `RunQueue`. -/
theorem reschedule_refines (hInv : a.Inv) (h : k.Represents a) :
    ∃ k', k.reschedule = some k' ∧ k'.Represents a.reschedule ∧ k'.nrTasks = k.nrTasks := by
  cases hTop : a.top with
  | none => exact reschedule_none hInv h hTop
  | some p =>
      have hRetired := retireCurrent_refines h
      by_cases hHigher : p < a.prio a.current ∧ a.status a.current = .running
      · have hFinished : a.status a.current ≠ .finished := by simp [hHigher.2]
        rw [RunQueue.retire_eq_self hFinished] at hRetired
        simp only [RunQueue.reschedule, hTop, if_pos hHigher]
        rw [← retireCurrent_nrTasks (k := k)]
        exact reschedule_of_pick _ h (pickTask_stay hRetired (.inr ⟨p, hTop, hHigher⟩)) hRetired
          (fun hc => absurd hc hFinished)
      · simp only [RunQueue.reschedule, hTop, if_neg hHigher]
        by_cases hRunning : a.status a.current = .running
        · rw [if_pos hRunning]
          exact reschedule_preempt hInv h hTop hHigher hRunning
        · rw [if_neg hRunning]
          have hVacant := hInv.retire hRunning
          obtain ⟨_, hFull, _⟩ := RunQueue.topBelow_eq_some.mp hTop
          rw [← RunQueue.retire_waiting] at hFull
          obtain ⟨t, rest, hQueue⟩ := List.exists_cons_of_ne_nil hFull
          have hReady := ((hVacant.waiting t p).mp (by simp [hQueue])).1
          obtain ⟨k₁, hTake, hPicked, hCount⟩ := hRetired.takeFirst hQueue hReady
          have hSame := preemptCurrent_eq_self hRetired (hVacant.running _)
          have hPick := pickTask_take hRetired (by simpa using hTop)
            (fun hc => hVacant.running _ hc.2)
          rw [hSame, hTake] at hPick
          rw [← retireCurrent_nrTasks (k := k), ← hCount]
          refine reschedule_of_pick k₁ h hPick hPicked fun hFinished => ?_
          have hInvalid : a.retire.status a.current = .invalid := by
            simp [RunQueue.retire_status hFinished]
          have hne : a.current ≠ t := fun he => by simp [← he, hInvalid] at hReady
          rw [RunQueue.pick_eq hQueue]
          exact ⟨by simpa [hne] using hInvalid, hne.symm⟩

end ArtOS.Kernel

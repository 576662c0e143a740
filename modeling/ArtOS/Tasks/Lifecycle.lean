import ArtOS.Library.Transition
import ArtOS.Tasks.Refinement

/-! The scheduler as a state machine: creation, scheduling, blocking, waking
and exiting, in any order, from the state `multitasking_init` leaves. The
machine is parametrised by the condition under which a task may exit. -/
namespace ArtOS

/-- The operations that move tasks between the queues. `exit` is `do_exit`
with the `reschedule` at its end; `wakeup` takes an id below `MAX_TASKS`. -/
inductive Call where
  | create (ep arg prio : Nat) (pages : Kernel.PageOutcome)
  | schedule
  | block
  | wakeup (id : TaskPtr)
  | exit
  deriving DecidableEq, Repr

namespace Call

def exec : Call → Kernel → Option Kernel
  | create ep arg prio pages, k => (k.createTask ep arg prio pages).map Prod.fst
  | schedule, k => k.reschedule
  | block, k => k.blockCurrentTask.map Prod.fst
  | wakeup id, k => (k.wakeupTask id).map Prod.fst
  | exit, k => k.doExit.reschedule

/-- New tasks have a priority of their own and get their frames; the idle
task does not exit, and the current task exits only under `mayExit`. -/
def Allowed (mayExit : Kernel → Prop) (k : Kernel) : Call → Prop
  | create _ _ prio pages => 1 ≤ prio ∧ prio ≤ maxPrio ∧ pages.frame ≠ 0
  | exit => k.currentTask ≠ k.idle ∧ mayExit k
  | _ => True

/-- What a call does to the run queue. -/
def Effect (call : Call) (a a' : RunQueue) : Prop :=
  match call with
  | create _ _ prio _ => a' = a ∨ ∃ t, a.status t = .invalid ∧ a' = a.create t prio
  | schedule => a' = a.reschedule
  | block => a' = a.block
  | wakeup id => a' = a.wake id
  | exit => a' = a.exit.reschedule

instance (mayExit : Kernel → Prop) [DecidablePred mayExit] (k : Kernel) (call : Call) :
    Decidable (call.Allowed mayExit k) :=
  match call with
  | create _ _ _ _ => inferInstanceAs (Decidable (_ ∧ _ ∧ _))
  | exit => inferInstanceAs (Decidable (_ ∧ _))
  | schedule | block | wakeup _ => inferInstanceAs (Decidable True)

/-- The calls one after another, as long as each of them is allowed. -/
def run (mayExit : Kernel → Prop) [DecidablePred mayExit] : List Call → Kernel → Option Kernel
  | [], k => some k
  | call :: rest, k =>
      if call.Allowed mayExit k then (call.exec k).bind (run mayExit rest) else none

end Call

namespace Kernel

def Booted (k : Kernel) : Prop :=
  ∃ regs save cr3, k = ((bootKernel regs save).multitaskingInit cr3).1

def Step (mayExit : Kernel → Prop) (k k' : Kernel) : Prop :=
  ∃ call : Call, call.Allowed mayExit k ∧ call.exec k = some k'

abbrev Reachable (mayExit : Kernel → Prop) : Kernel → Prop :=
  Transition.Reachable Booted (Step mayExit)

abbrev currentStatus (k : Kernel) : TaskStatus := k.task.status k.currentTask

/-- What holds of the process table and the ready queues between two calls. -/
structure Consistent (k : Kernel) : Prop where
  prio : ∀ t, k.task.status t = .ready → 1 ≤ k.task.prio t ∧ k.task.prio t ≤ maxPrio
  queue : ∀ p, 1 ≤ p → p ≤ maxPrio → ∃ list,
    LinkedList.Chain k.task.next (k.queue p).first list ∧
    (k.queue p).last = list.getLast? ∧
    ∀ t, list.count t = if k.task.status t = .ready ∧ k.task.prio t = p then 1 else 0
  running : ∀ t, k.task.status t = .running → t = k.currentTask
  bitmap : ∀ p, 1 ≤ p → p ≤ maxPrio →
    (k.prioBitmap.getLsbD p = true ↔ (k.queue p).first ≠ none)
  nrTasks : k.nrTasks = Counting.count k.task.status RunQueue.Runnable

/-- The kernel stores a well-formed run queue, and no exit is under way. -/
structure Sound (k : Kernel) (a : RunQueue) : Prop where
  inv : a.Inv
  settled : a.Settled
  represents : k.Represents a

variable {k k' : Kernel} {a : RunQueue} {mayExit : Kernel → Prop}

def bootQueue : RunQueue where
  status t := if t = 0 then .idle else .invalid
  prio _ := 0
  current := 0
  waiting _ := []

theorem bootQueue_inv : bootQueue.Inv := by
  refine ⟨fun t p => ?_, fun p => List.nodup_nil, fun t => ?_, fun t ht ht' => ?_, fun t ht => ?_,
    fun t ht => ?_, by simp [bootQueue]⟩
  all_goals by_cases h : t = 0 <;> simp_all [bootQueue]

theorem Booted.sound (h : k.Booted) : k.Sound bootQueue ∧ k.nrTasks = bootQueue.runnable := by
  obtain ⟨regs, save, cr3, rfl⟩ := h
  have hIdle : (bootKernel regs save).task.status 0 = .idle := rfl
  have hIdle' : (bootKernel regs save).task.prio 0 = idlePrio := rfl
  rw [multitaskingInit, if_pos hIdle]
  refine ⟨⟨bootQueue_inv, fun t => ?_, ?_⟩, ?_⟩
  · by_cases h : t = 0 <;> simp [bootQueue, h]
  · have hStores : (bootKernel regs save).Represents bootQueue :=
      ⟨⟨fun p => rfl, fun p => rfl, fun p p' t ht => by simp [bootQueue] at ht⟩,
        fun p hp => by simp [bootKernel, bootQueue], rfl, rfl, rfl, rfl, rfl,
        fun t ht => ?_, fun _ => ⟨rfl, rfl⟩⟩
    · exact hStores.congr (by simp) (by simpa using hIdle'.symm) (by simp) (by simp) (by simp) rfl rfl
        rfl rfl
    · by_cases h : t = 0
      · exact h ▸ rfl
      · simp [bootQueue, h] at ht
  · symm
    exact Counting.count_eq_zero_iff.mpr fun t => by
      by_cases h : t = 0 <;> simp [bootQueue, h, RunQueue.Runnable]

/-- One call: it has a result, its effect on the run queue is the specified
one, and `nr_tasks` is kept exact unless a task exits that is not running. -/
theorem exec_refines (call : Call) (h : k.Sound a)
    (hAllowed : call.Allowed (fun k => k.currentStatus ≠ .ready) k) :
    ∃ k' a', call.exec k = some k' ∧ call.Effect a a' ∧ k'.Sound a' ∧
      (k.nrTasks = a.runnable → call.Allowed (fun k => k.currentStatus = .running) k →
        k'.nrTasks = a'.runnable) := by
  have hSmall : a.runnable + 1 < 2 ^ 32 :=
    (Nat.succ_le_succ RunQueue.runnable_le).trans_lt (by decide)
  obtain ⟨hInv, hSettled, hRep⟩ := h
  cases call with
  | create ep arg prio pages =>
      obtain ⟨hLow, hHigh, hFrame⟩ := hAllowed
      obtain ⟨k', ret, hExec, hEffect⟩ :=
        createTask_refines ep arg hInv hRep ⟨hLow, hHigh⟩ hFrame
      rcases hEffect with rfl | ⟨t, hInvalid, hRep', hCount⟩
      · exact ⟨k', a, by simp [Call.exec, hExec], .inl rfl, ⟨hInv, hSettled, hRep⟩, fun h _ => h⟩
      · refine ⟨k', a.create t prio, by simp [Call.exec, hExec], .inr ⟨t, hInvalid, rfl⟩,
          ⟨hInv.create hInvalid ⟨hLow, hHigh⟩, hSettled.enqueue, hRep'⟩, fun h _ => ?_⟩
        rw [hCount, h, incr32_eq hSmall, RunQueue.runnable_create hInvalid]
  | schedule =>
      obtain ⟨k', hExec, hRep', hCount⟩ := reschedule_refines hInv hRep
      obtain ⟨hInv', hSettled'⟩ := hInv.reschedule
      refine ⟨k', a.reschedule, hExec, rfl, ⟨hInv', hSettled', hRep'⟩, fun h _ => ?_⟩
      rw [hCount, h, hInv.runnable_reschedule]
  | block =>
      obtain ⟨k', ret, hExec, hRep', hCount⟩ := blockCurrentTask_refines hInv hRep
      refine ⟨k', a.block, by simp [Call.exec, hExec], rfl, ⟨hInv.block, hSettled.block, hRep'⟩,
        fun h _ => ?_⟩
      by_cases hRunning : a.status a.current = .running
      · have hLeft := RunQueue.runnable_block hRunning
        rw [hCount, if_pos hRunning, h, ← hLeft, decr32_succ (by omega)]
      · rw [hCount, if_neg hRunning, h, RunQueue.block, if_neg hRunning]
  | wakeup id =>
      obtain ⟨k', ret, hExec, hRep', hCount⟩ := wakeupTask_refines (t := id) hInv hRep
      refine ⟨k', a.wake id, by simp [Call.exec, hExec], rfl, ⟨hInv.wake, hSettled.wake, hRep'⟩,
        fun h _ => ?_⟩
      by_cases hBlocked : a.status id = .blocked
      · rw [hCount, if_pos hBlocked, h, incr32_eq hSmall, RunQueue.runnable_wake hBlocked]
      · rw [hCount, if_neg hBlocked, h, RunQueue.wake, if_neg hBlocked]
  | exit =>
      obtain ⟨hIdle, hReady⟩ := hAllowed
      rw [hRep.current, hRep.idle] at hIdle
      rw [currentStatus, hRep.status, hRep.current] at hReady
      have hInv' := hInv.exit hReady hIdle
      obtain ⟨k', hExec, hRep', hCount⟩ :=
        reschedule_refines hInv' (doExit_refines hInv hRep)
      obtain ⟨hInv'', hSettled'⟩ := hInv'.reschedule
      refine ⟨k', a.exit.reschedule, hExec, rfl, ⟨hInv'', hSettled', hRep'⟩, fun h hRunning => ?_⟩
      have hRunning' : a.status a.current = .running := by
        simpa [currentStatus, hRep.status, hRep.current] using hRunning.2
      have hLeft := RunQueue.runnable_exit hRunning'
      rw [hCount, hInv'.runnable_reschedule, doExit, setTask_nrTasks, setNrTasks_nrTasks, h,
        ← hLeft, decr32_succ (by omega)]

theorem reachable_sound (h : Reachable (fun k => k.currentStatus ≠ .ready) k) :
    ∃ a, k.Sound a := by
  refine h.invariant (P := fun k => ∃ a, k.Sound a) (fun k hk => ⟨bootQueue, hk.sound.1⟩) ?_
  rintro k k' ⟨a, ha⟩ ⟨call, hAllowed, hExec⟩
  obtain ⟨k₁, a', hExec', _, hSound, _⟩ := exec_refines call ha hAllowed
  exact ⟨a', Option.some.inj (hExec.symm.trans hExec') ▸ hSound⟩

theorem Allowed.mono {mayExit' : Kernel → Prop} (call : Call) (h : call.Allowed mayExit k)
    (hMay : mayExit k → mayExit' k) : call.Allowed mayExit' k := by
  cases call with
  | create => exact h
  | exit => exact ⟨h.1, hMay h.2⟩
  | _ => trivial

theorem not_ready_of_running (h : k.currentStatus = .running) : k.currentStatus ≠ .ready := by
  simp [h]

theorem reachable_counted (h : Reachable (fun k => k.currentStatus = .running) k) :
    ∃ a, k.Sound a ∧ k.nrTasks = a.runnable := by
  refine h.invariant (P := fun k => ∃ a, k.Sound a ∧ k.nrTasks = a.runnable)
    (fun k hk => ⟨bootQueue, hk.sound⟩) ?_
  rintro k k' ⟨a, ha, hCount⟩ ⟨call, hAllowed, hExec⟩
  obtain ⟨k₁, a', hExec', _, hSound, hCount'⟩ :=
    exec_refines call ha (Allowed.mono call hAllowed not_ready_of_running)
  obtain rfl := Option.some.inj (hExec.symm.trans hExec')
  exact ⟨a', hSound, hCount' hCount hAllowed⟩

/-- Between two calls the pointers, the bitmap and the counter all describe the
same set of ready tasks. -/
theorem Sound.consistent (h : k.Sound a) (hCount : k.nrTasks = a.runnable) : k.Consistent := by
  obtain ⟨hInv, _, hRep⟩ := h
  refine ⟨fun t ht => ?_, fun p hLow hHigh => ⟨a.waiting p, hRep.threaded.chain p,
    hRep.threaded.last p, fun t => ?_⟩, fun t ht => ?_, fun p hLow hHigh => ?_, ?_⟩
  · rw [hRep.status] at ht
    rw [hRep.prio]
    exact hInv.prio t (by simp [ht]) (hInv.ne_zero (by simp [ht]))
  · rw [hRep.status, hRep.prio]
    split
    · next hMem => exact List.count_eq_one_of_mem (hInv.nodup p) ((hInv.waiting t p).mpr hMem)
    · next hMem => exact List.count_eq_zero_of_not_mem (mt (hInv.waiting t p).mp hMem)
  · rw [hRep.status] at ht
    rw [hRep.current, hInv.running t ht]
  · rw [hRep.bitmap p (Nat.lt_succ_of_le hHigh), ne_eq, ne_eq, hRep.threaded.first_eq_none]
  · rw [hCount, hRep.status]
    rfl

/-- The states of a test run are reachable. -/
theorem reachable_run [DecidablePred mayExit] {calls : List Call} (h : Reachable mayExit k)
    (hRun : Call.run mayExit calls k = some k') : Reachable mayExit k' := by
  induction calls generalizing k with
  | nil => exact Option.some.inj hRun ▸ h
  | cons call rest ih =>
      unfold Call.run at hRun
      split at hRun
      · next hAllowed =>
          obtain ⟨k₁, hExec, hRest⟩ := Option.bind_eq_some_iff.mp hRun
          exact ih (h.next ⟨call, hAllowed, hExec⟩) hRest
      · simp at hRun

def exampleKernel : Kernel := ((bootKernel [] fun regs => (regs, regs)).multitaskingInit 4096).1

theorem exampleKernel_reachable : Reachable mayExit exampleKernel :=
  Transition.Reachable.of_init ⟨_, _, _, rfl⟩

/-- Where only a running task exits, the table, the queues, the bitmap and the
counter agree in every reachable state, and no call follows a null pointer. -/
theorem reachable_consistent (h : Reachable (fun k => k.currentStatus = .running) k) :
    k.Consistent ∧ ∀ call : Call, call.Allowed (fun k => k.currentStatus = .running) k →
      ∃ k', call.exec k = some k' := by
  obtain ⟨a, hSound, hCount⟩ := reachable_counted h
  refine ⟨hSound.consistent hCount, fun call hAllowed => ?_⟩
  obtain ⟨k', _, hExec, _⟩ :=
    exec_refines call hSound (Allowed.mono call hAllowed not_ready_of_running)
  exact ⟨k', hExec⟩

theorem reachable_consistent_example :
    ∃ k, Call.run (fun k => k.currentStatus = .running)
      [.create 1 0 5 ⟨4096, 0⟩, .create 1 0 7 ⟨8192, 0⟩, .schedule, .block, .schedule, .wakeup 2,
        .schedule, .exit] exampleKernel = some k ∧ k.Consistent := by
  obtain ⟨k, hRun⟩ := Option.isSome_iff_exists.mp (show (Call.run
    (fun k => k.currentStatus = .running)
    [.create 1 0 5 ⟨4096, 0⟩, .create 1 0 7 ⟨8192, 0⟩, .schedule, .block, .schedule, .wakeup 2,
      .schedule, .exit] exampleKernel).isSome by decide)
  exact ⟨k, hRun, (reachable_consistent (reachable_run exampleKernel_reachable hRun)).1⟩

/-- A task that blocks and then exits is subtracted from `nr_tasks` twice. -/
theorem exit_blocked_inconsistent :
    ¬ ∀ k, Reachable (fun _ => True) k → k.Consistent := by
  intro h
  have hRun : (Call.run (fun _ => True) [.create 1 0 5 ⟨4096, 0⟩, .schedule, .block, .exit]
      exampleKernel).map nrTasks = some (2 ^ 32 - 1) := by decide
  obtain ⟨k, hRun, hCount⟩ := Option.map_eq_some_iff.mp hRun
  have hConsistent := h k (reachable_run exampleKernel_reachable hRun)
  have hSmall : k.nrTasks ≤ maxTasks := by
    rw [hConsistent.nrTasks]
    exact Counting.count_le_card.trans (le_of_eq (Fintype.card_fin maxTasks))
  rw [hCount] at hSmall
  exact absurd hSmall (by decide)

end Kernel
end ArtOS

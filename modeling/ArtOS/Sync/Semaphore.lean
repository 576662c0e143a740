import ArtOS.Library.Ring
import ArtOS.Tasks.Lifecycle

/-! The counting semaphore of `include/semaphore.h` on top of the kernel. A
critical section under `s->lock` is one step of the task that runs it. -/
namespace ArtOS

/-- `sem_t`; a queue slot without a waiter holds `MAX_TASKS`. -/
structure Sem where
  value : Nat
  queue : Nat → Nat
  pos : Nat

namespace Sem

def init (v : Nat) : Sem where
  value := v
  queue _ := maxTasks
  pos := 0

def trywait (s : Sem) : Sem × Int :=
  if 0 < s.value then ({ s with value := s.value - 1 }, 0) else (s, -ecanceled)

/-- One pass of `sem_wait` up to `unlock_irq`, and whether it got the unit. A
task that did not calls `reschedule()` and tries again. -/
def wait (s : Sem) (k : Kernel) : Option (Sem × Kernel × Bool) :=
  if 0 < s.value then some ({ s with value := s.value - 1 }, k, true)
  else
    k.blockCurrentTask.map fun (k', _) =>
      ({ s with
          queue := Function.update s.queue s.pos (k.task.id k.currentTask)
          pos := (s.pos + 1) % maxTasks }, k', false)

/-- The loop of `sem_post`: the first slot from `i` on that holds a waiter. -/
def findWaiter (s : Sem) : Nat → Nat → Option Nat
  | 0, _ => none
  | k + 1, i =>
      if s.queue i < maxTasks then some i else s.findWaiter k ((i + 1) % maxTasks)

/-- `sem_post`, with the task that it hands to `wakeup_task`. -/
def post (s : Sem) (k : Kernel) : Option (Sem × Kernel × Option TaskPtr) :=
  if 0 < s.value then some ({ s with value := incr32 s.value }, k, none)
  else
    match s.findWaiter maxTasks s.pos with
    | none => some ({ s with value := incr32 s.value }, k, none)
    | some i =>
        if h : s.queue i < maxTasks then
          (k.wakeupTask ⟨s.queue i, h⟩).map fun (k', _) =>
            ({ s with value := incr32 s.value, queue := Function.update s.queue i maxTasks }, k',
              some ⟨s.queue i, h⟩)
        else none

/-- The ring of waiters. -/
def slot (s : Sem) (j : Nat) : Option TaskPtr :=
  if h : s.queue j < maxTasks then some ⟨s.queue j, h⟩ else none

variable {s : Sem} {i j k : Nat} {t : TaskPtr}

theorem slot_eq_none : s.slot j = none ↔ ¬ s.queue j < maxTasks := by
  simp [slot]

theorem slot_eq_some : s.slot j = some t ↔ s.queue j = t := by
  unfold slot
  split
  · next h => simp [Fin.ext_iff]
  · next h => exact iff_of_false (by simp) fun he => h (he ▸ t.isLt)

/-- A task id written into a slot. -/
theorem slot_update_id :
    slot { s with queue := Function.update s.queue j (t : Nat) } =
      Function.update s.slot j (some t) := by
  funext i
  by_cases hi : i = j <;> simp [slot, hi]

/-- A slot that is given up. -/
theorem slot_update_maxTasks :
    slot { s with queue := Function.update s.queue j maxTasks } =
      Function.update s.slot j none := by
  funext i
  by_cases hi : i = j <;> simp [slot, hi]

/-- The walk of `sem_post` ends at the first occupied slot. -/
theorem findWaiter_spec {rounds : Nat} (hk : k < rounds)
    (hEmpty : ∀ k' < k, s.slot ((i + k') % maxTasks) = none)
    (hFull : s.slot ((i + k) % maxTasks) ≠ none) (hi : i < maxTasks) :
    s.findWaiter rounds i = some ((i + k) % maxTasks) := by
  induction rounds generalizing i k with
  | zero => omega
  | succ rounds ih =>
      have hSelf : (i + 0) % maxTasks = i := Nat.mod_eq_of_lt hi
      cases k with
      | zero =>
          rw [hSelf] at hFull ⊢
          exact if_pos (not_not.mp (mt slot_eq_none.mpr hFull))
      | succ k =>
          have hNone := hEmpty 0 (Nat.succ_pos k)
          rw [hSelf, slot_eq_none] at hNone
          have hShift : ∀ m, ((i + 1) % maxTasks + m) % maxTasks = (i + (m + 1)) % maxTasks :=
            fun m => by rw [Nat.mod_add_mod, Nat.add_assoc, Nat.add_comm 1 m]
          rw [findWaiter, if_neg hNone, ← hShift k]
          refine ih (Nat.lt_of_succ_lt_succ hk) (fun k' hk' => ?_) ?_ (Nat.mod_lt _ (by decide))
          · rw [hShift]
            exact hEmpty (k' + 1) (Nat.succ_lt_succ hk')
          · rwa [hShift]

theorem findWaiter_eq_none {rounds : Nat} (h : ∀ j < maxTasks, s.slot j = none)
    (hi : i < maxTasks) : s.findWaiter rounds i = none := by
  induction rounds generalizing i with
  | zero => rfl
  | succ rounds ih =>
      rw [findWaiter, if_neg (slot_eq_none.mp (h i hi))]
      exact ih (Nat.mod_lt _ (by decide))

end Sem

/-- Where a task stands with respect to one semaphore: blocked in `sem_wait`
and still queued, woken by `sem_post` but without a second try yet, or neither. -/
inductive SemPc where
  | outside
  | waiting
  | woken
  deriving DecidableEq

/-- The kernel and one semaphore, with the history of the run: the position of
every task and the time at which it last joined the queue. -/
structure SemRun where
  kernel : Kernel
  sem : Sem
  pc : TaskPtr → SemPc
  clock : Nat
  since : TaskPtr → Nat

inductive SemSection where
  | wait
  | trywait
  | post
  deriving DecidableEq

namespace SemRun

/-- The current task executes a critical section. -/
def exec (r : SemRun) : SemSection → Option SemRun
  | .wait =>
      (r.sem.wait r.kernel).map fun (s, k, got) =>
        { kernel := k
          sem := s
          pc := Function.update r.pc r.kernel.currentTask (if got then .outside else .waiting)
          clock := r.clock + 1
          since := if got then r.since else Function.update r.since r.kernel.currentTask r.clock }
  | .trywait => some { r with sem := r.sem.trywait.1 }
  | .post =>
      (r.sem.post r.kernel).map fun (s, k, woken) =>
        { r with
          kernel := k
          sem := s
          pc := match woken with
            | none => r.pc
            | some t => Function.update r.pc t .woken }

/-- Only a running task executes code, and after a wakeup it first tries again. -/
def Allowed (r : SemRun) : SemSection → Prop
  | .wait => r.kernel.currentStatus = .running
  | .trywait | .post =>
      r.kernel.currentStatus = .running ∧ r.pc r.kernel.currentTask = .outside

/-- Anything else the kernel does, as long as no waiting task is woken by it. -/
def Switch (r : SemRun) (k : Kernel) : Prop :=
  (∃ a, k.Sound a) ∧ ∀ t, r.pc t = .waiting → k.task.status t = .blocked

/-- One step of the run, where `sem_post` is executed only under `mayPost`. -/
def Step (mayPost : SemRun → Prop) (r r' : SemRun) : Prop :=
  (∃ code, r.Allowed code ∧ (code = .post → mayPost r) ∧ r.exec code = some r') ∨
    ∃ k, r.Switch k ∧ r' = { r with kernel := k }

/-- A freshly initialised semaphore in any state of the kernel. -/
def Initial (r : SemRun) : Prop :=
  (∃ a, r.kernel.Sound a) ∧ (∃ v < 2 ^ 32, r.sem = Sem.init v) ∧ ∀ t, r.pc t = .outside

abbrev Reachable (mayPost : SemRun → Prop) : SemRun → Prop :=
  Transition.Reachable Initial (Step mayPost)

end SemRun
end ArtOS

import ArtOS.Library.Tickets
import ArtOS.Library.Transition
import ArtOS.Tasks.Types

/-! The recursive ticket lock of `include/spinlock.h`, one memory access at a
time. Every task is at some point of its own `s_lock` or `s_unlock`; a step is
one access of one task. -/
namespace ArtOS

/-- `lock_t`; `owner` is `MAX_TASKS` while nobody owns the lock. -/
structure Lock where
  queue : BitVec 32
  dequeue : BitVec 32
  owner : Nat
  counter : BitVec 32
deriving DecidableEq

/-- `lock_init`. -/
def Lock.init : Lock :=
  { queue := 0, dequeue := 1, owner := maxTasks, counter := 0 }

/-- The next access of a task to the lock. -/
inductive LockPc where
  /-- outside of `s_lock` and `s_unlock` -/
  | outside
  /-- `s_lock`: `s->owner == current_task->id` -/
  | readOwner
  /-- the two halves of `s->counter++` -/
  | loadNested
  | storeNested (counter : BitVec 32)
  /-- `ticket = atomic_int32_add(&s->queue, 1)` -/
  | takeTicket
  /-- `atomic_int32_read(&s->dequeue) != ticket` -/
  | spin (ticket : BitVec 32)
  /-- `s->owner = current_task->id` -/
  | writeOwner
  /-- `s->counter = 1` -/
  | writeCounter
  /-- `s_unlock`: the two halves of `s->counter--` -/
  | loadCounter
  | storeCounter (counter : BitVec 32)
  /-- `!s->counter` -/
  | testCounter
  /-- `s->owner = MAX_TASKS` -/
  | clearOwner
  /-- `atomic_int32_inc(&s->dequeue)` -/
  | advance
deriving DecidableEq

/-- One lock and the tasks that use it. `depth` counts the calls of `s_lock` that a task has
completed without the matching `s_unlock`. The rest is history: who drew a ticket and who
completed an outermost `s_lock`, in this order, and how often the lock was given up. -/
structure LockRun where
  lock : Lock
  pc : TaskPtr → LockPc
  depth : TaskPtr → Nat
  taken : List TaskPtr
  entered : List TaskPtr
  served : Nat

inductive LockAction where
  /-- the task calls `s_lock` -/
  | lock
  /-- the task calls `s_unlock`, which it owes -/
  | unlock
  /-- the task makes its next access -/
  | access
deriving DecidableEq

namespace LockRun

def goto (r : LockRun) (t : TaskPtr) (pc : LockPc) : LockRun :=
  { r with pc := Function.update r.pc t pc }

/-- The task returns from `s_lock` or `s_unlock`. -/
def leave (r : LockRun) (t : TaskPtr) (depth : Nat) : LockRun :=
  { r with pc := Function.update r.pc t .outside, depth := Function.update r.depth t depth }

def access (r : LockRun) (t : TaskPtr) : LockPc → Option LockRun
  | .outside => none
  | .readOwner => some (r.goto t (if r.lock.owner = t then .loadNested else .takeTicket))
  | .loadNested => some (r.goto t (.storeNested r.lock.counter))
  | .storeNested counter =>
      some ({ r with lock := { r.lock with counter := counter + 1 } }.leave t (r.depth t + 1))
  | .takeTicket =>
      let lock := { r.lock with queue := r.lock.queue + 1 }
      some ({ r with lock := lock, taken := r.taken ++ [t] }.goto t (.spin lock.queue))
  | .spin ticket => some (r.goto t (if r.lock.dequeue = ticket then .writeOwner else .spin ticket))
  | .writeOwner => some ({ r with lock := { r.lock with owner := t } }.goto t .writeCounter)
  | .writeCounter =>
      some ({ r with lock := { r.lock with counter := 1 }, entered := r.entered ++ [t] }.leave t
        (r.depth t + 1))
  | .loadCounter => some (r.goto t (.storeCounter r.lock.counter))
  | .storeCounter counter =>
      some ({ r with lock := { r.lock with counter := counter - 1 } }.goto t .testCounter)
  | .testCounter =>
      some (if r.lock.counter = 0 then r.goto t .clearOwner else r.leave t (r.depth t - 1))
  | .clearOwner => some ({ r with lock := { r.lock with owner := maxTasks } }.goto t .advance)
  | .advance =>
      let lock := { r.lock with dequeue := r.lock.dequeue + 1 }
      some ({ r with lock := lock, served := r.served + 1 }.leave t (r.depth t - 1))

def exec (r : LockRun) (t : TaskPtr) : LockAction → Option LockRun
  | .lock => if r.pc t = .outside then some (r.goto t .readOwner) else none
  | .unlock => if r.pc t = .outside ∧ 0 < r.depth t then some (r.goto t .loadCounter) else none
  | .access => r.access t (r.pc t)

/-- An initialised lock that nobody uses yet. -/
def initial : LockRun :=
  { lock := Lock.init, pc := fun _ => .outside, depth := fun _ => 0, taken := [], entered := [], served := 0 }

/-- One step of some task, where `s_lock` is called only under `mayLock`. -/
def Step (mayLock : LockRun → TaskPtr → Prop) (r r' : LockRun) : Prop :=
  ∃ t action, (action = .lock → mayLock r t) ∧ r.exec t action = some r'

abbrev Reachable (mayLock : LockRun → TaskPtr → Prop) : LockRun → Prop :=
  Transition.Reachable (· = initial) (Step mayLock)

/-- The task has drawn a ticket and not completed its `s_lock` yet. -/
def Waits (r : LockRun) (t : TaskPtr) : Prop :=
  (∃ ticket, r.pc t = .spin ticket) ∨ r.pc t = .writeOwner ∨ r.pc t = .writeCounter

/-- The task is between a completed `s_lock` and the matching outermost `s_unlock`. -/
def Holds (r : LockRun) (t : TaskPtr) : Prop := 0 < r.depth t

end LockRun
end ArtOS

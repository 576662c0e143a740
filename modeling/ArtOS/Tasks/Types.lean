import Mathlib.Data.Fin.Basic
import Mathlib.Logic.Function.Basic
import Mathlib.Tactic.Simps.Basic
import ArtOS.Config

/-! The process table and the ready queues of `include/tasks_types.h`.

A `task_t*` always points into `task_table` or is null, so it is an index or
`none`. The fields of `readyqueues` stand next to the table in one record.
`page_lock`, `vma_lock` and `readyqueues.lock` are not represented: every
operation below runs as one section with interrupts disabled. -/
namespace ArtOS

/-- A non-null `task_t*`: a position in `task_table`. -/
abbrev TaskPtr := Fin maxTasks

inductive TaskStatus where
  | invalid
  | ready
  | running
  | blocked
  | finished
  | idle
  deriving DecidableEq, Repr

/-- The bytes of an FPU save area, or of the register file itself. -/
abbrev FpuState := List (BitVec 8)

abbrev taskDefaultFlags : BitVec 8 := 0
abbrev taskFpuInit : BitVec 8 := 1
abbrev taskFpuUsed : BitVec 8 := 2

/-- The stacks a task can own: the boot stack, or a row of the static array `stack`. -/
inductive StackArea where
  | boot
  | kernel (row : Nat)
  deriving DecidableEq, Repr

/-- A stack pointer as an area and a byte offset in it. -/
structure StackPtr where
  area : StackArea
  offset : Nat
  deriving DecidableEq, Repr

/-- What `create_default_frame` leaves on a new stack: the function that runs
after the first `iret`, and its argument. -/
structure InitialFrame where
  eip : Nat
  arg : Nat
  deriving DecidableEq, Repr

structure Task where
  id : Nat
  status : TaskStatus
  lastStackPointer : Option StackPtr
  stack : Option StackArea
  frame : Option InitialFrame
  flags : BitVec 8
  prio : Nat
  pageMap : Nat
  vmaList : Option Nat
  heap : Option Nat
  userUsage : Nat
  next : Option TaskPtr
  prev : Option TaskPtr
  fpu : FpuState

abbrev TaskTable := TaskPtr → Task

structure TaskList where
  first : Option TaskPtr
  last : Option TaskPtr
  deriving DecidableEq, Repr

/-- `task_table`, `current_task` and `readyqueues`. The list `queue p` is
`readyqueues.queue[p-1]`. `saveFpuState` is the function pointer of
`processor.c`: it yields the saved image and the registers it leaves. -/
structure Kernel where
  task : TaskTable
  currentTask : TaskPtr
  idle : TaskPtr
  oldTask : Option TaskPtr
  nrTasks : Nat
  prioBitmap : BitVec 32
  queue : Nat → TaskList
  fpuRegs : FpuState
  saveFpuState : FpuState → FpuState × FpuState

/-- Increment of a `uint32_t`. -/
def incr32 (n : Nat) : Nat := (n + 1) % 2 ^ 32

/-- Decrement of a `uint32_t`: zero wraps around. -/
def decr32 (n : Nat) : Nat := (n + (2 ^ 32 - 1)) % 2 ^ 32

theorem incr32_eq {n : Nat} (h : n + 1 < 2 ^ 32) : incr32 n = n + 1 := Nat.mod_eq_of_lt h

theorem decr32_succ {n : Nat} (h : n < 2 ^ 32) : decr32 (n + 1) = n := by
  unfold decr32
  omega

namespace TaskTable

variable (table : TaskTable) (t : TaskPtr) (x : Task)

def status : TaskStatus := (table t).status
def prio : Nat := (table t).prio
def next : Option TaskPtr := (table t).next
def prev : Option TaskPtr := (table t).prev
def id : Nat := (table t).id

@[simp] theorem status_fold : (table t).status = table.status t := rfl
@[simp] theorem prio_fold : (table t).prio = table.prio t := rfl
@[simp] theorem next_fold : (table t).next = table.next t := rfl
@[simp] theorem prev_fold : (table t).prev = table.prev t := rfl
@[simp] theorem id_fold : (table t).id = table.id t := rfl

/-- A field of an updated table, as an update of that field. -/
theorem field_update {Value : Type*} (field : Task → Value) :
    (fun u => field (Function.update table t x u)) =
      Function.update (fun u => field (table u)) t (field x) := by
  funext u
  exact Function.apply_update (fun _ => field) table t x u

@[simp] theorem status_update :
    status (Function.update table t x) = Function.update (status table) t x.status :=
  field_update table t x Task.status

@[simp] theorem prio_update :
    prio (Function.update table t x) = Function.update (prio table) t x.prio :=
  field_update table t x Task.prio

@[simp] theorem next_update :
    next (Function.update table t x) = Function.update (next table) t x.next :=
  field_update table t x Task.next

@[simp] theorem prev_update :
    prev (Function.update table t x) = Function.update (prev table) t x.prev :=
  field_update table t x Task.prev

@[simp] theorem id_update :
    id (Function.update table t x) = Function.update (id table) t x.id :=
  field_update table t x Task.id

end TaskTable

namespace Kernel

/-- Assign fields of one table entry. -/
@[simps -fullyApplied] def setTask (k : Kernel) (t : TaskPtr) (f : Task → Task) : Kernel :=
  { k with task := Function.update k.task t (f (k.task t)) }

@[simps -fullyApplied] def setCurrentTask (k : Kernel) (t : TaskPtr) : Kernel := { k with currentTask := t }
@[simps -fullyApplied] def setOldTask (k : Kernel) (old : Option TaskPtr) : Kernel := { k with oldTask := old }
@[simps -fullyApplied] def setNrTasks (k : Kernel) (n : Nat) : Kernel := { k with nrTasks := n }
@[simps -fullyApplied] def setBitmap (k : Kernel) (b : BitVec 32) : Kernel := { k with prioBitmap := b }

@[simps -fullyApplied] def setFpuRegs (k : Kernel) (regs : FpuState) : Kernel := { k with fpuRegs := regs }

/-- Assign one queue head. -/
@[simps -fullyApplied] def setQueue (k : Kernel) (p : Nat) (list : TaskList) : Kernel :=
  { k with queue := Function.update k.queue p list }

/-- The second assignment to an entry sees the first. -/
@[simp] theorem setTask_setTask (k : Kernel) (t : TaskPtr) (f g : Task → Task) :
    (k.setTask t f).setTask t g = k.setTask t (g ∘ f) := by
  simp [setTask]

end Kernel
end ArtOS

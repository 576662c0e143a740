import ArtOS.Tasks.Types

/-! The scheduling operations of `sys/scheduler.c` and `sys/tasks.c`.

An operation that would follow a null queue pointer, or index `task_table`
out of bounds, has no result. -/
namespace ArtOS

/-- `msb` of `processor.h`: the `bsr` instruction, or the operand width for zero. -/
def msb (i : BitVec 32) : Nat :=
  if i = 0 then 32 else Nat.log2 i.toNat

def prioBit (p : Nat) : BitVec 32 := 1#32 <<< p

namespace Kernel

/-- The enqueue sequence that `create_task`, `finish_task_switch` and
`wakeup_task` each spell out. `tested` is the queue pointer the copy
compares with null: `first` in the former two, `last` in `wakeup_task`. -/
def linkLast (k : Kernel) (p : Nat) (t : TaskPtr) (tested : Option TaskPtr) : Option Kernel :=
  match tested with
  | none =>
      some ((k.setTask t fun x => { x with next := none, prev := none }).setQueue p
        ⟨some t, some t⟩)
  | some _ =>
      (k.queue p).last.map fun last =>
        ((k.setTask t fun x => { x with prev := some last, next := none }).setTask last
          fun x => { x with next := some t }).setQueue p
            { first := (k.queue p).first, last := some t }

/-- The head of `scheduler`: a finished task becomes reusable. -/
def retireCurrent (k : Kernel) : Kernel :=
  if k.task.status k.currentTask = .finished then
    (k.setTask k.currentTask fun x => { x with status := .invalid }).setOldTask
      (some k.currentTask)
  else k.setOldTask none

/-- A running task that has to give way is marked ready, but is queued only
by `finish_task_switch`. -/
def preemptCurrent (k : Kernel) : Kernel :=
  if k.task.status k.currentTask = .running then
    (k.setTask k.currentTask fun x => { x with status := .ready }).setOldTask
      (some k.currentTask)
  else k

/-- `current_task = queue[prio-1].first`, marked running and taken off the queue. -/
def takeFirst (k : Kernel) (p : Nat) : Option Kernel :=
  (k.queue p).first.map fun t =>
    let k := (k.setTask t fun x => { x with status := .running }).setCurrentTask t
    let k :=
      if k.task.next t = none then
        (k.setQueue p ⟨none, none⟩).setBitmap (k.prioBitmap &&& ~~~prioBit p)
      else k.setQueue p ⟨k.task.next t, (k.queue p).last⟩
    k.setTask t fun x => { x with next := none, prev := none }

/-- From the `msb` call of `scheduler` to the label `get_task_out`. -/
def pickTask (k : Kernel) : Option Kernel :=
  let p := msb k.prioBitmap
  if maxPrio < p then
    if k.task.status k.currentTask = .running ∨ k.task.status k.currentTask = .idle then some k
    else some (k.setCurrentTask k.idle)
  else if p < k.task.prio k.currentTask ∧ k.task.status k.currentTask = .running then some k
  else k.preemptCurrent.takeFirst p

/-- The FPU context of a preempted task is saved if it used the FPU. -/
def saveFpu (k : Kernel) (orig : TaskPtr) : Kernel :=
  if (k.task orig).flags &&& taskFpuUsed ≠ 0 ∧ k.task.status orig = .ready then
    (k.setTask orig fun x =>
      { x with
        fpu := (k.saveFpuState k.fpuRegs).1
        flags := x.flags &&& ~~~taskFpuUsed }).setFpuRegs (k.saveFpuState k.fpuRegs).2
  else k

/-- The returned task is the one whose `last_stack_pointer` receives the old
stack pointer; without a switch there is none. -/
def scheduler (k : Kernel) : Option (Kernel × Option TaskPtr) :=
  k.retireCurrent.pickTask.map fun k' =>
    if k'.currentTask = k.currentTask then (k', none)
    else (k'.saveFpu k.currentTask, some k.currentTask)

/-- The returned pointer is the block handed to `kfree`, if there is one. -/
def finishTaskSwitch (k : Kernel) : Option (Kernel × Option Nat) :=
  let switched : Option Kernel :=
    match k.oldTask with
    | none => some k
    | some old =>
        if k.task.status old = .invalid then
          some ((k.setTask old fun x =>
            { x with stack := none, lastStackPointer := none }).setOldTask none)
        else
          (k.linkLast (k.task.prio old) old (k.queue (k.task.prio old)).first).map fun k' =>
            (k'.setOldTask none).setBitmap (k'.prioBitmap ||| prioBit (k.task.prio old))
  switched.map fun k' => (k', (k'.task k'.currentTask).heap)

/-- `scheduler()`, followed by `finish_task_switch()` when it switches. -/
def reschedule (k : Kernel) : Option Kernel :=
  k.scheduler.bind fun result =>
    match result.2 with
    | none => some result.1
    | some _ => result.1.finishTaskSwitch.map Prod.fst

/-- `do_exit` up to its `reschedule` call, the page tables apart. -/
def doExit (k : Kernel) : Kernel :=
  (k.setNrTasks (decr32 k.nrTasks)).setTask k.currentTask fun x => { x with status := .finished }

/-- `create_stack`: the idle task keeps the boot stack. -/
def createStack (id : Nat) : Option StackArea :=
  if id = 0 then none
  else if maxTasks ≤ id then none
  else some (.kernel (id - 1))

/-- `create_default_frame`: a marker, the argument, the return address and
the 60 bytes of initial registers, below the 16 bytes left for alignment. -/
def createDefaultFrame (task : Task) (ep arg : Nat) : Task × Int :=
  match task.stack with
  | none => (task, -einval)
  | some area =>
      ({ task with
          frame := some ⟨ep, arg⟩
          lastStackPointer := some ⟨area, kernelStackSize - 16 - 8 - 60⟩ }, 0)

/-- What `create_task` obtains from the page-frame and page-table code: the
frame of the new root table (zero when `get_pages` fails) and the number of
frames `page_map_copy` charges to the new task. -/
structure PageOutcome where
  frame : Nat
  copied : Nat
  deriving DecidableEq, Repr

/-- The table entry as `create_task` fills it before the page-map copy. -/
def newTask (i : TaskPtr) (prio : Nat) (frame : Nat) (x : Task) : Task :=
  { x with
    id := i
    status := .ready
    lastStackPointer := none
    stack := createStack i
    prio := prio
    vmaList := none
    heap := none
    userUsage := 0
    pageMap := frame }

def createTask (k : Kernel) (ep arg prio : Nat) (pages : PageOutcome) : Option (Kernel × Int) :=
  if ep = 0 then some (k, -einval)
  else if prio = idlePrio then some (k, -einval)
  else if maxPrio < prio then some (k, -einval)
  else
    match (List.finRange maxTasks).find? fun i => k.task.status i = .invalid with
    | none => some (k, -enomem)
    | some i =>
        let k := k.setTask i (newTask i prio pages.frame)
        if pages.frame = 0 then some (k, -enomem)
        else
          let built := createDefaultFrame { k.task i with userUsage := pages.copied } ep arg
          let k := ((k.setTask i fun _ => built.1).setBitmap
            (k.prioBitmap ||| prioBit prio)).setNrTasks (incr32 k.nrTasks)
          (k.linkLast prio i (k.queue prio).first).map fun k' => (k', built.2)

def wakeupTask (k : Kernel) (t : TaskPtr) : Option (Kernel × Int) :=
  if k.task.status t = .blocked then
    let p := k.task.prio t
    let k := (k.setTask t fun x => { x with status := .ready }).setNrTasks (incr32 k.nrTasks)
    let bitmap :=
      if (k.queue p).last = none then k.prioBitmap ||| prioBit p else k.prioBitmap
    (k.linkLast p t (k.queue p).last).map fun k' => (k'.setBitmap bitmap, 0)
  else some (k, -einval)

/-- The general removal of `block_current_task`; both neighbour links of a
running task are null, so in a run only its last test can act. -/
def unlink (k : Kernel) (p : Nat) (t : TaskPtr) : Kernel :=
  let k := match k.task.prev t with
    | none => k
    | some before => k.setTask before fun x => { x with next := k.task.next t }
  let k := match k.task.next t with
    | none => k
    | some after => k.setTask after fun x => { x with prev := k.task.prev t }
  let k :=
    if (k.queue p).first = some t then k.setQueue p ⟨k.task.next t, (k.queue p).last⟩ else k
  let k :=
    if (k.queue p).last = some t then
      k.setQueue p ⟨(k.queue p).first,
        if k.task.prev t = none then (k.queue p).first else k.task.prev t⟩
    else k
  if (k.queue p).first = none then k.setBitmap (k.prioBitmap &&& ~~~prioBit p) else k

def blockCurrentTask (k : Kernel) : Option (Kernel × Int) :=
  if h : k.task.id k.currentTask < maxTasks then
    let t : TaskPtr := ⟨k.task.id k.currentTask, h⟩
    if k.task.status t = .running then
      let k' := (k.setTask t fun x => { x with status := .blocked }).setNrTasks
        (decr32 k.nrTasks)
      some (k'.unlink (k.task.prio k.currentTask) t, 0)
    else some (k, -einval)
  else none

/-- The tables as they are initialised, before `multitasking_init`. -/
def bootKernel (fpuRegs : FpuState) (saveFpuState : FpuState → FpuState × FpuState) : Kernel where
  task i :=
    { id := 0, status := if i = 0 then .idle else .invalid, lastStackPointer := none
      stack := none, frame := none, flags := taskDefaultFlags, prio := 0, pageMap := 0
      vmaList := none, heap := none, userUsage := 0, next := none, prev := none, fpu := [] }
  currentTask := 0
  idle := 0
  oldTask := none
  nrTasks := 0
  prioBitmap := 0
  queue _ := ⟨none, none⟩
  fpuRegs := fpuRegs
  saveFpuState := saveFpuState

def multitaskingInit (k : Kernel) (cr3 : Nat) : Kernel × Int :=
  if k.task.status 0 = .idle then
    (k.setTask 0 fun x => { x with prio := idlePrio, stack := some .boot, pageMap := cr3 }, 0)
  else (k, -enomem)

end Kernel
end ArtOS

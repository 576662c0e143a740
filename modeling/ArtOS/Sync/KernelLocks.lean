import ArtOS.Sync.SpinLock

/-! The locks of the memory code on one CPU. A C function is the list of the
lock operations it executes; what decides its branches is an argument. The
timer can take the CPU away wherever interrupts are enabled. -/
namespace ArtOS

/-- The `lock_t` objects of `page.c`, `memory.c`, `malloc.c` and `vma.c`. -/
inductive SpinName where
  | kslock
  | bitmapLock
  | pnodeLock
  | vmaLock
deriving DecidableEq

/-- The `lock_irq_t` objects: `page_lock` of a task, `table_lock`, `readyqueues.lock`. -/
inductive IrqName where
  | pageLock (t : TaskPtr)
  | tableLock
  | readyLock
deriving DecidableEq

/-- `lock_irq_t`. -/
structure IrqLock where
  queue : BitVec 32
  dequeue : BitVec 32
  counter : BitVec 32
  flags : Bool
deriving DecidableEq

/-- `LOCK_IRQ_INIT`. -/
def IrqLock.init : IrqLock := { queue := 0, dequeue := 1, counter := 0, flags := false }

/-- The interrupt flag of the CPU and the locks that save it. -/
structure Interrupts where
  enabled : Bool
  lock : IrqName → IrqLock

namespace Interrupts

/-- `lock_irq`. It runs with interrupts disabled from its first instruction on; there is no result
where it waits for a ticket that nobody can serve any more. -/
def lockIrq (c : Interrupts) (l : IrqName) : Option Interrupts :=
  let s := c.lock l
  if s.counter = 1 then
    some { enabled := false, lock := Function.update c.lock l { s with counter := s.counter + 1 } }
  else if s.dequeue = s.queue + 1 then
    some
      { enabled := false
        lock := Function.update c.lock l
          { s with queue := s.queue + 1, flags := c.enabled, counter := 1 } }
  else none

def unlockIrq (c : Interrupts) (l : IrqName) : Interrupts :=
  let s := c.lock l
  if s.counter - 1 = 0 then
    { enabled := c.enabled || s.flags
      lock := Function.update c.lock l
        { s with counter := s.counter - 1, flags := false, dequeue := s.dequeue + 1 } }
  else { c with lock := Function.update c.lock l { s with counter := s.counter - 1 } }

end Interrupts

/-- What the code of a task does next. `locking` and `unlocking` stand for a call of `s_lock` or
`s_unlock` that has begun; `iret` also takes the task back into such a call on `pnode_lock`, if the
interrupt handler has called one itself. -/
inductive LockOp where
  | sLock (l : SpinName)
  | sUnlock (l : SpinName)
  | locking (l : SpinName)
  | unlocking (l : SpinName)
  | lockIrq (l : IrqName)
  | unlockIrq (l : IrqName)
  | cli
  | iret (saved : Option LockPc)
deriving DecidableEq

namespace LockCode

variable (t : TaskPtr)

/-- `available` is the value of `total_available_pages`. -/
def getPages (npages available : Nat) : List LockOp :=
  if npages = 0 then []
  else if available < npages then []
  else [.sLock .bitmapLock, .sUnlock .bitmapLock]

def putPages (phyaddr npages : Nat) : List LockOp :=
  if phyaddr = 0 then []
  else if npages = 0 then []
  else [.sLock .bitmapLock, .sUnlock .bitmapLock]

/-- `user` is the bit `PG_USER`; `missing` has the available pages at every table that has to be
created. -/
def pageMap (user : Bool) (missing : List Nat) : List LockOp :=
  (if user then .lockIrq (.pageLock t) else .sLock .kslock) ::
    (missing.flatMap (getPages 1) ++ [if user then .unlockIrq (.pageLock t) else .sUnlock .kslock])

def pageUnmap : List LockOp :=
  [.lockIrq (.pageLock t), .sLock .kslock, .unlockIrq (.pageLock t), .sUnlock .kslock]

/-- One entry for every present `PG_USER` entry: the available pages, and for a page the tables
that are missing for `PAGE_TMP`. -/
def pageMapCopy (entries : List (Nat × Option (List Nat))) : List LockOp :=
  .lockIrq (.pageLock t) ::
    (entries.flatMap (fun entry => getPages 1 entry.1 ++ (entry.2.map (pageMap t false)).getD []) ++
      [.unlockIrq (.pageLock t)])

/-- What `create_task` finds for valid arguments: no free entry in the table, no page for the root
table, or what `page_map_copy` finds. -/
inductive TaskOutcome where
  | tableFull
  | noRoot (available : Nat)
  | created (available : Nat) (entries : List (Nat × Option (List Nat)))

def createTask (valid : Bool) (outcome : TaskOutcome) : List LockOp :=
  if valid then
    match outcome with
    | .tableFull => [.lockIrq .tableLock, .unlockIrq .tableLock]
    | .noRoot available => .lockIrq .tableLock :: (getPages 1 available ++ [.unlockIrq .tableLock])
    | .created available entries =>
        .lockIrq .tableLock :: (getPages 1 available ++ pageMapCopy t entries ++
          [.lockIrq .readyLock, .unlockIrq .readyLock, .unlockIrq .tableLock])
  else []

/-- `magic` tells whether the prefix has `PNODE_MAGIC`. -/
def kfree (magic : Bool) : List LockOp :=
  if magic then [.sLock .pnodeLock, .sUnlock .pnodeLock] else []

/-- `vma_free` in the error path of `palloc`: the area is shrunk, or its node is freed. -/
def vmaFree (node : Option Bool) : List LockOp :=
  .sLock .vmaLock :: ((node.map kfree).getD [] ++ [.sUnlock .vmaLock])

/-- `vma_alloc`, with the `kmalloc` of a new node if it needs one. -/
def vmaAlloc (node : List LockOp) : List LockOp :=
  .sLock .vmaLock :: (node ++ [.sUnlock .vmaLock])

/-- What `palloc` finds when it has its virtual addresses. -/
inductive PallocOutcome where
  | noFrames (available : Nat) (node : Option Bool)
  | noTable (available : Nat) (missing : List Nat) (node : Option Bool)
  | mapped (available : Nat) (missing : List Nat)

/-- `palloc` after its call of `vma_alloc`. -/
def pallocMap (npages : Nat) : PallocOutcome → List LockOp
  | .noFrames available node => getPages npages available ++ vmaFree node
  | .noTable available missing node =>
      getPages npages available ++ pageMap t false missing ++ vmaFree node ++ putPages 1 npages
  | .mapped available missing => getPages npages available ++ pageMap t false missing

/-- What `pnode_get` finds: a free block, only larger ones, or none at all, so that `palloc` is
called. For that, `vma_alloc` finds no gap, gets no node, extends an area or inserts one. -/
inductive Found where
  | listed
  | split (larger : Found)
  | noGap
  | noNode (node : Found)
  | extended (npages : Nat) (outcome : PallocOutcome)
  | inserted (node : Found) (npages : Nat) (outcome : PallocOutcome)

def pnodeGet : Found → List LockOp
  | .listed => [.sLock .pnodeLock, .sUnlock .pnodeLock]
  | .split larger => .sLock .pnodeLock :: (pnodeGet larger ++ [.sUnlock .pnodeLock])
  | .noGap => .sLock .pnodeLock :: (vmaAlloc [] ++ [.sUnlock .pnodeLock])
  | .noNode node => .sLock .pnodeLock :: (vmaAlloc (pnodeGet node) ++ [.sUnlock .pnodeLock])
  | .extended npages outcome =>
      .sLock .pnodeLock :: (vmaAlloc [] ++ pallocMap t npages outcome ++ [.sUnlock .pnodeLock])
  | .inserted node npages outcome =>
      .sLock .pnodeLock ::
        (vmaAlloc (pnodeGet node) ++ pallocMap t npages outcome ++ [.sUnlock .pnodeLock])

/-- There is no call of `pnode_get` for a size of zero or one that is too large. -/
def kmalloc (found : Option Found) : List LockOp := (found.map (pnodeGet t)).getD []

/-- `finish_task_switch`; `heap` tells whether the new task has a heap descriptor. -/
def finishTaskSwitch (heap : Bool) : List LockOp :=
  [.lockIrq .readyLock, .unlockIrq .readyLock] ++ (if heap then kfree true else [])

/-- `page_fault_handler` on a page of the heap: the gate disables interrupts. -/
def pageFaultHandler (available : Nat) (missing : List Nat) (mapped : Bool) : List LockOp :=
  .cli :: (getPages 1 available ++ pageMap t true missing ++
    (if mapped then [] else putPages 1 1) ++ [.iret none])

end LockCode

open LockCode

/-- A call that a task can make. -/
inductive MemoryCall where
  | pageMap (user : Bool) (missing : List Nat)
  | pageUnmap
  | getPages (npages available : Nat)
  | putPages (phyaddr npages : Nat)
  | createTask (valid : Bool) (outcome : TaskOutcome)
  | kmalloc (found : Option Found)
  | kfree (magic : Bool)
  | pageFault (available : Nat) (missing : List Nat) (mapped : Bool)

def MemoryCall.code (t : TaskPtr) : MemoryCall → List LockOp
  | .pageMap user missing => LockCode.pageMap t user missing
  | .pageUnmap => LockCode.pageUnmap t
  | .getPages npages available => LockCode.getPages npages available
  | .putPages phyaddr npages => LockCode.putPages phyaddr npages
  | .createTask valid outcome => LockCode.createTask t valid outcome
  | .kmalloc found => LockCode.kmalloc t found
  | .kfree magic => LockCode.kfree magic
  | .pageFault available missing mapped => LockCode.pageFaultHandler t available missing mapped

/-- The CPU, the locks, and what the code of every task still has to do. -/
structure LockSystem where
  spin : SpinName → LockRun
  cpu : Interrupts
  current : TaskPtr
  code : TaskPtr → List LockOp

inductive LockEvent where
  /-- the current task, with no call under way, begins one -/
  | call (c : MemoryCall)
  /-- the current task makes its next step -/
  | step
  /-- the timer interrupt switches to a task; `heap` tells whether it has a heap descriptor -/
  | switch (t : TaskPtr) (heap : Bool)

namespace LockSystem

def setCode (s : LockSystem) (ops : List LockOp) : LockSystem :=
  { s with code := Function.update s.code s.current ops }

def setSpin (s : LockSystem) (l : SpinName) (r : LockRun) : LockSystem :=
  { s with spin := Function.update s.spin l r }

def setCpu (s : LockSystem) (cpu : Interrupts) : LockSystem := { s with cpu := cpu }

/-- One access of the call of `s_lock` or `s_unlock` that `op` stands for. -/
def accessSpin (s : LockSystem) (l : SpinName) (op : LockOp) (rest : List LockOp) :
    Option LockSystem :=
  ((s.spin l).exec s.current .access).map fun r =>
    (s.setSpin l r).setCode (if r.pc s.current = .outside then rest else op :: rest)

/-- Nested calls of `s_lock` lie on the stack of the task, which bounds their number. -/
def execOp (s : LockSystem) (rest : List LockOp) : LockOp → Option LockSystem
  | .sLock l =>
      if (s.spin l).depth s.current < kernelStackSize then
        ((s.spin l).exec s.current .lock).map fun r => (s.setSpin l r).setCode (.locking l :: rest)
      else none
  | .sUnlock l =>
      ((s.spin l).exec s.current .unlock).map fun r => (s.setSpin l r).setCode (.unlocking l :: rest)
  | .locking l => s.accessSpin l (.locking l) rest
  | .unlocking l => s.accessSpin l (.unlocking l) rest
  | .lockIrq l => (s.cpu.lockIrq l).map fun cpu => (s.setCpu cpu).setCode rest
  | .unlockIrq l => some ((s.setCpu (s.cpu.unlockIrq l)).setCode rest)
  | .cli => some ((s.setCpu { s.cpu with enabled := false }).setCode rest)
  | .iret none => some ((s.setCpu { s.cpu with enabled := true }).setCode rest)
  | .iret (some pc) =>
      if (s.spin .pnodeLock).pc s.current = .outside then
        some (((s.setSpin .pnodeLock ((s.spin .pnodeLock).goto s.current pc)).setCpu
          { s.cpu with enabled := true }).setCode rest)
      else none

/-- The CPU goes to `t`, which returns through `finish_task_switch` to where it was interrupted. -/
def switch (s : LockSystem) (t : TaskPtr) (heap : Bool) : LockSystem :=
  let s := { s with current := t, cpu := { s.cpu with enabled := false } }
  if heap then
    (s.setSpin .pnodeLock ((s.spin .pnodeLock).goto t .outside)).setCode
      (finishTaskSwitch true ++ .iret (some ((s.spin .pnodeLock).pc t)) :: s.code t)
  else s.setCode (finishTaskSwitch false ++ .iret none :: s.code t)

def exec (s : LockSystem) : LockEvent → Option LockSystem
  | .call c =>
      if s.code s.current = [] ∧ s.cpu.enabled then some (s.setCode (c.code s.current)) else none
  | .step =>
      match s.code s.current with
      | [] => none
      | op :: rest => s.execOp rest op
  | .switch t heap =>
      if s.cpu.enabled ∧ t ≠ s.current then some (s.switch t heap) else none

/-- All locks are initialised and no call is under way. -/
def Initial (s : LockSystem) : Prop :=
  (∀ l, s.spin l = LockRun.initial) ∧ s.cpu = ⟨true, fun _ => .init⟩ ∧ ∀ t, s.code t = []

def Step (may : LockSystem → LockEvent → Prop) (s s' : LockSystem) : Prop :=
  ∃ e, may s e ∧ s.exec e = some s'

abbrev Reachable (may : LockSystem → LockEvent → Prop) : LockSystem → Prop :=
  Transition.Reachable Initial (Step may)

/-- The running task spins in `s_lock` with interrupts disabled, and the lock belongs to a task
that has been preempted. -/
def Deadlocked (s : LockSystem) : Prop :=
  s.cpu.enabled = false ∧ ∃ l rest ticket owner, s.code s.current = .locking l :: rest ∧
    (s.spin l).pc s.current = .spin ticket ∧ (s.spin l).lock.dequeue ≠ ticket ∧
    (s.spin l).lock.owner = (owner : TaskPtr) ∧ owner ≠ s.current

/-- The locks that the code takes anew before interrupts are enabled again, for a task that holds
each lock `depth l` times. -/
def takenOff (cpu : Interrupts) (depth : SpinName → Nat) : List LockOp → List SpinName
  | [] => []
  | .sLock l :: rest | .locking l :: rest =>
      (if depth l = 0 then [l] else []) ++ takenOff cpu (Function.update depth l (depth l + 1)) rest
  | .sUnlock l :: rest | .unlocking l :: rest =>
      takenOff cpu (Function.update depth l (depth l - 1)) rest
  | .lockIrq l :: rest =>
      match cpu.lockIrq l with
      | none => []
      | some cpu => takenOff cpu depth rest
  | .unlockIrq l :: rest =>
      if (cpu.unlockIrq l).enabled then [] else takenOff (cpu.unlockIrq l) depth rest
  | .cli :: rest => takenOff { cpu with enabled := false } depth rest
  | .iret _ :: _ => []

/-- No other task has drawn a ticket of a lock that the current task takes before interrupts are
enabled again. -/
def Alone (s : LockSystem) : Prop :=
  ∀ l ∈ takenOff s.cpu (fun l => (s.spin l).depth s.current) (s.code s.current),
    ∀ u, u ≠ s.current → ¬ (s.spin l).Waits u ∧ ¬ (s.spin l).Holds u

/-- The points of `s_lock` and `s_unlock` at which a second call on the same lock does no harm: no
ticket has been drawn, and the counter has not been decreased. -/
def Reenterable : LockPc → Prop
  | .outside | .readOwner | .loadNested | .storeNested _ | .takeTicket | .loadCounter
  | .storeCounter _ => True
  | _ => False

/-- A task with a heap is not resumed in the middle of taking or giving up `pnode_lock`. -/
def Resumable (s : LockSystem) : LockEvent → Prop
  | .switch t true => Reenterable ((s.spin .pnodeLock).pc t)
  | _ => True

/-- Where interrupts become disabled, the running task is alone with the locks ahead. -/
def Clean (s : LockSystem) (e : LockEvent) : Prop :=
  (∀ s' ∈ s.exec e, s.cpu.enabled = true → s'.cpu.enabled = false → s'.Alone) ∧ s.Resumable e

end LockSystem
end ArtOS

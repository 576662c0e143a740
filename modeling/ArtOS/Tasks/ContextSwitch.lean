import ArtOS.Library.WordStack
import ArtOS.Tasks.Fpu

/-! The switch of the stacks: `common_stub`, `switch_context` and `common_switch` of
`asm/usermodetask.s`, `irq_handler` of `cpu/irq.c`, `set_kernel_stack` of `cpu/gdt.c` and
`create_default_frame` and `get_current_stack` of `sys/tasksp.c`.

A stack is seen as cells of four bytes. The C functions that the assembly code calls write
anything below the stack pointer they are called with; that they, and the tasks themselves, stay
on their own stack is assumed. `fs` and `gs`, which no code saves, are not represented. -/
namespace ArtOS

/-- Where the stack pointer is: on a kernel stack, or in the user part of the address space. -/
inductive StackTop where
  | kernel (area : StackArea) (cell : Nat)
  | user (addr : BitVec 32)
  deriving DecidableEq, Repr

structure Cpu where
  eax : BitVec 32
  ecx : BitVec 32
  edx : BitVec 32
  ebx : BitVec 32
  ebp : BitVec 32
  esi : BitVec 32
  edi : BitVec 32
  ds : BitVec 16
  es : BitVec 16
  cs : BitVec 16
  ss : BitVec 16
  eip : BitVec 32
  eflags : BitVec 32
  esp : StackTop
  deriving DecidableEq, Repr

abbrev Cells := Nat → BitVec 32

/-- `struct registers`, from the lowest cell up. -/
structure Registers where
  ds : BitVec 32
  es : BitVec 32
  edi : BitVec 32
  esi : BitVec 32
  ebp : BitVec 32
  esp : BitVec 32
  ebx : BitVec 32
  edx : BitVec 32
  ecx : BitVec 32
  eax : BitVec 32
  intNo : BitVec 32
  error : BitVec 32
  eip : BitVec 32
  cs : BitVec 32
  eflags : BitVec 32
  useresp : BitVec 32
  ss : BitVec 32

/-- Addresses that the linker chooses. -/
structure Linked where
  address : StackArea → Nat → BitVec 32
  leaveKernelTask : BitVec 32
  rollback : BitVec 32

abbrev kernelCode : BitVec 16 := 0x8
abbrev kernelData : BitVec 16 := 0x10

/-- The cell at `KERNEL_STACK_SIZE - 16`. -/
abbrev stackBottom : Nat := (kernelStackSize - 16) / 4

/-- The code segment belongs to ring 0. -/
abbrev Ring0 (cs : BitVec 16) : Prop := cs &&& 3 = 0

/-- A segment register is pushed as a word. -/
abbrev word (selector : BitVec 16) : BitVec 32 := selector.setWidth 32

namespace Kernel

def getHighestPriority (k : Kernel) : Nat := msb k.prioBitmap

/-- The end of `irq_handler`, from the label `leave_handler` on. -/
def irqHandler (k : Kernel) (intNo : Nat) : Option (Kernel × Option TaskPtr) :=
  if intNo = 32 then k.scheduler
  else if 32 ≤ intNo ∧ k.task.prio k.currentTask < k.getHighestPriority then k.scheduler
  else some (k, none)

end Kernel

/-- The stack of a task. -/
def areaOf (t : TaskPtr) : StackArea := if t = 0 then .boot else .kernel (t - 1)

/-- The kernel and the CPU. `esp0` is the entry of the task state segment, `none` standing for the
value of `gdt_install` below the boot stack. -/
structure Machine where
  kernel : Kernel
  cpu : Cpu
  contents : StackArea → Cells
  esp0 : Option (StackArea × Nat)
  cr3 : Nat

namespace Machine

/-- `pusha`; the stack pointer it pushes is the one before. -/
def pusha (cpu : Cpu) (esp : BitVec 32) : List (BitVec 32) :=
  [cpu.eax, cpu.ecx, cpu.edx, cpu.ebx, esp, cpu.ebp, cpu.esi, cpu.edi]

/-- What the CPU does at an interrupt gate: coming from ring 3 it takes the stack of `esp0`. -/
def trap (m : Machine) : Option (StackArea × WordStack (BitVec 32)) :=
  match m.cpu.esp with
  | .kernel area cell =>
      some (area, (WordStack.mk (m.contents area) cell).pushAll
        [m.cpu.eflags, word m.cpu.cs, m.cpu.eip])
  | .user addr => m.esp0.map fun top =>
      (top.1, (WordStack.mk (m.contents top.1) top.2).pushAll
        [word m.cpu.ss, addr, m.cpu.eflags, word m.cpu.cs, m.cpu.eip])

/-- `common_stub` up to the call of `irq_handler`, behind a stub that has pushed these words. -/
def commonStub (linked : Linked) (m : Machine) (words : List (BitVec 32)) :
    Option (StackArea × WordStack (BitVec 32)) :=
  m.trap.map fun entered =>
    let s := entered.2.pushAll words
    (entered.1, (s.pushAll (pusha m.cpu (linked.address entered.1 s.sp))).pushAll
      [word m.cpu.es, word m.cpu.ds])

/-- `irq%1`. -/
def irqStub (linked : Linked) (m : Machine) (intNo : Nat) : Option (StackArea × WordStack (BitVec 32)) :=
  m.commonStub linked [0, BitVec.ofNat 32 intNo]

/-- `switch_context` up to the jump to `common_switch`: `eax` is the argument. The words for the
interrupt number and for the error code are pushed in the other order. -/
def switchContext (linked : Linked) (m : Machine) (area : StackArea) (cell : Nat) :
    WordStack (BitVec 32) :=
  let eax := m.contents area (cell + 1)
  let s := (WordStack.mk (m.contents area) cell).pushAll
    [m.cpu.eflags, word kernelCode, linked.rollback, 0, 0x00edbabe]
  (s.pushAll (pusha { m.cpu with eax := eax } (linked.address area s.sp))).pushAll
    [word kernelData, word kernelData]

/-- The frame that lies at the stack pointer. -/
def frameAt (s : WordStack (BitVec 32)) : Registers :=
  let w i := s.cells (s.sp + i)
  { ds := w 0, es := w 1, edi := w 2, esi := w 3, ebp := w 4, esp := w 5, ebx := w 6, edx := w 7
    ecx := w 8, eax := w 9, intNo := w 10, error := w 11, eip := w 12, cs := w 13, eflags := w 14
    useresp := w 15, ss := w 16 }

/-- From `no_context_switch` on. `popa` skips the stack pointer, and `iret` pops the last two words
only on the way to ring 3. -/
def leave (area : StackArea) (ss : BitVec 16) (s : WordStack (BitVec 32)) : Cpu :=
  let frame := frameAt s
  let cs := frame.cs.setWidth 16
  { eax := frame.eax, ecx := frame.ecx, edx := frame.edx, ebx := frame.ebx, ebp := frame.ebp
    esi := frame.esi, edi := frame.edi, ds := frame.ds.setWidth 16, es := frame.es.setWidth 16
    cs := cs, eip := frame.eip, eflags := frame.eflags
    ss := if Ring0 cs then ss else frame.ss.setWidth 16
    esp := if Ring0 cs then .kernel area (s.sp + 15) else .user frame.useresp }

/-- The stack segment in a handler: the `ss0` of the task state segment, or the one in use. -/
def handlerSs (cpu : Cpu) : BitVec 16 :=
  match cpu.esp with
  | .kernel _ _ => cpu.ss
  | .user _ => kernelData

/-- `common_switch`. `k` is the kernel that `scheduler` has left, and `s` the stack of the task
`orig`. The calls write `junk` below the stack pointers. -/
def commonSwitch (m : Machine) (k : Kernel) (orig : TaskPtr) (area : StackArea)
    (s : WordStack (BitVec 32)) (junk junk' : Cells) : Option Machine :=
  let k := k.setTask orig fun x => { x with lastStackPointer := some ⟨area, 4 * s.sp⟩ }
  let contents := Function.update m.contents area (s.clobber junk).cells
  (k.task k.currentTask).lastStackPointer.bind fun esp =>
    k.finishTaskSwitch.map fun finished =>
      let s' := (WordStack.mk (contents esp.area) (esp.offset / 4)).clobber junk'
      { kernel := finished.1
        cpu := leave esp.area (handlerSs m.cpu) s'
        contents := Function.update contents esp.area s'.cells
        esp0 := (k.task k.currentTask).stack.map fun stack => (stack, stackBottom)
        cr3 := (k.task k.currentTask).pageMap }

/-- An external interrupt, from the gate to `iret`. -/
def interrupt (linked : Linked) (m : Machine) (intNo : Nat) (junk junk' : Cells) : Option Machine :=
  (m.irqStub linked intNo).bind fun entered =>
    (m.kernel.irqHandler intNo).bind fun handled =>
      let s := entered.2.clobber junk
      match handled.2 with
      | none => some
          { m with
            kernel := handled.1
            cpu := leave entered.1 (handlerSs m.cpu) s
            contents := Function.update m.contents entered.1 s.cells }
      | some orig => m.commonSwitch handled.1 orig entered.1 s junk junk'

/-- `reschedule`. The stack pointer is the one at the entry of `switch_context`, where the return
address lies. -/
def reschedule (linked : Linked) (m : Machine) (junk junk' : Cells) : Option Machine :=
  match m.cpu.esp with
  | .user _ => none
  | .kernel area cell =>
      m.kernel.scheduler.bind fun scheduled =>
        match scheduled.2 with
        | none => some { m with kernel := scheduled.1 }
        | some orig =>
            m.commonSwitch scheduled.1 orig area (m.switchContext linked area cell) junk junk'

/-- The instruction at `rollback`. -/
def ret (m : Machine) : Option Machine :=
  match m.cpu.esp with
  | .user _ => none
  | .kernel area cell =>
      some { m with cpu := { m.cpu with eip := m.contents area cell, esp := .kernel area (cell + 1) } }

/-- The stack that `create_default_frame` leaves: the marker, the argument, the return address, and
below them the frame of a task that starts at `ep`. -/
def defaultStack (linked : Linked) (area : StackArea) (ep arg : Nat) : WordStack (BitVec 32) :=
  let s := (WordStack.mk (fun _ => (0xCDCDCDCD : BitVec 32)) (stackBottom + 1)).pushAll
    [0xDEADBEEF, BitVec.ofNat 32 arg, linked.leaveKernelTask]
  s.pushAll [0x1202, 0x8, BitVec.ofNat 32 ep, 0xC03DB4B3, 0xB16B00B5, 0, 0, 0, 0,
    linked.address area s.sp, 0, 0, 0, 0x10, 0x10]

/-- `create_task`. The frame is written where the new entry has got a stack. -/
def createTask (linked : Linked) (m : Machine) (ep arg prio : Nat) (pages : Kernel.PageOutcome) :
    Option Machine :=
  (m.kernel.createTask ep arg prio pages).map fun created =>
    let new := (List.finRange maxTasks).find? fun i => m.kernel.task.status i = .invalid
    match if created.2 = (0 : Int) then new.bind fun i => (created.1.task i).stack else none with
    | none => { m with kernel := created.1 }
    | some area =>
        { m with
          kernel := created.1
          contents := Function.update m.contents area (defaultStack linked area ep arg).cells }

end Machine

/-- What happens between two moments of a run. `compute` is anything a task does on its own: it
changes the registers and its stack, and passes between the rings. -/
inductive Event where
  | compute (cpu : Cpu) (cells : Cells)
  | fpu (unit : FpuUnit)
  | create (ep arg prio : Nat) (pages : Kernel.PageOutcome)
  | block
  | wakeup (id : TaskPtr)
  | exit
  | interrupt (intNo : Nat) (junk junk' : Cells)
  | reschedule (junk junk' : Cells)

namespace Machine

abbrev current (m : Machine) : TaskPtr := m.kernel.currentTask

/-- A task in ring 0 is on its own stack; the idle task is never in ring 3. -/
def Fits (t : TaskPtr) (cpu : Cpu) : Prop :=
  match cpu.esp with
  | .kernel area cell =>
      area = areaOf t ∧ cell ≤ kernelStackSize / 4 ∧ Ring0 cpu.cs ∧ cpu.ss = kernelData
  | .user _ => t ≠ 0 ∧ ¬ Ring0 cpu.cs

/-- There is room for a frame. -/
def Room (cpu : Cpu) : Prop :=
  match cpu.esp with
  | .kernel _ cell => 15 ≤ cell
  | .user _ => True

instance (t : TaskPtr) (cpu : Cpu) : Decidable (Fits t cpu) :=
  match h : cpu.esp with
  | .kernel area cell =>
      decidable_of_iff (area = areaOf t ∧ cell ≤ kernelStackSize / 4 ∧ Ring0 cpu.cs ∧
        cpu.ss = kernelData) (by rw [Fits, h])
  | .user _ => decidable_of_iff (t ≠ 0 ∧ ¬ Ring0 cpu.cs) (by rw [Fits, h])

instance (cpu : Cpu) : Decidable (Room cpu) :=
  match h : cpu.esp with
  | .kernel _ cell => decidable_of_iff (15 ≤ cell) (by rw [Room, h])
  | .user _ => isTrue (by rw [Room, h]; trivial)

def Allowed (m : Machine) : Event → Prop
  | .compute cpu _ => Fits m.current cpu
  | .create _ _ prio pages => 1 ≤ prio ∧ prio ≤ maxPrio ∧ pages.frame ≠ 0
  | .exit => m.current ≠ m.kernel.idle ∧ m.kernel.currentStatus ≠ .ready
  | .interrupt intNo _ _ => 32 ≤ intNo ∧ Room m.cpu
  | .reschedule _ _ => Room m.cpu ∧ Ring0 m.cpu.cs
  | _ => True

def act (linked : Linked) (m : Machine) : Event → Option Machine
  | .compute cpu cells =>
      some { m with cpu := cpu, contents := Function.update m.contents (areaOf m.current) cells }
  | .fpu unit => some { m with kernel := m.kernel.fpuHandler unit }
  | .create ep arg prio pages => m.createTask linked ep arg prio pages
  | .block => m.kernel.blockCurrentTask.map fun blocked => { m with kernel := blocked.1 }
  | .wakeup id => (m.kernel.wakeupTask id).map fun woken => { m with kernel := woken.1 }
  | .exit => some { m with kernel := m.kernel.doExit }
  | .interrupt intNo junk junk' => m.interrupt linked intNo junk junk'
  | .reschedule junk junk' => m.reschedule linked junk junk'

def Step (linked : Linked) (m m' : Machine) : Prop :=
  ∃ event, m.Allowed event ∧ m.act linked event = some m'

instance (m : Machine) (event : Event) : Decidable (m.Allowed event) :=
  match event with
  | .compute cpu _ => inferInstanceAs (Decidable (Fits m.current cpu))
  | .create _ _ _ _ => inferInstanceAs (Decidable (_ ∧ _ ∧ _))
  | .exit => inferInstanceAs (Decidable (_ ∧ _))
  | .interrupt _ _ _ => inferInstanceAs (Decidable (_ ∧ _))
  | .reschedule _ _ => inferInstanceAs (Decidable (_ ∧ _))
  | .fpu _ | .block | .wakeup _ => inferInstanceAs (Decidable True)

/-- The events one after another, as long as each of them is allowed. -/
def run (linked : Linked) : List Event → Machine → Option Machine
  | [], m => some m
  | event :: rest, m =>
      if m.Allowed event then (m.act linked event).bind (run linked rest) else none

/-- What a task that calls `switch_context` will go on with: it returns to `rollback`. -/
def yielded (linked : Linked) (m : Machine) (area : StackArea) (cell : Nat) : Cpu :=
  { m.cpu with
    eax := m.contents area (cell + 1), ds := kernelData, es := kernelData, cs := kernelCode
    eip := linked.rollback }

/-- What the current task will go on with if the event switches to another one. -/
def suspended (linked : Linked) (m : Machine) : Event → Cpu
  | .reschedule _ _ =>
      match m.cpu.esp with
      | .kernel area cell => m.yielded linked area cell
      | .user _ => m.cpu
  | _ => m.cpu

/-- The registers with which a new task starts. -/
def startCpu (t : TaskPtr) (ep : Nat) : Cpu where
  eax := 0
  ecx := 0
  edx := 0
  ebx := 0
  ebp := 0
  esi := 0
  edi := 0
  ds := kernelData
  es := kernelData
  cs := kernelCode
  ss := kernelData
  eip := BitVec.ofNat 32 ep
  eflags := 0x1202
  esp := .kernel (areaOf t) (stackBottom - 2)

/-- The lowest cell of its stack that a task uses: coming from ring 3, none below the bottom. -/
def floor (cpu : Cpu) : Nat :=
  match cpu.esp with
  | .kernel _ cell => cell
  | .user _ => stackBottom

/-- A run in which the task `t` is never the current one. -/
abbrev Away (linked : Linked) (t : TaskPtr) : Machine → Machine → Prop :=
  Relation.ReflTransGen fun m m' => Step linked m m' ∧ m'.current ≠ t

/-- The idle task on the boot stack, after `multitasking_init`. -/
def Initial (m : Machine) : Prop :=
  m.kernel.Booted ∧ Fits 0 m.cpu ∧ m.esp0 = none ∧ m.cr3 = (m.kernel.task 0).pageMap

abbrev Reachable (linked : Linked) : Machine → Prop :=
  Transition.Reachable Initial (Step linked)

theorem reachable_run {linked : Linked} {m m' : Machine} {events : List Event} (h : Reachable linked m)
    (hRun : m.run linked events = some m') : Reachable linked m' := by
  induction events generalizing m with
  | nil => exact Option.some.inj hRun ▸ h
  | cons event events ih =>
      rw [Machine.run] at hRun
      split at hRun
      · rename_i hAllowed
        obtain ⟨m₁, hAct, hRest⟩ := Option.bind_eq_some_iff.mp hRun
        exact ih (h.next ⟨event, hAllowed, hAct⟩) hRest
      · cases hRun

end Machine
end ArtOS

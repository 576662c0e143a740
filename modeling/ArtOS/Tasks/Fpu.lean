import ArtOS.Tasks.Lifecycle

/-! The lazy switching of the FPU: `fpu_handler` of `cpu/isrs.c`, the `TS` flag
that `common_switch` sets, and the save in `scheduler`. A run also records what
every task left in the registers. -/
namespace ArtOS

/-- `fpu_init` and `restore_fpu_state` of `processor.c`: the image of an unused FPU, and the
registers that an image stands for. -/
structure FpuUnit where
  fpuInit : FpuState
  restoreFpuState : FpuState → FpuState

namespace Kernel

def FpuUsed (k : Kernel) (t : TaskPtr) : Prop := (k.task t).flags &&& taskFpuUsed ≠ 0

def FpuInit (k : Kernel) (t : TaskPtr) : Prop := (k.task t).flags &&& taskFpuInit ≠ 0

instance (k : Kernel) (t : TaskPtr) : Decidable (k.FpuUsed t) := inferInstanceAs (Decidable (_ ≠ _))

instance (k : Kernel) (t : TaskPtr) : Decidable (k.FpuInit t) := inferInstanceAs (Decidable (_ ≠ _))

def fpuHandler (unit : FpuUnit) (k : Kernel) : Kernel :=
  let t := k.currentTask
  let k :=
    if k.FpuInit t then k
    else k.setTask t fun x => { x with fpu := unit.fpuInit, flags := x.flags ||| taskFpuInit }
  (k.setFpuRegs (unit.restoreFpuState (k.task t).fpu)).setTask t fun x =>
    { x with flags := x.flags ||| taskFpuUsed }

end Kernel

/-- The kernel with `CR0.TS`, and what the last FPU instruction of each task left behind. -/
structure FpuRun where
  kernel : Kernel
  ts : Bool
  left : TaskPtr → Option FpuState

namespace FpuRun

/-- What happens before an FPU instruction: with `TS` set the handler runs. -/
def touch (unit : FpuUnit) (r : FpuRun) : FpuRun :=
  if r.ts then { r with kernel := r.kernel.fpuHandler unit, ts := false } else r

/-- The current task executes an FPU instruction that leaves `value`. -/
def compute (unit : FpuUnit) (r : FpuRun) (value : FpuState) : FpuRun :=
  let r := r.touch unit
  { r with
    kernel := r.kernel.setFpuRegs value
    left := Function.update r.left r.kernel.currentTask (some value) }

/-- A call of the kernel has been executed. A switch sets `TS`; a table entry that was not in
use has no history. -/
def after (r : FpuRun) (k : Kernel) : FpuRun where
  kernel := k
  ts := r.ts || k.currentTask ≠ r.kernel.currentTask
  left := fun t => if r.kernel.task.status t = .invalid then none else r.left t

/-- One step: a call of the kernel, as far as `may` lets it through, or an FPU instruction. -/
def Step (unit : FpuUnit) (may : FpuRun → Call → Prop) (r r' : FpuRun) : Prop :=
  (∃ call k, call.Allowed (fun k => k.currentStatus = .running) r.kernel ∧ may r call ∧
    call.exec r.kernel = some k ∧ r' = r.after k) ∨
  ∃ value, r' = r.compute unit value

/-- The kernel after `multitasking_init`; its registers are those of an unused FPU, and what is
saved can be restored. -/
def Initial (unit : FpuUnit) (r : FpuRun) : Prop :=
  r.kernel.Booted ∧ r.kernel.fpuRegs = unit.restoreFpuState unit.fpuInit ∧ r.ts = false ∧
    (∀ t, r.left t = none) ∧
    ∀ regs, unit.restoreFpuState (r.kernel.saveFpuState regs).1 = regs

abbrev Reachable (unit : FpuUnit) (may : FpuRun → Call → Prop) : FpuRun → Prop :=
  Transition.Reachable (Initial unit) (Step unit may)

/-- What the next FPU instruction of a task has to find. -/
def expected (unit : FpuUnit) (r : FpuRun) (t : TaskPtr) : FpuState :=
  (r.left t).getD (unit.restoreFpuState unit.fpuInit)

/-- An FPU instruction of the current task finds what the task left there. -/
def Private (unit : FpuUnit) (r : FpuRun) : Prop :=
  (r.touch unit).kernel.fpuRegs = r.expected unit r.kernel.currentTask

/-- The registers hold values of the current task. -/
def Live (r : FpuRun) : Prop := r.ts = false ∧ r.left r.kernel.currentTask ≠ none

/-- A task with values in the registers does not leave the CPU blocked or as the idle task, and
no table entry is given out again that still has an FPU image. -/
def Clean (r : FpuRun) : Call → Prop
  | .schedule => r.Live → r.kernel.currentStatus ≠ .blocked ∧
      (r.kernel.currentStatus = .idle → r.kernel.prioBitmap = 0)
  | .create _ _ _ _ => ∀ i,
      ((List.finRange maxTasks).find? fun i => r.kernel.task.status i = .invalid) = some i →
        ¬ r.kernel.FpuInit i
  | _ => True

end FpuRun
end ArtOS

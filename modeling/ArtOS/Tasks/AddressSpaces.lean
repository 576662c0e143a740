import ArtOS.Memory.PageMapCopy
import ArtOS.Memory.VmaRun
import ArtOS.Tasks.Untouched

/-! The page maps of the tasks: the kernel together with physical memory, the
frame allocator and the list of kernel areas. `CR3` holds the page map of the
current task. Every call runs as one section, except `do_exit`: a switch may
come between its `page_map_drop` and the rest. -/
namespace ArtOS

/-- The task that `create_task` finds a table entry for. -/
def Kernel.newSlot (k : Kernel) (ep prio : Nat) : Option TaskPtr :=
  if ep = 0 ∨ prio = idlePrio ∨ maxPrio < prio then none
  else (List.finRange maxTasks).find? fun i => k.task.status i = .invalid

/-- `held` lists the blocks from `get_pages` that belong to no page map. -/
structure PageRun where
  kernel : Kernel
  mem : Nat → Nat → PageEntry
  frames : Frames
  held : List (Nat × Nat)
  vmas : VmaRun
  exiting : TaskPtr → Bool

/-- The calls of a run. `drop` and `exit` are the two halves of `do_exit`; `fault` comes with what
`task->heap` points to. `split` only divides a block in hand: `pfree` gives its frames back one by
one. -/
inductive PageCall where
  | create (ep arg prio : Nat)
  | schedule
  | block
  | wakeup (id : TaskPtr)
  | drop
  | exit
  | map (viraddr phyaddr npages : Nat) (bits : BitVec 12)
  | unmap (viraddr npages : Nat)
  | fault (viraddr : Nat) (heap : Option (Nat × Nat))
  | get (npages : Nat)
  | split (block : Nat × Nat) (npages : Nat)
  | put (block : Nat × Nat)
  | vma (call : VmaCall) (answer : Answer) (fuel : Nat)

namespace PageRun

/-- The frame of a root table. -/
def root (k : Kernel) (t : TaskPtr) : Nat := (k.task t).pageMap >>> pageBits

def cr3 (r : PageRun) : Nat := root r.kernel r.kernel.currentTask

/-- The page tables as a call for the current task finds them. -/
def paging (r : PageRun) : Paging :=
  ⟨r.mem, r.frames, (r.kernel.task r.kernel.currentTask).userUsage⟩

/-- The state after such a call. -/
def setPaging (r : PageRun) (s : Paging) : PageRun :=
  { r with
    kernel := r.kernel.setTask r.kernel.currentTask fun x => { x with userUsage := s.usage }
    mem := s.mem
    frames := s.frames }

def createTask (kernelEnd : Nat) (r : PageRun) (ep arg prio : Nat) : Option PageRun :=
  match r.kernel.newSlot ep prio with
  | none => (r.kernel.createTask ep arg prio ⟨0, 0⟩).map fun (k, _) => { r with kernel := k }
  | some _ =>
      (r.frames.getPages kernelEnd 1).bind fun (frames, addr) =>
        if addr = 0 then
          (r.kernel.createTask ep arg prio ⟨0, 0⟩).map fun (k, _) =>
            { r with kernel := k, frames := frames }
        else
          (Paging.pageMapCopy kernelEnd r.cr3 (addr >>> pageBits) ⟨r.mem, frames, 0⟩).bind
            fun (s, _) => (r.kernel.createTask ep arg prio ⟨addr, s.usage⟩).map fun (k, _) =>
              { r with kernel := k, mem := s.mem, frames := s.frames }

/-- A block that is mapped for user space belongs to the page map from then on. -/
def pageMap (kernelEnd : Nat) (r : PageRun) (viraddr phyaddr npages : Nat) (bits : BitVec 12) :
    Option PageRun :=
  (r.paging.pageMap kernelEnd r.cr3 viraddr phyaddr npages bits).map fun (s, ret) =>
    let held :=
      if bits &&& pgUser ≠ 0 ∧ ret = 0 then r.held.erase (phyaddr, npages) else r.held
    { r.setPaging s with held := held }

def getPages (kernelEnd : Nat) (r : PageRun) (npages : Nat) : Option PageRun :=
  (r.frames.getPages kernelEnd npages).map fun (frames, addr) =>
    { r with frames := frames, held := if addr = 0 then r.held else (addr, npages) :: r.held }

def exec (kernelEnd : Nat) (r : PageRun) : PageCall → Option PageRun
  | .create ep arg prio => r.createTask kernelEnd ep arg prio
  | .schedule => (Call.exec .schedule r.kernel).map fun k => { r with kernel := k }
  | .block => (Call.exec .block r.kernel).map fun k => { r with kernel := k }
  | .wakeup id => (Call.exec (.wakeup id) r.kernel).map fun k => { r with kernel := k }
  | .drop =>
      (r.paging.pageMapDrop r.cr3).map fun (s, _) =>
        { r.setPaging s with exiting := Function.update r.exiting r.kernel.currentTask true }
  | .exit =>
      (Call.exec .exit r.kernel).map fun k =>
        { r with kernel := k, exiting := Function.update r.exiting r.kernel.currentTask false }
  | .map viraddr phyaddr npages bits => r.pageMap kernelEnd viraddr phyaddr npages bits
  | .unmap viraddr npages =>
      (r.paging.pageUnmap r.cr3 viraddr npages).map fun (s, _) => r.setPaging s
  | .fault viraddr heap =>
      (r.paging.pageFaultHandler kernelEnd r.cr3 viraddr heap).map fun (s, _) => r.setPaging s
  | .get npages => r.getPages kernelEnd npages
  | .split block npages =>
      some { r with
        held := (block.1, npages) :: (block.1 + npages <<< pageBits, block.2 - npages) ::
          r.held.erase block }
  | .put block =>
      (r.frames.putPages block.1 block.2).map fun (frames, _) =>
        { r with frames := frames, held := r.held.erase block }
  | .vma call answer fuel => (r.vmas.exec call answer fuel).map fun vmas => { r with vmas := vmas }

/-- Who makes which call: after `page_map_drop` a task only leaves, only a running task exits, and
not the idle task; `put_pages` is called for blocks in hand. -/
def Allowed (r : PageRun) : PageCall → Prop
  | .schedule | .wakeup _ => True
  | .vma call answer _ => call.Kernel ∧ r.vmas.Fresh answer
  | .drop => r.exiting r.kernel.currentTask = false ∧
      Call.exit.Allowed (fun k => k.currentStatus = .running) r.kernel
  | .exit => r.exiting r.kernel.currentTask = true ∧
      Call.exit.Allowed (fun k => k.currentStatus = .running) r.kernel
  | .split block npages => block ∈ r.held ∧ 0 < npages ∧ npages < block.2
  | .put block => r.exiting r.kernel.currentTask = false ∧ block ∈ r.held
  | .map _ _ npages _ => r.exiting r.kernel.currentTask = false ∧ 0 < npages
  | _ => r.exiting r.kernel.currentTask = false

def Step (kernelEnd : Nat) (may : PageRun → PageCall → Prop) (r r' : PageRun) : Prop :=
  ∃ call, r.Allowed call ∧ may r call ∧ r.exec kernelEnd call = some r'

/-- `boot_pgd`. -/
def bootPgd (pgd pgt : Nat) (i : Nat) : PageEntry :=
  if i = 0 then ⟨pgt, pgPresent ||| pgRw ||| pgUser ||| pgGlobal⟩
  else if i = pageMapEntries - 1 then ⟨pgd, pgPresent ||| pgRw ||| pgGlobal ||| pgSelf⟩
  else PageEntry.zero

/-- `boot_pgt` as `cpu_init` fills it: the kernel, the multiboot information and the video memory
are mapped to themselves. -/
def bootPgt (kernelEnd mbInfo : Nat) (j : Nat) : PageEntry :=
  if kernelStart ≤ j <<< pageBits ∧ j <<< pageBits < kernelEnd + pageSize then
    ⟨j, pgPresent ||| pgRw ||| pgGlobal⟩
  else if j = mbInfo >>> pageBits then ⟨j, pgPresent ||| pgGlobal⟩
  else if j = 0xB8000 >>> pageBits then ⟨j, pgPresent ||| pgRw ||| pgPcd ||| pgGlobal⟩
  else PageEntry.zero

/-- The system after `multitasking_init`, with the boot page map in `CR3`. Its two tables are part
of the kernel image, whose frames are in use. -/
structure Initial (kernelEnd : Nat) (r : PageRun) : Prop where
  booted : ∃ regs save pgd,
    r.kernel = ((Kernel.bootKernel regs save).multitaskingInit (pgd <<< pageBits)).1
  tables : ∃ pgt mbInfo, r.mem r.cr3 = bootPgd r.cr3 pgt ∧ r.mem pgt = bootPgt kernelEnd mbInfo ∧
    pgt ≠ 0 ∧ pgt ≠ r.cr3 ∧ (pgt < bitmapBits ∧ r.frames.Marked pgt) ∧
    r.cr3 < bitmapBits ∧ r.frames.Marked r.cr3
  ready : r.frames.Ready
  held : r.held = []
  vmas : r.vmas.Initial
  exiting : ∀ t, r.exiting t = false

abbrev Reachable (kernelEnd : Nat) (may : PageRun → PageCall → Prop) : PageRun → Prop :=
  Transition.Reachable (Initial kernelEnd) (Step kernelEnd may)

end PageRun
end ArtOS

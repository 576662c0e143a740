import ArtOS.Memory.HeapRun
import ArtOS.Memory.Palloc
import ArtOS.Tasks.Untouched

/-! The heap descriptor of a task: `load_task` obtains it from `kmalloc`,
`sys_sbrk` writes to it, and `finish_task_switch` hands it to `kfree`. The
ledger of a run has the other allocations; the blocks of the descriptors are
kept in a list of their own. -/
namespace ArtOS

open ByteMemory LinkedList Kernel

namespace Kernel

/-- `reschedule` with the block that `finish_task_switch` hands to `kfree`. -/
def rescheduleFreed (k : Kernel) : Option (Kernel × Option Nat) :=
  k.scheduler.bind fun result =>
    match result.2 with
    | none => some (result.1, none)
    | some _ => result.1.finishTaskSwitch

end Kernel

/-- A call, with the block that it hands to `kfree`. -/
def Call.execFreed : Call → Kernel → Option (Kernel × Option Nat)
  | schedule, k => k.rescheduleFreed
  | exit, k => k.doExit.rescheduleFreed
  | call, k => (call.exec k).map fun k => (k, none)

/-- The exponent of the block that holds a `vma_t`. -/
abbrev descriptorExp : Nat := 5

structure DescriptorRun where
  kernel : Kernel
  heap : HeapRun
  descriptors : List Nat

namespace DescriptorRun

/-- The blocks of the descriptors that nobody has freed. -/
def pins (r : DescriptorRun) : List (Nat × Nat) := r.descriptors.map fun p => (p, descriptorExp)

/-- `curr_task->heap` becomes an empty area at `location`. -/
def writeDescriptor (h location : Nat) (heap : Heap) : Heap :=
  let mem := store32 heap.mem (Word.add h 8) (vmaHeap ||| vmaUser).toNat
  let mem := store32 mem h location
  { heap with mem := store32 mem (Word.add h 4) location }

/-- The part of `load_task` from the comment `setup heap` on; `segmentEnd` is the end of the last
segment, or 0 if there was none. -/
def loadTask (palloc : Allocator Ledger) (segmentEnd : Nat) (r : DescriptorRun) : Option DescriptorRun :=
  let obtained : Option DescriptorRun :=
    match (r.kernel.task r.kernel.currentTask).heap with
    | some _ => some r
    | none => (kmallocWith palloc sizeofVma r.heap).map fun (heap, h) =>
        { kernel := r.kernel.setTask r.kernel.currentTask fun x => { x with heap := h }
          heap := heap
          descriptors := (h.map fun h => Word.sub h sizeofPnode).toList ++ r.descriptors }
  obtained.map fun r =>
    match (r.kernel.task r.kernel.currentTask).heap with
    | none => r
    | some h =>
        if segmentEnd = 0 then r
        else { r with heap := r.heap.mapHeap (writeDescriptor h (pageFloor segmentEnd)) }

/-- `sys_sbrk` of a task with a heap; without one it calls `abort`. -/
def sbrk (incr : Nat) (r : DescriptorRun) : Option DescriptorRun :=
  (r.kernel.task r.kernel.currentTask).heap.map fun h =>
    let start := load32 r.heap.heap.mem h
    let brk := Word.add (load32 r.heap.heap.mem (Word.add h 4)) incr
    { r with
      heap := r.heap.mapHeap fun heap =>
        { heap with mem := store32 heap.mem (Word.add h 4) (if brk < start then start else brk) } }

/-- `kfree` of what `finish_task_switch` found. -/
def free (freed : Option Nat) (r : DescriptorRun) : Option DescriptorRun :=
  match freed with
  | none => some r
  | some h => (kfree h r.heap).map fun heap =>
      { r with heap := heap, descriptors := r.descriptors.erase (Word.sub h sizeofPnode) }

/-- One step: a call of the scheduler that `may` lets through, calls of `kmalloc` and `kfree` and
writes to other blocks, or a part of `load_task` or `sys_sbrk` by the current task. -/
inductive Step (may : DescriptorRun → Call → Prop) : DescriptorRun → DescriptorRun → Prop where
  | call {r r' : DescriptorRun} {k : Kernel} {freed : Option Nat} (call : Call)
      (hAllowed : call.Allowed (fun k => k.currentStatus = .running) r.kernel) (hMay : may r call)
      (hExec : call.execFreed r.kernel = some (k, freed))
      (hFree : free freed { r with kernel := k } = some r') : Step may r r'
  | memory {r : DescriptorRun} {heap : HeapRun} (n : Nat) (hCalls : HeapRun.Calls n r.heap heap) :
      Step may r { r with heap := heap }
  | load {r r' : DescriptorRun} (n : Nat) (palloc : Allocator Ledger) (segmentEnd : Nat)
      (hLawful : HeapRun.Lawful (HeapRun.Calls n) palloc)
      (hLoad : loadTask palloc segmentEnd r = some r') : Step may r r'
  | sbrk {r r' : DescriptorRun} (incr : Nat) (hBrk : sbrk incr r = some r') : Step may r r'

def Initial (r : DescriptorRun) : Prop := r.kernel.Booted ∧ r.heap.Initial ∧ r.descriptors = []

abbrev Reachable (may : DescriptorRun → Call → Prop) : DescriptorRun → Prop :=
  Transition.Reachable Initial (Step may)

/-- No task with a heap descriptor is switched to. -/
def Clean (r : DescriptorRun) (call : Call) : Prop :=
  ∀ k ∈ call.exec r.kernel, k.currentTask ≠ r.kernel.currentTask →
    (r.kernel.task k.currentTask).heap = none

/-- The task is live and has this heap descriptor. -/
def HasHeap (r : DescriptorRun) (t : TaskPtr) (h : Nat) : Prop :=
  r.kernel.task.status t ≠ .invalid ∧ (r.kernel.task t).heap = some h

/-- The addresses of the block of a descriptor. -/
def descriptor (h : Nat) : Set Nat := block (Word.sub h sizeofPnode, descriptorExp)

/-- The descriptors of the live tasks are allocated blocks, apart from the blocks on the free
lists, from the other allocations and from each other. -/
def Allocated (r : DescriptorRun) : Prop :=
  ∃ free : Nat → List Nat,
    (∀ i < pnodeLists, Chain r.heap.heap.next (r.heap.heap.lists i) (free i)) ∧
    ∀ t h, r.HasHeap t h →
      Word.sub h sizeofPnode ∈ r.descriptors ∧
      (∀ b ∈ freeBlocks free, Disjoint (descriptor h) (block b)) ∧
      (∀ b ∈ r.heap.heap.liveBlocks r.heap.env.live, Disjoint (descriptor h) (block b)) ∧
      ∀ u h', r.HasHeap u h' → u ≠ t → Disjoint (descriptor h) (descriptor h')

variable {may : DescriptorRun → Call → Prop} {r r' : DescriptorRun} {a : RunQueue} {t u : TaskPtr}
  {h h' : Nat} {k k' : Kernel} {freed : Option Nat} {call : Call}

/-- What the switch hands to `kfree` is the descriptor of the task that gets the CPU. -/
theorem rescheduleFreed_eq (hExec : k.rescheduleFreed = some (k', freed)) :
    k.reschedule = some k' ∧
      (freed = none ∨ (k'.currentTask ≠ k.currentTask ∧ freed = (k'.task k'.currentTask).heap)) := by
  obtain ⟨result, hScheduler, hFinish⟩ := Option.bind_eq_some_iff.mp hExec
  have hReschedule : k.reschedule = some k' := by
    rw [Kernel.reschedule, hScheduler, Option.bind_some]
    cases hOrig : result.2 with
    | none =>
        rw [hOrig] at hFinish
        cases hFinish
        rfl
    | some orig =>
        rw [hOrig] at hFinish
        exact congrArg (Option.map Prod.fst) hFinish
  refine ⟨hReschedule, ?_⟩
  obtain ⟨k₁, _, hResult⟩ := Option.map_eq_some_iff.mp hScheduler
  split at hResult
  · subst hResult
    cases hFinish
    exact Or.inl rfl
  · rename_i hSwitch
    subst hResult
    have hFirst : (k₁.saveFpu k.currentTask).finishTaskSwitch.map Prod.fst = some k' :=
      congrArg (Option.map Prod.fst) hFinish
    have hCurrent := (finishTaskSwitch_current hFirst).trans saveFpu_current
    obtain ⟨k₂, _, hPair⟩ := Option.map_eq_some_iff.mp hFinish
    cases hPair
    exact Or.inr ⟨hCurrent ▸ hSwitch, rfl⟩

theorem execFreed_eq (hExec : call.execFreed k = some (k', freed)) :
    call.exec k = some k' ∧
      (freed = none ∨ (k'.currentTask ≠ k.currentTask ∧ freed = (k'.task k'.currentTask).heap)) := by
  cases call with
  | schedule => exact rescheduleFreed_eq hExec
  | exit =>
      have hExit := rescheduleFreed_eq (k := k.doExit) hExec
      have hCurrent : k.doExit.currentTask = k.currentTask := by simp [doExit]
      rw [hCurrent] at hExit
      exact hExit
  | create | block | wakeup =>
      obtain ⟨k₁, hCall, hPair⟩ := Option.map_eq_some_iff.mp hExec
      cases hPair
      exact ⟨hCall, Or.inl rfl⟩

theorem heap_unscheduled : Unscheduled Task.heap :=
  ⟨⟨fun _ _ => rfl, fun _ _ _ => rfl, fun _ _ _ => rfl⟩, fun _ _ _ _ => rfl⟩

/-- A call of the scheduler gives no task a heap descriptor. -/
theorem hasHeap_of_exec (hSound : r.kernel.Sound a)
    (hAllowed : call.Allowed (fun k => k.currentStatus = .running) r.kernel)
    (hExec : call.exec r.kernel = some k) (hHeap : HasHeap { r with kernel := k } t h) :
    r.HasHeap t h := by
  have hLive := exec_live hSound hAllowed hExec hHeap.1
  have hField : (k.task t).heap = some h := hHeap.2
  by_cases hCreate : ∃ ep arg prio pages, call = .create ep arg prio pages
  · obtain ⟨ep, arg, prio, pages, rfl⟩ := hCreate
    cases heap_unscheduled.createTask hExec with
    | inl hSame =>
        subst hSame
        exact hHeap
    | inr hNew =>
        obtain ⟨i, hFree, hSame⟩ := hNew
        have hTask := hSame.task t
        by_cases ht : t = i
        · subst ht
          rw [Kernel.setTask_task, Function.update_self, hField] at hTask
          cases hTask
        · rw [Kernel.setTask_task, Function.update_of_ne ht, hField] at hTask
          refine ⟨hLive.resolve_right fun hFirst => ht ?_, hTask.symm⟩
          exact Option.some.inj (hFirst.2.symm.trans hFree)
  · have hSame := heap_unscheduled.exec (t := t) (fun _ _ _ => rfl)
      (fun ep arg prio pages he => hCreate ⟨ep, arg, prio, pages, he⟩) hExec
    exact ⟨hLive.resolve_right fun hNew => hCreate hNew.1, hSame.symm.trans hField⟩

/-- What holds between two steps. -/
structure Inv (r : DescriptorRun) (a : RunQueue) : Prop where
  sound : r.kernel.Sound a
  pinned : r.heap.Pinned r.pins
  owned : ∀ t h, r.HasHeap t h → ∃ p ∈ r.descriptors, h = p + sizeofPnode
  apart : ∀ t u h, r.HasHeap t h → r.HasHeap u h → t = u

theorem mem_pins {p : Nat} (hp : p ∈ r.descriptors) : (p, descriptorExp) ∈ r.pins :=
  List.mem_map_of_mem hp

/-- The block of a descriptor lies in the address space. -/
theorem Inv.fits (hInv : r.Inv a) {p : Nat} (hp : p ∈ r.descriptors) :
    p + 2 ^ descriptorExp ≤ 2 ^ 32 := by
  obtain ⟨free, hs⟩ := hInv.pinned
  exact (hs.fits (b := (p, descriptorExp)) (by simp [mem_pins hp])).2

/-- Addresses inside a descriptor do not wrap around. -/
theorem Inv.word_add (hInv : r.Inv a) (hHeap : r.HasHeap t h) (n : Nat) (hn : n < 28) :
    Word.add h n = h + n := by
  obtain ⟨p, hp, rfl⟩ := hInv.owned t h hHeap
  have hTop := hInv.fits hp
  have hWord : sizeofPnode = 4 := rfl
  have hSize : 2 ^ descriptorExp = 32 := rfl
  exact Word.add_eq (by omega)

theorem Inv.current (hInv : r.Inv a) : r.kernel.task.status r.kernel.currentTask ≠ .invalid := by
  rw [hInv.sound.represents.status, hInv.sound.represents.current]
  exact hInv.sound.inv.current

/-- Other calls of `kmalloc` and `kfree`, and writes to the descriptors. -/
theorem Inv.setHeap {heap : HeapRun} (hInv : r.Inv a) (hPinned : heap.Pinned r.pins) :
    Inv { r with heap := heap } a :=
  ⟨hInv.sound, hPinned, hInv.owned, hInv.apart⟩

theorem Inv.call_step (hInv : r.Inv a)
    (hAllowed : call.Allowed (fun k => k.currentStatus = .running) r.kernel) (hClean : r.Clean call)
    (hExec : call.execFreed r.kernel = some (k, freed))
    (hFree : free freed { r with kernel := k } = some r') : ∃ a', r'.Inv a' := by
  obtain ⟨hCall, hFreed⟩ := execFreed_eq hExec
  obtain ⟨k₂, a', hCall', _, hSound, _⟩ :=
    exec_refines call hInv.sound (Allowed.mono call hAllowed not_ready_of_running)
  obtain rfl := Option.some.inj (hCall.symm.trans hCall')
  have hKept : ∀ t h, HasHeap { r with kernel := k } t h → r.HasHeap t h := fun t h =>
    hasHeap_of_exec hInv.sound hAllowed hCall
  have hNone : freed = none := by
    refine hFreed.elim id fun hSwitch => ?_
    rw [hSwitch.2, ← Option.not_isSome_iff_eq_none, Option.isSome_iff_exists]
    rintro ⟨h, hHeap⟩
    have hLive : k.task.status k.currentTask ≠ .invalid := by
      rw [hSound.represents.status, hSound.represents.current]
      exact hSound.inv.current
    have hBefore := (hKept k.currentTask h ⟨hLive, hHeap⟩).2
    rw [hClean k hCall hSwitch.1] at hBefore
    cases hBefore
  subst hNone
  cases hFree
  exact ⟨a', hSound, hInv.pinned, fun t h ht => hInv.owned t h (hKept t h ht),
    fun t u h ht hu => hInv.apart t u h (hKept t h ht) (hKept u h hu)⟩

theorem Inv.write {heap : Heap → Heap} (hInv : r.Inv a) (hHeap : r.HasHeap t h)
    (hLists : (heap r.heap.heap).lists = r.heap.heap.lists)
    (hMem : ∀ x, x < h ∨ h + 12 ≤ x → (heap r.heap.heap).mem x = r.heap.heap.mem x) :
    Inv { r with heap := r.heap.mapHeap heap } a := by
  obtain ⟨p, hp, rfl⟩ := hInv.owned t h hHeap
  have hWord : sizeofPnode = 4 := rfl
  have hWritten := hInv.pinned.write (m := (heap r.heap.heap).mem) (mem_pins hp) fun x hx => by
    refine hMem x ?_
    have hSize : 2 ^ descriptorExp = 32 := rfl
    omega
  have hSame : r.heap.mapHeap heap =
      r.heap.mapHeap fun h => { h with mem := (heap r.heap.heap).mem } := by
    rw [Mm.mapHeap, Mm.mapHeap, ← hLists]
  exact hInv.setHeap (hSame ▸ hWritten)

theorem hasHeap_setHeap {heap : Option Nat} {run : HeapRun} {descriptors : List Nat}
    (hHeap : HasHeap ⟨r.kernel.setTask u fun x => { x with heap := heap }, run, descriptors⟩ t h) :
    (t = u ∧ heap = some h) ∨ (t ≠ u ∧ r.HasHeap t h) := by
  obtain ⟨hLive, hField⟩ := hHeap
  by_cases ht : t = u
  · subst ht
    rw [setTask_task, Function.update_self] at hField
    exact Or.inl ⟨rfl, hField⟩
  · rw [setTask_task, Function.update_of_ne ht] at hField
    refine Or.inr ⟨ht, ?_, hField⟩
    simpa [ht] using hLive

/-- The current task obtains a descriptor. -/
theorem Inv.obtain_descriptor {n : Nat} {palloc : Allocator Ledger} {heap : HeapRun}
    {answer : Option Nat} (hInv : r.Inv a)
    (hLawful : HeapRun.Lawful (HeapRun.Calls n) palloc)
    (hCall : kmallocWith palloc sizeofVma r.heap = some (heap, answer)) :
    Inv ⟨r.kernel.setTask r.kernel.currentTask fun x => { x with heap := answer }, heap,
      (answer.map fun h => Word.sub h sizeofPnode).toList ++ r.descriptors⟩ a := by
  have hNested : ∀ run, HeapRun.Calls n r.heap run → run.Pinned r.pins := fun run hRun =>
    hRun.pinned hInv.pinned
  have hSound : (r.kernel.setTask r.kernel.currentTask fun x => { x with heap := answer }).Sound a :=
    hInv.sound.setTask (fun _ => rfl) (fun _ => rfl) (fun _ => rfl) (fun _ => rfl) (fun _ => rfl)
  cases answer with
  | none =>
      have hPinned : heap.Pinned r.pins := hInv.pinned.kmalloc hNested hLawful hCall
      have hKept : ∀ t h, HasHeap ⟨r.kernel.setTask r.kernel.currentTask fun x => { x with heap := none },
          heap, r.descriptors⟩ t h → r.HasHeap t h := fun t h ht =>
        (hasHeap_setHeap ht).elim (fun hc => nomatch hc.2) And.right
      exact ⟨hSound, hPinned, fun t h ht => hInv.owned t h (hKept t h ht),
        fun t u h ht hu => hInv.apart t u h (hKept t h ht) (hKept u h hu)⟩
  | some addr =>
      have hExp : pnodeExp (Word.add sizeofVma sizeofPnode) = some descriptorExp := by decide
      obtain ⟨p, rfl, free, hs⟩ := hInv.pinned.kmalloc_pin hNested hLawful (by decide) hExp hCall
      have hTop := hs.fits_flight.2
      have hWord : sizeofPnode = 4 := rfl
      have hSize : 2 ^ descriptorExp = 32 := rfl
      have hBlock : Word.sub (p + sizeofPnode) sizeofPnode = p := by
        rw [Word.sub_eq (by omega) (by omega)]
        omega
      have hNew : p ∉ r.descriptors := fun hp => by
        have hFirst := (List.pairwise_cons.mp hs.exact.disjoint).1 (block (p, descriptorExp))
          (List.mem_map_of_mem (by simp [mem_pins hp]))
        have hInside : p ∈ block (p, descriptorExp) :=
          ⟨le_rfl, Nat.lt_add_of_pos_right (Nat.two_pow_pos _)⟩
        exact Set.disjoint_left.mp hFirst hInside hInside
      have hFresh : ∀ t, ¬ r.HasHeap t (p + sizeofPnode) := fun t ht => by
        obtain ⟨q, hq, he⟩ := hInv.owned t _ ht
        exact hNew (Nat.add_right_cancel he ▸ hq)
      refine ⟨hSound, ⟨free, ?_⟩, fun t h ht => ?_, fun t u h ht hu => ?_⟩
      · show heap.heap.Sound free heap.env.live
          (([Word.sub (p + sizeofPnode) sizeofPnode] ++ r.descriptors).map _) heap.env.regions
        rw [hBlock]
        exact hs
      · show ∃ q ∈ [Word.sub (p + sizeofPnode) sizeofPnode] ++ r.descriptors, _
        rw [hBlock]
        cases hasHeap_setHeap ht with
        | inl hCurrent => exact ⟨p, by simp, (Option.some.inj hCurrent.2).symm⟩
        | inr hOther =>
            obtain ⟨q, hq, he⟩ := hInv.owned t h hOther.2
            exact ⟨q, by simp [hq], he⟩
      · cases hasHeap_setHeap ht with
        | inl hCurrent =>
            cases hasHeap_setHeap hu with
            | inl hCurrent' => exact hCurrent.1.trans hCurrent'.1.symm
            | inr hOther => exact absurd (Option.some.inj hCurrent.2 ▸ hOther.2) (hFresh u)
        | inr hOther =>
            cases hasHeap_setHeap hu with
            | inl hCurrent => exact absurd (Option.some.inj hCurrent.2 ▸ hOther.2) (hFresh t)
            | inr hOther' => exact hInv.apart t u h hOther.2 hOther'.2

theorem Inv.load {n : Nat} {palloc : Allocator Ledger} {segmentEnd : Nat} (hInv : r.Inv a)
    (hLawful : HeapRun.Lawful (HeapRun.Calls n) palloc)
    (hLoad : loadTask palloc segmentEnd r = some r') : r'.Inv a := by
  obtain ⟨r₁, hObtained, hFill⟩ := Option.map_eq_some_iff.mp hLoad
  have hInv₁ : r₁.Inv a := by
    cases hHeap : (r.kernel.task r.kernel.currentTask).heap with
    | some h =>
        rw [hHeap] at hObtained
        cases hObtained
        exact hInv
    | none =>
        rw [hHeap] at hObtained
        obtain ⟨⟨heap, h⟩, hCall, rfl⟩ := Option.map_eq_some_iff.mp hObtained
        exact hInv.obtain_descriptor hLawful hCall
  cases hHeap : (r₁.kernel.task r₁.kernel.currentTask).heap with
  | none =>
      rw [hHeap] at hFill
      exact hFill ▸ hInv₁
  | some h =>
      rw [hHeap] at hFill
      dsimp only at hFill
      split at hFill
      · exact hFill ▸ hInv₁
      · subst hFill
        have hOwn : r₁.HasHeap r₁.kernel.currentTask h := ⟨hInv₁.current, hHeap⟩
        refine hInv₁.write hOwn rfl fun x hx => ?_
        have hAddr := hInv₁.word_add hOwn
        rw [writeDescriptor, hAddr 8 (by omega), hAddr 4 (by omega)]
        show store32 (store32 (store32 _ _ _) _ _) _ _ x = _
        rw [store32_of_outside (by omega), store32_of_outside (by omega), store32_of_outside (by omega)]

theorem Inv.sbrk {incr : Nat} (hInv : r.Inv a) (hBrk : sbrk incr r = some r') : r'.Inv a := by
  obtain ⟨h, hHeap, rfl⟩ := Option.map_eq_some_iff.mp hBrk
  have hOwn : r.HasHeap r.kernel.currentTask h := ⟨hInv.current, hHeap⟩
  refine hInv.write hOwn rfl fun x hx => ?_
  have hAddr := hInv.word_add hOwn 4 (by omega)
  rw [hAddr]
  exact store32_of_outside (by omega)

theorem Inv.step (hInv : r.Inv a) (hStep : Step Clean r r') : ∃ a', r'.Inv a' := by
  cases hStep with
  | call call hAllowed hMay hExec hFree => exact hInv.call_step hAllowed hMay hExec hFree
  | memory n hCalls => exact ⟨a, hInv.setHeap (hCalls.pinned hInv.pinned)⟩
  | load n palloc segmentEnd hLawful hLoad => exact ⟨a, hInv.load hLawful hLoad⟩
  | sbrk incr hBrk => exact ⟨a, hInv.sbrk hBrk⟩

theorem Initial.inv (hInit : r.Initial) : r.Inv bootQueue := by
  obtain ⟨hBoot, hHeap, hNone⟩ := hInit
  have hSound := hBoot.sound.1
  have hEmpty : ∀ t, (r.kernel.task t).heap = none := by
    obtain ⟨regs, save, cr3, hKernel⟩ := hBoot
    intro t
    have hIdle : (bootKernel regs save).task.status 0 = .idle := rfl
    rw [hKernel, multitaskingInit, if_pos hIdle]
    by_cases ht : t = 0
    · subst ht
      simp [bootKernel]
    · simp [bootKernel, ht]
  have hNobody : ∀ t h, ¬ r.HasHeap t h := fun t h ht => by
    have hSome := ht.2
    rw [hEmpty] at hSome
    cases hSome
  refine ⟨hSound, ?_, fun t h ht => absurd ht (hNobody t h), fun t u h ht => absurd ht (hNobody t h)⟩
  rw [pins, hNone]
  exact hHeap.sound

theorem Inv.allocated (hInv : r.Inv a) : r.Allocated := by
  obtain ⟨free, hs⟩ := hInv.pinned
  have hWord : sizeofPnode = 4 := rfl
  have hSize : 2 ^ descriptorExp = 32 := rfl
  have hBlock : ∀ p ∈ r.descriptors, Word.sub (p + sizeofPnode) sizeofPnode = p := fun p hp => by
    have hTop := hInv.fits hp
    rw [Word.sub_eq (by omega) (by omega)]
    omega
  refine ⟨free, hs.chain, fun t h ht => ?_⟩
  obtain ⟨p, hp, rfl⟩ := hInv.owned t h ht
  obtain ⟨hPins, hLive, hFree⟩ := hs.apart (mem_pins hp)
  rw [descriptor, hBlock p hp]
  refine ⟨hp, hFree, hLive, fun u h' hu hne => ?_⟩
  obtain ⟨q, hq, rfl⟩ := hInv.owned u h' hu
  rw [descriptor, hBlock q hq]
  refine hPins _ (mem_pins hq) fun he => hne ?_
  obtain rfl : q = p := congrArg Prod.fst he
  exact hInv.apart u t _ hu ht

/-- As long as no task with a heap descriptor is switched to, the descriptors of the live tasks
are allocated blocks. -/
theorem reachable_allocated (hReach : Reachable Clean r) : r.Allocated := by
  have hInv : ∃ a, r.Inv a := by
    refine hReach.invariant (P := fun r => ∃ a, r.Inv a) (fun r hr => ⟨_, hr.inv⟩) ?_
    intro r r' hr hStep
    exact hr.elim fun a ha => ha.step hStep
  exact hInv.elim fun a ha => ha.allocated

/-- One entry of a test run. `palloc` offers a single place. -/
inductive Action where
  | call (call : Call)
  | load (base segmentEnd : Nat)
  | sbrk (incr : Nat)

def Action.exec : Action → DescriptorRun → Option DescriptorRun
  | .call call, r => (call.execFreed r.kernel).bind fun result =>
      free result.2 { r with kernel := result.1 }
  | .load base segmentEnd, r => loadTask (HeapRun.offer base) segmentEnd r
  | .sbrk incr, r => DescriptorRun.sbrk incr r

def Action.Allowed (may : DescriptorRun → Call → Prop) (r : DescriptorRun) : Action → Prop
  | .call call => call.Allowed (fun k => k.currentStatus = .running) r.kernel ∧ may r call
  | _ => True

instance (may : DescriptorRun → Call → Prop) [∀ r call, Decidable (may r call)] (r : DescriptorRun)
    (action : Action) : Decidable (action.Allowed may r) :=
  match action with
  | .call _ => inferInstanceAs (Decidable (_ ∧ _))
  | .load _ _ | .sbrk _ => isTrue trivial

instance (r : DescriptorRun) (call : Call) : Decidable (r.Clean call) :=
  inferInstanceAs (Decidable (∀ k ∈ call.exec r.kernel, _ → _))

def run (may : DescriptorRun → Call → Prop) [∀ r call, Decidable (may r call)] :
    List Action → DescriptorRun → Option DescriptorRun
  | [], r => some r
  | action :: rest, r =>
      if action.Allowed may r then (action.exec r).bind (run may rest) else none

theorem reachable_of_run [∀ r call, Decidable (may r call)] {actions : List Action}
    (hReach : Reachable may r) (hRun : run may actions r = some r') : Reachable may r' := by
  induction actions generalizing r with
  | nil => exact Option.some.inj hRun ▸ hReach
  | cons action rest ih =>
      rw [run] at hRun
      split at hRun
      · rename_i hAllowed
        obtain ⟨r₁, hExec, hRest⟩ := Option.bind_eq_some_iff.mp hRun
        refine ih (hReach.next ?_) hRest
        cases action with
        | call call =>
            obtain ⟨⟨k, freed⟩, hCall, hFree⟩ := Option.bind_eq_some_iff.mp hExec
            exact Step.call call hAllowed.1 hAllowed.2 hCall hFree
        | load base segmentEnd => exact Step.load 0 _ _ HeapRun.offer_lawful hExec
        | sbrk incr => exact Step.sbrk incr hExec
      · cases hRun

def start : DescriptorRun where
  kernel := exampleKernel
  heap :=
    { vmas := { vmaList := none, taskVmaList := none, node := fun _ => vmaBoot }
      heap := { mem := fun _ => 0, lists := fun _ => none }
      env := { live := [], regions := [] } }
  descriptors := []

theorem start_reachable : Reachable may start :=
  Transition.Reachable.of_init ⟨⟨_, _, _, rfl⟩, ⟨fun _ _ => rfl, rfl, rfl⟩, rfl⟩

/-- Two tasks of the same priority, the first of which gets a heap. -/
def firstLoads : List Action :=
  [.call (.create 1 0 5 ⟨4096, 0⟩), .call (.create 1 0 5 ⟨8192, 0⟩), .call .schedule,
    .load 0x100000 0x40001000, .sbrk 4096]

theorem reachable_allocated_example : ∃ r, run Clean (firstLoads ++ [.call .schedule]) start = some r ∧
    (r.kernel.task 1).heap = some 0x100004 ∧ r.kernel.currentTask = 2 ∧ r.Allocated := by
  have hView : (run Clean (firstLoads ++ [.call .schedule]) start).map
      (fun r => ((r.kernel.task 1).heap, r.kernel.currentTask)) = some (some 0x100004, 2) := by
    decide
  obtain ⟨r, hRun, hSeen⟩ := Option.map_eq_some_iff.mp hView
  obtain ⟨hHeap, hCurrent⟩ := Prod.mk.inj hSeen
  exact ⟨r, hRun, hHeap, hCurrent, reachable_allocated (reachable_of_run start_reachable hRun)⟩

/-- A task with a heap that is switched away and back finds its descriptor on a free list. -/
theorem switch_frees_descriptor : ¬ ∀ r, Reachable (fun _ _ => True) r → r.Allocated := by
  intro hAll
  have hView : (run (fun _ _ => True) (firstLoads ++ [.call .schedule, .call .schedule]) start).map
      (fun r => (r.kernel.task.status 1, (r.kernel.task 1).heap, r.heap.heap.lists 2)) =
      some (.running, some 0x100004, some 0x100000) := by decide
  obtain ⟨r, hRun, hSeen⟩ := Option.map_eq_some_iff.mp hView
  simp only [Prod.mk.injEq] at hSeen
  obtain ⟨hStatus, hHeap, hList⟩ := hSeen
  obtain ⟨free, hChain, hApart⟩ := hAll r (reachable_of_run start_reachable hRun)
  have hTwo := hChain 2 (by decide)
  rw [hList] at hTwo
  cases hFree : free 2 with
  | nil =>
      rw [hFree] at hTwo
      cases hTwo
  | cons p rest =>
      rw [hFree] at hTwo
      obtain rfl : 0x100000 = p := Option.some.inj hTwo.1
      have hMem : (0x100000, 2 + pnodeMin) ∈ freeBlocks free :=
        Heap.mem_freeBlocks.mpr ⟨2, by decide, by simp [hFree], rfl⟩
      have hDisjoint := (hApart 1 0x100004 ⟨by simp [hStatus], hHeap⟩).2.1 _ hMem
      have hInside : 0x100000 ∈ descriptor 0x100004 := by
        refine ⟨?_, ?_⟩
        · decide
        · decide
      exact Set.disjoint_left.mp hDisjoint hInside ⟨le_rfl, by decide⟩

end DescriptorRun
end ArtOS

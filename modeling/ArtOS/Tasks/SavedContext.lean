import ArtOS.Tasks.ContextSwitch
import ArtOS.Tasks.Untouched

/-! What the switch of the stacks does to the registers: in every run a task goes on with the
registers and the stack that it had when it was switched away, and a new one starts with its
argument on the stack. -/
namespace ArtOS

namespace Kernel

variable {Value : Type*} {field : Task → Value} {k k' k₁ : Kernel} {a : RunQueue}
  {old : Option TaskPtr} {t : TaskPtr} {p : Nat} {g : TaskPtr → Option StackPtr}

/-- Other saved stack pointers in the table. -/
def withPointers (k : Kernel) (g : TaskPtr → Option StackPtr) : Kernel :=
  { k with task := fun t => { k.task t with lastStackPointer := g t } }

theorem eq_withPointers (hRest : k₁ = { k with task := k₁.task })
    (ht : k₁.task t = { k.task t with lastStackPointer := g t })
    (hOther : ∀ u ≠ t, k₁.task u = { k.task u with lastStackPointer := g u }) :
    k₁ = k.withPointers g := by
  refine hRest.trans (congrArg (fun task => { k with task := task }) (funext fun u => ?_))
  by_cases hu : u = t
  · exact hu ▸ ht
  · exact hOther u hu

/-- A change of an entry that neither reads nor writes the saved stack pointer. -/
theorem setTask_withPointers {f : Task → Task}
    (hf : ∀ x v, f { x with lastStackPointer := v } = { f x with lastStackPointer := v }) :
    (k.withPointers g).setTask t f = (k.setTask t f).withPointers g := by
  refine eq_withPointers (t := t) rfl ?_ fun u hu => ?_
  · rw [setTask_task, setTask_task, Function.update_self, Function.update_self]
    exact hf _ _
  · rw [setTask_task, setTask_task, Function.update_of_ne hu, Function.update_of_ne hu]
    rfl

theorem linkLast_withPointers {tested : Option TaskPtr} (h : k.linkLast p t tested = some k') :
    (k.withPointers g).linkLast p t tested = some (k'.withPointers g) := by
  cases tested with
  | none =>
      cases h
      rw [linkLast, setTask_withPointers (fun _ _ => rfl)]
      rfl
  | some _ =>
      obtain ⟨last, hLast, rfl⟩ := Option.map_eq_some_iff.mp h
      have hLast' : ((k.withPointers g).queue p).last = some last := hLast
      rw [linkLast, hLast', Option.map_some, setTask_withPointers (fun _ _ => rfl),
        setTask_withPointers (fun _ _ => rfl)]
      rfl

/-- The saved stack pointers do not matter to the end of a switch. -/
theorem finishTaskSwitch_withPointers (g : TaskPtr → Option StackPtr)
    (h : k.finishTaskSwitch.map Prod.fst = some k') :
    ∃ g', (k.withPointers g).finishTaskSwitch.map Prod.fst = some (k'.withPointers g') := by
  have hStatus : (k.withPointers g).task.status = k.task.status := rfl
  obtain ⟨hOld, rfl⟩ | ⟨old, hOld, ⟨hInvalid, rfl⟩ | ⟨hValid, k₁, hLink, rfl⟩⟩ :=
    finishTaskSwitch_cases h
  · have hOld' : (k'.withPointers g).oldTask = none := hOld
    rw [finishTaskSwitch, hOld']
    exact ⟨g, rfl⟩
  · have hOld' : (k.withPointers g).oldTask = some old := hOld
    rw [finishTaskSwitch, hOld', Option.map_map]
    dsimp only
    rw [hStatus, if_pos hInvalid]
    refine ⟨Function.update g old none, congrArg some ?_⟩
    refine eq_withPointers (t := old) rfl ?_ fun u hu => ?_
    · simp only [Function.comp_apply, setOldTask_task, setTask_task, Function.update_self]
      rfl
    · simp only [Function.comp_apply, setOldTask_task, setTask_task, Function.update_of_ne hu]
      rfl
  · have hOld' : (k.withPointers g).oldTask = some old := hOld
    have hLink' : (k.withPointers g).linkLast ((k.withPointers g).task.prio old) old
        ((k.withPointers g).queue ((k.withPointers g).task.prio old)).first =
          some (k₁.withPointers g) := linkLast_withPointers hLink
    rw [finishTaskSwitch, hOld', Option.map_map]
    dsimp only
    rw [hStatus, if_neg hValid, hLink']
    exact ⟨g, rfl⟩

theorem Stores.withPointers (h : k.Stores a old) : (k.withPointers g).Stores a old := by
  have hStores : (k.withPointers g).Stores a (k.withPointers g).oldTask :=
    h.congr rfl rfl rfl rfl rfl rfl rfl rfl rfl
  exact h.oldTask ▸ hStores

theorem setTask_eq_withPointers {v : Option StackPtr} :
    (k.setTask t fun x => { x with lastStackPointer := v }) =
      k.withPointers (Function.update (fun u => (k.task u).lastStackPointer) t v) := by
  refine eq_withPointers (t := t) rfl ?_ fun u hu => ?_
  · rw [setTask_task, Function.update_self, Function.update_self]
  · rw [setTask_task, Function.update_of_ne hu, Function.update_of_ne hu]

/-- What `scheduler` returns, and how it is a part of `reschedule`. -/
theorem scheduler_cases {orig : Option TaskPtr} (h : k.scheduler = some (k₁, orig)) :
    (orig = none ∧ k₁.currentTask = k.currentTask ∧ k.reschedule = some k₁) ∨
      (orig = some k.currentTask ∧ k₁.currentTask ≠ k.currentTask ∧
        k.reschedule = k₁.finishTaskSwitch.map Prod.fst) := by
  rw [reschedule, h]
  obtain ⟨k₂, hPick, hResult⟩ := Option.map_eq_some_iff.mp h
  split at hResult
  · rename_i hStay
    cases hResult
    exact Or.inl ⟨rfl, hStay, rfl⟩
  · rename_i hSwitch
    cases hResult
    exact Or.inr ⟨rfl, fun hStay => hSwitch (saveFpu_current.symm.trans hStay), rfl⟩

/-- `scheduler` reads no saved stack pointer, and writes none. -/
theorem Unmarked.scheduler {orig : Option TaskPtr} (hField : Unmarked field)
    (hFpu : ∀ x f g, field { x with fpu := f, flags := g } = field x)
    (h : k.scheduler = some (k₁, orig)) : field (k₁.task t) = field (k.task t) := by
  obtain ⟨k₂, hPick, hResult⟩ := Option.map_eq_some_iff.mp h
  have hBefore := (hField.retireCurrent.trans (hField.pickTask hPick)).task t
  split at hResult
  · cases hResult
    exact hBefore
  · cases hResult
    exact (saveFpu_field hFpu).trans hBefore

/-- What a switch must not change: the stack, the saved stack pointer and the page map. -/
def saved (x : Task) : Option StackArea × Option StackPtr × Nat :=
  (x.stack, x.lastStackPointer, x.pageMap)

theorem saved_unmarked : Unmarked saved := ⟨fun _ _ => rfl, fun _ _ _ => rfl⟩

/-- From `scheduler` to `finish_task_switch`, with the saved stack pointer `v` of the old task
stored in between. -/
structure Handover (k k₁ k' : Kernel) (a : RunQueue) (v : StackPtr) : Prop where
  represents : k'.Represents a
  other : k₁.currentTask ≠ k.currentTask
  current : k'.currentTask = k₁.currentTask
  chosen : saved (k₁.task k₁.currentTask) = saved (k.task k₁.currentTask)
  task : ∀ t, a.status t ≠ .invalid → t ≠ k.currentTask → saved (k'.task t) = saved (k.task t)
  old : a.status k.currentTask ≠ .invalid → saved (k'.task k.currentTask) =
    ((k.task k.currentTask).stack, some v, (k.task k.currentTask).pageMap)

/-- The saved stack pointer of the old task does not disturb `finish_task_switch`. -/
theorem scheduler_handover {orig : TaskPtr} (v : StackPtr) (hInv : a.Inv) (hRep : k.Represents a)
    (h : k.scheduler = some (k₁, some orig)) :
    orig = k.currentTask ∧ ∃ result,
      (k₁.setTask orig fun x => { x with lastStackPointer := some v }).finishTaskSwitch =
        some result ∧ k.Handover k₁ result.1 a.reschedule v := by
  obtain ⟨hNone, -⟩ | ⟨hOrig, hOther, hReschedule⟩ := scheduler_cases h
  · cases hNone
  obtain rfl := Option.some.inj hOrig
  refine ⟨rfl, ?_⟩
  let k₂ := k₁.setTask k.currentTask fun x => { x with lastStackPointer := some v }
  obtain ⟨k', hFinish, hRep', -⟩ := reschedule_refines hInv hRep
  rw [hReschedule] at hFinish
  obtain ⟨g, hFinished⟩ := finishTaskSwitch_withPointers
    (Function.update (fun u => (k₁.task u).lastStackPointer) k.currentTask (some v)) hFinish
  rw [← setTask_eq_withPointers] at hFinished
  obtain ⟨result, hResult, hKernel⟩ := Option.map_eq_some_iff.mp hFinished
  have hSaved : ∀ t, saved (k₁.task t) = saved (k.task t) := fun t =>
    saved_unmarked.scheduler (fun _ _ _ => rfl) h
  have hKept : ∀ t, a.reschedule.status t ≠ .invalid → saved (result.1.task t) = saved (k₂.task t) := by
    intro t ht
    have hStatus : Same Task.status k₂ (k'.withPointers g) :=
      Same.finishTaskSwitch (fun _ _ _ => rfl) (fun _ _ _ => rfl) hFinished
    rw [hKernel]
    refine finishTaskSwitch_kept (fun _ _ _ => rfl) hFinished fun hInvalid => ht ?_
    rw [← hRep'.status]
    exact (hStatus.task t).trans hInvalid
  refine ⟨result, hResult, hKernel ▸ hRep'.withPointers, hOther, ?_, hSaved _, fun t ht hne => ?_,
    fun ht => ?_⟩
  · have hNew : k'.currentTask = k₁.currentTask := finishTaskSwitch_current hFinish
    exact (congrArg Kernel.currentTask hKernel).trans hNew
  · rw [hKept t ht, ← hSaved t]
    exact congrArg saved (Function.update_of_ne hne _ _)
  · rw [hKept _ ht]
    refine (congrArg saved (Function.update_self ..)).trans ?_
    exact congrArg (fun x => (x.1, some v, x.2.2)) (hSaved k.currentTask)

end Kernel

namespace Machine

open Kernel WordStack

variable {m m' : Machine} {a a' : RunQueue} {t u : TaskPtr} {k : Kernel} {cpu : Cpu}
  {area : StackArea} {s : WordStack (BitVec 32)} {cells junk junk' : Cells} {linked : Linked}

theorem word_setWidth (selector : BitVec 16) : (word selector).setWidth 16 = selector := by
  simp

/-- The words of a frame in the order in which they are pushed. -/
def pushed (cpu : Cpu) (error intNo esp : BitVec 32) : List (BitVec 32) :=
  [cpu.eflags, word cpu.cs, cpu.eip, error, intNo, cpu.eax, cpu.ecx, cpu.edx, cpu.ebx, esp, cpu.ebp,
    cpu.esi, cpu.edi, word cpu.es, word cpu.ds]

/-- The way back to ring 0 finds the registers that have been pushed. -/
theorem leave_ring0 (cpu : Cpu) {error intNo esp : BitVec 32} {cell : Nat} (hEsp : cpu.esp = .kernel area cell)
    (hRing : Ring0 cpu.cs) (hRoom : 15 ≤ cell)
    (hKept : ((WordStack.mk cells cell).pushAll (pushed cpu error intNo esp)).Kept junk) :
    leave area cpu.ss ⟨junk, cell - 15⟩ = cpu := by
  have hWord : ∀ i w, (pushed cpu error intNo esp).reverse[i]? = some w →
      junk (cell - 15 + i) = w := fun i w => hKept.read rfl hRoom
  have hSp : cell - 15 + 15 = cell := Nat.sub_add_cancel hRoom
  simp only [leave, frameAt, hWord 0 _ rfl, hWord 1 _ rfl, hWord 2 _ rfl, hWord 3 _ rfl,
    hWord 4 _ rfl, hWord 6 _ rfl, hWord 7 _ rfl, hWord 8 _ rfl, hWord 9 _ rfl, hWord 12 _ rfl,
    hWord 13 _ rfl, hWord 14 _ rfl, word_setWidth, if_pos hRing, hSp, ← hEsp]

/-- The way back to ring 3 also finds the stack of the user. -/
theorem leave_ring3 {error intNo esp addr ss : BitVec 32} {ss' : BitVec 16} {cell : Nat}
    (hEsp : cpu.esp = .user addr) (hSs : ss = word cpu.ss) (hRing : ¬ Ring0 cpu.cs)
    (hRoom : 17 ≤ cell)
    (hKept : ((WordStack.mk cells cell).pushAll ([ss, addr] ++ pushed cpu error intNo esp)).Kept
      junk) : leave area ss' ⟨junk, cell - 17⟩ = cpu := by
  have hWord : ∀ i w, ([ss, addr] ++ pushed cpu error intNo esp).reverse[i]? = some w →
      junk (cell - 17 + i) = w := fun i w => hKept.read rfl hRoom
  simp only [leave, frameAt, hWord 0 _ rfl, hWord 1 _ rfl, hWord 2 _ rfl, hWord 3 _ rfl,
    hWord 4 _ rfl, hWord 6 _ rfl, hWord 7 _ rfl, hWord 8 _ rfl, hWord 9 _ rfl, hWord 12 _ rfl,
    hWord 13 _ rfl, hWord 14 _ rfl, hWord 15 _ rfl, hWord 16 _ rfl, hSs, word_setWidth, if_neg hRing,
    ← hEsp]

/-- A task that does not run will go on with the registers `cpu`, and its stack is `cells`. -/
def Parked (m : Machine) (t : TaskPtr) (cpu : Cpu) (cells : Cells) : Prop :=
  ∃ sp, (m.kernel.task t).lastStackPointer = some ⟨areaOf t, 4 * sp⟩ ∧ sp ≤ floor cpu ∧
    leave (areaOf t) kernelData ⟨m.contents (areaOf t), sp⟩ = cpu ∧
      ∀ i, floor cpu ≤ i → m.contents (areaOf t) i = cells i

/-- What holds between two events. -/
structure Inv (m : Machine) (a : RunQueue) : Prop where
  queue : a.Inv
  represents : m.kernel.Represents a
  fits : Fits m.current m.cpu
  stack : ∀ t, a.status t ≠ .invalid → (m.kernel.task t).stack = some (areaOf t)
  parked : ∀ t, a.status t ≠ .invalid → t ≠ m.current →
    ∃ cpu cells, Fits t cpu ∧ m.Parked t cpu cells
  esp0 : m.current ≠ 0 → m.esp0 = some (areaOf m.current, stackBottom)
  cr3 : m.cr3 = (m.kernel.task m.current).pageMap

theorem areaOf_injective : Function.Injective areaOf := by
  intro t u h
  by_cases ht : t = 0 <;> by_cases hu : u = 0
  · rw [ht, hu]
  · simp [areaOf, ht, hu] at h
  · simp [areaOf, ht, hu] at h
  · rw [areaOf, if_neg ht, areaOf, if_neg hu, StackArea.kernel.injEq] at h
    have ht' := Fin.val_ne_of_ne ht
    have hu' := Fin.val_ne_of_ne hu
    refine Fin.ext ?_
    simp only [Fin.val_zero] at ht' hu'
    omega

theorem Parked.congr (h : m.Parked t cpu cells)
    (hPointer : (m'.kernel.task t).lastStackPointer = (m.kernel.task t).lastStackPointer)
    (hContents : m'.contents (areaOf t) = m.contents (areaOf t)) : m'.Parked t cpu cells := by
  rw [Parked, hPointer, hContents]
  exact h

theorem handlerSs_eq (h : Fits t cpu) : handlerSs cpu = kernelData := by
  rw [handlerSs]
  rw [Fits] at h
  split
  · rename_i hEsp
    rw [hEsp] at h
    exact h.2.2.2
  · rfl

/-- The frame of an interrupt lies on the stack of the task, below everything in use. It has the
two words of the stub, and stands for the registers at the interrupt. -/
theorem commonStub_spec (linked : Linked) (hFits : Fits m.current m.cpu) (hRoom : Room m.cpu)
    (hTop : m.current ≠ 0 → m.esp0 = some (areaOf m.current, stackBottom)) (error intNo : BitVec 32) :
    ∃ s, m.commonStub linked [error, intNo] = some (areaOf m.current, s) ∧ s.sp ≤ floor m.cpu ∧
      (∀ i, floor m.cpu ≤ i → s.cells i = m.contents (areaOf m.current) i) ∧
      ∀ cells, s.Kept cells → (frameAt ⟨cells, s.sp⟩).error = error ∧
        (frameAt ⟨cells, s.sp⟩).intNo = intNo ∧
        leave (areaOf m.current) kernelData ⟨cells, s.sp⟩ = m.cpu := by
  rw [Fits] at hFits
  rw [Room] at hRoom
  cases hEsp : m.cpu.esp with
  | kernel area cell =>
      rw [hEsp] at hFits hRoom
      obtain ⟨rfl, -, hRing, hSs⟩ := hFits
      have hRoom' : 15 ≤ cell := hRoom
      obtain ⟨esp, hStub⟩ : ∃ esp, m.commonStub linked [error, intNo] = some (areaOf m.current,
          (WordStack.mk (m.contents (areaOf m.current)) cell).pushAll
            (pushed m.cpu error intNo esp)) :=
        ⟨_, by rw [commonStub, trap, hEsp]; rfl⟩
      have hFloor : floor m.cpu = cell := by rw [floor, hEsp]
      refine ⟨_, hStub, ?_, fun i hi => ?_, fun cells hKept => ?_⟩
      · rw [pushAll_sp, hFloor]
        exact Nat.sub_le _ _
      · refine cells_pushAll ?_ (hFloor ▸ hi)
        exact hRoom'
      · rw [pushAll_sp, ← hSs]
        exact ⟨hKept.read rfl hRoom' (i := 11) rfl, hKept.read rfl hRoom' (i := 10) rfl,
          leave_ring0 m.cpu hEsp hRing hRoom' hKept⟩
  | user addr =>
      rw [hEsp] at hFits
      obtain ⟨hTask, hRing⟩ := hFits
      have hBottom : 17 ≤ stackBottom := by decide
      obtain ⟨esp, hStub⟩ : ∃ esp, m.commonStub linked [error, intNo] = some (areaOf m.current,
          (WordStack.mk (m.contents (areaOf m.current)) stackBottom).pushAll
            ([word m.cpu.ss, addr] ++ pushed m.cpu error intNo esp)) :=
        ⟨_, by rw [commonStub, trap, hEsp, hTop hTask]; rfl⟩
      have hFloor : floor m.cpu = stackBottom := by rw [floor, hEsp]
      refine ⟨_, hStub, ?_, fun i hi => ?_, fun cells hKept => ?_⟩
      · rw [pushAll_sp, hFloor]
        exact Nat.sub_le _ _
      · refine cells_pushAll ?_ (hFloor ▸ hi)
        exact hBottom
      · rw [pushAll_sp]
        exact ⟨hKept.read rfl hBottom (i := 11) rfl, hKept.read rfl hBottom (i := 10) rfl,
          leave_ring3 hEsp rfl hRing hBottom hKept⟩

@[simp] theorem yielded_esp {cell : Nat} : (m.yielded linked area cell).esp = m.cpu.esp := rfl

/-- The frame of `switch_context`. -/
theorem switchContext_spec (linked : Linked) {cell : Nat} (hEsp : m.cpu.esp = .kernel area cell)
    (hSs : m.cpu.ss = kernelData) (hRoom : 15 ≤ cell) :
    (m.switchContext linked area cell).sp = cell - 15 ∧
      (∀ i, cell ≤ i → (m.switchContext linked area cell).cells i = m.contents area i) ∧
      ∀ cells, (m.switchContext linked area cell).Kept cells →
        leave area kernelData ⟨cells, cell - 15⟩ = m.yielded linked area cell := by
  obtain ⟨esp, hPushed⟩ : ∃ esp, m.switchContext linked area cell =
      (WordStack.mk (m.contents area) cell).pushAll
        (pushed (m.yielded linked area cell) 0 0x00edbabe esp) := ⟨_, rfl⟩
  rw [hPushed]
  refine ⟨pushAll_sp, fun i hi => cells_pushAll ?_ hi, fun cells hKept => ?_⟩
  · exact hRoom
  have hSs' : (m.yielded linked area cell).ss = kernelData := hSs
  rw [← hSs']
  have hRing : Ring0 kernelCode := by decide
  exact leave_ring0 (m.yielded linked area cell) hEsp hRing hRoom hKept

/-- Only what lies above the stack pointer matters. -/
theorem leave_congr {ss : BitVec 16} (h : s.Kept cells) : leave area ss ⟨cells, s.sp⟩ = leave area ss s := by
  have hFrame : frameAt ⟨cells, s.sp⟩ = frameAt s := by
    simp only [frameAt, h _ (Nat.le_add_right _ _)]
  rw [leave, hFrame]
  rfl

/-- An event after which the same task runs. -/
structure Stays (m m' : Machine) (a : RunQueue) : Prop where
  current : m'.current = m.current
  fits : Fits m'.current m'.cpu
  task : ∀ t, a.status t ≠ .invalid → saved (m'.kernel.task t) = saved (m.kernel.task t)
  contents : ∀ t, a.status t ≠ .invalid → t ≠ m.current →
    m'.contents (areaOf t) = m.contents (areaOf t)
  esp0 : m'.esp0 = m.esp0
  cr3 : m'.cr3 = m.cr3

/-- An event that switches to another task. What ran until then will go on with the registers
`cpu`; `a` is the run queue before and `a'` the one behind. -/
structure Switched (m m' : Machine) (a a' : RunQueue) (cpu : Cpu) : Prop where
  current : m'.current ≠ m.current
  live : a.status m'.current ≠ .invalid
  stack : ∀ t, a'.status t ≠ .invalid → (m'.kernel.task t).stack = (m.kernel.task t).stack
  pointer : ∀ t, a'.status t ≠ .invalid → t ≠ m.current →
    (m'.kernel.task t).lastStackPointer = (m.kernel.task t).lastStackPointer
  contents : ∀ t, t ≠ m.current → t ≠ m'.current → m'.contents (areaOf t) = m.contents (areaOf t)
  left : a'.status m.current ≠ .invalid →
    m'.Parked m.current cpu (m.contents (areaOf m.current))
  back : ∀ cpu cells, m.Parked m'.current cpu cells →
    m'.cpu = cpu ∧ ∀ i, floor cpu ≤ i → m'.contents (areaOf m'.current) i = cells i
  esp0 : m'.esp0 = some (areaOf m'.current, stackBottom)
  cr3 : m'.cr3 = (m'.kernel.task m'.current).pageMap

/-- The switch itself. The frame of the old task lies at the stack pointer of `s`. -/
theorem commonSwitch_spec (cpu : Cpu) (junk junk' : Cells) {orig : TaskPtr} (hInv : m.Inv a)
    (hScheduled : m.kernel.scheduler = some (k, some orig)) (hSp : s.sp ≤ floor cpu)
    (hCells : ∀ i, floor cpu ≤ i → s.cells i = m.contents (areaOf m.current) i)
    (hLeave : ∀ cells, s.Kept cells → leave (areaOf m.current) kernelData ⟨cells, s.sp⟩ = cpu) :
    ∃ m', m.commonSwitch k orig (areaOf m.current) s junk junk' = some m' ∧
      m'.kernel.Represents a.reschedule ∧ m.Switched m' a a.reschedule cpu := by
  obtain ⟨rfl, result, hResult, hOver⟩ := scheduler_handover ⟨areaOf m.current, 4 * s.sp⟩ hInv.queue
    hInv.represents hScheduled
  have hChosen : a.reschedule.current = k.currentTask :=
    hOver.represents.current.symm.trans hOver.current
  have hNewLive : a.reschedule.status k.currentTask ≠ .invalid :=
    hChosen ▸ hInv.queue.reschedule.1.current
  have hLive : a.status k.currentTask ≠ .invalid := hInv.queue.reschedule_live hNewLive
  have hStack : (k.task k.currentTask).stack = some (areaOf k.currentTask) :=
    (congrArg Prod.fst hOver.chosen).trans (hInv.stack _ hLive)
  obtain ⟨cpu₀, cells₀, -, sp, hPointer, -⟩ := hInv.parked _ hLive hOver.other
  have hAreas : areaOf k.currentTask ≠ areaOf m.current := fun h => hOver.other (areaOf_injective h)
  have hEntry : (k.setTask m.kernel.currentTask fun x =>
      { x with lastStackPointer := some ⟨areaOf m.current, 4 * s.sp⟩ }).task k.currentTask =
        k.task k.currentTask := Function.update_of_ne hOver.other _ _
  have hEsp : (k.task k.currentTask).lastStackPointer = some ⟨areaOf k.currentTask, 4 * sp⟩ :=
    (congrArg (fun x => x.2.1) hOver.chosen).trans hPointer
  have hCell : 4 * sp / 4 = sp := Nat.mul_div_cancel_left sp (by decide)
  let s' := (WordStack.mk (m.contents (areaOf k.currentTask)) sp).clobber junk'
  obtain ⟨m', hSwitch, hKernel, hCpu, hContents, hEsp0, hCr3⟩ :
      ∃ m', m.commonSwitch k m.kernel.currentTask (areaOf m.current) s junk junk' = some m' ∧
        m'.kernel = result.1 ∧ m'.cpu = leave (areaOf k.currentTask) kernelData s' ∧
        m'.contents = Function.update (Function.update m.contents (areaOf m.current)
          (s.clobber junk).cells) (areaOf k.currentTask) s'.cells ∧
        m'.esp0 = some (areaOf k.currentTask, stackBottom) ∧
        m'.cr3 = (k.task k.currentTask).pageMap := by
    rw [commonSwitch]
    simp only [setTask_currentTask, hEntry, hEsp, hResult, hStack, handlerSs_eq hInv.fits, hCell,
      Option.bind_some, Option.map_some, Function.update_of_ne hAreas]
    exact ⟨_, rfl, rfl, rfl, rfl, rfl, rfl⟩
  have hCurrent : m'.current = k.currentTask := (congrArg Kernel.currentTask hKernel).trans hOver.current
  have hMine : m'.contents (areaOf m.current) = (s.clobber junk).cells := by
    rw [hContents, Function.update_of_ne hAreas.symm, Function.update_self]
  refine ⟨m', hSwitch, hKernel ▸ hOver.represents, hCurrent ▸ hOver.other, hCurrent ▸ hLive,
    fun t ht => ?_, fun t ht hne => ?_, fun t hOld hNew => ?_, fun ht => ?_, fun cpu₁ cells₁ h => ?_,
    hCurrent ▸ hEsp0, ?_⟩
  · rw [hKernel]
    by_cases hne : t = m.current
    · subst hne
      exact congrArg Prod.fst (hOver.old ht)
    · exact congrArg Prod.fst (hOver.task t ht hne)
  · rw [hKernel]
    exact congrArg (fun x => x.2.1) (hOver.task t ht hne)
  · rw [hContents, Function.update_of_ne fun h => hNew (hCurrent ▸ areaOf_injective h),
      Function.update_of_ne fun h => hOld (areaOf_injective h)]
  · refine ⟨s.sp, ?_, hSp, ?_, fun i hi => ?_⟩
    · rw [hKernel]
      exact congrArg (fun x => x.2.1) (hOver.old ht)
    · rw [hMine]
      exact hLeave _ kept_clobber
    · rw [hMine]
      exact (kept_clobber i (hSp.trans hi)).trans (hCells i hi)
  · -- the chosen task has been parked at `sp`, and the calls write below it
    rw [hCurrent] at h ⊢
    obtain ⟨sp₁, hPointer₁, hSp₁, hLeave₁, hCells₁⟩ := h
    have hSame : sp₁ = sp := by
      have hEqual := hPointer₁.symm.trans hPointer
      simp only [Option.some.injEq, StackPtr.mk.injEq] at hEqual
      omega
    subst hSame
    refine ⟨?_, fun i hi => ?_⟩
    · rw [hCpu, ← hLeave₁]
      exact leave_congr kept_clobber
    · rw [hContents, Function.update_self, ← hCells₁ i hi]
      exact kept_clobber i (hSp₁.trans hi)
  · rw [hCr3, hCurrent, hKernel]
    have hMap : (k.task k.currentTask).pageMap = (m.kernel.task k.currentTask).pageMap :=
      congrArg (fun x => x.2.2) hOver.chosen
    exact hMap.trans (congrArg (fun x => x.2.2) (hOver.task _ hNewLive hOver.other)).symm

theorem Inv.current (h : m.Inv a) : m.current = a.current := h.represents.current

theorem Inv.live (h : m.Inv a) : a.status m.current ≠ .invalid := by
  rw [h.current]
  exact h.queue.current

/-- After an event that switched to no other task. `hNew` is about tasks that have been created. -/
theorem Stays.inv (h : m.Stays m' a) (hInv : m.Inv a) (hQueue : a'.Inv)
    (hRep : m'.kernel.Represents a')
    (hNew : ∀ t, a'.status t ≠ .invalid → a.status t ≠ .invalid ∨
      (m'.kernel.task t).stack = some (areaOf t) ∧ ∃ cpu cells, Fits t cpu ∧ m'.Parked t cpu cells) :
    m'.Inv a' := by
  refine ⟨hQueue, hRep, h.fits, fun t ht => ?_, fun t ht hne => ?_, fun hne => ?_, ?_⟩
  · rcases hNew t ht with hOld | ⟨hStack, -⟩
    · exact (congrArg Prod.fst (h.task t hOld)).trans (hInv.stack t hOld)
    · exact hStack
  · rcases hNew t ht with hOld | ⟨-, hParked⟩
    · obtain ⟨cpu, cells, hFits, hParked⟩ := hInv.parked t hOld (h.current ▸ hne)
      exact ⟨cpu, cells, hFits, hParked.congr (congrArg (fun x => x.2.1) (h.task t hOld))
        (h.contents t hOld (h.current ▸ hne))⟩
    · exact hParked
  · rw [h.esp0, h.current]
    exact hInv.esp0 (h.current ▸ hne)
  · rw [h.cr3, h.current, hInv.cr3]
    exact (congrArg (fun x => x.2.2) (h.task _ hInv.live)).symm

theorem Switched.inv (h : m.Switched m' a a' cpu) (hInv : m.Inv a) (hFits : Fits m.current cpu)
    (hQueue : a'.Inv) (hRep : m'.kernel.Represents a')
    (hKnown : ∀ t, a'.status t ≠ .invalid → a.status t ≠ .invalid) : m'.Inv a' := by
  refine ⟨hQueue, hRep, ?_, fun t ht => (h.stack t ht).trans (hInv.stack t (hKnown t ht)),
    fun t ht hne => ?_, fun _ => h.esp0, h.cr3⟩
  · obtain ⟨cpu₀, cells, hFits₀, hParked⟩ := hInv.parked _ h.live h.current
    rw [(h.back _ _ hParked).1]
    exact hFits₀
  · by_cases hOld : t = m.current
    · subst hOld
      exact ⟨cpu, _, hFits, h.left ht⟩
    · obtain ⟨cpu₀, cells, hFits₀, hParked⟩ := hInv.parked t (hKnown t ht) hOld
      exact ⟨cpu₀, cells, hFits₀, hParked.congr (h.pointer t ht hOld) (h.contents t hOld hne)⟩

/-- The event has created the task. -/
def Created (linked : Linked) (m' : Machine) (t : TaskPtr) (event : Event) : Prop :=
  ∃ ep arg prio pages, event = .create ep arg prio pages ∧
    (m'.kernel.task t).stack = some (areaOf t) ∧
      m'.Parked t (startCpu t ep) (defaultStack linked (areaOf t) ep arg).cells

/-- What an event does, the run queue being `a` before it and `a'` behind it. -/
structure Outcome (linked : Linked) (m m' : Machine) (a a' : RunQueue) (event : Event) : Prop where
  queue : a'.Inv
  represents : m'.kernel.Represents a'
  alive : ∀ t, t ≠ m.current → a.status t ≠ .invalid → a'.status t ≠ .invalid
  known : ∀ t, a'.status t ≠ .invalid → a.status t ≠ .invalid ∨ Created linked m' t event
  moves : m.Stays m' a ∨
    (∀ t, a'.status t ≠ .invalid → a.status t ≠ .invalid) ∧
      Fits m.current (m.suspended linked event) ∧ m.Switched m' a a' (m.suspended linked event)

theorem fits_start {ep : Nat} : Fits t (startCpu t ep) := by
  refine ⟨rfl, ?_, ?_, rfl⟩
  · exact (by decide : stackBottom - 2 ≤ kernelStackSize / 4)
  · exact (by decide : Ring0 kernelCode)

/-- Every event keeps the invariant. -/
theorem Outcome.inv {event : Event} (h : Outcome linked m m' a a' event) (hInv : m.Inv a) : m'.Inv a' := by
  rcases h.moves with hStays | ⟨hKnown, hFits, hSwitched⟩
  · refine hStays.inv hInv h.queue h.represents fun t ht => (h.known t ht).imp_right ?_
    rintro ⟨ep, arg, prio, pages, -, hStack, hParked⟩
    exact ⟨hStack, _, _, fits_start, hParked⟩
  · exact hSwitched.inv hInv hFits h.queue h.represents hKnown

/-- An event that changes only what does not concern the switch. -/
theorem quiet_spec {event : Event} (hInv : m.Inv a) (hQueue : a'.Inv)
    (hRep : m'.kernel.Represents a') (hCurrent : a'.current = a.current)
    (hTask : ∀ t, saved (m'.kernel.task t) = saved (m.kernel.task t))
    (hLive : ∀ t, t ≠ m.current → (a'.status t ≠ .invalid ↔ a.status t ≠ .invalid))
    (hCpu : m'.cpu = m.cpu)
    (hContents : ∀ t, t ≠ m.current → m'.contents (areaOf t) = m.contents (areaOf t))
    (hEsp0 : m'.esp0 = m.esp0) (hCr3 : m'.cr3 = m.cr3) : Outcome linked m m' a a' event := by
  have hSame : m'.current = m.current := hRep.current.trans (hCurrent.trans hInv.current.symm)
  have hFits : Fits m'.current m'.cpu := by
    rw [hSame, hCpu]
    exact hInv.fits
  refine ⟨hQueue, hRep, fun t ht hOld => (hLive t ht).mpr hOld, fun t ht => Or.inl ?_,
    Or.inl ⟨hSame, hFits, fun t _ => hTask t, fun t _ => hContents t, hEsp0, hCr3⟩⟩
  by_cases hMine : t = m.current
  · exact hMine ▸ hInv.live
  · exact (hLive t hMine).mp ht

theorem fpuHandler_field {Value : Type*} {field : Task → Value} {unit : FpuUnit}
    (hFpu : ∀ x f g, field { x with fpu := f, flags := g } = field x) :
    field ((k.fpuHandler unit).task t) = field (k.task t) := by
  by_cases ht : t = k.currentTask
  · subst ht
    rw [fpuHandler]
    split
    · exact (congrArg field (Function.update_self ..)).trans (hFpu _ _ _)
    · refine (congrArg field (Function.update_self ..)).trans ((hFpu _ _ _).trans ?_)
      exact (congrArg field (Function.update_self ..)).trans (hFpu _ _ _)
  · rw [fpuHandler]
    split <;> simp [ht]

theorem fpuHandler_represents {unit : FpuUnit} (h : k.Represents a) :
    (k.fpuHandler unit).Represents a := by
  have hField : ∀ {Value : Type} (field : Task → Value)
      (_ : ∀ x f g, field { x with fpu := f, flags := g } = field x),
      (fun t => field ((k.fpuHandler unit).task t)) = fun t => field (k.task t) :=
    fun field hFpu => funext fun t => fpuHandler_field hFpu
  have hStores : (k.fpuHandler unit).Stores a (k.fpuHandler unit).oldTask := by
    refine h.congr (hField Task.status fun _ _ _ => rfl) (hField Task.prio fun _ _ _ => rfl)
      (hField Task.id fun _ _ _ => rfl) (hField Task.next fun _ _ _ => rfl)
      (hField Task.prev fun _ _ _ => rfl) ?_ ?_ ?_ ?_
    all_goals
      rw [fpuHandler]
      split <;> rfl
  have hOld : (k.fpuHandler unit).oldTask = none := by
    refine Eq.trans ?_ h.oldTask
    rw [fpuHandler]
    split <;> rfl
  rw [hOld] at hStores
  exact hStores

theorem compute_spec {event : Event} (hInv : m.Inv a) (hFits : Fits m.current cpu) :
    Outcome linked m
      { m with cpu := cpu, contents := Function.update m.contents (areaOf m.current) cells } a a event :=
  ⟨hInv.queue, hInv.represents, fun _ _ => id, fun _ => Or.inl, Or.inl ⟨rfl, hFits, fun _ _ => rfl,
    fun _ _ ht => Function.update_of_ne (fun h => ht (areaOf_injective h)) _ _, rfl, rfl⟩⟩

/-- The result of `scheduler` when the same task goes on. -/
theorem scheduler_stays (hInv : m.Inv a) (h : m.kernel.scheduler = some (k, none)) :
    k.Represents a.reschedule ∧ a.reschedule.current = a.current ∧
      (∀ t, saved (k.task t) = saved (m.kernel.task t)) := by
  obtain ⟨-, hCurrent, hSame⟩ | ⟨hNone, -⟩ := scheduler_cases h
  · obtain ⟨k', hReschedule, hRep, -⟩ := reschedule_refines hInv.queue hInv.represents
    obtain rfl := Option.some.inj (hSame.symm.trans hReschedule)
    exact ⟨hRep, hRep.current.symm.trans (hCurrent.trans hInv.current),
      fun t => saved_unmarked.scheduler (fun _ _ _ => rfl) h⟩
  · cases hNone

theorem reschedule_alive (hInv : m.Inv a) (ht : t ≠ m.current) :
    a.reschedule.status t ≠ .invalid ↔ a.status t ≠ .invalid :=
  ⟨hInv.queue.reschedule_live, RunQueue.reschedule_alive (hInv.current ▸ ht)⟩

/-- `reschedule`, with or without a switch. -/
theorem reschedule_spec (hInv : m.Inv a) (hRoom : Room m.cpu) (hRing : Ring0 m.cpu.cs) :
    ∃ m', m.reschedule linked junk junk' = some m' ∧
      Outcome linked m m' a a.reschedule (.reschedule junk junk') := by
  have hFits := hInv.fits
  rw [Fits] at hFits
  rw [Room] at hRoom
  have hQueue := hInv.queue.reschedule.1
  obtain ⟨area, cell, hEsp⟩ : ∃ area cell, m.cpu.esp = .kernel area cell := by
    cases hEsp : m.cpu.esp with
    | kernel area cell => exact ⟨area, cell, rfl⟩
    | user addr =>
        rw [hEsp] at hFits
        exact absurd hRing hFits.2
  rw [hEsp] at hFits hRoom
  obtain ⟨rfl, hCell, -, hSs⟩ := hFits
  obtain ⟨k', hReschedule, -⟩ := reschedule_refines hInv.queue hInv.represents
  obtain ⟨⟨k, orig⟩, hScheduled, -⟩ := Option.bind_eq_some_iff.mp hReschedule
  rw [reschedule, hEsp]
  dsimp only
  rw [hScheduled, Option.bind_some]
  cases orig with
  | none =>
      obtain ⟨hRep, hCurrent, hTask⟩ := scheduler_stays hInv hScheduled
      exact ⟨_, rfl, quiet_spec hInv hQueue hRep hCurrent hTask (fun t => reschedule_alive hInv) rfl
        (fun _ _ => rfl) rfl rfl⟩
  | some orig =>
      obtain ⟨hSp, hCells, hLeave⟩ := switchContext_spec linked hEsp hSs hRoom
      have hFloor : floor (m.yielded linked (areaOf m.current) cell) = cell := by
        rw [floor, yielded_esp, hEsp]
      obtain ⟨m', hSwitch, hRep, hSwitched⟩ := commonSwitch_spec
        (m.yielded linked (areaOf m.current) cell) junk junk' hInv hScheduled
        (hSp.trans_le (hFloor ▸ Nat.sub_le _ _)) (hFloor ▸ hCells) (hSp ▸ hLeave)
      have hSuspended : m.suspended linked (.reschedule junk junk') =
          m.yielded linked (areaOf m.current) cell := by rw [suspended, hEsp]
      refine ⟨m', hSwitch, hQueue, hRep, fun t ht hOld => (reschedule_alive hInv ht).mpr hOld,
        fun t ht => Or.inl (hInv.queue.reschedule_live ht),
        Or.inr ⟨fun t => hInv.queue.reschedule_live, ?_, hSuspended ▸ hSwitched⟩⟩
      have hCode : Ring0 kernelCode := by decide
      rw [hSuspended, Fits, yielded_esp, hEsp]
      exact ⟨rfl, hCell, hCode, hSs⟩

/-- The interrupt asks `scheduler` for a task. -/
def Asks (k : Kernel) (intNo : Nat) : Prop :=
  intNo = 32 ∨ 32 ≤ intNo ∧ k.task.prio k.currentTask < k.getHighestPriority

instance (k : Kernel) (intNo : Nat) : Decidable (Asks k intNo) := inferInstanceAs (Decidable (_ ∨ _))

theorem irqHandler_eq (k : Kernel) (intNo : Nat) :
    k.irqHandler intNo = if Asks k intNo then k.scheduler else some (k, none) := by
  rw [irqHandler]
  split
  · rename_i hTimer
    exact (if_pos (Or.inl hTimer)).symm
  · rename_i hOther
    split
    · rename_i hHigher
      exact (if_pos (Or.inr hHigher)).symm
    · rename_i hLower
      exact (if_neg fun h => h.elim hOther hLower).symm

/-- An external interrupt, with or without a switch. -/
theorem interrupt_spec (linked : Linked) (intNo : Nat) (junk junk' : Cells) (hInv : m.Inv a) (hRoom : Room m.cpu) :
    ∃ m', m.interrupt linked intNo junk junk' = some m' ∧
      Outcome linked m m' a (if Asks m.kernel intNo then a.reschedule else a)
        (.interrupt intNo junk junk') := by
  have hQueue := hInv.queue.reschedule.1
  obtain ⟨s, hStub, hSp, hCells, hFrame⟩ :=
    commonStub_spec linked hInv.fits hRoom hInv.esp0 0 (BitVec.ofNat 32 intNo)
  have hLeave cells (hKept : s.Kept cells) := (hFrame cells hKept).2.2
  have hCpu : leave (areaOf m.current) (handlerSs m.cpu) (s.clobber junk) = m.cpu := by
    rw [handlerSs_eq hInv.fits]
    exact hLeave _ kept_clobber
  have hOthers : ∀ t, t ≠ m.current →
      Function.update m.contents (areaOf m.current) (s.clobber junk).cells (areaOf t) =
        m.contents (areaOf t) := fun t ht =>
    Function.update_of_ne (fun h => ht (areaOf_injective h)) _ _
  obtain ⟨k', hReschedule, -⟩ := reschedule_refines hInv.queue hInv.represents
  obtain ⟨⟨k, orig⟩, hScheduled, -⟩ := Option.bind_eq_some_iff.mp hReschedule
  rw [interrupt, irqStub, hStub, Option.bind_some, irqHandler_eq]
  split
  · rw [hScheduled, Option.bind_some]
    cases orig with
    | none =>
        obtain ⟨hRep, hCurrent, hTask⟩ := scheduler_stays hInv hScheduled
        exact ⟨_, rfl, quiet_spec hInv hQueue hRep hCurrent hTask (fun t => reschedule_alive hInv) hCpu
          hOthers rfl rfl⟩
    | some orig =>
        obtain ⟨m', hSwitch, hRep, hSwitched⟩ := commonSwitch_spec m.cpu junk junk'
          (s := s.clobber junk) hInv hScheduled hSp
          (fun i hi => (kept_clobber i (hSp.trans hi)).trans (hCells i hi))
          (fun cells hKept => hLeave cells fun i hi => (hKept i hi).trans (kept_clobber i hi))
        exact ⟨m', hSwitch, hQueue, hRep, fun t ht hOld => (reschedule_alive hInv ht).mpr hOld,
          fun t ht => Or.inl (hInv.queue.reschedule_live ht),
          Or.inr ⟨fun t => hInv.queue.reschedule_live, hInv.fits, hSwitched⟩⟩
  · rw [Option.bind_some]
    exact ⟨_, rfl, quiet_spec hInv hInv.queue hInv.represents rfl (fun _ => rfl) (fun _ _ => Iff.rfl)
      hCpu hOthers rfl rfl⟩

/-- The initial frame stands for the registers of a new task. -/
theorem leave_default (linked : Linked) (ep arg : Nat) :
    leave (areaOf t) kernelData ⟨(defaultStack linked (areaOf t) ep arg).cells, stackBottom - 17⟩ =
      startCpu t ep := by
  obtain ⟨esp, cells, hStack⟩ : ∃ esp cells, defaultStack linked (areaOf t) ep arg =
      (WordStack.mk cells (stackBottom - 2)).pushAll
        (pushed (startCpu t ep) 0xC03DB4B3 0xB16B00B5 esp) := ⟨_, _, rfl⟩
  have hRing : Ring0 kernelCode := by decide
  have hRoom : 15 ≤ stackBottom - 2 := by decide
  rw [hStack]
  exact leave_ring0 (startCpu t ep) rfl hRing hRoom (Kept.refl _)

/-- `create_task`: the only event that brings a table entry into use. -/
theorem createTask_spec {ep arg prio : Nat} {pages : PageOutcome} (hInv : m.Inv a)
    (hPrio : 1 ≤ prio ∧ prio ≤ maxPrio) (hFrame : pages.frame ≠ 0) :
    ∃ m' a', m.createTask linked ep arg prio pages = some m' ∧
      Outcome linked m m' a a' (.create ep arg prio pages) := by
  obtain ⟨k', ret, hCreate, hEffect⟩ :=
    createTask_refines ep arg hInv.queue hInv.represents hPrio hFrame
  rw [createTask, hCreate, Option.map_some]
  dsimp only
  rcases createTask_cases hFrame hCreate with ⟨rfl, hRet⟩ | ⟨i, hFind, built, hBuilt, hRet, hSame⟩
  · rw [if_neg hRet]
    exact ⟨_, a, rfl, quiet_spec hInv hInv.queue hInv.represents rfl (fun _ => rfl)
      (fun _ _ => Iff.rfl) rfl (fun _ _ => rfl) rfl rfl⟩
  have hInvalid : m.kernel.task.status i = .invalid := by simpa using List.find?_some hFind
  have hZero : i ≠ 0 := by
    rintro rfl
    have hIdle := (hInv.queue.idle 0).mpr rfl
    rw [← hInv.represents.status, hInvalid] at hIdle
    cases hIdle
  obtain ⟨-, hStack, hPointer, hBuiltRet⟩ := createDefaultFrame_spec
    { (m.kernel.setTask i (newTask i prio pages.frame)).task i with userUsage := pages.copied } ep arg
    (newTask_stack m.kernel hZero prio pages.frame)
  rw [← hBuilt] at hStack hPointer hBuiltRet
  have hArea : areaOf i = .kernel (i - 1) := if_neg hZero
  rw [← hArea] at hStack hPointer
  have hEntry : ∀ {Value : Type} (field : Task → Value),
      (∀ x n p, field { x with next := n, prev := p } = field x) →
        field (k'.task i) = field built.1 := fun _ hLinks =>
    ((hSame hLinks).task i).trans (congrArg _ (Function.update_self ..))
  have hOther : ∀ {Value : Type} (field : Task → Value),
      (∀ x n p, field { x with next := n, prev := p } = field x) → ∀ t, t ≠ i →
        field (k'.task t) = field (m.kernel.task t) := fun _ hLinks t ht =>
    ((hSame hLinks).task t).trans (congrArg _ (Function.update_of_ne ht _ _))
  have hReady : k'.task.status i = .ready := by
    refine (hEntry Task.status fun _ _ _ => rfl).trans ?_
    rw [hBuilt, (createDefaultFrame_links _ ep arg).1]
    show ((m.kernel.setTask i (newTask i prio pages.frame)).task i).status = .ready
    rw [setTask_task, Function.update_self]
    rfl
  -- the entry that the run queue speaks of is the one that has been found
  obtain ⟨hFree, hRep⟩ : a.status i = .invalid ∧ k'.Represents (a.create i prio) := by
    rcases hEffect with rfl | ⟨t, hFree, hRep, -⟩
    · rw [hInvalid] at hReady
      cases hReady
    · have hSelf : t = i := by
        by_contra hne
        have hStatus : k'.task.status t = a.status t :=
          (hOther Task.status (fun _ _ _ => rfl) t hne).trans
            (congrFun hInv.represents.status t)
        rw [hRep.status, hFree] at hStatus
        simp [RunQueue.create, RunQueue.enqueue] at hStatus
      exact hSelf ▸ ⟨hFree, hRep⟩
  have hStatus : ∀ t, t ≠ i → (a.create i prio).status t = a.status t := fun t ht =>
    Function.update_of_ne ht _ _
  have hOld : ∀ t, a.status t ≠ .invalid → t ≠ i := fun t ht he => ht (he ▸ hFree)
  have hCurrent : k'.currentTask = m.current := hRep.current.trans hInv.current.symm
  have hStackArea : (k'.task i).stack = some (areaOf i) := (hEntry Task.stack fun _ _ _ => rfl).trans hStack
  have hFits : Fits k'.currentTask m.cpu := by
    rw [hCurrent]
    exact hInv.fits
  rw [if_pos (hRet.trans hBuiltRet), hFind, Option.bind_some, hStackArea]
  refine ⟨_, a.create i prio, rfl, hInv.queue.create hFree hPrio, hRep,
    fun t _ ht => (hStatus t (hOld t ht)).symm ▸ ht, fun t ht => ?_,
    Or.inl ⟨hCurrent, hFits, fun t ht => hOther saved (fun _ _ _ => rfl) t (hOld t ht),
      fun t ht _ => Function.update_of_ne (fun h => hOld t ht (areaOf_injective h)) _ _, rfl, rfl⟩⟩
  by_cases hNew : t = i
  · subst hNew
    refine Or.inr ⟨ep, arg, prio, pages, rfl, hStackArea, stackBottom - 17, ?_, Nat.sub_le_sub_left (by decide) _, ?_,
      fun j _ => congrFun (Function.update_self ..) j⟩
    · refine (hEntry Task.lastStackPointer fun _ _ _ => rfl).trans (hPointer.trans ?_)
      have hOffset : kernelStackSize - 16 - 8 - 60 = 4 * (stackBottom - 17) := by decide
      rw [hOffset]
    · dsimp only
      rw [Function.update_self]
      exact leave_default linked ep arg
  · exact Or.inl (hStatus t hNew ▸ ht)

/-- Every allowed event has a result, and the invariant tells what it does. -/
theorem act_spec (linked : Linked) (event : Event) (hInv : m.Inv a) (hAllowed : m.Allowed event) :
    ∃ m' a', m.act linked event = some m' ∧ Outcome linked m m' a a' event := by
  cases event with
  | compute cpu cells => exact ⟨_, a, rfl, compute_spec hInv hAllowed⟩
  | fpu unit =>
      refine ⟨_, a, rfl, quiet_spec hInv hInv.queue (fpuHandler_represents hInv.represents) rfl
        (fun t => fpuHandler_field fun _ _ _ => rfl) (fun _ _ => Iff.rfl) rfl (fun _ _ => rfl) rfl rfl⟩
  | create ep arg prio pages =>
      obtain ⟨hLow, hHigh, hFrame⟩ := hAllowed
      exact createTask_spec hInv ⟨hLow, hHigh⟩ hFrame
  | block =>
      obtain ⟨k', ret, hBlock, hRep, -⟩ := blockCurrentTask_refines hInv.queue hInv.represents
      have hSame : Same saved m.kernel k' := saved_unmarked.blockCurrentTask (by rw [hBlock]; rfl)
      have hOther : ∀ t, t ≠ m.current → a.block.status t = a.status t := by
        intro t ht
        rw [RunQueue.block]
        split
        · exact Function.update_of_ne (hInv.current ▸ ht) _ _
        · rfl
      have hCurrent : a.block.current = a.current := by
        rw [RunQueue.block]
        split <;> rfl
      refine ⟨{ m with kernel := k' }, a.block, by rw [act, hBlock]; rfl,
        quiet_spec hInv hInv.queue.block hRep hCurrent hSame.task (fun t ht => ?_) rfl (fun _ _ => rfl)
          rfl rfl⟩
      rw [hOther t ht]
  | wakeup id =>
      obtain ⟨k', ret, hWake, hRep, -⟩ := wakeupTask_refines (t := id) hInv.queue hInv.represents
      have hSame : Same saved m.kernel k' := saved_unmarked.wakeupTask (by rw [hWake]; rfl)
      have hCurrent : (a.wake id).current = a.current := by
        rw [RunQueue.wake]
        split <;> rfl
      refine ⟨{ m with kernel := k' }, a.wake id, by rw [act, hWake]; rfl,
        quiet_spec hInv hInv.queue.wake hRep hCurrent hSame.task (fun t _ =>
          ⟨RunQueue.wake_live, fun hLive => ?_⟩) rfl (fun _ _ => rfl) rfl rfl⟩
      rw [RunQueue.wake]
      split
      · by_cases ht : t = id
        · simp [RunQueue.enqueue, ht]
        · simpa [RunQueue.enqueue, ht] using hLive
      · exact hLive
  | exit =>
      obtain ⟨hIdle, hReady⟩ := hAllowed
      have hRep := doExit_refines hInv.queue hInv.represents
      have hCurrent : m.kernel.currentTask = a.current := hInv.current
      rw [hInv.represents.idle] at hIdle
      rw [currentStatus, hInv.represents.status, hCurrent] at hReady
      refine ⟨_, a.exit, rfl, quiet_spec hInv (hInv.queue.exit hReady (hCurrent ▸ hIdle)) hRep rfl
        saved_unmarked.doExit.task (fun t ht => ?_) rfl (fun _ _ => rfl) rfl rfl⟩
      have hOther : a.exit.status t = a.status t := Function.update_of_ne (hCurrent ▸ ht) _ _
      rw [hOther]
  | interrupt intNo junk junk' =>
      obtain ⟨m', hAct, hOutcome⟩ := interrupt_spec linked intNo junk junk' hInv hAllowed.2
      exact ⟨m', _, hAct, hOutcome⟩
  | reschedule junk junk' =>
      obtain ⟨m', hAct, hOutcome⟩ := reschedule_spec hInv hAllowed.1 hAllowed.2
      exact ⟨m', _, hAct, hOutcome⟩

theorem Initial.inv (h : m.Initial) : ∃ a, m.Inv a := by
  obtain ⟨hBooted, hFits, hEsp0, hCr3⟩ := h
  have hSound := hBooted.sound.1
  have hCurrent : m.current = 0 := hSound.represents.current
  have hOnly : ∀ t, bootQueue.status t ≠ .invalid → t = 0 := by
    intro t ht
    by_contra hne
    simp [bootQueue, hne] at ht
  refine ⟨bootQueue, hSound.inv, hSound.represents, hCurrent ▸ hFits, fun t ht => ?_,
    fun t ht hne => absurd ((hOnly t ht).trans hCurrent.symm) hne,
    fun hne => absurd hCurrent hne, ?_⟩
  · obtain rfl := hOnly t ht
    obtain ⟨regs, save, cr3, hKernel⟩ := hBooted
    rw [hKernel]
    rfl
  · rw [hCr3, hCurrent]

theorem reachable_inv (h : Reachable linked m) : ∃ a, m.Inv a := by
  refine h.invariant (P := fun m => ∃ a, m.Inv a) (fun _ => Initial.inv) ?_
  rintro m m' ⟨a, hInv⟩ ⟨event, hAllowed, hAct⟩
  obtain ⟨m₁, a', hAct', hOutcome⟩ := act_spec linked event hInv hAllowed
  obtain rfl := Option.some.inj (hAct.symm.trans hAct')
  exact ⟨a', hOutcome.inv hInv⟩

/-- An event while the task `t` is parked: it stays parked, or it goes on. -/
theorem Outcome.away {event : Event} (h : Outcome linked m m' a a' event) (ht : t ≠ m.current)
    (hLive : a.status t ≠ .invalid) (hParked : m.Parked t cpu cells) :
    (m'.current ≠ t → m'.Parked t cpu cells) ∧
      (m'.current = t → m'.cpu = cpu ∧ ∀ i, floor cpu ≤ i → m'.contents (areaOf t) i = cells i) := by
  rcases h.moves with hStays | ⟨-, -, hSwitched⟩
  · refine ⟨fun _ => ?_, fun hCurrent => absurd (hCurrent.symm.trans hStays.current) ht⟩
    exact hParked.congr (congrArg (fun x => x.2.1) (hStays.task t hLive)) (hStays.contents t hLive ht)
  · refine ⟨fun hCurrent => ?_, ?_⟩
    · exact hParked.congr (hSwitched.pointer t (h.alive t ht hLive) ht)
        (hSwitched.contents t ht hCurrent.symm)
    · rintro rfl
      exact hSwitched.back cpu cells hParked

/-- A parked task stays parked for as long as others run. -/
theorem away_parked (hAway : Away linked t m m') (hInv : m.Inv a) (ht : t ≠ m.current)
    (hLive : a.status t ≠ .invalid) (hParked : m.Parked t cpu cells) :
    ∃ a', m'.Inv a' ∧ t ≠ m'.current ∧ a'.status t ≠ .invalid ∧ m'.Parked t cpu cells := by
  induction hAway with
  | refl => exact ⟨a, hInv, ht, hLive, hParked⟩
  | tail _ hLast ih =>
      obtain ⟨a₁, hInv₁, ht₁, hLive₁, hParked₁⟩ := ih
      obtain ⟨⟨event, hAllowed, hAct⟩, hCurrent⟩ := hLast
      obtain ⟨m₂, a₂, hAct₂, hOutcome⟩ := act_spec linked event hInv₁ hAllowed
      obtain rfl := Option.some.inj (hAct.symm.trans hAct₂)
      exact ⟨a₂, hOutcome.inv hInv₁, hCurrent.symm, hOutcome.alive t ht₁ hLive₁,
        (hOutcome.away ht₁ hLive₁ hParked₁).1 hCurrent⟩

/-- The first step after which a parked task runs again. -/
theorem away_back {m₁ m₂ : Machine} (hAway : Away linked t m m₁) (hBack : Step linked m₁ m₂)
    (hCurrent : m₂.current = t) (hInv : m.Inv a) (ht : t ≠ m.current)
    (hLive : a.status t ≠ .invalid) (hParked : m.Parked t cpu cells) :
    m₂.cpu = cpu ∧ ∀ i, floor cpu ≤ i → m₂.contents (areaOf t) i = cells i := by
  obtain ⟨a₁, hInv₁, ht₁, hLive₁, hParked₁⟩ := away_parked hAway hInv ht hLive hParked
  obtain ⟨event, hAllowed, hAct⟩ := hBack
  obtain ⟨m₃, a₂, hAct₂, hOutcome⟩ := act_spec linked event hInv₁ hAllowed
  obtain rfl := Option.some.inj (hAct.symm.trans hAct₂)
  exact (hOutcome.away ht₁ hLive₁ hParked₁).2 hCurrent

/-- A task that an event switches away from, and that has not exited, goes on with the registers and
the stack it had, whatever the other tasks and the interrupts do in between. -/
theorem resumed_exact {m₁ m₂ m₃ : Machine} {event : Event} (h : Reachable linked m)
    (hAllowed : m.Allowed event) (hAct : m.act linked event = some m₁) (hLeft : m₁.current ≠ m.current)
    (hAlive : m₁.kernel.task.status m.current ≠ .invalid)
    (hAway : Away linked m.current m₁ m₂) (hBack : Step linked m₂ m₃)
    (hCurrent : m₃.current = m.current) :
    m₃.cpu = m.suspended linked event ∧ ∀ i, floor m.cpu ≤ i →
      m₃.contents (areaOf m.current) i = m.contents (areaOf m.current) i := by
  obtain ⟨a, hInv⟩ := reachable_inv h
  obtain ⟨m', a', hAct', hOutcome⟩ := act_spec linked event hInv hAllowed
  obtain rfl := Option.some.inj (hAct.symm.trans hAct')
  rw [hOutcome.represents.status] at hAlive
  have hFloor : floor (m.suspended linked event) = floor m.cpu := by
    cases event with
    | reschedule junk junk' =>
        rw [suspended]
        split
        · rw [floor, floor, yielded_esp]
        · rfl
    | _ => rfl
  rcases hOutcome.moves with hStays | ⟨-, -, hSwitched⟩
  · exact absurd hStays.current hLeft
  · exact hFloor ▸ away_back hAway hBack hCurrent (hOutcome.inv hInv) hLeft.symm hAlive
      (hSwitched.left hAlive)

/-- After a voluntary switch the task returns from `switch_context` with the registers that a caller
relies on. -/
theorem resumed_ret {m₁ m₂ m₃ : Machine} {cell : Nat} (h : Reachable linked m)
    (hAllowed : m.Allowed (.reschedule junk junk'))
    (hAct : m.act linked (.reschedule junk junk') = some m₁) (hLeft : m₁.current ≠ m.current)
    (hAlive : m₁.kernel.task.status m.current ≠ .invalid)
    (hAway : Away linked m.current m₁ m₂) (hBack : Step linked m₂ m₃)
    (hCurrent : m₃.current = m.current) (hEsp : m.cpu.esp = .kernel area cell) :
    m₃.ret = some { m₃ with
      cpu := { m.yielded linked area cell with
        eip := m.contents area cell, esp := .kernel area (cell + 1) } } := by
  obtain ⟨hCpu, hCells⟩ := resumed_exact h hAllowed hAct hLeft hAlive hAway hBack hCurrent
  obtain ⟨a, hInv⟩ := reachable_inv h
  have hFits := hInv.fits
  rw [Fits, hEsp] at hFits
  obtain ⟨rfl, -⟩ := hFits
  have hFloor : floor m.cpu = cell := by rw [floor, hEsp]
  have hSuspended : m₃.cpu = m.yielded linked (areaOf m.current) cell := by
    rw [hCpu, suspended, hEsp]
  rw [ret, hSuspended, yielded_esp, hEsp]
  dsimp only
  rw [hCells cell hFloor.le]

def exampleLinked : Linked where
  address _ cell := BitVec.ofNat 32 (4 * cell)
  leaveKernelTask := 0x1000
  rollback := 0x2000

def exampleMachine : Machine where
  kernel := exampleKernel
  cpu := { startCpu 0 0x4000 with ebx := 17 }
  contents _ _ := 0
  esp0 := none
  cr3 := 4096

theorem exampleMachine_reachable : Reachable linked exampleMachine :=
  Transition.Reachable.of_init ⟨⟨_, _, _, rfl⟩, by decide, rfl, rfl⟩

theorem run_next {events : List Event} {event : Event} {n : Nat} {m₁ m₂ : Machine}
    (hEvent : events[n]? = some event) (h : run linked (events.take n) m = some m₁)
    (hNext : run linked (events.take (n + 1)) m = some m₂) :
    m₁.Allowed event ∧ m₁.act linked event = some m₂ := by
  induction n generalizing events m with
  | zero =>
      obtain ⟨rest, rfl⟩ : ∃ rest, events = event :: rest := by
        cases events with
        | nil => cases hEvent
        | cons first rest => exact ⟨rest, by rw [Option.some.inj hEvent]⟩
      obtain rfl := Option.some.inj h
      rw [List.take_succ_cons, List.take_zero, run] at hNext
      split at hNext
      · rename_i hAllowed
        obtain ⟨m', hAct, hLast⟩ := Option.bind_eq_some_iff.mp hNext
        exact ⟨hAllowed, hAct.trans hLast⟩
      · cases hNext
  | succ n ih =>
      cases events with
      | nil => cases hEvent
      | cons first rest =>
          rw [List.take_succ_cons, run] at h hNext
          split at h
          · rename_i hAllowed
            rw [if_pos hAllowed] at hNext
            obtain ⟨m', hAct, hRest⟩ := Option.bind_eq_some_iff.mp h
            rw [hAct, Option.bind_some] at hNext
            exact ih hEvent hRest hNext
          · cases h

/-- The idle task is interrupted, and goes on when the new task has blocked. -/
def exampleEvents : List Event :=
  [.create 0x3000 9 5 ⟨8192, 0⟩, .interrupt 33 (fun _ => 1) fun _ => 2, .block,
    .reschedule (fun _ => 3) fun _ => 4]

theorem example_currents : ∀ n ≤ 4,
    (run exampleLinked (exampleEvents.take n) exampleMachine).map current =
      some (if n = 2 ∨ n = 3 then 1 else 0) := by
  decide

theorem resumed_exact_example :
    ∃ m m₃, run exampleLinked (exampleEvents.take 1) exampleMachine = some m ∧
      run exampleLinked exampleEvents exampleMachine = some m₃ ∧ m₃.cpu = m.cpu := by
  obtain ⟨m, hm, h⟩ := Option.map_eq_some_iff.mp (example_currents 1 (by decide))
  obtain ⟨m₁, hm₁, h₁⟩ := Option.map_eq_some_iff.mp (example_currents 2 (by decide))
  obtain ⟨m₂, hm₂, h₂⟩ := Option.map_eq_some_iff.mp (example_currents 3 (by decide))
  obtain ⟨m₃, hm₃, h₃⟩ := Option.map_eq_some_iff.mp (example_currents 4 (by decide))
  have hStatus : (run exampleLinked (exampleEvents.take 2) exampleMachine).map
      (fun m => m.kernel.task.status 0) = some .idle := by decide
  rw [hm₁] at hStatus
  have hIdle : m₁.kernel.task.status 0 = .idle := Option.some.inj hStatus
  have hReachable : Reachable exampleLinked m :=
    exampleMachine_reachable.next ⟨_, run_next (n := 0) rfl rfl hm⟩
  obtain ⟨hAllowed, hAct⟩ := run_next rfl hm hm₁
  have hNew : m₁.current ≠ m.current := by
    rw [h, h₁]
    decide
  have hNew' : m₂.current ≠ m.current := by
    rw [h, h₂]
    decide
  have hAlive : m₁.kernel.task.status m.current ≠ .invalid := by
    have hZero : m.current = 0 := h
    rw [hZero, hIdle]
    decide
  refine ⟨m, m₃, hm, hm₃, (resumed_exact hReachable hAllowed hAct hNew hAlive
    (Relation.ReflTransGen.single ⟨⟨_, run_next rfl hm₁ hm₂⟩, hNew'⟩) ⟨_, run_next rfl hm₂ hm₃⟩ ?_).1⟩
  rw [h, h₃]
  rfl

/-- A new task starts at its entry point, with its argument and the address of `leave_kernel_task`
on the stack, however long it takes until it is chosen. -/
theorem started_exact {m₁ m₂ m₃ : Machine} {ep arg prio : Nat} {pages : PageOutcome}
    (h : Reachable linked m) (hAllowed : m.Allowed (.create ep arg prio pages))
    (hAct : m.act linked (.create ep arg prio pages) = some m₁)
    (hFree : m.kernel.task.status t = .invalid) (hMade : m₁.kernel.task.status t ≠ .invalid)
    (hAway : Away linked t m₁ m₂) (hBack : Step linked m₂ m₃) (hCurrent : m₃.current = t) :
    m₃.cpu = startCpu t ep ∧
      m₃.contents (areaOf t) (stackBottom - 2) = linked.leaveKernelTask ∧
      m₃.contents (areaOf t) (stackBottom - 1) = BitVec.ofNat 32 arg := by
  obtain ⟨a, hInv⟩ := reachable_inv h
  obtain ⟨m', a', hAct', hOutcome⟩ := act_spec linked _ hInv hAllowed
  obtain rfl := Option.some.inj (hAct.symm.trans hAct')
  rw [hOutcome.represents.status] at hMade
  rw [hInv.represents.status] at hFree
  rcases hOutcome.known t hMade with hOld | ⟨ep₁, arg₁, prio₁, pages₁, hEvent, -, hParked⟩
  · exact absurd hFree hOld
  cases hEvent
  have hOther : t ≠ m₁.current := by
    rintro rfl
    rcases hOutcome.moves with hStays | ⟨hKnown, -⟩
    · exact absurd hFree (hStays.current ▸ hInv.live)
    · exact hKnown _ hMade hFree
  obtain ⟨hCpu, hCells⟩ := away_back hAway hBack hCurrent (hOutcome.inv hInv) hOther hMade hParked
  refine ⟨hCpu, (hCells _ (Nat.le_refl _)).trans rfl, (hCells _ ?_).trans rfl⟩
  exact Nat.sub_le_sub_left (by decide) _

theorem started_exact_example :
    ∃ m₂, run exampleLinked (exampleEvents.take 2) exampleMachine = some m₂ ∧
      m₂.cpu = startCpu 1 0x3000 := by
  obtain ⟨m₁, hm₁, h₁⟩ := Option.map_eq_some_iff.mp (example_currents 1 (by decide))
  obtain ⟨m₂, hm₂, h₂⟩ := Option.map_eq_some_iff.mp (example_currents 2 (by decide))
  have hStatus : (run exampleLinked (exampleEvents.take 1) exampleMachine).map
      (fun m => m.kernel.task.status 1) = some .ready := by decide
  rw [hm₁] at hStatus
  have hReady : m₁.kernel.task.status 1 = .ready := Option.some.inj hStatus
  obtain ⟨hAllowed, hAct⟩ := run_next (n := 0) rfl rfl hm₁
  have hMade : m₁.kernel.task.status 1 ≠ .invalid := by simp [hReady]
  exact ⟨m₂, hm₂, (started_exact exampleMachine_reachable hAllowed hAct rfl hMade
    Relation.ReflTransGen.refl ⟨_, run_next rfl hm₁ hm₂⟩ h₂).1⟩

/-- In every reachable state the CPU is on the stack of the current task, an interrupt from ring 3
goes there too, and the page map is that of the current task. No event finds a null pointer where
it needs a stack. -/
theorem reachable_own_stack (h : Reachable linked m) :
    Fits m.current m.cpu ∧ (m.current ≠ 0 → m.esp0 = some (areaOf m.current, stackBottom)) ∧
      m.cr3 = (m.kernel.task m.current).pageMap ∧
      ∀ event, m.Allowed event → ∃ m', m.act linked event = some m' := by
  obtain ⟨a, hInv⟩ := reachable_inv h
  refine ⟨hInv.fits, hInv.esp0, hInv.cr3, fun event hAllowed => ?_⟩
  obtain ⟨m', a', hAct, -⟩ := act_spec linked event hInv hAllowed
  exact ⟨m', hAct⟩

theorem reachable_own_stack_example :
    ∃ m, run exampleLinked (exampleEvents.take 2) exampleMachine = some m ∧
      m.esp0 = some (.kernel 0, 2044) := by
  obtain ⟨m₁, hm₁, -⟩ := Option.map_eq_some_iff.mp (example_currents 1 (by decide))
  obtain ⟨m₂, hm₂, h₂⟩ := Option.map_eq_some_iff.mp (example_currents 2 (by decide))
  have hReachable : Reachable exampleLinked m₂ :=
    (exampleMachine_reachable.next ⟨_, run_next (n := 0) rfl rfl hm₁⟩).next ⟨_, run_next rfl hm₁ hm₂⟩
  have hCurrent : m₂.current = 1 := h₂
  have hTop := (reachable_own_stack hReachable).2.1
  rw [hCurrent] at hTop
  exact ⟨m₂, hm₂, hTop (by decide)⟩

end Machine
end ArtOS

import ArtOS.Tasks.Lifecycle

/-! What the scheduling operations leave alone: the fields of the tasks that do
not serve scheduling, the FPU registers and the function that saves them. -/
namespace ArtOS
namespace Kernel

variable {Value : Type*} {field : Task → Value}

/-- The switch from one task to another writes nothing that `field` reads. -/
structure Unswitched (field : Task → Value) : Prop where
  status : ∀ x s, field { x with status := s } = field x
  links : ∀ x n p, field { x with next := n, prev := p } = field x
  stack : ∀ x s p, field { x with stack := s, lastStackPointer := p } = field x

/-- The scheduling operations write nothing that `field` reads. -/
structure Unscheduled (field : Task → Value) : Prop extends Unswitched field where
  frame : ∀ x f p n,
    field { x with frame := f, lastStackPointer := p, userUsage := n } = field x

/-- `field` reads the same of every task, and the registers are the same. -/
structure Same (field : Task → Value) (k k' : Kernel) : Prop where
  task : ∀ t, field (k'.task t) = field (k.task t)
  regs : k'.fpuRegs = k.fpuRegs
  save : k'.saveFpuState = k.saveFpuState

variable {k k' k₁ : Kernel} {t u : TaskPtr} {p : Nat} {f : Task → Task} {a : RunQueue}

theorem Same.refl : Same field k k := ⟨fun _ => rfl, rfl, rfl⟩

theorem Same.trans (h : Same field k k₁) (h' : Same field k₁ k') : Same field k k' :=
  ⟨fun t => (h'.task t).trans (h.task t), h'.regs.trans h.regs, h'.save.trans h.save⟩

theorem Same.setQueue {list : TaskList} (h : Same field k k₁) : Same field k (k₁.setQueue p list) :=
  ⟨h.task, h.regs, h.save⟩

theorem Same.setBitmap {b : BitVec 32} (h : Same field k k₁) : Same field k (k₁.setBitmap b) :=
  ⟨h.task, h.regs, h.save⟩

theorem Same.setOldTask {old : Option TaskPtr} (h : Same field k k₁) :
    Same field k (k₁.setOldTask old) :=
  ⟨h.task, h.regs, h.save⟩

theorem Same.setCurrentTask (h : Same field k k₁) : Same field k (k₁.setCurrentTask t) :=
  ⟨h.task, h.regs, h.save⟩

theorem Same.setNrTasks {n : Nat} (h : Same field k k₁) : Same field k (k₁.setNrTasks n) :=
  ⟨h.task, h.regs, h.save⟩

theorem Same.setTask (h : Same field k k₁) (hf : field (f (k₁.task t)) = field (k₁.task t)) :
    Same field k (k₁.setTask t f) := by
  refine h.trans ⟨fun u => ?_, rfl, rfl⟩
  by_cases hu : u = t
  · subst hu
    simpa [Kernel.setTask] using hf
  · simp [Kernel.setTask, hu]

theorem Same.ite {c : Prop} [Decidable c] (h : Same field k k₁) (h' : Same field k k') :
    Same field k (if c then k₁ else k') := by
  split
  · exact h
  · exact h'

theorem Same.onSome {o : Option TaskPtr} {g : TaskPtr → Kernel} (h : Same field k k₁)
    (hg : ∀ t, Same field k (g t)) :
    Same field k (match o with
      | none => k₁
      | some t => g t) := by
  cases o with
  | none => exact h
  | some t => exact hg t

/-- Linking a task changes nothing but the links. -/
theorem Same.linkLast (hLinks : ∀ x n p, field { x with next := n, prev := p } = field x)
    {tested : Option TaskPtr} (h : k.linkLast p t tested = some k') : Same field k k' := by
  cases tested with
  | none =>
      cases h
      exact Same.setQueue (Same.setTask Same.refl (hLinks _ _ _))
  | some _ =>
      obtain ⟨last, _, rfl⟩ := Option.map_eq_some_iff.mp h
      refine Same.setQueue (Same.setTask ?_ (hLinks _ _ _))
      exact Same.setTask Same.refl (hLinks _ _ _)

/-- Marking and linking a task writes nothing that `field` reads. -/
structure Unmarked (field : Task → Value) : Prop where
  status : ∀ x s, field { x with status := s } = field x
  links : ∀ x n p, field { x with next := n, prev := p } = field x

namespace Unmarked

variable (hField : Unmarked field)
include hField

theorem retireCurrent : Same field k k.retireCurrent := by
  rw [Kernel.retireCurrent]
  split
  · exact Same.setOldTask (Same.setTask Same.refl (hField.status _ _))
  · exact Same.setOldTask Same.refl

theorem preemptCurrent : Same field k k.preemptCurrent := by
  rw [Kernel.preemptCurrent]
  split
  · exact Same.setOldTask (Same.setTask Same.refl (hField.status _ _))
  · exact Same.refl

theorem takeFirst (h : k.takeFirst p = some k') : Same field k k' := by
  obtain ⟨t, _, rfl⟩ := Option.map_eq_some_iff.mp h
  refine Same.setTask ?_ (hField.links _ _ _)
  have hTaken : Same field k
      ((k.setTask t fun x => { x with status := .running }).setCurrentTask t) :=
    Same.setCurrentTask (Same.setTask Same.refl (hField.status _ _))
  split
  · exact Same.setBitmap (Same.setQueue hTaken)
  · exact Same.setQueue hTaken

theorem pickTask (h : k.pickTask = some k') : Same field k k' := by
  rw [Kernel.pickTask] at h
  split at h
  · split at h
    · cases h
      exact Same.refl
    · cases h
      exact Same.setCurrentTask Same.refl
  · split at h
    · cases h
      exact Same.refl
    · exact hField.preemptCurrent.trans (hField.takeFirst h)

theorem wakeupTask (h : (k.wakeupTask t).map Prod.fst = some k') : Same field k k' := by
  rw [Kernel.wakeupTask] at h
  split at h
  · rw [Option.map_map] at h
    obtain ⟨k₁, hLink, rfl⟩ := Option.map_eq_some_iff.mp h
    have hMarked : Same field k
        ((k.setTask t fun x => { x with status := .ready }).setNrTasks (incr32 k.nrTasks)) :=
      Same.setNrTasks (Same.setTask Same.refl (hField.status _ _))
    exact Same.setBitmap (hMarked.trans (Same.linkLast hField.links hLink))
  · cases h
    exact Same.refl

theorem unlink : Same field k (k.unlink p t) := by
  delta Kernel.unlink
  extract_lets k₁ k₂ k₃ k₄
  have h₁ : Same field k k₁ := Same.onSome Same.refl fun before =>
    Same.setTask Same.refl (hField.links _ _ _)
  have h₂ : Same field k k₂ := Same.onSome h₁ fun after => Same.setTask h₁ (hField.links _ _ _)
  have h₃ : Same field k k₃ := Same.ite (Same.setQueue h₂) h₂
  have h₄ : Same field k k₄ := Same.ite (Same.setQueue h₃) h₃
  exact Same.ite (Same.setBitmap h₄) h₄

theorem blockCurrentTask (h : k.blockCurrentTask.map Prod.fst = some k') : Same field k k' := by
  rw [Kernel.blockCurrentTask] at h
  split at h
  · dsimp only at h
    split at h
    · cases h
      refine Same.trans ?_ hField.unlink
      exact Same.setNrTasks (Same.setTask Same.refl (hField.status _ _))
    · cases h
      exact Same.refl
  · cases h

theorem doExit : Same field k k.doExit :=
  Same.setTask (Same.setNrTasks Same.refl) (hField.status _ _)

end Unmarked

/-- What the end of a switch can do. -/
theorem finishTaskSwitch_cases (h : k.finishTaskSwitch.map Prod.fst = some k') :
    (k.oldTask = none ∧ k' = k) ∨
      ∃ old, k.oldTask = some old ∧
        ((k.task.status old = .invalid ∧
            k' = (k.setTask old fun x =>
              { x with stack := none, lastStackPointer := none }).setOldTask none) ∨
          (k.task.status old ≠ .invalid ∧
            ∃ k₁, k.linkLast (k.task.prio old) old (k.queue (k.task.prio old)).first = some k₁ ∧
              k' = (k₁.setOldTask none).setBitmap
                (k₁.prioBitmap ||| prioBit (k.task.prio old)))) := by
  rw [Kernel.finishTaskSwitch, Option.map_map] at h
  obtain ⟨k₁, hSwitched, rfl⟩ := Option.map_eq_some_iff.mp h
  cases hOld : k.oldTask with
  | none =>
      rw [hOld] at hSwitched
      cases hSwitched
      exact Or.inl ⟨rfl, rfl⟩
  | some old =>
      rw [hOld] at hSwitched
      dsimp only at hSwitched
      refine Or.inr ⟨old, rfl, ?_⟩
      split at hSwitched
      · rename_i hInvalid
        cases hSwitched
        exact Or.inl ⟨hInvalid, rfl⟩
      · rename_i hLive
        obtain ⟨k₂, hLink, rfl⟩ := Option.map_eq_some_iff.mp hSwitched
        exact Or.inr ⟨hLive, k₂, hLink, rfl⟩

/-- The end of a switch changes links, and takes the stack from a task that has finished. -/
theorem Same.finishTaskSwitch (hLinks : ∀ x n p, field { x with next := n, prev := p } = field x)
    (hStack : ∀ x s p, field { x with stack := s, lastStackPointer := p } = field x)
    (h : k.finishTaskSwitch.map Prod.fst = some k') : Same field k k' := by
  obtain ⟨-, rfl⟩ | ⟨old, -, ⟨-, rfl⟩ | ⟨-, k₁, hLink, rfl⟩⟩ := finishTaskSwitch_cases h
  · exact Same.refl
  · exact Same.setOldTask (Same.setTask Same.refl (hStack _ _ _))
  · exact Same.setBitmap (Same.setOldTask (Same.linkLast hLinks hLink))

/-- A task that has not finished keeps its stack, too. -/
theorem finishTaskSwitch_kept (hLinks : ∀ x n p, field { x with next := n, prev := p } = field x)
    (h : k.finishTaskSwitch.map Prod.fst = some k') (hLive : k.task.status t ≠ .invalid) :
    field (k'.task t) = field (k.task t) := by
  obtain ⟨-, rfl⟩ | ⟨old, -, ⟨hInvalid, rfl⟩ | ⟨-, k₁, hLink, rfl⟩⟩ := finishTaskSwitch_cases h
  · rfl
  · have hOther : t ≠ old := fun he => hLive (he ▸ hInvalid)
    simp [hOther]
  · exact (Same.linkLast hLinks hLink).task t

namespace Unswitched

variable (hField : Unswitched field)
include hField

theorem unmarked : Unmarked field := ⟨hField.status, hField.links⟩

theorem linkLast {tested : Option TaskPtr} (h : k.linkLast p t tested = some k') :
    Same field k k' :=
  Same.linkLast hField.links h

theorem retireCurrent : Same field k k.retireCurrent := hField.unmarked.retireCurrent

theorem pickTask (h : k.pickTask = some k') : Same field k k' := hField.unmarked.pickTask h

theorem finishTaskSwitch (h : k.finishTaskSwitch.map Prod.fst = some k') : Same field k k' :=
  Same.finishTaskSwitch hField.links hField.stack h

theorem wakeupTask (h : (k.wakeupTask t).map Prod.fst = some k') : Same field k k' :=
  hField.unmarked.wakeupTask h

theorem blockCurrentTask (h : k.blockCurrentTask.map Prod.fst = some k') : Same field k k' :=
  hField.unmarked.blockCurrentTask h

theorem doExit : Same field k k.doExit := hField.unmarked.doExit

end Unswitched

namespace Unscheduled

variable (hField : Unscheduled field)
include hField

theorem createDefaultFrame (x : Task) (n ep arg : Nat) :
    field (Kernel.createDefaultFrame { x with userUsage := n } ep arg).1 = field x := by
  rw [Kernel.createDefaultFrame]
  split
  · exact hField.frame x x.frame x.lastStackPointer n
  · exact hField.frame x _ _ n

/-- A new entry is filled by `newTask`; the rest of `create_task` serves scheduling. -/
theorem createTask {ep arg prio : Nat} {pages : PageOutcome}
    (h : (k.createTask ep arg prio pages).map Prod.fst = some k') :
    k' = k ∨ ∃ i, ((List.finRange maxTasks).find? fun i => k.task.status i = .invalid) = some i ∧
      Same field (k.setTask i (newTask i prio pages.frame)) k' := by
  rw [Kernel.createTask] at h
  split at h
  · cases h
    exact Or.inl rfl
  · split at h
    · cases h
      exact Or.inl rfl
    · split at h
      · cases h
        exact Or.inl rfl
      · split at h
        · cases h
          exact Or.inl rfl
        · rename_i i hFree
          refine Or.inr ⟨i, hFree, ?_⟩
          dsimp only at h
          split at h
          · cases h
            exact Same.refl
          · rw [Option.map_map] at h
            obtain ⟨k₁, hLink, rfl⟩ := Option.map_eq_some_iff.mp h
            refine Same.trans ?_ (hField.linkLast hLink)
            refine Same.setNrTasks (Same.setBitmap (Same.setTask Same.refl ?_))
            exact hField.createDefaultFrame _ _ _ _

end Unscheduled

/-- `create_default_frame` on a task that has a stack. -/
theorem createDefaultFrame_spec (task : Task) (ep arg : Nat) {area : StackArea}
    (h : task.stack = some area) :
    (createDefaultFrame task ep arg).1.frame = some ⟨ep, arg⟩ ∧
      (createDefaultFrame task ep arg).1.stack = some area ∧
      (createDefaultFrame task ep arg).1.lastStackPointer =
        some ⟨area, kernelStackSize - 16 - 8 - 60⟩ ∧ (createDefaultFrame task ep arg).2 = 0 := by
  rw [createDefaultFrame, h]
  exact ⟨rfl, rfl, rfl, rfl⟩

/-- The stack of a new task. -/
theorem newTask_stack (k : Kernel) (hZero : t ≠ 0) (prio addr : Nat) :
    ((k.setTask t (newTask t prio addr)).task t).stack = some (.kernel (t - 1)) := by
  have hId : (t : Nat) ≠ 0 := fun he => hZero (Fin.ext he)
  refine (congrArg Task.stack (Function.update_self ..)).trans ?_
  show createStack t = _
  rw [createStack, if_neg hId, if_neg (Nat.not_le.mpr t.isLt)]

/-- What `create_task` can do when it gets a frame: it returns an error, or it fills the first free
entry and links it. -/
theorem createTask_cases {ep arg prio : Nat} {pages : PageOutcome} {ret : Int} (hFrame : pages.frame ≠ 0)
    (h : k.createTask ep arg prio pages = some (k', ret)) :
    (k' = k ∧ ret ≠ 0) ∨
      ∃ i, ((List.finRange maxTasks).find? fun i => k.task.status i = .invalid) = some i ∧
        ∃ built, built = createDefaultFrame
            { (k.setTask i (newTask i prio pages.frame)).task i with userUsage := pages.copied } ep arg ∧
          ret = built.2 ∧ ∀ {Value : Type} {field : Task → Value},
            (∀ x n p, field { x with next := n, prev := p } = field x) →
              Same field (k.setTask i fun _ => built.1) k' := by
  have hInvalid : -einval ≠ 0 := by decide
  have hMemory : -enomem ≠ 0 := by decide
  rw [Kernel.createTask] at h
  split at h
  · cases h
    exact Or.inl ⟨rfl, hInvalid⟩
  · split at h
    · cases h
      exact Or.inl ⟨rfl, hInvalid⟩
    · split at h
      · cases h
        exact Or.inl ⟨rfl, hInvalid⟩
      · split at h
        · cases h
          exact Or.inl ⟨rfl, hMemory⟩
        · rename_i i hFree
          obtain ⟨k₁, hLink, hPair⟩ := Option.map_eq_some_iff.mp h
          cases hPair
          refine Or.inr ⟨i, hFree, _, rfl, rfl, fun hLinks => Same.trans ?_ (Same.linkLast hLinks hLink)⟩
          refine Same.setNrTasks (Same.setBitmap ?_)
          rw [setTask_setTask]
          exact Same.refl

theorem linkLast_current {tested : Option TaskPtr} (h : k.linkLast p t tested = some k') :
    k'.currentTask = k.currentTask := by
  cases tested with
  | none =>
      cases h
      rfl
  | some _ =>
      obtain ⟨last, _, rfl⟩ := Option.map_eq_some_iff.mp h
      rfl

theorem finishTaskSwitch_current (h : k.finishTaskSwitch.map Prod.fst = some k') :
    k'.currentTask = k.currentTask := by
  obtain ⟨-, rfl⟩ | ⟨old, -, ⟨-, rfl⟩ | ⟨-, k₁, hLink, rfl⟩⟩ := finishTaskSwitch_cases h
  · rfl
  · rfl
  · exact (linkLast_current hLink : k₁.currentTask = k.currentTask)

theorem saveFpu_current {orig : TaskPtr} : (k.saveFpu orig).currentTask = k.currentTask := by
  rw [saveFpu]
  split <;> rfl

theorem retireCurrent_current : k.retireCurrent.currentTask = k.currentTask := by
  rw [retireCurrent]
  split <;> rfl

theorem linkLast_status {tested : Option TaskPtr} (h : k.linkLast p t tested = some k') :
    k'.task.status u = k.task.status u :=
  (Same.linkLast (fun _ _ _ => rfl) h : Same Task.status k k').task u

theorem createTask_status {ep arg prio : Nat} {pages : PageOutcome}
    (h : (k.createTask ep arg prio pages).map Prod.fst = some k') (hLive : k'.task.status u ≠ .invalid) :
    k.task.status u ≠ .invalid ∨
      ((List.finRange maxTasks).find? fun i => k.task.status i = .invalid) = some u := by
  rw [createTask] at h
  split at h
  · cases h
    exact Or.inl hLive
  · split at h
    · cases h
      exact Or.inl hLive
    · split at h
      · cases h
        exact Or.inl hLive
      · split at h
        · cases h
          exact Or.inl hLive
        · rename_i i hFree
          by_cases hu : u = i
          · exact Or.inr (hu ▸ hFree)
          · left
            dsimp only at h
            split at h
            · cases h
              simpa [hu] using hLive
            · rw [Option.map_map] at h
              obtain ⟨k₁, hLink, rfl⟩ := Option.map_eq_some_iff.mp h
              have hStatus : k₁.task.status u = k.task.status u := by
                refine (linkLast_status hLink).trans ?_
                simp [hu]
              exact hStatus ▸ hLive

/-- The save of the FPU context leaves the other fields alone. -/
theorem saveFpu_field {orig : TaskPtr} (hFpu : ∀ x f g, field { x with fpu := f, flags := g } = field x) :
    field ((k.saveFpu orig).task t) = field (k.task t) := by
  rw [saveFpu]
  split
  · by_cases ht : t = orig
    · subst ht
      rw [setFpuRegs_task, setTask_task, Function.update_self]
      exact hFpu _ _ _
    · simp [ht]
  · rfl

theorem Unswitched.reschedule (hField : Unswitched field)
    (hFpu : ∀ x f g, field { x with fpu := f, flags := g } = field x) (h : k.reschedule = some k') :
    field (k'.task t) = field (k.task t) := by
  rw [reschedule_eq] at h
  obtain ⟨k₁, hPick, hFinish⟩ := Option.bind_eq_some_iff.mp h
  have hBefore := (hField.retireCurrent.trans (hField.pickTask hPick)).task t
  split at hFinish
  · cases hFinish
    exact hBefore
  · exact ((hField.finishTaskSwitch hFinish).task t).trans ((saveFpu_field hFpu).trans hBefore)

/-- A call other than `create` leaves a field alone that does not serve scheduling. -/
theorem Unswitched.exec {call : Call} (hField : Unswitched field)
    (hFpu : ∀ x f g, field { x with fpu := f, flags := g } = field x)
    (hCreate : ∀ ep arg prio pages, call ≠ .create ep arg prio pages)
    (hExec : call.exec k = some k') : field (k'.task t) = field (k.task t) := by
  cases call with
  | create ep arg prio pages => exact absurd rfl (hCreate ep arg prio pages)
  | schedule => exact hField.reschedule hFpu hExec
  | block => exact (hField.blockCurrentTask hExec).task t
  | wakeup id => exact (hField.wakeupTask hExec).task t
  | exit => exact (hField.reschedule hFpu hExec).trans (hField.doExit.task t)

/-- A change of one table entry that keeps its status, its priority, its number and its links. -/
theorem Sound.setTask (h : k.Sound a) (hStatus : ∀ x, (f x).status = x.status)
    (hPrio : ∀ x, (f x).prio = x.prio) (hId : ∀ x, (f x).id = x.id)
    (hNext : ∀ x, (f x).next = x.next) (hPrev : ∀ x, (f x).prev = x.prev) :
    (k.setTask t f).Sound a := by
  refine ⟨h.inv, h.settled, ?_⟩
  have hStores : (k.setTask t f).Stores a k.oldTask :=
    h.represents.congr (by simp [hStatus]) (by simp [hPrio]) (by simp [hId]) (by simp [hNext])
      (by simp [hPrev]) rfl rfl rfl rfl
  rw [h.represents.oldTask] at hStores
  exact hStores

theorem Sound.exit_inv (h : k.Sound a)
    (hAllowed : Call.exit.Allowed (fun k => k.currentStatus = .running) k) : a.exit.Inv := by
  obtain ⟨hBusy, hRunning⟩ := hAllowed
  have hCurrent := h.represents.current
  have hReady : a.status a.current ≠ .ready := by
    rw [← hCurrent, ← h.represents.status]
    exact not_ready_of_running hRunning
  exact h.inv.exit hReady (hCurrent ▸ h.represents.idle ▸ hBusy)

/-- Only `create` brings a table entry into use. -/
theorem exec_live {call : Call} (h : k.Sound a)
    (hAllowed : call.Allowed (fun k => k.currentStatus = .running) k)
    (hExec : call.exec k = some k') (hLive : k'.task.status t ≠ .invalid) :
    k.task.status t ≠ .invalid ∨ (∃ ep arg prio pages, call = .create ep arg prio pages) ∧
      ((List.finRange maxTasks).find? fun i => k.task.status i = .invalid) = some t := by
  obtain ⟨k₂, a', hExec', hEffect, hSound, _⟩ :=
    exec_refines call h (Allowed.mono call hAllowed not_ready_of_running)
  obtain rfl := Option.some.inj (hExec.symm.trans hExec')
  cases call with
  | create ep arg prio pages =>
      exact (createTask_status hExec hLive).imp_right fun hFree => ⟨⟨_, _, _, _, rfl⟩, hFree⟩
  | schedule =>
      have hEffect' : a' = a.reschedule := hEffect
      rw [hSound.represents.status, hEffect'] at hLive
      rw [h.represents.status]
      exact Or.inl (h.inv.reschedule_live hLive)
  | block =>
      have hEffect' : a' = a.block := hEffect
      rw [hSound.represents.status, hEffect'] at hLive
      rw [h.represents.status]
      exact Or.inl (RunQueue.block_live h.inv hLive)
  | wakeup id =>
      have hEffect' : a' = a.wake id := hEffect
      rw [hSound.represents.status, hEffect'] at hLive
      rw [h.represents.status]
      exact Or.inl (RunQueue.wake_live hLive)
  | exit =>
      have hEffect' : a' = a.exit.reschedule := hEffect
      rw [hSound.represents.status, hEffect'] at hLive
      rw [h.represents.status]
      refine Or.inl (RunQueue.exit_live h.inv ((h.exit_inv hAllowed).reschedule_live hLive))

end Kernel
end ArtOS

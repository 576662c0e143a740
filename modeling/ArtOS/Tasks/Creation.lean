import ArtOS.Memory.CopyResult
import ArtOS.Tasks.FrameOwners

/-! `create_task` and `create_user_task` with their results, on the page maps of the tasks and the
blocks that `kmalloc` has handed out. What `kmalloc` does below its answer is the calls that its
`palloc` makes. -/
namespace ArtOS

/-- `type` of a `vfs_node_t`. -/
inductive NodeType where
  | file
  | directory
  | charDevice
  deriving DecidableEq

/-- `NORMAL_PRIO`. -/
abbrev normalPrio : Nat := 8

/-- `MAX_ARGS`. -/
abbrev maxArgs : Nat := pageSize - 2 * 4 - 4

/-- `load_args_t`, with the part of `buffer` that is written. -/
structure LoadArgs where
  node : Nat
  argc : Nat
  envc : Nat
  buffer : List (BitVec 8)

/-- As `create_user_task` fills it. -/
structure LoadArgs.Packed (args : LoadArgs) : Prop where
  envc : args.envc = 0
  argc : args.argc ≤ maxArgs

/-- The answer of `kmalloc`, and the calls that it made to find a block. -/
structure HeapAnswer where
  calls : List PageCall
  block : Option Nat

/-- `blocks` lists the blocks that `kmalloc` has handed out. -/
structure TaskRun where
  pages : PageRun
  blocks : List Nat
  loadArgs : Nat → LoadArgs

/-- `create_task` and `create_user_task`. The latter comes with what `findnode_fs` finds under the
file name: a node and its type. -/
inductive CreateCall where
  | task (ep arg prio : Nat)
  | user (node : Option (Nat × NodeType)) (argv : Option (List (List (BitVec 8))))
      (heap : HeapAnswer)

inductive TaskCall where
  | page (call : PageCall)
  | kmalloc (heap : HeapAnswer)
  | kfree (addr : Nat)
  | create (call : CreateCall)

/-- The characters in front of the final zero. -/
def cString (s : List (BitVec 8)) : List (BitVec 8) := s.takeWhile (· ≠ 0)

/-- The entry point of all user tasks, a function of the kernel image. -/
def userEntry (offset : Nat) : Nat := kernelStart + offset

namespace PageRun

/-- `create_task` with its result. -/
def createTaskRet (kernelEnd : Nat) (r : PageRun) (ep arg prio : Nat) : Option (PageRun × Int) :=
  match r.kernel.newSlot ep prio with
  | none =>
      (r.kernel.createTask ep arg prio ⟨0, 0⟩).map fun (k, ret) => ({ r with kernel := k }, ret)
  | some _ =>
      (r.frames.getPages kernelEnd 1).bind fun (frames, addr) =>
        if addr = 0 then
          (r.kernel.createTask ep arg prio ⟨0, 0⟩).map fun (k, ret) =>
            ({ r with kernel := k, frames := frames }, ret)
        else
          (Paging.pageMapCopy kernelEnd r.cr3 (addr >>> pageBits) ⟨r.mem, frames, 0⟩).bind
            fun (s, _) => (r.kernel.createTask ep arg prio ⟨addr, s.usage⟩).map fun (k, ret) =>
              ({ r with kernel := k, mem := s.mem, frames := s.frames }, ret)

theorem createTaskRet_fst (kernelEnd : Nat) (r : PageRun) (ep arg prio : Nat) :
    (r.createTaskRet kernelEnd ep arg prio).map Prod.fst = r.createTask kernelEnd ep arg prio := by
  rw [createTaskRet, createTask]
  cases r.kernel.newSlot ep prio with
  | none => exact Option.map_map ..
  | some t =>
      rw [Option.map_bind]
      apply Option.bind_congr
      intro x _
      dsimp only [Function.comp]
      by_cases hAddr : x.2 = 0
      · rw [if_pos hAddr, if_pos hAddr]
        exact Option.map_map ..
      · rw [if_neg hAddr, if_neg hAddr, Option.map_bind]
        apply Option.bind_congr
        intro y _
        exact Option.map_map ..

end PageRun

namespace TaskRun

open PageRun

def kmalloc (kernelEnd : Nat) (s : TaskRun) (heap : HeapAnswer) : Option TaskRun :=
  (heap.calls.foldlM (fun (r : PageRun) call => r.exec kernelEnd call) s.pages).map fun pages =>
    { s with pages := pages, blocks := heap.block.toList ++ s.blocks }

/-- Copying strings that do not fit has no result: it leaves the block. -/
def createUserTask (kernelEnd offset : Nat) (s : TaskRun) (node : Option (Nat × NodeType))
    (argv : Option (List (List (BitVec 8)))) (heap : HeapAnswer) : Option (TaskRun × Int) :=
  match node with
  | some (file, .file) =>
      let strings := (argv.getD []).map cString
      let bufferSize := (strings.map fun x => x.length + 1).sum % 2 ^ 32
      if strings.length = 0 then some (s, -einval)
      else if maxArgs ≤ bufferSize then some (s, -einval)
      else
        (s.kmalloc kernelEnd heap).bind fun s =>
          match heap.block with
          | none => some (s, -enomem)
          | some addr =>
              let buffer := strings.flatMap fun x => x ++ [0]
              if maxArgs < buffer.length then none
              else
                (s.pages.createTaskRet kernelEnd (userEntry offset) addr normalPrio).map
                  fun (pages, ret) =>
                    ({ s with
                        pages := pages
                        loadArgs := Function.update s.loadArgs addr
                          ⟨file, strings.length, 0, buffer⟩ }, ret)
  | _ => some (s, -einval)

def create (kernelEnd offset : Nat) (s : TaskRun) : CreateCall → Option (TaskRun × Int)
  | .task ep arg prio =>
      (s.pages.createTaskRet kernelEnd ep arg prio).map fun (pages, ret) =>
        ({ s with pages := pages }, ret)
  | .user node argv heap => s.createUserTask kernelEnd offset node argv heap

def exec (kernelEnd offset : Nat) (s : TaskRun) : TaskCall → Option TaskRun
  | .page call => (s.pages.exec kernelEnd call).map fun pages => { s with pages := pages }
  | .kmalloc heap => s.kmalloc kernelEnd heap
  | .kfree addr => some { s with blocks := s.blocks.erase addr }
  | .create call => (s.create kernelEnd offset call).map Prod.fst

/-- What `palloc` calls. -/
def HeapCall : PageCall → Prop
  | .get _ | .put _ | .vma .. => True
  | .map _ _ _ bits => bits &&& pgUser = 0
  | _ => False

def Grows (kernelEnd : Nat) : PageRun → List PageCall → Prop
  | _, [] => True
  | r, call :: rest => HeapCall call ∧ r.Allowed call ∧ r.Orderly kernelEnd call ∧
      ∀ r', r.exec kernelEnd call = some r' → Grows kernelEnd r' rest

/-- `kmalloc` hands out a block that is not in use. -/
def Serves (kernelEnd : Nat) (s : TaskRun) (heap : HeapAnswer) : Prop :=
  Grows kernelEnd s.pages heap.calls ∧ ∀ addr ∈ heap.block, addr ≠ 0 ∧ addr ∉ s.blocks

/-- A task that has not begun to exit makes these calls. -/
def Calls (kernelEnd : Nat) (s : TaskRun) : CreateCall → Prop
  | .task .. => s.pages.exiting s.pages.kernel.currentTask = false
  | .user _ _ heap =>
      s.pages.exiting s.pages.kernel.currentTask = false ∧ s.Serves kernelEnd heap

def Allowed (kernelEnd : Nat) (may : TaskRun → CreateCall → Prop) (s : TaskRun) : TaskCall → Prop
  | .page call => s.pages.Allowed call ∧ s.pages.Orderly kernelEnd call ∧
      ∀ ep arg prio, call ≠ .create ep arg prio
  | .kmalloc heap => s.Serves kernelEnd heap
  | .kfree addr => addr ∈ s.blocks
  | .create call => s.Calls kernelEnd call ∧ may s call

def Initial (kernelEnd : Nat) (s : TaskRun) : Prop := s.pages.Initial kernelEnd

def Step (kernelEnd offset : Nat) (may : TaskRun → CreateCall → Prop) (s s' : TaskRun) : Prop :=
  ∃ call, s.Allowed kernelEnd may call ∧ s.exec kernelEnd offset call = some s'

abbrev Reachable (kernelEnd offset : Nat) (may : TaskRun → CreateCall → Prop) : TaskRun → Prop :=
  Transition.Reachable (Initial kernelEnd) (Step kernelEnd offset may)

/-- The process table and the ready queues are the same. -/
structure SameTable (k k' : Kernel) : Prop where
  status : ∀ t, (k'.task t).status = (k.task t).status
  id : ∀ t, (k'.task t).id = (k.task t).id
  links : ∀ t, (k'.task t).next = (k.task t).next ∧ (k'.task t).prev = (k.task t).prev
  queue : k'.queue = k.queue
  bitmap : k'.prioBitmap = k.prioBitmap
  nrTasks : k'.nrTasks = k.nrTasks

/-- A call that failed has left no trace. -/
structure Unchanged (s s' : TaskRun) : Prop where
  table : SameTable s.pages.kernel s'.pages.kernel
  frames : s'.pages.frames.bitmap = s.pages.frames.bitmap
  blocks : s'.blocks = s.blocks

/-- There is a new task with a true copy of the page map, and with an initial frame. -/
structure NewTask (r r' : PageRun) (ep arg : Nat) (t : TaskPtr) : Prop where
  invalid : r.kernel.task.status t = .invalid
  ready : r'.kernel.task.status t = .ready
  copy : Paging.FaithfulCopy r.paging r'.paging r.cr3 (root r'.kernel t)
  frame : (r'.kernel.task t).frame = some ⟨ep, arg⟩
  stack : ∃ area, (r'.kernel.task t).stack = some area ∧
    (r'.kernel.task t).lastStackPointer = some ⟨area, kernelStackSize - 16 - 8 - 60⟩

/-- What the callers of `create_task` and `create_user_task` rely on. -/
def Atomic (kernelEnd offset : Nat) (s : TaskRun) (call : CreateCall) (s' : TaskRun) (ret : Int) :
    Prop :=
  (ret < 0 → Unchanged s s') ∧
  (ret = 0 → match call with
    | .task ep arg _ => ∃ t, NewTask s.pages s'.pages ep arg t
    | .user _ _ heap => ∃ s₁ addr t, s.kmalloc kernelEnd heap = some s₁ ∧ heap.block = some addr ∧
        NewTask s₁.pages s'.pages (userEntry offset) addr t)

/-- There are frames for a copy of the current page map, and it can be copied. -/
structure Room (kernelEnd : Nat) (r : PageRun) : Prop where
  supply : r.frames.Supply kernelEnd (r.paging.copyCount r.cr3)
  known : r.paging.LeavesKnown r.cr3
  copyable : r.paging.Copyable r.cr3

/-- `create_user_task` sends the call back before it asks for a block. -/
def Rejected (node : Option (Nat × NodeType)) (argv : Option (List (List (BitVec 8)))) : Prop :=
  (∀ file, node ≠ some (file, .file)) ∨ (argv.getD []) = [] ∨
    maxArgs ≤ (((argv.getD []).map cString).map fun x => x.length + 1).sum % 2 ^ 32

/-- When the calls are atomic: nothing is missing once the new task has its table entry, or the
block for its arguments. -/
def Meets (kernelEnd offset : Nat) (s : TaskRun) : CreateCall → Prop
  | .task ep _ prio => s.pages.kernel.newSlot ep prio ≠ none → Room kernelEnd s.pages
  | .user node argv heap => Rejected node argv ∨ ∀ s₁, s.kmalloc kernelEnd heap = some s₁ →
      if heap.block = none then s₁.pages.frames.bitmap = s.pages.frames.bitmap
      else s₁.pages.kernel.newSlot (userEntry offset) normalPrio ≠ none ∧ Room kernelEnd s₁.pages

variable {s s' : TaskRun} {r r' : PageRun} {a : RunQueue} {kernelEnd offset : Nat} {k k' k₁ : Kernel}
  {leaked : List (Nat × Nat)} {t : TaskPtr} {ret : Int}

theorem SameTable.refl : SameTable k k :=
  ⟨fun _ => rfl, fun _ => rfl, fun _ => ⟨rfl, rfl⟩, rfl, rfl, rfl⟩

theorem SameTable.trans (h : SameTable k k₁) (h' : SameTable k₁ k') : SameTable k k' :=
  ⟨fun t => (h'.status t).trans (h.status t), fun t => (h'.id t).trans (h.id t),
    fun t => ⟨(h'.links t).1.trans (h.links t).1, (h'.links t).2.trans (h.links t).2⟩,
    h'.queue.trans h.queue, h'.bitmap.trans h.bitmap, h'.nrTasks.trans h.nrTasks⟩

theorem SameTable.setPaging (s : Paging) : SameTable r.kernel (r.setPaging s).kernel := by
  have hField : ∀ {Value : Type} (field : Task → Value)
      (_ : ∀ x n, field { x with userUsage := n } = field x) (t : TaskPtr),
      field ((r.setPaging s).kernel.task t) = field (r.kernel.task t) := by
    intro Value field hField t
    by_cases ht : t = r.kernel.currentTask
    · subst ht
      exact (congrArg field (Function.update_self ..)).trans (hField _ _)
    · exact congrArg field (Function.update_of_ne ht ..)
  exact ⟨hField Task.status fun _ _ => rfl, hField Task.id fun _ _ => rfl,
    fun t => ⟨hField Task.next (fun _ _ => rfl) t, hField Task.prev (fun _ _ => rfl) t⟩, rfl, rfl, rfl⟩

/-- What `palloc` calls leaves the tasks alone. -/
theorem heapCall_table {call : PageCall} (hHeap : HeapCall call)
    (hExec : r.exec kernelEnd call = some r') :
    SameTable r.kernel r'.kernel ∧ r'.kernel.currentTask = r.kernel.currentTask ∧
      r'.exiting = r.exiting := by
  cases call with
  | get npages =>
      obtain ⟨⟨frames, addr⟩, _, rfl⟩ := Option.map_eq_some_iff.mp hExec
      exact ⟨SameTable.refl, rfl, rfl⟩
  | put block =>
      obtain ⟨⟨frames, ret⟩, _, rfl⟩ := Option.map_eq_some_iff.mp hExec
      exact ⟨SameTable.refl, rfl, rfl⟩
  | vma call answer fuel =>
      obtain ⟨vmas, _, rfl⟩ := Option.map_eq_some_iff.mp hExec
      exact ⟨SameTable.refl, rfl, rfl⟩
  | map viraddr phyaddr npages bits =>
      obtain ⟨⟨s, ret⟩, _, rfl⟩ := Option.map_eq_some_iff.mp hExec
      exact ⟨SameTable.setPaging s, rfl, rfl⟩
  | create | schedule | block | wakeup | drop | exit | unmap | fault | split => exact hHeap.elim

/-- `kmalloc` keeps the page maps in order. -/
theorem grows_owning (calls : List PageCall) (h : r.Owning leaked a) (hGrows : Grows kernelEnd r calls)
    (hExec : calls.foldlM (fun (r : PageRun) call => r.exec kernelEnd call) r = some r') :
    (∃ leaked a, r'.Owning leaked a) ∧ SameTable r.kernel r'.kernel ∧
      r'.kernel.currentTask = r.kernel.currentTask ∧ r'.exiting = r.exiting := by
  induction calls generalizing r leaked a with
  | nil =>
      obtain rfl := Option.some.inj hExec
      exact ⟨⟨leaked, a, h⟩, SameTable.refl, rfl, rfl⟩
  | cons call rest ih =>
      obtain ⟨hHeap, hAllowed, hOrderly, hRest⟩ := hGrows
      rw [List.foldlM_cons] at hExec
      obtain ⟨r₁, hCall, hExec⟩ := Option.bind_eq_some_iff.mp hExec
      obtain ⟨leaked₁, a₁, h₁, _⟩ := h.step hAllowed hOrderly hCall
      obtain ⟨hTable, hCurrent, hExiting⟩ := heapCall_table hHeap hCall
      obtain ⟨hOwning, hTable', hCurrent', hExiting'⟩ := ih h₁ (hRest r₁ hCall) hExec
      exact ⟨hOwning, hTable.trans hTable', hCurrent'.trans hCurrent, hExiting'.trans hExiting⟩

theorem kmalloc_owning {heap : HeapAnswer} (h : s.pages.Owning leaked a) (hServes : s.Serves kernelEnd heap)
    (hExec : s.kmalloc kernelEnd heap = some s') :
    (∃ leaked a, s'.pages.Owning leaked a) ∧ SameTable s.pages.kernel s'.pages.kernel ∧
      s'.pages.kernel.currentTask = s.pages.kernel.currentTask ∧
      s'.pages.exiting = s.pages.exiting := by
  obtain ⟨pages, hCalls, rfl⟩ := Option.map_eq_some_iff.mp hExec
  exact grows_owning heap.calls h hServes.1 hCalls

/-- The initial frame of a new task. -/
theorem createTask_frame {ep arg prio addr copied : Nat} (hSlot : k.newSlot ep prio = some t)
    (hZero : t ≠ 0) (hAddr : addr ≠ 0) (h : k.createTask ep arg prio ⟨addr, copied⟩ = some (k', ret)) :
    (k'.task t).frame = some ⟨ep, arg⟩ ∧ ∃ area, (k'.task t).stack = some area ∧
      (k'.task t).lastStackPointer = some ⟨area, kernelStackSize - 16 - 8 - 60⟩ := by
  obtain ⟨hEp, hLow, hHigh, hFree⟩ := newSlot_eq_some hSlot
  rw [Kernel.createTask, if_neg hEp, if_neg (Nat.one_le_iff_ne_zero.mp hLow),
    if_neg (Nat.not_lt.mpr hHigh), hFree] at h
  dsimp only at h
  rw [if_neg hAddr] at h
  obtain ⟨k₁, hLink, hPair⟩ := Option.map_eq_some_iff.mp h
  obtain ⟨rfl, _⟩ := Prod.mk.inj hPair
  obtain ⟨hFrame, hStack, hPointer, _⟩ :=
    Kernel.createDefaultFrame_spec { (k.setTask t (Kernel.newTask t prio addr)).task t with
      userUsage := copied } ep arg (Kernel.newTask_stack k hZero prio addr)
  have hTask : ∀ {Value : Type} (field : Task → Value)
      (_ : ∀ x n p, field { x with next := n, prev := p } = field x),
      field (k₁.task t) = field (Kernel.createDefaultFrame { (k.setTask t (Kernel.newTask t prio
        addr)).task t with userUsage := copied } ep arg).1 := fun field hLinks =>
    ((Kernel.Same.linkLast hLinks hLink).task t).trans (congrArg field (Function.update_self ..))
  exact ⟨(hTask Task.frame fun _ _ _ => rfl).trans hFrame, .kernel (t - 1),
    (hTask Task.stack fun _ _ _ => rfl).trans hStack,
    (hTask Task.lastStackPointer fun _ _ _ => rfl).trans hPointer⟩

theorem firstAlone (h : r.Owning leaked a) (hExiting : r.exiting r.kernel.currentTask = false) :
    r.paging.FirstAlone r.cr3 := by
  have hp := mem_usable (h.usable_current hExiting)
  intro i hi hPresent hne hFrame
  have hLow := (h.owners.maps.root _ hp).low
  obtain ⟨_, hSlot⟩ := h.owners.exclusive _ hp _ hp (.table i) (.table 0) _ ⟨⟨hi, hPresent⟩, hFrame⟩
    ⟨⟨by decide, hLow⟩, rfl⟩
  injection hSlot with hIndex
  exact hne hIndex

/-- `create_task` with a table entry and with room for the copy. -/
theorem create_newTask {ep prio : Nat} (h : r.Owning leaked a)
    (hExiting : r.exiting r.kernel.currentTask = false) (hSlot : r.kernel.newSlot ep prio = some t)
    (hRoom : Room kernelEnd r) (arg : Nat) :
    ∃ r', r.createTaskRet kernelEnd ep arg prio = some (r', 0) ∧ (∃ leaked a, r'.Owning leaked a) ∧
      NewTask r r' ep arg t := by
  have hSupply : r.frames.Supply kernelEnd (r.paging.copyCount r.cr3 + 0) := by
    rw [Nat.add_zero]
    exact hRoom.supply
  obtain ⟨r', frames, addr, s, a', _, hMade, hOwning, _⟩ := h.create hExiting hSlot arg hSupply
  have hp := mem_usable (h.usable_current hExiting)
  obtain ⟨hDest, hAddr, hFree, hCopy, hKernel, hRest⟩ := hMade
  have hFree' := (newSlot_eq_some hSlot).2.2.2
  have hInvalid : r.kernel.task.status t = .invalid := by simpa using List.find?_some hFree'
  have hZero : t ≠ 0 := by
    rintro rfl
    exact h.usable_idle.1 hInvalid
  have hCreate : (r.kernel.createTask ep arg prio ⟨addr, s.usage⟩).map Prod.fst = some r'.kernel := by
    rw [hKernel, Option.map_some]
  obtain ⟨hFrame, hStack⟩ := createTask_frame hSlot hZero hAddr hKernel
  refine ⟨r', ?_, ⟨leaked, a', hOwning⟩, hInvalid, (createTask_ready hSlot hAddr hCreate).1, ?_, hFrame,
    hStack⟩
  · rw [createTaskRet, hSlot]
    dsimp only
    rw [hDest, Option.bind_some]
    dsimp only
    rw [if_neg hAddr, hCopy, Option.bind_some, hKernel, Option.map_some, ← hRest]
  · rw [(createTask_roots hSlot hAddr hCreate).1]
    obtain ⟨frames₁, addr₁, hCall, hPool, hTaking, hAnswer⟩ := h.owners.maps.pool.take kernelEnd
    obtain ⟨rfl, rfl⟩ := Prod.mk.inj (Option.some.inj (hDest.symm.trans hCall))
    have hLeft : frames.Supply kernelEnd (r.paging.tableCount r.cr3 pageMapEntries 0) := by
      have hAll := hRoom.supply
      rw [Paging.copyCount, Nat.add_comm] at hAll
      generalize r.paging.tableCount r.cr3 pageMapEntries 0 = count at hAll ⊢
      cases hAll with
      | next hFirst _ hLeft =>
          obtain ⟨rfl, rfl⟩ := Prod.mk.inj (Option.some.inj (hFirst.symm.trans hDest))
          exact hLeft
    have hFaithful : Paging.FaithfulCopy r.paging s r.cr3 (addr >>> pageBits) :=
      h.owners.maps.copy_faithful hp (firstAlone h hExiting) hRoom.known hRoom.copyable hFree
        (s := ⟨r.mem, frames, 0⟩) rfl hPool hTaking (hAnswer hAddr).2.2 hLeft hCopy
    have hMem : r'.mem = s.mem := by rw [hRest]
    obtain ⟨hUser, hKern, hAbsent, hSelf⟩ := hFaithful
    rw [← hMem] at hUser hKern hAbsent hSelf
    exact ⟨hUser, hKern, hAbsent, hSelf⟩

/-- Without a table entry `create_task` fails and leaves everything as it is. -/
theorem create_rejected (kernelEnd : Nat) {ep prio : Nat} (hSlot : r.kernel.newSlot ep prio = none) (arg : Nat) :
    ∃ ret : Int, r.createTaskRet kernelEnd ep arg prio = some (r, ret) ∧ ret < 0 := by
  obtain ⟨ret, hCreate, hNegative⟩ := createTask_rejected arg ⟨0, 0⟩ hSlot
  refine ⟨ret, ?_, hNegative⟩
  rw [createTaskRet, hSlot]
  dsimp only
  rw [hCreate, Option.map_some]

theorem Unchanged.refl : Unchanged s s := ⟨SameTable.refl, rfl, rfl⟩

theorem createUserTask_rejected {node : Option (Nat × NodeType)}
    {argv : Option (List (List (BitVec 8)))} (heap : HeapAnswer) (h : Rejected node argv) :
    s.createUserTask kernelEnd offset node argv heap = some (s, -einval) := by
  unfold createUserTask
  split
  · rename_i file
    dsimp only
    rcases h with hNode | hEmpty | hLong
    · exact absurd rfl (hNode file)
    · rw [hEmpty]
      rfl
    · rw [if_pos hLong, ite_self]
  · rfl

/-- What `create_user_task` does once it has decided to ask for a block. -/
theorem createUserTask_accepted {node : Option (Nat × NodeType)}
    {argv : Option (List (List (BitVec 8)))} {heap : HeapAnswer} (h : ¬ Rejected node argv)
    (hExec : s.createUserTask kernelEnd offset node argv heap = some (s', ret)) :
    ∃ s₁, s.kmalloc kernelEnd heap = some s₁ ∧
      (heap.block = none ∧ s' = s₁ ∧ ret = -enomem ∨ ∃ addr pages args, heap.block = some addr ∧
        s₁.pages.createTaskRet kernelEnd (userEntry offset) addr normalPrio = some (pages, ret) ∧
        s' = { s₁ with pages := pages, loadArgs := args }) := by
  unfold createUserTask at hExec
  rw [Rejected, not_or, not_or] at h
  obtain ⟨hNode, hSome, hShort⟩ := h
  split at hExec
  · rename_i file
    dsimp only at hExec
    rw [if_neg (by simpa using hSome), if_neg hShort] at hExec
    obtain ⟨s₁, hMalloc, hExec⟩ := Option.bind_eq_some_iff.mp hExec
    refine ⟨s₁, hMalloc, ?_⟩
    cases hBlock : heap.block with
    | none =>
        rw [hBlock] at hExec
        obtain ⟨rfl, rfl⟩ := Prod.mk.inj (Option.some.inj hExec)
        exact Or.inl ⟨rfl, rfl, rfl⟩
    | some addr =>
        rw [hBlock] at hExec
        dsimp only at hExec
        split at hExec
        · cases hExec
        · obtain ⟨⟨pages, ret₁⟩, hCreate, hPair⟩ := Option.map_eq_some_iff.mp hExec
          obtain ⟨rfl, rfl⟩ := Prod.mk.inj hPair
          exact Or.inr ⟨addr, pages, _, rfl, hCreate, rfl⟩
  · rename_i hOther
    exact (hNode fun file he => hOther file he).elim

/-- One call of `create_task` or `create_user_task` under the condition. -/
theorem atomic_of_owning {call : CreateCall} (h : s.pages.Owning leaked a)
    (hCalls : s.Calls kernelEnd call) (hMeets : s.Meets kernelEnd offset call)
    (hExec : s.create kernelEnd offset call = some (s', ret)) :
    s.Atomic kernelEnd offset call s' ret ∧ ∃ leaked a, s'.pages.Owning leaked a := by
  cases call with
  | task ep arg prio =>
      obtain ⟨⟨pages, ret₁⟩, hCreate, hPair⟩ := Option.map_eq_some_iff.mp hExec
      obtain ⟨rfl, rfl⟩ := Prod.mk.inj hPair
      by_cases hSlot : s.pages.kernel.newSlot ep prio = none
      · obtain ⟨ret, hCreate', hNegative⟩ := create_rejected kernelEnd hSlot arg
        obtain ⟨rfl, rfl⟩ := Prod.mk.inj (Option.some.inj (hCreate.symm.trans hCreate'))
        exact ⟨⟨fun _ => Unchanged.refl, fun hZero => absurd hZero (by omega)⟩, leaked, a, h⟩
      · have hRoom := hMeets hSlot
        obtain ⟨t, hSlot⟩ := Option.ne_none_iff_exists'.mp hSlot
        obtain ⟨r', hCreate', hOwning, hNew⟩ := create_newTask h hCalls hSlot hRoom arg
        obtain ⟨rfl, rfl⟩ := Prod.mk.inj (Option.some.inj (hCreate.symm.trans hCreate'))
        exact ⟨⟨fun hLt => absurd hLt (by decide), fun _ => ⟨t, hNew⟩⟩, hOwning⟩
  | user node argv heap =>
      have hUser : s.createUserTask kernelEnd offset node argv heap = some (s', ret) := hExec
      by_cases hRejected : Rejected node argv
      · rw [createUserTask_rejected heap hRejected] at hUser
        obtain ⟨rfl, rfl⟩ := Prod.mk.inj (Option.some.inj hUser)
        exact ⟨⟨fun _ => Unchanged.refl, fun hZero => absurd hZero (by decide)⟩, leaked, a, h⟩
      · obtain ⟨s₁, hMalloc, hCases⟩ := createUserTask_accepted hRejected hUser
        obtain ⟨⟨leaked₁, a₁, h₁⟩, hTable, hCurrent, hExiting⟩ := kmalloc_owning h hCalls.2 hMalloc
        have hGood := (hMeets.resolve_left hRejected) s₁ hMalloc
        rcases hCases with ⟨hBlock, rfl, rfl⟩ | ⟨addr, pages, args, hBlock, hCreate, rfl⟩
        · rw [if_pos hBlock] at hGood
          refine ⟨⟨fun _ => ⟨hTable, hGood, ?_⟩, fun hZero => absurd hZero (by decide)⟩, leaked₁, a₁, h₁⟩
          obtain ⟨pages, _, rfl⟩ := Option.map_eq_some_iff.mp hMalloc
          simp [hBlock]
        · rw [if_neg (by simp [hBlock])] at hGood
          obtain ⟨t, hSlot⟩ := Option.ne_none_iff_exists'.mp hGood.1
          have hExiting₁ : s₁.pages.exiting s₁.pages.kernel.currentTask = false := by
            rw [hExiting, hCurrent]
            exact hCalls.1
          obtain ⟨r', hCreate', hOwning, hNew⟩ := create_newTask h₁ hExiting₁ hSlot hGood.2 addr
          obtain ⟨rfl, rfl⟩ := Prod.mk.inj (Option.some.inj (hCreate.symm.trans hCreate'))
          exact ⟨⟨fun hLt => absurd hLt (by decide), fun _ => ⟨s₁, addr, t, hMalloc, hBlock, hNew⟩⟩,
            hOwning⟩

theorem reachable_owning (h : Reachable kernelEnd offset (Meets kernelEnd offset) s) :
    ∃ leaked a, s.pages.Owning leaked a := by
  refine h.invariant (P := fun s => ∃ leaked a, s.pages.Owning leaked a)
    (fun s hs => ⟨[], PageRun.Initial.owning hs⟩) ?_
  rintro s s' ⟨leaked, a, hs⟩ ⟨call, hAllowed, hExec⟩
  cases call with
  | page call =>
      obtain ⟨pages, hCall, rfl⟩ := Option.map_eq_some_iff.mp hExec
      obtain ⟨leaked', a', hs', _⟩ := hs.step hAllowed.1 hAllowed.2.1 hCall
      exact ⟨leaked', a', hs'⟩
  | kmalloc heap => exact (kmalloc_owning hs hAllowed hExec).1
  | kfree addr =>
      obtain rfl := Option.some.inj hExec
      exact ⟨leaked, a, hs⟩
  | create call =>
      obtain ⟨⟨s₁, ret⟩, hCreate, rfl⟩ := Option.map_eq_some_iff.mp hExec
      exact (atomic_of_owning hs hAllowed.1 hAllowed.2 hCreate).2

/-- In a run of calls that meet the condition, each creation fails without a trace or is complete. -/
theorem creation_atomic (h : Reachable kernelEnd offset (Meets kernelEnd offset) s) {call : CreateCall}
    (hCalls : s.Calls kernelEnd call) (hMeets : s.Meets kernelEnd offset call)
    (hExec : s.create kernelEnd offset call = some (s', ret)) :
    s.Atomic kernelEnd offset call s' ret := by
  obtain ⟨leaked, a, hOwning⟩ := reachable_owning h
  exact (atomic_of_owning hOwning hCalls hMeets hExec).1

/-- A kernel that ends one page in front of the free frames. -/
def roomyStart : PageRun :=
  { exampleStart with
    mem := fun f => if f = 0x110 then bootPgd 0x110 0x111
      else if f = 0x111 then bootPgt 0x1FF000 0x10000 else fun _ => PageEntry.zero }

theorem roomyStart_initial : PageRun.Initial 0x1FF000 roomyStart := by
  obtain ⟨hBooted, _, hReady, hHeld, hVmas, hExiting⟩ := exampleStart_initial
  have hMarked : exampleFrames.Marked 0x110 ∧ exampleFrames.Marked 0x111 := by decide
  have hCr3 : roomyStart.cr3 = 0x110 := by decide
  refine ⟨hBooted, ⟨0x111, 0x10000, ?_⟩, hReady, hHeld, hVmas, hExiting⟩
  rw [hCr3]
  exact ⟨by simp [roomyStart], by simp [roomyStart], by decide, by decide, ⟨by decide, hMarked.2⟩,
    by decide, hMarked.1⟩

/-- The pages that the boot page table maps. -/
theorem bootPgt_present {mbInfo j : Nat} (h : (bootPgt kernelEnd mbInfo j).Has pgPresent) :
    (bootPgt kernelEnd mbInfo j).frame = j ∧ (j <<< pageBits < kernelEnd + pageSize ∨
      j = mbInfo >>> pageBits ∨ j = 0xB8000 >>> pageBits) := by
  rw [bootPgt] at h ⊢
  split
  · rename_i hKernel
    exact ⟨rfl, Or.inl hKernel.2⟩
  · rename_i hKernel
    rw [if_neg hKernel] at h
    split
    · rename_i hInfo
      exact ⟨rfl, Or.inr (Or.inl hInfo)⟩
    · rename_i hInfo
      rw [if_neg hInfo] at h
      split
      · rename_i hVideo
        exact ⟨rfl, Or.inr (Or.inr hVideo)⟩
      · rename_i hVideo
        rw [if_neg hVideo] at h
        exact absurd h PageEntry.not_has_zero

theorem roomyStart_dir {i : Nat} (hi : i < pageMapEntries - 2)
    (h : (roomyStart.paging.mem 0x110 i).Has pgPresent) : i = 0 := by
  have hRoot : roomyStart.paging.mem 0x110 i = bootPgd 0x110 0x111 i := by
    simp [roomyStart, PageRun.paging]
  by_contra hne
  rw [hRoot, bootPgd, if_neg hne, if_neg (by omega)] at h
  exact PageEntry.not_has_zero h

theorem roomyStart_table (j : Nat) :
    roomyStart.paging.mem (roomyStart.paging.mem 0x110 0).frame j = bootPgt 0x1FF000 0x10000 j := by
  have hFrame : (roomyStart.paging.mem 0x110 0).frame = 0x111 := by decide
  rw [hFrame]
  simp [roomyStart, PageRun.paging]

/-- Nothing is missing for the first task of this kernel. -/
theorem roomyStart_room : Room 0x1FF000 roomyStart := by
  have hCr3 : roomyStart.cr3 = 0x110 := by decide
  have hWalk : ∀ vpn < Paging.lowPages, ∀ e, walk roomyStart.paging.mem 0x110 vpn = some e →
      ¬ e.Has pgUser ∧ ¬ e.Has pgSelf := by
    intro vpn hLow e he
    obtain ⟨hDir, _, rfl⟩ := Paging.walk_eq_some.mp he
    rw [roomyStart_dir (Paging.table_of_low hLow) hDir, roomyStart_table]
    exact bootPgt_flags ..
  refine ⟨?_, fun i hi hDir j hj hPresent => ?_, fun vpn hv e he => ?_, fun vpn hv e he _ => ?_,
    fun vpn hv e he hUser => ?_⟩
  · have hCount : roomyStart.paging.copyCount roomyStart.cr3 = 2 := by decide +kernel
    have hCalls : ((exampleFrames.getPages 0x1FF000 1).bind fun x =>
        (x.1.getPages 0x1FF000 1).map fun y => (x.2, y.2)) = some (0x200000, 0x202000) := by
      decide
    obtain ⟨⟨s₁, addr₁⟩, hFirst, hCalls⟩ := Option.bind_eq_some_iff.mp hCalls
    obtain ⟨⟨s₂, addr₂⟩, hSecond, hAddr⟩ := Option.map_eq_some_iff.mp hCalls
    obtain ⟨rfl, rfl⟩ := Prod.mk.inj hAddr
    rw [hCount]
    exact Frames.Supply.next hFirst (by decide) (Frames.Supply.next hSecond (by decide)
      (Frames.Supply.zero s₂))
  · rw [hCr3] at hDir hPresent ⊢
    obtain rfl := roomyStart_dir hi hDir
    rw [roomyStart_table] at hPresent ⊢
    obtain ⟨hFrame, hPage⟩ := bootPgt_present hPresent
    rw [hFrame]
    intro _
    have hLow : j < 0x200 := by
      rcases hPage with hKernel | hInfo | hVideo
      · simp only [pageBits, pageSize, Nat.shiftLeft_eq] at hKernel
        omega
      · rw [hInfo]
        decide
      · rw [hVideo]
        decide
    have hByte : exampleFrames.bitmap (j / 8) = 0xff := if_neg (by omega)
    show ((exampleFrames.bitmap (j / 8)).getLsbD (j % 8)) = true
    rw [hByte]
    have hBits : ∀ i < 8, (0xff : BitVec 8).getLsbD i = true := by decide
    exact hBits _ (Nat.mod_lt _ (by decide))
  · rw [hCr3] at he
    exact (hWalk vpn (hv.trans_lt (by decide)) e he).1
  · rw [hCr3] at he
    exact (hWalk vpn hv e he).2
  · rw [hCr3] at he
    exact absurd hUser (hWalk vpn hv e he).1

/-- The first task of this kernel. -/
theorem creation_atomic_roomy : ∃ s s' : TaskRun,
    Reachable 0x1FF000 0x4000 (Meets 0x1FF000 0x4000) s ∧
      s.create 0x1FF000 0x4000 (.task 1 0 5) = some (s', 0) ∧
      s.Atomic 0x1FF000 0x4000 (.task 1 0 5) s' 0 := by
  have hReach : Reachable 0x1FF000 0x4000 (Meets 0x1FF000 0x4000)
      ⟨roomyStart, [], fun _ => ⟨0, 0, 0, []⟩⟩ := Transition.Reachable.of_init roomyStart_initial
  obtain ⟨a, hOwning⟩ := roomyStart_initial.owning
  obtain ⟨r', hCreate, _⟩ :=
    create_newTask hOwning (roomyStart_initial.exiting _) exampleStart_newSlot roomyStart_room 0
  have hExec : create 0x1FF000 0x4000 ⟨roomyStart, [], fun _ => ⟨0, 0, 0, []⟩⟩ (.task 1 0 5) =
      some (⟨r', [], fun _ => ⟨0, 0, 0, []⟩⟩, 0) := by
    rw [create, hCreate, Option.map_some]
  exact ⟨_, _, hReach, hExec, creation_atomic hReach (roomyStart_initial.exiting _)
    (fun _ => roomyStart_room) hExec⟩

/-- All frames are in use. -/
def fullStart : TaskRun where
  pages := { exampleStart with frames :=
    { bitmap := fun _ => 0xff, allocStart := 2 ^ 32 - 1, allocated := bitmapBits, available := 0 } }
  blocks := []
  loadArgs _ := ⟨0, 0, 0, []⟩

theorem fullStart_initial : Initial 0x200000 fullStart := by
  obtain ⟨hBooted, _, _, hHeld, hVmas, hExiting⟩ := exampleStart_initial
  have hAll : ∀ i < 0x1000, fullStart.pages.frames.Marked i := by
    intro i _
    have hBits : ∀ i < 8, (0xff : BitVec 8).getLsbD i = true := by decide
    exact hBits _ (Nat.mod_lt _ (by decide))
  have hCr3 : fullStart.pages.cr3 = 0x110 := by decide
  refine ⟨hBooted, ⟨0x111, 0x10000, ?_⟩, ⟨Nat.zero_le _, 0, ?_⟩, hHeld, hVmas, hExiting⟩
  · rw [hCr3]
    exact ⟨by simp [fullStart, exampleStart], by simp [fullStart, exampleStart], by decide,
      by decide, ⟨by decide, hAll _ (by decide)⟩, by decide, hAll _ (by decide)⟩
  · exact Frames.mem_usedFrames.mpr ⟨by decide, hAll 0 (by decide)⟩

/-- `create_task` without a frame for the page directory leaves its table entry ready. -/
theorem creation_torn : ¬ ∀ kernelEnd offset s call s' ret,
    Reachable kernelEnd offset (fun _ _ => True) s → s.Calls kernelEnd call →
      s.create kernelEnd offset call = some (s', ret) → s.Atomic kernelEnd offset call s' ret := by
  intro h
  have hRun : (fullStart.create 0x200000 0x4000 (.task 1 0 5)).map
      (fun x => (x.1.pages.kernel.task.status 1, x.2)) = some (.ready, -12) := by decide
  obtain ⟨⟨s', ret⟩, hExec, hPair⟩ := Option.map_eq_some_iff.mp hRun
  obtain ⟨hReady, rfl⟩ := Prod.mk.inj hPair
  have hAtomic := h 0x200000 0x4000 fullStart (.task 1 0 5) s' _
    (Transition.Reachable.of_init fullStart_initial) (fullStart_initial.exiting _) hExec
  have hSame : s'.pages.kernel.task.status 1 = fullStart.pages.kernel.task.status 1 :=
    (hAtomic.1 (by decide)).table.status 1
  have hInvalid : fullStart.pages.kernel.task.status 1 = .invalid := by decide
  rw [hReady, hInvalid] at hSame
  cases hSame

end TaskRun
end ArtOS

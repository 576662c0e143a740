import ArtOS.Memory.Ownership
import ArtOS.Tasks.UserFrames

/-! The owners of page frames over whole runs, with tasks that exit. As long as the copies of page
maps get all their frames, no two tasks share a frame. `page_map_drop` gives back every frame of a
task but the root of its page map: that one has no owner left and is never free again. -/
namespace ArtOS.PageRun

open Frames Paging Kernel

/-- A task with a page map of its own: in use, and not past its `page_map_drop`. -/
def Usable (r : PageRun) (t : TaskPtr) : Prop :=
  r.kernel.task.status t ≠ .invalid ∧ r.exiting t = false

def usable (r : PageRun) : Set Nat := {p | ∃ t, r.Usable t ∧ p = root r.kernel t}

/-- Tasks exit as they like; copies get all their frames, only pages below the self-references are
mapped and unmapped, and user space gets blocks from `get_pages` that are not mapped yet. -/
def Orderly (kernelEnd : Nat) (r : PageRun) (call : PageCall) : Prop :=
  call = .drop ∨ r.Keeps kernelEnd call

/-- The page maps of the tasks are in order and share no frame. The root of the idle task stands for
the frames that are never free; `leaked` lists frames that belong to nobody. -/
structure Owning (leaked : List (Nat × Nat)) (r : PageRun) (a : RunQueue) : Prop where
  sound : r.kernel.Sound a
  owners : r.paging.Owners UserOwned {root r.kernel 0} (r.held ++ leaked) r.usable
  apart : ∀ t u, r.Usable t → r.Usable u → root r.kernel t = root r.kernel u → t = u
  nonzero : ∀ t, r.Usable t → t ≠ 0 → root r.kernel t ≠ 0
  idle : r.exiting 0 = false

variable {r r' : PageRun} {a a' : RunQueue} {kernelEnd : Nat} {s : Paging}
  {held leaked : List (Nat × Nat)} {k : Kernel} {t u : TaskPtr}

theorem userOwned_own : OwnRule UserOwned where
  toCopyRule := userOwned_rule
  owned _ _ hLeaf hUser := hLeaf hUser
  keep _ _ _ _ hOwned := hOwned

theorem mem_usable (h : r.Usable t) : root r.kernel t ∈ r.usable := ⟨t, h, rfl⟩

theorem Owning.usable_idle (h : r.Owning leaked a) : r.Usable 0 := by
  refine ⟨?_, h.idle⟩
  have hIdle : r.kernel.task.status 0 = .idle := by
    rw [h.sound.represents.status]
    exact (h.sound.inv.idle 0).mpr rfl
  simp [hIdle]

theorem Owning.usable_current (h : r.Owning leaked a)
    (hExiting : r.exiting r.kernel.currentTask = false) : r.Usable r.kernel.currentTask := by
  refine ⟨?_, hExiting⟩
  rw [h.sound.represents.status, h.sound.represents.current]
  exact h.sound.inv.current

/-- The tasks keep their page maps, and no task comes into use. -/
theorem Owning.keep (h : r.Owning leaked a) (hSound : r'.kernel.Sound a')
    (hRoot : ∀ t, root r'.kernel t = root r.kernel t) (hUsable : ∀ t, r'.Usable t → r.Usable t)
    (hIdle : r'.exiting 0 = false)
    (hOwners : r'.paging.Owners UserOwned {root r.kernel 0} (r'.held ++ leaked) r.usable) :
    r'.Owning leaked a' := by
  have hSub : r'.usable ⊆ r.usable := by
    rintro p ⟨t, ht, rfl⟩
    exact ⟨t, hUsable t ht, hRoot t⟩
  refine ⟨hSound, ?_, fun t u ht hu hSame => ?_, fun t ht hne => ?_, hIdle⟩
  · rw [hRoot]
    exact ⟨maps_mono hOwners.maps hSub, hOwners.exclusive.mono hSub fun _ _ _ _ hUses => hUses⟩
  · rw [hRoot, hRoot] at hSame
    exact h.apart t u (hUsable t ht) (hUsable u hu) hSame
  · rw [hRoot]
    exact h.nonzero t (hUsable t ht) hne

/-- Only frames that no one owns have changed. -/
theorem Owning.same (h : r.Owning leaked a) (hFrames : s.frames = r.frames) (hMem : s.mem = r.mem) :
    s.Owners UserOwned {root r.kernel 0} (r.held ++ leaked) r.usable := by
  have hPool := h.owners.maps.pool
  refine h.owners.keep userOwned_own.toLeafRule ?_ (fun f hf => ?_) fun f _ => congrFun hMem f
  · rw [hFrames]
    exact hPool
  · rw [hFrames]
    exact hf

/-- A call that works on the page map of the current task. -/
theorem Owning.setPaging (h : r.Owning leaked a)
    (hOwners : s.Owners UserOwned {root r.kernel 0} (held ++ leaked) r.usable) :
    Owning leaked { r.setPaging s with held := held } a := by
  have hSound : (r.kernel.setTask r.kernel.currentTask fun x =>
      { x with userUsage := s.usage }).Sound a :=
    h.sound.setTask (fun _ => rfl) (fun _ => rfl) (fun _ => rfl) (fun _ => rfl) (fun _ => rfl)
  refine h.keep hSound (fun t => (setPaging_task t).2) (fun t ht => ⟨?_, ht.2⟩) h.idle
    (hOwners.keep userOwned_own.toLeafRule hOwners.maps.pool (fun _ hf => hf) fun _ _ => rfl)
  rw [← (setPaging_task (s := s) t).1]
  exact ht.1

/-- A call of the scheduler. -/
theorem Owning.call (h : r.Owning leaked a) (call : Call)
    (hAllowed : call.Allowed (fun k => k.currentStatus = .running) r.kernel)
    (hCreate : ∀ ep arg prio pages, call ≠ .create ep arg prio pages)
    (hExec : call.exec r.kernel = some k) : ∃ a', Owning leaked { r with kernel := k } a' := by
  obtain ⟨k₂, a', hExec', _, hSound, _⟩ :=
    exec_refines call h.sound (Allowed.mono call hAllowed not_ready_of_running)
  obtain rfl := Option.some.inj (hExec.symm.trans hExec')
  refine ⟨a', h.keep hSound (fun t => congrArg (· >>> pageBits)
    (pageMap_unscheduled.exec (fun _ _ _ => rfl) hCreate hExec)) (fun t ht => ⟨?_, ht.2⟩) h.idle
    (h.same rfl rfl)⟩
  refine (exec_live h.sound hAllowed hExec ht.1).elim id fun hNew => ?_
  obtain ⟨⟨ep, arg, prio, pages, he⟩, _⟩ := hNew
  exact absurd he (hCreate ep arg prio pages)

/-- The steps of a `create_task` that succeeds: `addr` is the root of the new page map, and `frames`
the allocator after it was taken. -/
structure Made (kernelEnd ep arg prio : Nat) (r r' : PageRun) (frames : Frames) (addr : Nat)
    (s : Paging) : Prop where
  dest : r.frames.getPages kernelEnd 1 = some (frames, addr)
  nonzero : addr ≠ 0
  free : ¬ r.frames.Marked (addr >>> pageBits)
  copy : Paging.pageMapCopy kernelEnd r.cr3 (addr >>> pageBits) ⟨r.mem, frames, 0⟩ = some (s, 0)
  kernel : r.kernel.createTask ep arg prio ⟨addr, s.usage⟩ = some (r'.kernel, 0)
  rest : r' = { r with kernel := r'.kernel, mem := s.mem, frames := s.frames }

theorem createTask_ret {ep arg prio addr copied : Nat} {ret : Int}
    (hSlot : k.newSlot ep prio = some t) (hZero : t ≠ 0) (hAddr : addr ≠ 0) {k' : Kernel}
    (h : k.createTask ep arg prio ⟨addr, copied⟩ = some (k', ret)) : ret = 0 := by
  obtain ⟨hEp, hLow, hHigh, hFree⟩ := newSlot_eq_some hSlot
  rw [Kernel.createTask, if_neg hEp, if_neg (Nat.one_le_iff_ne_zero.mp hLow),
    if_neg (Nat.not_lt.mpr hHigh), hFree] at h
  dsimp only at h
  rw [if_neg hAddr] at h
  obtain ⟨k₁, _, hPair⟩ := Option.map_eq_some_iff.mp h
  exact (congrArg Prod.snd hPair).symm.trans
    (createDefaultFrame_spec { (k.setTask t (newTask t prio addr)).task t with userUsage := copied }
      ep arg (newTask_stack k hZero prio addr)).2.2.2

/-- `create_task` with enough frames. -/
theorem Owning.create {ep prio : Nat} (h : r.Owning leaked a)
    (hExiting : r.exiting r.kernel.currentTask = false) (hSlot : r.kernel.newSlot ep prio = some t)
    (arg : Nat) {n : Nat} (hSupply : r.frames.Supply kernelEnd (r.paging.copyCount r.cr3 + n)) :
    ∃ r' frames addr s a', r.createTask kernelEnd ep arg prio = some r' ∧
      Made kernelEnd ep arg prio r r' frames addr s ∧ r'.Owning leaked a' ∧
      s.frames.Supply kernelEnd n := by
  obtain ⟨_, hLow, hHigh, hFree⟩ := newSlot_eq_some hSlot
  have hp := mem_usable (h.usable_current hExiting)
  rw [copyCount, Nat.add_assoc] at hSupply
  obtain ⟨frames, addr, hCall, hAddr, hRest, hPool, hTaking, hNonzero, hNew, hOwned⟩ :=
    h.owners.maps.pool.supply hSupply
  obtain ⟨s, hCopy, hCopied, hPool', hOwned', hLeft, hSlots, _⟩ := h.owners.maps.pageMapCopy hp
    (s := ⟨r.mem, frames, 0⟩) hNew rfl hPool hTaking hOwned hRest
  obtain ⟨k, a', hExec, _, hSound, _⟩ :=
    exec_refines (.create ep arg prio ⟨addr, s.usage⟩) h.sound ⟨hLow, hHigh, hAddr⟩
  have hCreate : (r.kernel.createTask ep arg prio ⟨addr, s.usage⟩).map Prod.fst = some k := hExec
  obtain ⟨hRoot, hRoots⟩ := createTask_roots hSlot hAddr hCreate
  obtain ⟨⟨k₁, ret⟩, hCreated, rfl⟩ := Option.map_eq_some_iff.mp hCreate
  have hZero : t ≠ 0 := by
    rintro rfl
    exact h.usable_idle.1 (by simpa using List.find?_some hFree)
  obtain rfl := createTask_ret hSlot hZero hAddr hCreated
  have hStatus : ∀ u, u ≠ t → k₁.task.status u ≠ .invalid → r.kernel.task.status u ≠ .invalid := by
    intro u hu hLive
    refine (createTask_status hCreate hLive).elim id fun hFound => absurd ?_ hu
    exact Option.some.inj (hFound.symm.trans hFree)
  have hOld : ∀ u, u ≠ t → Usable { r with kernel := k₁, mem := s.mem, frames := s.frames } u →
      r.Usable u := fun u hu hLive => ⟨hStatus u hu hLive.1, hLive.2⟩
  have hSub : usable { r with kernel := k₁, mem := s.mem, frames := s.frames } ⊆
      insert (addr >>> pageBits) r.usable := by
    rintro p ⟨u, hLive, rfl⟩
    by_cases hu : u = t
    · rw [hu, hRoot]
      exact Set.mem_insert _ _
    · rw [hRoots u hu]
      exact Set.mem_insert_of_mem _ (mem_usable (hOld u hu hLive))
  have hOwners := h.owners.copied userOwned_own hp hNew hCopied hPool' hOwned' hTaking hOwned.marked
    hSlots
  have hApart : ∀ u, u ≠ t → Usable { r with kernel := k₁, mem := s.mem, frames := s.frames } u →
      root r.kernel u ≠ addr >>> pageBits := by
    intro u hu hLive he
    refine hNew ?_
    rw [← he]
    exact (h.owners.maps.root _ (mem_usable (hOld u hu hLive))).owned.marked
  refine ⟨{ r with kernel := k₁, mem := s.mem, frames := s.frames }, frames, addr, s, a',
    createTask_eq hSlot hCall hAddr hCopy hCreated, ⟨hCall, hAddr, hNew, hCopy, hCreated, rfl⟩,
    ⟨hSound, ?_, fun u v hu hv hSame => ?_, fun u hu hne => ?_, h.idle⟩, hLeft⟩
  · show Owners UserOwned {root k₁ 0} (r.held ++ leaked) _ _
    rw [hRoots 0 hZero.symm]
    exact Owners.keep userOwned_own.toLeafRule
      ⟨maps_mono hOwners.maps hSub, hOwners.exclusive.mono hSub fun _ _ _ _ hUses => hUses⟩
      hOwners.maps.pool (fun _ hf => hf) fun _ _ => rfl
  · by_cases hut : u = t
    · by_cases hvt : v = t
      · rw [hut, hvt]
      · rw [hut, hRoot, hRoots v hvt] at hSame
        exact absurd hSame.symm (hApart v hvt hv)
    · by_cases hvt : v = t
      · rw [hvt, hRoot, hRoots u hut] at hSame
        exact absurd hSame (hApart u hut hu)
      · rw [hRoots u hut, hRoots v hvt] at hSame
        exact h.apart u v (hOld u hut hu) (hOld v hvt hv) hSame
  · show root k₁ u ≠ 0
    by_cases hut : u = t
    · rwa [hut, hRoot]
    · rw [hRoots u hut]
      exact h.nonzero u (hOld u hut hu) hne

/-- `page_map_drop`: the other tasks keep their frames, and only the root of the map stays marked. -/
theorem Owning.drop (h : r.Owning leaked a) (hAllowed : r.Allowed .drop)
    (hExec : r.exec kernelEnd .drop = some r') :
    r'.Owning ((r.cr3 <<< pageBits, 1) :: leaked) a ∧
      (r'.kernel.task r.kernel.currentTask).pageMap = (r.kernel.task r.kernel.currentTask).pageMap ∧
      Dropping {root r.kernel 0} (r.held ++ leaked) r.paging r'.paging r.cr3 fun x => x ≠ .root := by
  obtain ⟨hExiting, hBusy, hRunning⟩ := hAllowed
  have hCurrent := h.usable_current hExiting
  have hp := mem_usable hCurrent
  have hIdle : r.kernel.currentTask ≠ 0 := by rwa [h.sound.represents.idle] at hBusy
  have hUsed : ∀ x f, Uses r.paging.mem r.cr3 x f → f ∉ ({root r.kernel 0} : Finset Nat) := by
    intro x f hUses hf
    rw [Finset.mem_singleton.mp hf] at hUses
    exact hIdle (h.apart _ _ hCurrent h.usable_idle
      (h.owners.exclusive _ hp _ (mem_usable h.usable_idle) x .root _ hUses rfl).1)
  obtain ⟨s, hDrop, hDropping⟩ :=
    h.owners.pageMapDrop userOwned_own hp fun x f _ hUses => hUsed x f hUses
  have hDrop' : r.paging.pageMapDrop r.cr3 = some (s, 0) := hDrop
  rw [exec, hDrop', Option.map_some] at hExec
  obtain rfl := Option.some.inj hExec
  have hPaging : (PageRun.paging { r.setPaging s with
      exiting := Function.update r.exiting r.kernel.currentTask true }) = s := by
    simp [PageRun.paging, PageRun.setPaging]
  have hSound : (r.kernel.setTask r.kernel.currentTask fun x =>
      { x with userUsage := s.usage }).Sound a :=
    h.sound.setTask (fun _ => rfl) (fun _ => rfl) (fun _ => rfl) (fun _ => rfl) (fun _ => rfl)
  have hRoots : ∀ t, root (r.setPaging s).kernel t = root r.kernel t := fun t => (setPaging_task t).2
  have hOld : ∀ t, Usable { r.setPaging s with
      exiting := Function.update r.exiting r.kernel.currentTask true } t →
      r.Usable t ∧ t ≠ r.kernel.currentTask := by
    intro t ht
    have hne : t ≠ r.kernel.currentTask := by
      rintro rfl
      have hExit : Function.update r.exiting r.kernel.currentTask true r.kernel.currentTask = false :=
        ht.2
      rw [Function.update_self] at hExit
      cases hExit
    refine ⟨⟨?_, ?_⟩, hne⟩
    · rw [← (setPaging_task (s := s) t).1]
      exact ht.1
    · have hExit : Function.update r.exiting r.kernel.currentTask true t = false := ht.2
      rwa [Function.update_of_ne hne] at hExit
  have hNot : r.cr3 ∉ usable { r.setPaging s with
      exiting := Function.update r.exiting r.kernel.currentTask true } := by
    rintro ⟨t, ht, hSame⟩
    obtain ⟨hUsable, hne⟩ := hOld t ht
    exact hne (h.apart t _ hUsable hCurrent (hSame.trans (hRoots t)).symm)
  have hSub : usable { r.setPaging s with
      exiting := Function.update r.exiting r.kernel.currentTask true } ⊆ r.usable := by
    rintro p ⟨t, ht, rfl⟩
    exact ⟨t, (hOld t ht).1, hRoots t⟩
  refine ⟨⟨hSound, ?_, fun t u ht hu hSame => ?_, fun t ht hne => ?_, ?_⟩, ?_, by rw [hPaging]; exact hDropping⟩
  · rw [hPaging]
    show Owners UserOwned {root (r.setPaging s).kernel 0} (r.held ++ (r.cr3 <<< pageBits, 1) :: leaked) s _
    rw [hRoots]
    have hDropped := h.owners.dropped userOwned_own hp hDropping hSub hNot
    obtain ⟨hLt, hMarked, hApart⟩ := (h.owners.maps.root _ hp).owned
    have hLeft : Holding.Owned ⟨s.frames, r.held ++ leaked⟩ r.cr3 := by
      refine ⟨hLt, (hDropping.marked _).mpr ⟨hMarked, fun _ x hx hUses => hx ?_⟩, hApart⟩
      exact (h.owners.exclusive _ hp _ hp x .root _ hUses rfl).2
    refine (hDropped.lend userOwned_own hLeft (h.nonzero _ hCurrent hIdle) (hUsed .root _ rfl)
      fun q hq x hUses => hNot ?_).perm userOwned_own.toLeafRule List.perm_middle.symm
    rw [hDropping.mem] at hUses
    have hSame : r.cr3 = q := (h.owners.exclusive _ hp q (hSub hq) .root x _ rfl hUses).1
    rw [hSame]
    exact hq
  · have hSame' : root r.kernel t = root r.kernel u := ((hRoots t).symm.trans hSame).trans (hRoots u)
    exact h.apart t u (hOld t ht).1 (hOld u hu).1 hSame'
  · show root (r.setPaging s).kernel t ≠ 0
    rw [hRoots]
    exact h.nonzero t (hOld t ht).1 hne
  · show Function.update r.exiting r.kernel.currentTask true 0 = false
    rw [Function.update_of_ne hIdle.symm]
    exact h.idle
  · simp [PageRun.setPaging]

/-- The rest of `do_exit`: the task is gone. -/
theorem Owning.exit (h : r.Owning leaked a) (hAllowed : r.Allowed .exit)
    (hExec : r.exec kernelEnd .exit = some r') :
    (∃ a', r'.Owning leaked a') ∧ r'.kernel.task.status r.kernel.currentTask = .invalid := by
  obtain ⟨hExiting, hCall⟩ := hAllowed
  obtain ⟨k, hExit, rfl⟩ := Option.map_eq_some_iff.mp hExec
  obtain ⟨k₂, a', hExec', hEffect, hSound, _⟩ :=
    exec_refines .exit h.sound (Allowed.mono .exit hCall not_ready_of_running)
  obtain rfl := Option.some.inj (hExit.symm.trans hExec')
  have hEffect' : a' = a.exit.reschedule := hEffect
  have hGone : k.task.status r.kernel.currentTask = .invalid := by
    have hFinished : a.exit.status a.exit.current = .finished := Function.update_self ..
    have hRunning : a.status a.current = .running := by
      rw [← h.sound.represents.status, ← h.sound.represents.current]
      exact hCall.2
    have hInv : a.exit.Inv := by
      refine h.sound.inv.exit (by simp [hRunning]) ?_
      rw [← h.sound.represents.current, ← h.sound.represents.idle]
      exact hCall.1
    rw [hSound.represents.status, hEffect', h.sound.represents.current]
    exact hInv.reschedule_finished hFinished
  refine ⟨⟨a', h.keep hSound (fun t => congrArg (· >>> pageBits)
    (pageMap_unscheduled.exec (fun _ _ _ => rfl) (fun _ _ _ _ he => by cases he) hExec'))
    (fun t ht => ?_) ?_ (h.same rfl rfl)⟩, hGone⟩
  · have hne : t ≠ r.kernel.currentTask := by
      rintro rfl
      exact ht.1 hGone
    have hExit : Function.update r.exiting r.kernel.currentTask false t = false := ht.2
    rw [Function.update_of_ne hne] at hExit
    refine ⟨(exec_live h.sound hCall hExec' ht.1).elim id fun hNew => ?_, hExit⟩
    obtain ⟨⟨ep, arg, prio, pages, he⟩, _⟩ := hNew
    cases he
  · show Function.update r.exiting r.kernel.currentTask false 0 = false
    by_cases hZero : (0 : TaskPtr) = r.kernel.currentTask
    · rw [← hZero, Function.update_self]
    · rw [Function.update_of_ne hZero]
      exact h.idle

theorem Owning.map (h : r.Owning leaked a) {viraddr phyaddr npages : Nat} {bits : BitVec 12}
    (hAllowed : r.Allowed (.map viraddr phyaddr npages bits))
    (hKeeps : r.Keeps kernelEnd (.map viraddr phyaddr npages bits))
    (hExec : r.exec kernelEnd (.map viraddr phyaddr npages bits) = some r') :
    r'.Owning leaked a := by
  obtain ⟨hRange, hBlock⟩ := hKeeps
  have hPool := h.owners.maps.pool
  have hMine : bits &&& pgUser ≠ 0 → (phyaddr, npages) ∈ r.held ++ leaked := fun hUser =>
    List.mem_append_left _ (hBlock hUser)
  have hSub : (if bits &&& pgUser ≠ 0 then (r.held ++ leaked).erase (phyaddr, npages)
      else r.held ++ leaked).Sublist (r.held ++ leaked) := by
    split
    · exact List.erase_sublist
    · exact List.Sublist.refl _
  obtain ⟨s, ret, hMap, hCases⟩ := h.owners.pageMap userOwned_own
    (mem_usable (h.usable_current hAllowed.1)) kernelEnd hAllowed.2 hRange hSub
    (userOwned_block hPool hMine) fun hUser k hk => by
      have hFrame : phyaddr >>> pageBits + k ∈ framesOf (phyaddr, npages) :=
        Finset.mem_Ico.mpr ⟨Nat.le_add_right _ _, Nat.add_lt_add_left hk _⟩
      exact ⟨(hPool.marked (hMine hUser) hFrame).2,
        h.owners.maps.unused_held userOwned_own (hMine hUser) hFrame⟩
  have hMap' : r.paging.pageMap kernelEnd r.cr3 viraddr phyaddr npages bits = some (s, ret) := hMap
  rw [exec, pageMap, hMap', Option.map_some] at hExec
  obtain rfl := Option.some.inj hExec
  refine h.setPaging ?_
  rcases hCases with ⟨hRet, hOwners⟩ | ⟨hRet, hOwners⟩
  · by_cases hUser : bits &&& pgUser ≠ 0
    · rw [if_pos hUser, List.erase_append_left _ (hBlock hUser)] at hOwners
      rwa [if_pos ⟨hUser, hRet⟩]
    · rw [if_neg hUser] at hOwners
      rwa [if_neg fun hBoth => hUser hBoth.1]
  · rwa [if_neg fun hBoth => hRet hBoth.2]

theorem Owning.get (h : r.Owning leaked a) {npages : Nat}
    (hExec : r.getPages kernelEnd npages = some r') : r'.Owning leaked a := by
  obtain ⟨frames, addr, hCall, hPool, _, hGrows, _⟩ := h.owners.maps.pool.getPages kernelEnd npages
  have hCall' : r.frames.getPages kernelEnd npages = some (frames, addr) := hCall
  rw [getPages, hCall', Option.map_some] at hExec
  obtain rfl := Option.some.inj hExec
  refine h.keep h.sound (fun _ => rfl) (fun _ ht => ht) h.idle ?_
  have hKept : Owners UserOwned _ _ { r.paging with frames := frames } _ :=
    h.owners.keep userOwned_own.toLeafRule hPool hGrows fun _ _ => rfl
  show Owners UserOwned _ ((if addr = 0 then r.held else (addr, npages) :: r.held) ++ leaked) _ _
  by_cases hAddr : addr = 0
  · rw [if_pos hAddr] at hKept ⊢
    exact hKept
  · rw [if_neg hAddr] at hKept ⊢
    exact hKept

theorem Owning.split (h : r.Owning leaked a) {block : Nat × Nat} {npages : Nat}
    (hAllowed : r.Allowed (.split block npages))
    (hExec : r.exec kernelEnd (.split block npages) = some r') : r'.Owning leaked a := by
  obtain ⟨hBlock, hPos, hLt⟩ := hAllowed
  obtain ⟨hPool, hGrows⟩ := h.owners.maps.pool.split (List.mem_append_left _ hBlock) hPos hLt
  rw [List.erase_append_left _ hBlock] at hPool hGrows
  obtain rfl := Option.some.inj hExec
  exact h.keep h.sound (fun _ => rfl) (fun _ ht => ht) h.idle
    (h.owners.keep userOwned_own.toLeafRule hPool hGrows fun _ _ => rfl)

/-- Only blocks in hand are given back, and no leaked frame is one. -/
theorem Owning.put (h : r.Owning leaked a) {block : Nat × Nat} (hBlock : block ∈ r.held)
    (hExec : r.exec kernelEnd (.put block) = some r') : r'.Owning leaked a := by
  obtain ⟨frames, ret, hCall, hPool, hGrows⟩ :=
    h.owners.maps.pool.putPages (List.mem_append_left _ hBlock)
  rw [List.erase_append_left _ hBlock] at hPool hGrows
  have hCall' : r.frames.putPages block.1 block.2 = some (frames, ret) := hCall
  rw [exec, hCall', Option.map_some] at hExec
  obtain rfl := Option.some.inj hExec
  exact h.keep h.sound (fun _ => rfl) (fun _ ht => ht) h.idle
    (h.owners.keep userOwned_own.toLeafRule hPool hGrows fun _ _ => rfl)

/-- One call: no leaked frame comes back. -/
theorem Owning.step {call : PageCall} (h : r.Owning leaked a) (hAllowed : r.Allowed call)
    (hOrderly : r.Orderly kernelEnd call) (hExec : r.exec kernelEnd call = some r') :
    ∃ leaked' a', r'.Owning leaked' a' ∧ leaked ⊆ leaked' := by
  have hSelf : leaked ⊆ leaked := List.Subset.refl _
  have hMay : call ≠ .drop → r.Keeps kernelEnd call := fun hne => hOrderly.resolve_left hne
  cases call with
  | create ep arg prio =>
      by_cases hSlot : r.kernel.newSlot ep prio = none
      · obtain rfl := createTask_same hSlot hExec
        exact ⟨leaked, a, h, hSelf⟩
      · have hSupply := hMay (fun he => by cases he) hSlot
        obtain ⟨t, hSlot⟩ := Option.ne_none_iff_exists'.mp hSlot
        rw [← Nat.add_zero (r.paging.copyCount r.cr3)] at hSupply
        obtain ⟨r₁, _, _, _, a', hExec', _, hOwning, _⟩ := h.create hAllowed hSlot arg hSupply
        obtain rfl := Option.some.inj (hExec.symm.trans hExec')
        exact ⟨leaked, a', hOwning, hSelf⟩
  | schedule =>
      obtain ⟨k, hCall, rfl⟩ := Option.map_eq_some_iff.mp hExec
      obtain ⟨a', hOwning⟩ := h.call .schedule trivial (fun _ _ _ _ he => by cases he) hCall
      exact ⟨leaked, a', hOwning, hSelf⟩
  | block =>
      obtain ⟨k, hCall, rfl⟩ := Option.map_eq_some_iff.mp hExec
      obtain ⟨a', hOwning⟩ := h.call .block trivial (fun _ _ _ _ he => by cases he) hCall
      exact ⟨leaked, a', hOwning, hSelf⟩
  | wakeup id =>
      obtain ⟨k, hCall, rfl⟩ := Option.map_eq_some_iff.mp hExec
      obtain ⟨a', hOwning⟩ := h.call (.wakeup id) trivial (fun _ _ _ _ he => by cases he) hCall
      exact ⟨leaked, a', hOwning, hSelf⟩
  | drop => exact ⟨_, a, (h.drop hAllowed hExec).1, List.subset_cons_self _ _⟩
  | exit =>
      obtain ⟨a', hOwning⟩ := (h.exit hAllowed hExec).1
      exact ⟨leaked, a', hOwning, hSelf⟩
  | map viraddr phyaddr npages bits =>
      exact ⟨leaked, a, h.map hAllowed (hMay fun he => by cases he) hExec, hSelf⟩
  | unmap viraddr npages =>
      obtain ⟨⟨s, ret⟩, hUnmap, rfl⟩ := Option.map_eq_some_iff.mp hExec
      obtain ⟨s₁, hPages, hPair⟩ := Option.map_eq_some_iff.mp hUnmap
      obtain ⟨rfl, rfl⟩ := Prod.mk.inj hPair
      exact ⟨leaked, a, h.setPaging (h.owners.unmapPages userOwned_own
        (mem_usable (h.usable_current hAllowed)) npages _ (hMay fun he => by cases he) hPages), hSelf⟩
  | fault viraddr heap =>
      obtain ⟨s, back, hFault, hOwners⟩ := h.owners.pageFault userOwned_own
        (mem_usable (h.usable_current hAllowed)) kernelEnd heap (hMay fun he => by cases he)
        fun _ _ hOwned _ => hOwned
      have hFault' : r.paging.pageFaultHandler kernelEnd r.cr3 viraddr heap = some (s, back) := hFault
      rw [exec, hFault', Option.map_some] at hExec
      obtain rfl := Option.some.inj hExec
      exact ⟨leaked, a, h.setPaging hOwners, hSelf⟩
  | get npages => exact ⟨leaked, a, h.get hExec, hSelf⟩
  | split block npages => exact ⟨leaked, a, h.split hAllowed hExec, hSelf⟩
  | put block => exact ⟨leaked, a, h.put hAllowed.2 hExec, hSelf⟩
  | vma call answer fuel =>
      obtain ⟨vmas, _, rfl⟩ := Option.map_eq_some_iff.mp hExec
      exact ⟨leaked, a, h.keep h.sound (fun _ => rfl) (fun _ ht => ht) h.idle (h.same rfl rfl), hSelf⟩

/-- A run of such calls. -/
theorem Owning.run (h : r.Owning leaked a)
    (hRun : Relation.ReflTransGen (Step kernelEnd (Orderly kernelEnd)) r r') :
    ∃ leaked' a', r'.Owning leaked' a' ∧ leaked ⊆ leaked' := by
  induction hRun with
  | refl => exact ⟨leaked, a, h, List.Subset.refl _⟩
  | tail _ last ih =>
      obtain ⟨leaked₁, a₁, h₁, hSub⟩ := ih
      obtain ⟨call, hAllowed, hOrderly, hExec⟩ := last
      obtain ⟨leaked', a', h', hSub'⟩ := h₁.step hAllowed hOrderly hExec
      exact ⟨leaked', a', h', List.Subset.trans hSub hSub'⟩

/-- The boot page map uses a frame for its root and one for its first table. -/
theorem Initial.owning (h : Initial kernelEnd r) : ∃ a, r.Owning [] a := by
  obtain ⟨a, hInv⟩ : ∃ a, r.Inv UserOwned r.frames.usedFrames a :=
    h.inv fun _ _ hUser _ hBoth => absurd hBoth.2 hUser
  obtain ⟨hSound, hRoots⟩ := h.idle
  obtain ⟨pgt, mbInfo, hPgd, hPgt, _, hApart, _, hLt, hMarked⟩ := h.tables
  have hLive : ∀ t, r.Usable t → t = 0 := by
    intro t ht
    have hStatus := ht.1
    rw [hSound.represents.status] at hStatus
    by_contra hne
    exact hStatus (if_neg hne)
  have hCurrent : root r.kernel 0 = r.cr3 := by
    rw [cr3, hSound.represents.current]
    rfl
  have hSub : r.usable ⊆ rootsOf r.kernel := by
    rintro p ⟨t, ht, rfl⟩
    exact ⟨t, ht.1, rfl⟩
  have hMaps := maps_mono hInv.maps hSub
  have hPool : Holding.Sound {root r.kernel 0} ⟨r.paging.frames, r.held⟩ := by
    refine hMaps.pool.shrink ?_ (Finset.singleton_nonempty _)
    rw [Finset.singleton_subset_iff, hCurrent]
    exact mem_usedFrames.mpr ⟨hLt, hMarked⟩
  have hUses : ∀ x f, Uses r.paging.mem r.cr3 x f → x = .root ∧ f = r.cr3 ∨ x = .table 0 ∧ f = pgt := by
    intro x f hUses
    have hFirst : ∀ i, (r.paging.mem r.cr3 i).Has pgPresent → i < pageMapEntries - 2 →
        i = 0 ∧ (r.paging.mem r.cr3 i).frame = pgt := by
      intro i hPresent hi
      rw [show r.paging.mem r.cr3 i = bootPgd r.cr3 pgt i from congrFun hPgd i] at hPresent ⊢
      rw [bootPgd] at hPresent ⊢
      by_cases hZero : i = 0
      · exact ⟨hZero, by rw [if_pos hZero]⟩
      · rw [if_neg hZero, if_neg (by omega)] at hPresent
        exact absurd hPresent PageEntry.not_has_zero
    cases x with
    | root => exact Or.inl ⟨rfl, hUses⟩
    | table i =>
        obtain ⟨⟨hi, hPresent⟩, rfl⟩ := hUses
        obtain ⟨rfl, hFrame⟩ := hFirst i hPresent hi
        exact Or.inr ⟨rfl, hFrame⟩
    | page i j =>
        obtain ⟨⟨hi, hPresent⟩, _, hUser, _⟩ := hUses
        rw [(hFirst i hPresent hi).2, show r.paging.mem pgt j = bootPgt kernelEnd mbInfo j from
          congrFun hPgt j] at hUser
        exact absurd hUser.2 (bootPgt_flags ..).1
  refine ⟨bootQueue, hSound, ⟨⟨by simpa using hPool, fun p hp => ?_, fun p hp => ?_⟩, ?_⟩,
    fun t u ht hu _ => (hLive t ht).trans (hLive u hu).symm, fun t ht hne => absurd (hLive t ht) hne,
    h.exiting 0⟩
  · simpa using hMaps.root p hp
  · simpa using hMaps.table p hp
  · intro p hp q hq x y f hx hy
    obtain rfl := Set.mem_singleton_iff.mp (hRoots (hSub hp))
    obtain rfl := Set.mem_singleton_iff.mp (hRoots (hSub hq))
    refine ⟨rfl, ?_⟩
    rcases hUses x f hx with ⟨rfl, rfl⟩ | ⟨rfl, rfl⟩
    · rcases hUses y _ hy with ⟨rfl, _⟩ | ⟨_, he⟩
      · rfl
      · exact absurd he.symm hApart
    · rcases hUses y _ hy with ⟨_, he⟩ | ⟨rfl, _⟩
      · exact absurd he hApart
      · rfl

theorem reachable_owning (h : Reachable kernelEnd (Orderly kernelEnd) r) :
    ∃ leaked a, r.Owning leaked a := by
  refine h.invariant (P := fun r => ∃ leaked a, r.Owning leaked a) (fun r hr => ⟨[], hr.owning⟩) ?_
  rintro r r' ⟨leaked, a, hr⟩ ⟨call, hAllowed, hOrderly, hExec⟩
  obtain ⟨leaked', a', hr', _⟩ := hr.step hAllowed hOrderly hExec
  exact ⟨leaked', a', hr'⟩

end ArtOS.PageRun

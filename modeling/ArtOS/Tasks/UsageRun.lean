import ArtOS.Memory.UserUsage
import ArtOS.Tasks.FrameOwners

/-! `user_usage` over whole runs. It counts every table and every page that `page_map_copy` and
`page_map_drop` meet, but of what `page_map` does it counts only the tables that are entered with
`PG_USER`; and the boot page map is never counted. -/
namespace ArtOS.PageRun

open Frames Paging Kernel

/-- The frames of a page map that were never counted: the first table of the boot page map. -/
def bootFrames (t : TaskPtr) : Nat := if t = 0 then 1 else 0

/-- The counter of every live task agrees with its page map. -/
def Counted (r : PageRun) : Prop :=
  ∀ t, r.Usable t →
    userFrames r.mem (root r.kernel t) = (r.kernel.task t).userUsage + bootFrames t

/-- A call that keeps the counters right. -/
def Balanced (kernelEnd : Nat) (r : PageRun) : PageCall → Prop
  | .create ep _ prio => r.kernel.newSlot ep prio ≠ none → r.paging.TmpKernel r.cr3
  | .map viraddr _ npages bits => r.paging.MapBalanced kernelEnd r.cr3 viraddr npages bits
  | .unmap viraddr npages => userPages r.mem r.cr3 (viraddr >>> pageBits) npages = 0
  | .fault viraddr heap => r.paging.FaultBalanced kernelEnd r.cr3 viraddr heap
  | _ => True

variable {r r' : PageRun} {a : RunQueue} {kernelEnd : Nat} {s : Paging}
  {held leaked : List (Nat × Nat)} {k : Kernel} {t u : TaskPtr}

theorem userUsage_unswitched : Unswitched fun x : Task => x.userUsage :=
  ⟨fun _ _ => rfl, fun _ _ _ => rfl, fun _ _ _ => rfl⟩

/-- Only the new task gets another counter. -/
theorem createTask_usage {ep arg prio addr copied : Nat} {k' : Kernel}
    (hSlot : k.newSlot ep prio = some t) (hAddr : addr ≠ 0)
    (h : (k.createTask ep arg prio ⟨addr, copied⟩).map Prod.fst = some k') :
    (k'.task t).userUsage = copied ∧ ∀ u, u ≠ t → (k'.task u).userUsage = (k.task u).userUsage := by
  obtain ⟨hEp, hLow, hHigh, hFree⟩ := newSlot_eq_some hSlot
  rw [Kernel.createTask, if_neg hEp, if_neg (Nat.one_le_iff_ne_zero.mp hLow),
    if_neg (Nat.not_lt.mpr hHigh), hFree] at h
  dsimp only at h
  rw [if_neg hAddr, Option.map_map] at h
  obtain ⟨k₁, hLink, rfl⟩ := Option.map_eq_some_iff.mp h
  have hSame := (userUsage_unswitched.linkLast hLink).task
  refine ⟨(hSame t).trans ?_, fun u hu => (hSame u).trans ?_⟩
  · simp [createDefaultFrame, newTask]
    split <;> rfl
  · simp [hu]

theorem setPaging_usable : Usable { r.setPaging s with held := held } t ↔ r.Usable t := by
  refine and_congr_left' (not_congr ?_)
  show (r.setPaging s).kernel.task.status t = .invalid ↔ _
  rw [(setPaging_task t).1]

theorem setPaging_usage (t : TaskPtr) : ((r.setPaging s).kernel.task t).userUsage =
    if t = r.kernel.currentTask then s.usage else (r.kernel.task t).userUsage := by
  by_cases ht : t = r.kernel.currentTask
  · subst ht
    simp [PageRun.setPaging]
  · simp [PageRun.setPaging, ht]

theorem Counted.current (h : r.Counted) (hCurrent : r.Usable r.kernel.currentTask) :
    r.paging.CountsFrames (bootFrames r.kernel.currentTask) r.cr3 := h _ hCurrent

theorem setPaging_current : userFrames (r.setPaging s).mem
      (root (r.setPaging s).kernel r.kernel.currentTask) =
    ((r.setPaging s).kernel.task r.kernel.currentTask).userUsage + bootFrames r.kernel.currentTask ↔
      s.CountsFrames (bootFrames r.kernel.currentTask) r.cr3 := by
  rw [(setPaging_task _).2, setPaging_usage, if_pos rfl]
  exact Iff.rfl

/-- A call that works on the page map of the current task. -/
theorem Counted.setPaging (h : r.Counted) (hOwning : r.Owning leaked a)
    (hCurrent : r.Usable r.kernel.currentTask)
    (hOthers : ∀ q ∈ r.usable, q ≠ r.cr3 → userFrames s.mem q = userFrames r.mem q) :
    Counted { r.setPaging s with held := held } ↔
      s.CountsFrames (bootFrames r.kernel.currentTask) r.cr3 := by
  constructor
  · intro hAll
    exact setPaging_current.mp (hAll r.kernel.currentTask (setPaging_usable.mpr hCurrent))
  · intro hMine t ht
    have hUsable := setPaging_usable.mp ht
    show userFrames s.mem (root (r.setPaging s).kernel t) =
      ((r.setPaging s).kernel.task t).userUsage + bootFrames t
    rw [(setPaging_task t).2, setPaging_usage]
    by_cases hCase : t = r.kernel.currentTask
    · rw [if_pos hCase, hCase]
      exact hMine
    · rw [if_neg hCase, ← h t hUsable]
      exact hOthers _ (mem_usable hUsable) fun he => hCase (hOwning.apart _ _ hUsable hCurrent he)

/-- Calls that change neither page maps nor counters. -/
theorem Counted.keep (h : r.Counted) (hMem : r'.mem = r.mem)
    (hUsage : ∀ t, (r'.kernel.task t).userUsage = (r.kernel.task t).userUsage)
    (hRoot : ∀ t, root r'.kernel t = root r.kernel t) (hUsable : ∀ t, r'.Usable t → r.Usable t) :
    r'.Counted := by
  intro t ht
  rw [hMem, hRoot, hUsage]
  exact h t (hUsable t ht)

theorem Counted.call (h : r.Counted) (hOwning : r.Owning leaked a) (call : Call)
    (hAllowed : call.Allowed (fun k => k.currentStatus = .running) r.kernel)
    (hCreate : ∀ ep arg prio pages, call ≠ .create ep arg prio pages)
    (hExec : call.exec r.kernel = some k) : Counted { r with kernel := k } := by
  refine h.keep rfl (fun t => userUsage_unswitched.exec (fun _ _ _ => rfl) hCreate hExec) (fun t =>
    congrArg (· >>> pageBits) (pageMap_unscheduled.exec (fun _ _ _ => rfl) hCreate hExec))
    fun t ht => ⟨?_, ht.2⟩
  refine (exec_live hOwning.sound hAllowed hExec ht.1).elim id fun hNew => ?_
  obtain ⟨⟨ep, arg, prio, pages, he⟩, _⟩ := hNew
  exact absurd he (hCreate ep arg prio pages)

/-- The rest of `do_exit`. -/
theorem Counted.exit (h : r.Counted) (hOwning : r.Owning leaked a) (hAllowed : r.Allowed .exit)
    (hExec : r.exec kernelEnd .exit = some r') : r'.Counted := by
  have hGone := (hOwning.exit hAllowed hExec).2
  obtain ⟨k, hCall, rfl⟩ := Option.map_eq_some_iff.mp hExec
  have hCounted := h.call hOwning .exit hAllowed.2 (fun _ _ _ _ he => by cases he) hCall
  intro t ht
  have hne : t ≠ r.kernel.currentTask := by
    rintro rfl
    exact ht.1 hGone
  have hExit : Function.update r.exiting r.kernel.currentTask false t = false := ht.2
  rw [Function.update_of_ne hne] at hExit
  exact hCounted t ⟨ht.1, hExit⟩

/-- `page_map_drop`: the counter of the task that exits is zero afterwards. -/
theorem Counted.drop (h : r.Counted) (hOwning : r.Owning leaked a) (hAllowed : r.Allowed .drop)
    (hExec : r.exec kernelEnd .drop = some r') :
    r'.Counted ∧ (r'.kernel.task r.kernel.currentTask).userUsage = 0 := by
  obtain ⟨hExiting, hBusy, _⟩ := hAllowed
  have hCurrent := hOwning.usable_current hExiting
  have hIdle : r.kernel.currentTask ≠ 0 := by rwa [hOwning.sound.represents.idle] at hBusy
  have hRooted := (hOwning.owners.maps.root _ (mem_usable hCurrent)).rooted
  obtain ⟨⟨s, ret⟩, hDrop, rfl⟩ := Option.map_eq_some_iff.mp hExec
  obtain ⟨hMem, hUsage⟩ := Rooted.pageMapDrop_usage hRooted hDrop
  have hCount : userFrames r.mem r.cr3 = (r.kernel.task r.kernel.currentTask).userUsage := by
    rw [← Nat.add_zero (r.kernel.task r.kernel.currentTask).userUsage]
    exact (h _ hCurrent).trans (congrArg _ (if_neg hIdle))
  have hSmall : userFrames r.mem r.cr3 < 2 ^ 32 - 1 := userFrames_lt _ _
  have hZero : s.usage = 0 := by
    have hAll : decr32^[userFrames r.mem r.cr3] (0 + userFrames r.mem r.cr3) = 0 :=
      decr32_iterate (by omega)
    rw [Nat.zero_add] at hAll
    exact hUsage.trans ((congrArg _ hCount.symm).trans hAll)
  refine ⟨fun t ht => ?_, ?_⟩
  · have hne : t ≠ r.kernel.currentTask := by
      rintro rfl
      have hExit : Function.update r.exiting r.kernel.currentTask true r.kernel.currentTask = false :=
        ht.2
      rw [Function.update_self] at hExit
      cases hExit
    have hExit : Function.update r.exiting r.kernel.currentTask true t = false := ht.2
    rw [Function.update_of_ne hne] at hExit
    have hUsable : r.Usable t := ⟨by rw [← (setPaging_task (s := s) t).1]; exact ht.1, hExit⟩
    show userFrames s.mem (root (r.setPaging s).kernel t) =
      ((r.setPaging s).kernel.task t).userUsage + bootFrames t
    rw [(setPaging_task t).2, setPaging_usage, if_neg hne, hMem]
    exact h t hUsable
  · show ((r.setPaging s).kernel.task r.kernel.currentTask).userUsage = 0
    rw [setPaging_usage, if_pos rfl, hZero]

theorem Counted.map (h : r.Counted) (hOwning : r.Owning leaked a) {viraddr phyaddr npages : Nat}
    {bits : BitVec 12} (hAllowed : r.Allowed (.map viraddr phyaddr npages bits))
    (hKeeps : r.Keeps kernelEnd (.map viraddr phyaddr npages bits))
    (hExec : r.exec kernelEnd (.map viraddr phyaddr npages bits) = some r') :
    r'.Counted ↔ r.Balanced kernelEnd (.map viraddr phyaddr npages bits) := by
  have hCurrent := hOwning.usable_current hAllowed.1
  obtain ⟨⟨s, ret⟩, hMap, rfl⟩ := Option.map_eq_some_iff.mp hExec
  obtain ⟨hBalanced, hOthers⟩ := hOwning.owners.pageMap_balanced (mem_usable hCurrent) hAllowed.2
    hKeeps.1 hMap (h.current hCurrent)
  exact (h.setPaging hOwning hCurrent hOthers).trans hBalanced

theorem Counted.unmap (h : r.Counted) (hOwning : r.Owning leaked a) {viraddr npages : Nat}
    (hAllowed : r.Allowed (.unmap viraddr npages)) (hKeeps : r.Keeps kernelEnd (.unmap viraddr npages))
    (hExec : r.exec kernelEnd (.unmap viraddr npages) = some r') :
    r'.Counted ↔ r.Balanced kernelEnd (.unmap viraddr npages) := by
  have hCurrent := hOwning.usable_current hAllowed
  obtain ⟨⟨s, ret⟩, hUnmap, rfl⟩ := Option.map_eq_some_iff.mp hExec
  obtain ⟨s₁, hPages, hPair⟩ := Option.map_eq_some_iff.mp hUnmap
  obtain ⟨rfl, rfl⟩ := Prod.mk.inj hPair
  obtain ⟨hBalanced, hOthers⟩ := hOwning.owners.pageUnmap_balanced (mem_usable hCurrent) hKeeps hPages
    (h.current hCurrent)
  exact (h.setPaging hOwning hCurrent hOthers).trans hBalanced

theorem Counted.fault (h : r.Counted) (hOwning : r.Owning leaked a) {viraddr : Nat}
    {heap : Option (Nat × Nat)} (hAllowed : r.Allowed (.fault viraddr heap))
    (hKeeps : r.Keeps kernelEnd (.fault viraddr heap))
    (hExec : r.exec kernelEnd (.fault viraddr heap) = some r') :
    r'.Counted ↔ r.Balanced kernelEnd (.fault viraddr heap) := by
  have hCurrent := hOwning.usable_current hAllowed
  obtain ⟨⟨s, back⟩, hFault, rfl⟩ := Option.map_eq_some_iff.mp hExec
  obtain ⟨hBalanced, hOthers⟩ := hOwning.owners.pageFault_balanced userOwned_own (mem_usable hCurrent)
    hKeeps hFault (h.current hCurrent)
  exact (h.setPaging hOwning hCurrent hOthers).trans hBalanced

/-- `create_task`: the new task is charged for every frame of its copy, which are as many as its
creator has. -/
theorem Counted.create (h : r.Counted) (hOwning : r.Owning leaked a) {ep arg prio : Nat}
    (hAllowed : r.Allowed (.create ep arg prio)) (hKeeps : r.Keeps kernelEnd (.create ep arg prio))
    (hBalanced : r.Balanced kernelEnd (.create ep arg prio))
    (hExec : r.exec kernelEnd (.create ep arg prio) = some r') :
    r'.Counted ∧ ∀ t, r.kernel.newSlot ep prio = some t →
      userFrames r'.mem (root r'.kernel t) = userFrames r.mem r.cr3 := by
  by_cases hSlot : r.kernel.newSlot ep prio = none
  · obtain rfl := createTask_same hSlot hExec
    exact ⟨h, fun t ht => by rw [hSlot] at ht; cases ht⟩
  · have hTmp := hBalanced hSlot
    have hSupply := hKeeps hSlot
    obtain ⟨t, hSlot⟩ := Option.ne_none_iff_exists'.mp hSlot
    have hFree := (newSlot_eq_some hSlot).2.2.2
    have hp := mem_usable (hOwning.usable_current hAllowed)
    rw [copyCount, ← Nat.add_zero (1 + _), Nat.add_assoc] at hSupply
    obtain ⟨frames, addr, hCall, hAddr, hRest, hPool, hTaking, _, hNew, hOwned⟩ :=
      hOwning.owners.maps.pool.supply hSupply
    obtain ⟨s, hCopy, hCopied, _, _, _, _, hUsage⟩ := hOwning.owners.maps.pageMapCopy hp
      (s := ⟨r.mem, frames, 0⟩) hNew rfl hPool hTaking hOwned hRest
    have hCall' : r.frames.getPages kernelEnd 1 = some (frames, addr) := hCall
    have hCopy' : Paging.pageMapCopy kernelEnd r.cr3 (addr >>> pageBits) ⟨r.mem, frames, 0⟩ =
        some (s, 0) := hCopy
    rw [exec, createTask, hSlot] at hExec
    dsimp only at hExec
    rw [hCall', Option.bind_some] at hExec
    dsimp only at hExec
    rw [if_neg hAddr, hCopy', Option.bind_some] at hExec
    obtain ⟨⟨k, ret⟩, hCreated, rfl⟩ := Option.map_eq_some_iff.mp hExec
    have hCreate : (r.kernel.createTask ep arg prio ⟨addr, s.usage⟩).map Prod.fst = some k := by
      rw [hCreated, Option.map_some]
    obtain ⟨hRoot, hRoots⟩ := createTask_roots hSlot hAddr hCreate
    obtain ⟨hNewUsage, hOldUsage⟩ := createTask_usage hSlot hAddr hCreate
    have hSame : userFrames s.mem (root k t) = userFrames r.paging.mem r.cr3 := by
      rw [hRoot]
      exact hCopied.new_userFrames hOwning.owners.maps hp hTmp
    have hMade : ∀ u, r.kernel.newSlot ep prio = some u →
        userFrames s.mem (root k u) = userFrames r.mem r.cr3 := by
      intro u hu
      obtain rfl := Option.some.inj (hSlot.symm.trans hu)
      exact hSame
    refine ⟨fun u hu => ?_, hMade⟩
    show userFrames s.mem (root k u) = (k.task u).userUsage + bootFrames u
    by_cases hut : u = t
    · have hZero : t ≠ 0 := by
        rintro rfl
        exact hOwning.usable_idle.1 (by simpa using List.find?_some hFree)
      have hSmall := userFrames_lt r.paging.mem r.cr3
      have hCounted : s.usage = userFrames r.paging.mem r.cr3 := by
        have hTotal : incr32^[userFrames r.paging.mem r.cr3] 0 = 0 + userFrames r.paging.mem r.cr3 :=
          incr32_iterate (by omega)
        rw [Nat.zero_add] at hTotal
        exact (hUsage hTmp).trans ((congrArg (incr32^[·] 0) (tableCount_eq _ _)).trans hTotal)
      rw [hut, hNewUsage, hCounted, bootFrames, if_neg hZero, Nat.add_zero]
      exact hSame
    · have hUsable : r.Usable u := by
        refine ⟨(createTask_status hCreate hu.1).elim id fun hFound => absurd ?_ hut, hu.2⟩
        exact Option.some.inj (hFound.symm.trans hFree)
      have hOld : userFrames s.mem (root r.kernel u) = userFrames r.paging.mem (root r.kernel u) :=
        hCopied.old_userFrames hOwning.owners.maps hp hTmp (mem_usable hUsable)
      rw [hRoots u hut, hOldUsage u hut, ← h u hUsable]
      exact hOld

/-- One call: it keeps the counters right if it is balanced. -/
theorem Counted.step {call : PageCall} (h : r.Counted) (hOwning : r.Owning leaked a)
    (hAllowed : r.Allowed call) (hOrderly : r.Orderly kernelEnd call)
    (hBalanced : r.Balanced kernelEnd call) (hExec : r.exec kernelEnd call = some r') :
    r'.Counted := by
  have hMay : call ≠ .drop → r.Keeps kernelEnd call := fun hne => hOrderly.resolve_left hne
  have hSame : ∀ {r' : PageRun}, r'.mem = r.mem → r'.kernel = r.kernel → r'.exiting = r.exiting →
      r'.Counted := by
    intro r' hMem hKernel hExiting
    refine h.keep hMem (fun _ => by rw [hKernel]) (fun _ => by rw [hKernel]) fun t ht => ?_
    rw [Usable, hKernel, hExiting] at ht
    exact ht
  cases call with
  | create ep arg prio =>
      exact (h.create hOwning hAllowed (hMay fun he => by cases he) hBalanced hExec).1
  | schedule =>
      obtain ⟨k, hCall, rfl⟩ := Option.map_eq_some_iff.mp hExec
      exact h.call hOwning .schedule trivial (fun _ _ _ _ he => by cases he) hCall
  | block =>
      obtain ⟨k, hCall, rfl⟩ := Option.map_eq_some_iff.mp hExec
      exact h.call hOwning .block trivial (fun _ _ _ _ he => by cases he) hCall
  | wakeup id =>
      obtain ⟨k, hCall, rfl⟩ := Option.map_eq_some_iff.mp hExec
      exact h.call hOwning (.wakeup id) trivial (fun _ _ _ _ he => by cases he) hCall
  | drop => exact (h.drop hOwning hAllowed hExec).1
  | exit => exact h.exit hOwning hAllowed hExec
  | map viraddr phyaddr npages bits =>
      exact (h.map hOwning hAllowed (hMay fun he => by cases he) hExec).mpr hBalanced
  | unmap viraddr npages =>
      exact (h.unmap hOwning hAllowed (hMay fun he => by cases he) hExec).mpr hBalanced
  | fault viraddr heap =>
      exact (h.fault hOwning hAllowed (hMay fun he => by cases he) hExec).mpr hBalanced
  | get npages =>
      obtain ⟨_, _, rfl⟩ := Option.map_eq_some_iff.mp hExec
      exact hSame rfl rfl rfl
  | split block npages =>
      obtain rfl := Option.some.inj hExec
      exact hSame rfl rfl rfl
  | put block =>
      obtain ⟨_, _, rfl⟩ := Option.map_eq_some_iff.mp hExec
      exact hSame rfl rfl rfl
  | vma call answer fuel =>
      obtain ⟨_, _, rfl⟩ := Option.map_eq_some_iff.mp hExec
      exact hSame rfl rfl rfl

/-- The boot page map has one table for user space, and no page. -/
theorem bootPgd_frames {mem : Nat → Nat → PageEntry} {pgd pgt mbInfo : Nat}
    (hPgd : mem pgd = bootPgd pgd pgt) (hPgt : mem pgt = bootPgt kernelEnd mbInfo) :
    userFrames mem pgd = 1 := by
  have hDir : ∀ i, (mem pgd i).IsUser ↔ i = 0 := by
    intro i
    rw [hPgd, bootPgd]
    by_cases hZero : i = 0
    · rw [if_pos hZero]
      refine iff_of_true ?_ hZero
      show (pgPresent ||| pgRw ||| pgUser ||| pgGlobal) &&& pgPresent ≠ 0 ∧
        (pgPresent ||| pgRw ||| pgUser ||| pgGlobal) &&& pgUser ≠ 0
      decide
    · rw [if_neg hZero]
      refine iff_of_false (fun hUser => ?_) hZero
      split at hUser
      · have hFlags : (pgPresent ||| pgRw ||| pgGlobal ||| pgSelf) &&& pgUser ≠ 0 := hUser.2
        exact hFlags (by decide)
      · exact PageEntry.not_has_zero hUser.1
  have hTables : Nat.count (fun i => (mem pgd i).IsUser) pageMapEntries =
      Nat.count (fun _ => False) pageMapEntries + [0].length := by
    refine Counting.below_join (List.nodup_singleton 0) (fun i hi => ⟨?_, id⟩) fun i _ => ?_
    · rw [List.mem_singleton.mp hi]
      decide
    · rw [hDir, List.mem_singleton, false_or]
  have hPages : Nat.count (CountedPage mem pgd) allPages = 0 := by
    refine Nat.count_iff_forall_not.mpr fun v _ hUser => ?_
    have hFirst := (hDir _).mp hUser.1
    have hTable : (mem pgd 0).frame = pgt := by
      rw [hPgd]
      rfl
    have hPage := hUser.2.2
    rw [hFirst, hTable, hPgt] at hPage
    exact (bootPgt_flags ..).1 hPage
  rw [userFrames, hTables, hPages, Nat.count_false]
  rfl

/-- The boot page map was never counted. -/
theorem Initial.counted (h : Initial kernelEnd r) : r.Counted := by
  obtain ⟨hSound, _⟩ := h.idle
  obtain ⟨pgt, mbInfo, hPgd, hPgt, _⟩ := h.tables
  intro t ht
  have hZero : t = 0 := by
    have hStatus := ht.1
    rw [hSound.represents.status] at hStatus
    by_contra hne
    exact hStatus (if_neg hne)
  obtain ⟨regs, save, pgd, hBooted⟩ := h.booted
  have hUsage : (r.kernel.task 0).userUsage = 0 := by
    rw [hBooted]
    rfl
  have hRoot : root r.kernel 0 = r.cr3 := by
    rw [cr3, hSound.represents.current]
    rfl
  rw [hZero, hRoot, hUsage, bootPgd_frames hPgd hPgt]
  rfl

/-- The calls of a run in which every counter stays right. -/
def Tidy (kernelEnd : Nat) (r : PageRun) (call : PageCall) : Prop :=
  r.Orderly kernelEnd call ∧ r.Balanced kernelEnd call

theorem reachable_counted (h : Reachable kernelEnd (Tidy kernelEnd) r) :
    (∃ leaked a, r.Owning leaked a) ∧ r.Counted := by
  refine h.invariant (P := fun r => (∃ leaked a, r.Owning leaked a) ∧ r.Counted)
    (fun r hr => ⟨⟨[], hr.owning⟩, hr.counted⟩) ?_
  rintro r r' ⟨⟨leaked, a, hOwning⟩, hCounted⟩ ⟨call, hAllowed, ⟨hOrderly, hBalanced⟩, hExec⟩
  obtain ⟨leaked', a', hOwning', _⟩ := hOwning.step hAllowed hOrderly hExec
  exact ⟨⟨leaked', a', hOwning'⟩, hCounted.step hOwning hAllowed hOrderly hBalanced hExec⟩

/-- In runs of balanced calls, `user_usage` of a live task is the number of tables and pages of
user space in its page map, and `page_map_drop` brings it to zero. Every other `page_map`,
`page_unmap` and `page_fault_handler` makes it wrong. -/
theorem userUsage_counted (h : Reachable kernelEnd (Tidy kernelEnd) r) :
    (∀ t, r.Usable t → t ≠ 0 →
        (r.kernel.task t).userUsage = userFrames r.mem (root r.kernel t)) ∧
      (∀ r', r.Allowed .drop → r.exec kernelEnd .drop = some r' →
        (r'.kernel.task r.kernel.currentTask).userUsage = 0) ∧
      ∀ call r', (∀ ep arg prio, call ≠ .create ep arg prio) → r.Allowed call →
        r.Orderly kernelEnd call → r.exec kernelEnd call = some r' →
        (r'.Counted ↔ r.Balanced kernelEnd call) := by
  obtain ⟨⟨leaked, a, hOwning⟩, hCounted⟩ := reachable_counted h
  refine ⟨fun t ht hZero => ?_, fun r' hAllowed hExec => (hCounted.drop hOwning hAllowed hExec).2,
    fun call r' hCreate hAllowed hOrderly hExec => ?_⟩
  · rw [hCounted t ht, bootFrames, if_neg hZero, Nat.add_zero]
  · have hStep : r.Balanced kernelEnd call → r'.Counted := fun hBalanced =>
      hCounted.step hOwning hAllowed hOrderly hBalanced hExec
    have hMay : call ≠ .drop → r.Keeps kernelEnd call := fun hne => hOrderly.resolve_left hne
    cases call with
    | create ep arg prio => exact absurd rfl (hCreate ep arg prio)
    | map viraddr phyaddr npages bits =>
        exact hCounted.map hOwning hAllowed (hMay fun he => by cases he) hExec
    | unmap viraddr npages =>
        exact hCounted.unmap hOwning hAllowed (hMay fun he => by cases he) hExec
    | fault viraddr heap =>
        exact hCounted.fault hOwning hAllowed (hMay fun he => by cases he) hExec
    | _ => exact iff_of_true (hStep trivial) trivial

theorem exampleStart_tmp : exampleStart.Balanced 0x200000 (.create 1 0 5) := by
  intro _ hUser
  exact (bootPgt_flags 0x200000 0x10000 (pageTmp >>> pageBits)).1 hUser.2

/-- The idle task creates a task, which has one table and no page of user space. -/
theorem exampleStart_task : ∃ r addr copied leaked a,
    exampleStart.exec 0x200000 (.create 1 0 5) = some r ∧ addr ≠ 0 ∧
      (exampleStart.kernel.createTask 1 0 5 ⟨addr, copied⟩).map Prod.fst = some r.kernel ∧
      r.Owning leaked a ∧ r.frames.Supply 0x200000 1 ∧ (∀ t, r.exiting t = false) ∧ r.Counted ∧
      userFrames r.mem (root r.kernel 1) = 1 := by
  obtain ⟨a, hOwning⟩ := exampleStart_initial.owning
  obtain ⟨r, frames, addr, s, a', hExec, hMade, hOwning', hLeft⟩ :=
    hOwning.create (exampleStart_initial.exiting _) exampleStart_newSlot 0 exampleStart_supply
  have hExec' : exampleStart.exec 0x200000 (.create 1 0 5) = some r := hExec
  obtain ⟨hCounted, hFrames⟩ := exampleStart_initial.counted.create hOwning
    (exampleStart_initial.exiting _) (fun _ => exampleStart_enough) exampleStart_tmp hExec'
  have hPgd : exampleStart.mem 0x110 = bootPgd 0x110 0x111 := by simp [exampleStart]
  have hPgt : exampleStart.mem 0x111 = bootPgt 0x200000 0x10000 := by simp [exampleStart]
  have hBoot : userFrames r.mem (root r.kernel 1) = 1 := by
    rw [hFrames 1 exampleStart_newSlot, exampleStart_cr3]
    exact bootPgd_frames hPgd hPgt
  refine ⟨r, addr, s.usage, [], a', hExec', hMade.nonzero, ?_, hOwning', ?_, fun t => ?_, hCounted,
    hBoot⟩
  · rw [hMade.kernel, Option.map_some]
  · rw [hMade.rest]
    exact hLeft
  · rw [hMade.rest]
    rfl

theorem userUsage_counted_example : ∃ r : PageRun, r.Usable 1 ∧
    (∀ t, r.Usable t → t ≠ 0 →
        (r.kernel.task t).userUsage = userFrames r.mem (root r.kernel t)) ∧
      (∀ r', r.Allowed .drop → r.exec 0x200000 .drop = some r' →
        (r'.kernel.task r.kernel.currentTask).userUsage = 0) ∧
      ∀ call r', (∀ ep arg prio, call ≠ .create ep arg prio) → r.Allowed call →
        r.Orderly 0x200000 call → r.exec 0x200000 call = some r' →
        (r'.Counted ↔ r.Balanced 0x200000 call) := by
  obtain ⟨r, addr, copied, leaked, a, hExec, hAddr, hCreate, _, _, hStay, _⟩ := exampleStart_task
  have hReach : Reachable 0x200000 (Tidy 0x200000) r :=
    (Transition.Reachable.of_init exampleStart_initial).next
      ⟨.create 1 0 5, rfl, ⟨Or.inr fun _ => exampleStart_enough, exampleStart_tmp⟩, hExec⟩
  have hReady := (createTask_ready exampleStart_newSlot hAddr hCreate).1
  exact ⟨r, ⟨by rw [hReady]; decide, hStay 1⟩, userUsage_counted hReach⟩

/-- A map with one table and nothing else has no page of user space. -/
theorem no_page {mem : Nat → Nat → PageEntry} {p v : Nat} (h : userFrames mem p = 1)
    (hTable : (mem p 0).IsUser) (hv : v < allPages) : ¬ CountedPage mem p v := by
  intro hUser
  have hTables : Nat.count (fun i => (mem p i).IsUser) pageMapEntries ≠ 0 :=
    Nat.count_ne_iff_exists.mpr ⟨0, by decide, hTable⟩
  have hPages : Nat.count (CountedPage mem p) allPages ≠ 0 := Nat.count_ne_iff_exists.mpr ⟨v, hv, hUser⟩
  rw [userFrames] at h
  omega

/-- The first page of a heap is not counted. -/
theorem heapFault_uncounted : ¬ ∀ kernelEnd r, Reachable kernelEnd (Orderly kernelEnd) r →
    (∀ t, r.Usable t → t ≠ 0 →
        (r.kernel.task t).userUsage = userFrames r.mem (root r.kernel t)) ∧
      ∀ r', r.Allowed .drop → r.exec kernelEnd .drop = some r' →
        (r'.kernel.task r.kernel.currentTask).userUsage = 0 := by
  intro hAll
  obtain ⟨r₁, addr, copied, leaked₁, a₁, hExec₁, hAddr, hCreate, hOwning₁, hSupply, hStay, hCounted₁,
    hOne⟩ := exampleStart_task
  have hReach₁ : Reachable 0x200000 (Orderly 0x200000) r₁ :=
    (Transition.Reachable.of_init exampleStart_initial).next
      ⟨.create 1 0 5, rfl, Or.inr fun _ => exampleStart_enough, hExec₁⟩
  obtain ⟨k₂, hExec₂, hRunning, hBusy, hCurrent⟩ :=
    first_runs exampleStart_initial.idle.1 exampleStart_newSlot hAddr hCreate
  have hExec₂' : r₁.exec 0x200000 .schedule = some { r₁ with kernel := k₂ } := by
    rw [exec, hExec₂, Option.map_some]
  have hReach₂ := hReach₁.next ⟨.schedule, trivial, Or.inr trivial, hExec₂'⟩
  obtain ⟨a₂, hOwning₂⟩ :=
    hOwning₁.call .schedule trivial (fun _ _ _ _ he => by cases he) hExec₂
  have hCounted₂ : Counted { r₁ with kernel := k₂ } :=
    hCounted₁.call hOwning₁ .schedule trivial (fun _ _ _ _ he => by cases he) hExec₂
  have hRoot : root k₂ k₂.currentTask = root r₁.kernel 1 := by
    rw [hCurrent]
    exact congrArg (· >>> pageBits)
      (pageMap_unscheduled.exec (fun _ _ _ => rfl) (fun _ _ _ _ he => by cases he) hExec₂)
  generalize hr₂ : ({ r₁ with kernel := k₂ } : PageRun) = r₂ at hReach₂ hOwning₂ hCounted₂
  have hTask₂ : r₂.kernel.currentTask = 1 := by
    rw [← hr₂]
    exact hCurrent
  have hStay₂ : r₂.exiting r₂.kernel.currentTask = false := by
    rw [← hr₂]
    exact hStay _
  have hFrames₂ : userFrames r₂.mem r₂.cr3 = 1 := by
    rw [← hr₂]
    exact (congrArg _ hRoot).trans hOne
  have hSupply₂ : r₂.frames.Supply 0x200000 1 := by
    rw [← hr₂]
    exact hSupply
  have hUsable := hOwning₂.usable_current hStay₂
  have hp := mem_usable hUsable
  have hLow : (r₂.paging.mem r₂.cr3 0).Has pgPresent := (hOwning₂.owners.maps.root _ hp).low
  have hHeap : ∃ area ∈ some (0x200000, 0x201000), area.1 ≤ 0x200000 ∧ 0x200000 < area.2 :=
    ⟨_, rfl, by decide, by decide⟩
  have hRange : (∃ area ∈ some (0x200000, 0x201000), area.1 ≤ 0x200000 ∧ 0x200000 < area.2) →
      0x200000 >>> pageBits < lowPages := fun _ => by decide
  obtain ⟨s, back, hFault, _⟩ := hOwning₂.owners.pageFault userOwned_own hp 0x200000
    (some (0x200000, 0x201000)) hRange fun _ _ hOwned _ => hOwned
  have hFault' : r₂.paging.pageFaultHandler 0x200000 r₂.cr3 0x200000 (some (0x200000, 0x201000)) =
      some (s, back) := hFault
  have hExec₃ : r₂.exec 0x200000 (.fault 0x200000 (some (0x200000, 0x201000))) =
      some (r₂.setPaging s) := by
    rw [exec, hFault', Option.map_some]
  have hReach₃ := hReach₂.next ⟨.fault 0x200000 (some (0x200000, 0x201000)), hStay₂,
    Or.inr hRange, hExec₃⟩
  have hUsable₃ : (r₂.setPaging s).Usable r₂.kernel.currentTask := setPaging_usable.mpr hUsable
  have hZero : r₂.kernel.currentTask ≠ 0 := by
    rw [hTask₂]
    decide
  have hCounts : s.CountsFrames (bootFrames r₂.kernel.currentTask) r₂.cr3 := by
    refine setPaging_current.mp ?_
    rw [bootFrames, if_neg hZero, Nat.add_zero]
    exact ((hAll _ _ hReach₃).1 _ hUsable₃ hZero).symm
  have hBalanced : r₂.paging.FaultBalanced 0x200000 r₂.cr3 0x200000 (some (0x200000, 0x201000)) :=
    (hOwning₂.owners.pageFault_balanced userOwned_own hp hRange hFault'
      (hCounted₂.current hUsable)).1.mp hCounts
  have hMissing : r₂.paging.tablesMissing r₂.cr3 0x200000 1 = 0 := by
    show (if (r₂.paging.mem r₂.cr3 0).Has pgPresent then 0 else 1) + 0 = 0
    rw [if_pos hLow]
  have hGranted : (r₂.paging.frames.grants 0x200000 (0 + 1)).length = 0 + 1 := by
    cases hSupply₂ with
    | next hCall hNonzero _ => exact (grants_succ (s := r₂.paging) hCall hNonzero).mpr rfl
  have hTable := (hOwning₂.owners.maps.table _ hp 0 (by decide) hLow).1
  refine no_page hFrames₂ ⟨hLow, hTable⟩ (by decide) (hBalanced hHeap ?_)
  rw [hMissing]
  exact hGranted

end ArtOS.PageRun

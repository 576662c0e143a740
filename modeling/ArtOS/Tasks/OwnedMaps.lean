import ArtOS.Tasks.AddressSpaces

/-! The calls one by one: under what condition the page maps of all tasks in
use stay in order. What the entries of page tables have to satisfy is a
parameter. -/
namespace ArtOS.PageRun

open Frames Paging Kernel

variable {r r' : PageRun} {a : RunQueue} {k : Kernel} {t u : TaskPtr} {kernelEnd : Nat}
  {used : Finset Nat} {Leaf : Holding → PageEntry → Prop} {may : PageRun → PageCall → Prop}
  {s : Paging} {held : List (Nat × Nat)} {roots roots' : Set Nat}

/-- The root tables of the tasks in use. -/
def rootsOf (k : Kernel) : Set Nat := {p | ∃ t, k.task.status t ≠ .invalid ∧ p = root k t}

structure Inv (Leaf : Holding → PageEntry → Prop) (used : Finset Nat) (r : PageRun) (a : RunQueue) :
    Prop where
  sound : r.kernel.Sound a
  maps : r.paging.Maps Leaf used r.held (rootsOf r.kernel)

theorem maps_mono (h : s.Maps Leaf used held roots) (hSub : roots' ⊆ roots) :
    s.Maps Leaf used held roots' := by
  refine ⟨h.pool, fun p hp => h.root p (hSub hp), fun p hp i hi hPresent => ?_⟩
  obtain ⟨hUser, hApart, hTable⟩ := h.table p (hSub hp) i hi hPresent
  exact ⟨hUser, fun hRoot => hApart (hSub hRoot), hTable⟩

theorem mem_roots (h : r.Inv Leaf used a) : r.cr3 ∈ rootsOf r.kernel := by
  refine ⟨r.kernel.currentTask, ?_, rfl⟩
  rw [h.sound.represents.status, h.sound.represents.current]
  exact h.sound.inv.current

theorem pageMap_unscheduled : Unscheduled fun x : Task => x.pageMap :=
  ⟨⟨fun _ _ => rfl, fun _ _ _ => rfl, fun _ _ _ => rfl⟩, fun _ _ _ _ => rfl⟩

theorem setPaging_task (t : TaskPtr) :
    (r.setPaging s).kernel.task.status t = r.kernel.task.status t ∧
      root (r.setPaging s).kernel t = root r.kernel t := by
  by_cases ht : t = r.kernel.currentTask
  · subst ht
    simp [setPaging, root]
  · simp [setPaging, root, ht]

theorem setPaging_roots : rootsOf (r.setPaging s).kernel = rootsOf r.kernel := by
  ext p
  simp only [rootsOf, Set.mem_ofPred_eq, setPaging_task]

/-- The page maps stay in order under a new counter and with new holders of frames. -/
theorem Inv.setPaging (hRule : LeafRule Leaf) (h : r.Inv Leaf used a)
    (hMaps : s.Maps Leaf used held (rootsOf r.kernel)) (exiting : TaskPtr → Bool) :
    Inv Leaf used { r.setPaging s with held := held, exiting := exiting } a := by
  have hSound : (r.kernel.setTask r.kernel.currentTask fun x =>
      { x with userUsage := s.usage }).Sound a :=
    h.sound.setTask (fun _ => rfl) (fun _ => rfl) (fun _ => rfl) (fun _ => rfl) (fun _ => rfl)
  refine ⟨hSound, ?_⟩
  show Maps Leaf used held _ (rootsOf (r.setPaging s).kernel)
  rw [setPaging_roots]
  exact hMaps.keep hRule hMaps.pool (fun _ hf => hf) fun _ _ => rfl

/-- A call of the scheduler brings no page map into use. -/
theorem call_roots {call : Call} (h : r.Inv Leaf used a)
    (hAllowed : call.Allowed (fun k => k.currentStatus = .running) r.kernel)
    (hCreate : ∀ ep arg prio pages, call ≠ .create ep arg prio pages)
    (hExec : call.exec r.kernel = some k) : rootsOf k ⊆ rootsOf r.kernel := by
  rintro p ⟨t, hLive, rfl⟩
  refine ⟨t, (exec_live h.sound hAllowed hExec hLive).elim id fun hNew => ?_, ?_⟩
  · obtain ⟨⟨ep, arg, prio, pages, rfl⟩, _⟩ := hNew
    exact absurd rfl (hCreate ep arg prio pages)
  · exact congrArg (· >>> pageBits) (pageMap_unscheduled.exec (fun _ _ _ => rfl) hCreate hExec)

/-- A call of the scheduler. -/
theorem Inv.call (hRule : LeafRule Leaf) (h : r.Inv Leaf used a) (call : Call)
    (hAllowed : call.Allowed (fun k => k.currentStatus = .running) r.kernel)
    (hCreate : ∀ ep arg prio pages, call ≠ .create ep arg prio pages)
    (hExec : call.exec r.kernel = some k) (exiting : TaskPtr → Bool) :
    ∃ a', Inv Leaf used { r with kernel := k, exiting := exiting } a' := by
  obtain ⟨k₂, a', hExec', _, hSound, _⟩ :=
    exec_refines call h.sound (Allowed.mono call hAllowed not_ready_of_running)
  obtain rfl := Option.some.inj (hExec.symm.trans hExec')
  exact ⟨a', hSound, maps_mono (h.maps.keep hRule h.maps.pool (fun _ hf => hf) fun _ _ => rfl)
    (call_roots h hAllowed hCreate hExec)⟩

theorem newSlot_eq_some {ep prio : Nat} (h : k.newSlot ep prio = some t) :
    ep ≠ 0 ∧ 1 ≤ prio ∧ prio ≤ maxPrio ∧
      ((List.finRange maxTasks).find? fun i => k.task.status i = .invalid) = some t := by
  rw [newSlot] at h
  split at h
  · cases h
  · rename_i hValid
    simp only [not_or, not_lt] at hValid
    exact ⟨hValid.1, Nat.one_le_iff_ne_zero.mpr hValid.2.1, hValid.2.2, h⟩

/-- Without a table entry nothing happens. -/
theorem createTask_rejected {ep prio : Nat} (arg : Nat) (pages : PageOutcome)
    (h : k.newSlot ep prio = none) :
    ∃ ret : Int, k.createTask ep arg prio pages = some (k, ret) ∧ ret < 0 := by
  have hInvalid : (-einval : Int) < 0 := by decide
  have hMemory : (-enomem : Int) < 0 := by decide
  rw [newSlot] at h
  rw [Kernel.createTask]
  by_cases hEp : ep = 0
  · exact ⟨-einval, if_pos hEp, hInvalid⟩
  · rw [if_neg hEp]
    by_cases hLow : prio = idlePrio
    · exact ⟨-einval, if_pos hLow, hInvalid⟩
    · rw [if_neg hLow]
      by_cases hHigh : maxPrio < prio
      · exact ⟨-einval, if_pos hHigh, hInvalid⟩
      · rw [if_neg (not_or.mpr ⟨hEp, not_or.mpr ⟨hLow, hHigh⟩⟩)] at h
        rw [if_neg hHigh, h]
        exact ⟨-enomem, rfl, hMemory⟩

theorem createTask_none {ep prio : Nat} (arg : Nat) (pages : PageOutcome)
    (h : k.newSlot ep prio = none) :
    (k.createTask ep arg prio pages).map Prod.fst = some k := by
  obtain ⟨ret, hCreate, _⟩ := createTask_rejected arg pages h
  rw [hCreate, Option.map_some]

/-- The new task is ready, and the current task stays. -/
theorem createTask_ready {ep arg prio : Nat} {pages : PageOutcome} {k' : Kernel}
    (hSlot : k.newSlot ep prio = some t) (hFrame : pages.frame ≠ 0)
    (h : (k.createTask ep arg prio pages).map Prod.fst = some k') :
    k'.task.status t = .ready ∧ k'.currentTask = k.currentTask := by
  obtain ⟨hEp, hLow, hHigh, hFree⟩ := newSlot_eq_some hSlot
  rw [Kernel.createTask, if_neg hEp, if_neg (Nat.one_le_iff_ne_zero.mp hLow),
    if_neg (Nat.not_lt.mpr hHigh), hFree] at h
  dsimp only at h
  rw [if_neg hFrame, Option.map_map] at h
  obtain ⟨k₁, hLink, rfl⟩ := Option.map_eq_some_iff.mp h
  refine ⟨(linkLast_status hLink).trans ?_, (linkLast_current hLink).trans rfl⟩
  simp [createDefaultFrame, newTask]
  split <;> rfl

/-- A new task joins the tasks in use with its own root table. -/
theorem roots_create {ep arg prio frame copied : Nat} {k' : Kernel}
    (h : (k.createTask ep arg prio ⟨frame, copied⟩).map Prod.fst = some k') :
    rootsOf k' ⊆ insert (frame >>> pageBits) (rootsOf k) := by
  rintro p ⟨t, hLive, rfl⟩
  rcases pageMap_unscheduled.createTask h with rfl | ⟨i, hFree, hSame⟩
  · exact Set.mem_insert_of_mem _ ⟨t, hLive, rfl⟩
  · have hRoot : root k' t = ((k.setTask i (newTask i prio frame)).task t).pageMap >>> pageBits :=
      congrArg (· >>> pageBits) (hSame.task t)
    by_cases ht : t = i
    · subst ht
      rw [hRoot, setTask_task, Function.update_self]
      exact Set.mem_insert _ _
    · rw [hRoot, setTask_task, Function.update_of_ne ht]
      refine Set.mem_insert_of_mem _ ⟨t, ?_, rfl⟩
      refine (createTask_status h hLive).elim id fun hNew => absurd ?_ ht
      exact Option.some.inj (hNew.symm.trans hFree)

/-- What `create_task` does to the page maps, if there are enough frames for the copy. -/
structure Created (used : Finset Nat) (ep arg prio : Nat) (r r' : PageRun) (s : Paging) (d : Nat)
    (a : RunQueue) : Prop where
  created : ∃ addr copied, addr ≠ 0 ∧ addr >>> pageBits = d ∧
    (r.kernel.createTask ep arg prio ⟨addr, copied⟩).map Prod.fst = some r'.kernel
  sound : r'.kernel.Sound a
  rest : r' = { r with kernel := r'.kernel, mem := s.mem, frames := s.frames }
  free : ¬ r.frames.Marked d
  copied : Copied r.held r.paging s r.cr3 d
  pool : Holding.Sound used ⟨s.frames, r.held⟩
  owned : Holding.Owned ⟨s.frames, r.held⟩ d

theorem Created.rootsOf {ep arg prio d : Nat} (h : Created used ep arg prio r r' s d a) :
    PageRun.rootsOf r'.kernel ⊆ insert d (PageRun.rootsOf r.kernel) := by
  obtain ⟨addr, copied, _, rfl, hCreate⟩ := h.created
  exact roots_create hCreate

/-- Where the page maps are after `create_task`. -/
theorem createTask_roots {ep arg prio addr copied : Nat} {k' : Kernel}
    (hSlot : k.newSlot ep prio = some t) (hAddr : addr ≠ 0)
    (hCreate : (k.createTask ep arg prio ⟨addr, copied⟩).map Prod.fst = some k') :
    root k' t = addr >>> pageBits ∧ ∀ u, u ≠ t → root k' u = root k u := by
  have hReady := (createTask_ready hSlot hAddr hCreate).1
  have hFree := (newSlot_eq_some hSlot).2.2.2
  have hInvalid : k.task.status t = .invalid := by simpa using List.find?_some hFree
  rcases pageMap_unscheduled.createTask hCreate with hSame | ⟨i, hFree', hSame⟩
  · rw [hSame, hInvalid] at hReady
    cases hReady
  · obtain rfl := Option.some.inj (hFree.symm.trans hFree')
    refine ⟨?_, fun u hu => ?_⟩
    · refine (congrArg (· >>> pageBits) (hSame.task t)).trans ?_
      rw [setTask_task, Function.update_self]
      rfl
    · refine (congrArg (· >>> pageBits) (hSame.task u)).trans ?_
      rw [setTask_task, Function.update_of_ne hu]
      rfl

theorem Created.roots_eq {ep arg prio d : Nat} (hSlot : r.kernel.newSlot ep prio = some t)
    (h : Created used ep arg prio r r' s d a) : r'.kernel.task.status t = .ready ∧
      r'.kernel.currentTask = r.kernel.currentTask ∧ root r'.kernel t = d ∧
      ∀ u, u ≠ t → root r'.kernel u = root r.kernel u := by
  obtain ⟨addr, copied, hAddr, rfl, hCreate⟩ := h.created
  obtain ⟨hReady, hCurrent⟩ := createTask_ready hSlot hAddr hCreate
  exact ⟨hReady, hCurrent, createTask_roots hSlot hAddr hCreate⟩

/-- `create_task` put together from its parts. -/
theorem createTask_eq {ep arg prio addr : Nat} {frames : Frames} {k₁ : Kernel} {copy ret : Int}
    (hSlot : r.kernel.newSlot ep prio = some t)
    (hCall : r.frames.getPages kernelEnd 1 = some (frames, addr)) (hAddr : addr ≠ 0)
    (hCopy : Paging.pageMapCopy kernelEnd r.cr3 (addr >>> pageBits) ⟨r.mem, frames, 0⟩ =
      some (s, copy))
    (hCreate : r.kernel.createTask ep arg prio ⟨addr, s.usage⟩ = some (k₁, ret)) :
    r.createTask kernelEnd ep arg prio =
      some { r with kernel := k₁, mem := s.mem, frames := s.frames } := by
  rw [createTask, hSlot]
  dsimp only
  rw [hCall, Option.bind_some]
  dsimp only
  rw [if_neg hAddr, hCopy, Option.bind_some, hCreate, Option.map_some]

theorem Inv.created (h : r.Inv Leaf used a) (ep arg prio : Nat)
    (hSlot : r.kernel.newSlot ep prio ≠ none) {n : Nat}
    (hSupply : r.frames.Supply kernelEnd (r.paging.copyCount r.cr3 + n)) :
    ∃ r' s d a', r.createTask kernelEnd ep arg prio = some r' ∧
      Created used ep arg prio r r' s d a' ∧ s.frames.Supply kernelEnd n := by
  obtain ⟨slot, hSlot⟩ := Option.ne_none_iff_exists'.mp hSlot
  obtain ⟨_, hLow, hHigh, _⟩ := newSlot_eq_some hSlot
  rw [copyCount, Nat.add_assoc] at hSupply
  obtain ⟨frames, addr, hCall, hAddr, hRest, hPool, hTaking, _, hFree, hOwned⟩ :=
    h.maps.pool.supply hSupply
  obtain ⟨s, hCopy, hCopied, hPool', hOwned', hLeft, _⟩ := h.maps.pageMapCopy (mem_roots h)
    (s := ⟨r.mem, frames, 0⟩) hFree rfl hPool hTaking hOwned hRest
  obtain ⟨k, a', hExec, _, hSound, _⟩ :=
    exec_refines (.create ep arg prio ⟨addr, s.usage⟩) h.sound ⟨hLow, hHigh, hAddr⟩
  have hCreate : (r.kernel.createTask ep arg prio ⟨addr, s.usage⟩).map Prod.fst = some k := hExec
  obtain ⟨⟨k₁, ret⟩, hCreated, rfl⟩ := Option.map_eq_some_iff.mp hCreate
  refine ⟨{ r with kernel := k₁, mem := s.mem, frames := s.frames }, s, addr >>> pageBits, a', ?_,
    ⟨⟨addr, s.usage, hAddr, rfl, hCreate⟩, hSound, rfl, hFree, hCopied, hPool', hOwned'⟩, hLeft⟩
  exact createTask_eq hSlot hCall hAddr hCopy hCreated

/-- Without a free task `create_task` leaves everything as it is. -/
theorem createTask_same {ep arg prio : Nat} (hSlot : r.kernel.newSlot ep prio = none)
    (hExec : r.createTask kernelEnd ep arg prio = some r') : r' = r := by
  rw [createTask, hSlot] at hExec
  obtain ⟨⟨k, ret⟩, hCreate, rfl⟩ := Option.map_eq_some_iff.mp hExec
  have hSame := createTask_none arg ⟨0, 0⟩ hSlot
  rw [hCreate, Option.map_some] at hSame
  obtain rfl : k = r.kernel := Option.some.inj hSame
  rfl

/-- `create_task` leaves everything as it is, or makes a new task. -/
theorem Inv.create_cases {ep arg prio : Nat} (h : r.Inv Leaf used a)
    (hSupply : r.kernel.newSlot ep prio ≠ none →
      r.frames.Supply kernelEnd (r.paging.copyCount r.cr3))
    (hExec : r.createTask kernelEnd ep arg prio = some r') :
    r' = r ∨ ∃ s d a', Created used ep arg prio r r' s d a' := by
  by_cases hSlot : r.kernel.newSlot ep prio = none
  · exact Or.inl (createTask_same hSlot hExec)
  · have hEnough : r.frames.Supply kernelEnd (r.paging.copyCount r.cr3 + 0) := by
      rw [Nat.add_zero]
      exact hSupply hSlot
    obtain ⟨r₁, s, d, a', hExec', hCreated, _⟩ := h.created ep arg prio hSlot hEnough
    obtain rfl := Option.some.inj (hExec.symm.trans hExec')
    exact Or.inr ⟨s, d, a', hCreated⟩

theorem Created.inv {ep arg prio d : Nat} {a' : RunQueue} (hRule : CopyRule Leaf)
    (h : r.Inv Leaf used a) (hCreated : Created used ep arg prio r r' s d a') :
    r'.Inv Leaf used a' := by
  have hRoots := hCreated.rootsOf
  obtain ⟨_, hSound, hSame, hFree, hCopied, hPool, hOwned⟩ := hCreated
  have hMaps := hCopied.maps h.maps (mem_roots h) hRule hPool hFree hOwned
  refine ⟨hSound, ?_⟩
  have hKept : r'.held = r.held := by rw [hSame]
  have hMem : r'.mem = s.mem := by rw [hSame]
  have hFrames : r'.frames = s.frames := by rw [hSame]
  rw [hKept]
  refine maps_mono (hMaps.keep hRule.toLeafRule ?_ ?_ fun f _ => ?_) hRoots
  · rw [paging, hFrames]
    exact hPool
  · rw [paging, hFrames]
    exact fun _ hf => hf
  · exact congrFun hMem f

theorem Inv.map (hRule : LeafRule Leaf) (h : r.Inv Leaf used a) {viraddr phyaddr npages : Nat}
    {bits : BitVec 12} (hPages : 0 < npages) (hRange : viraddr >>> pageBits + npages ≤ lowPages)
    (hLeaf : ∀ k < npages, Leaf
      ⟨r.frames, if bits &&& pgUser ≠ 0 then r.held.erase (phyaddr, npages) else r.held⟩
      ⟨phyaddr >>> pageBits + k, bits ||| pgPresent⟩)
    (hExec : r.pageMap kernelEnd viraddr phyaddr npages bits = some r') : r'.Inv Leaf used a := by
  have hSub : (if bits &&& pgUser ≠ 0 then r.held.erase (phyaddr, npages) else r.held).Sublist
      r.held := by
    split
    · exact List.erase_sublist
    · exact List.Sublist.refl _
  obtain ⟨s, ret, hMap, _, _, _, hCases⟩ := h.maps.pageMap hRule (mem_roots h) kernelEnd hPages
    hRange hSub hLeaf
  rw [pageMap, hMap, Option.map_some] at hExec
  obtain rfl := Option.some.inj hExec
  refine h.setPaging hRule ?_ r.exiting
  rcases hCases with ⟨rfl, hMaps⟩ | ⟨hRet, hMaps⟩
  · simpa using hMaps
  · simpa [hRet] using hMaps

theorem Inv.unmap (hRule : LeafRule Leaf) (h : r.Inv Leaf used a) {viraddr npages : Nat}
    (hRange : viraddr >>> pageBits + npages ≤ lowPages)
    (hExec : r.exec kernelEnd (.unmap viraddr npages) = some r') : r'.Inv Leaf used a := by
  obtain ⟨⟨s, ret⟩, hUnmap, rfl⟩ := Option.map_eq_some_iff.mp hExec
  obtain ⟨s₁, hPages, hPair⟩ := Option.map_eq_some_iff.mp hUnmap
  obtain ⟨rfl, rfl⟩ := Prod.mk.inj hPair
  obtain ⟨hMaps, _⟩ := h.maps.unmapPages hRule (mem_roots h) npages _ hRange hPages
  exact h.setPaging hRule hMaps r.exiting

theorem Inv.fault (hRule : LeafRule Leaf) (h : r.Inv Leaf used a) {viraddr : Nat}
    {heap : Option (Nat × Nat)}
    (hRange : (∃ area ∈ heap, area.1 ≤ viraddr ∧ viraddr < area.2) → viraddr >>> pageBits < lowPages)
    (hLeaf : ∀ r f, Holding.Owned r f → Leaf r ⟨f, pgUser ||| pgRw ||| pgPresent⟩)
    (hExec : r.exec kernelEnd (.fault viraddr heap) = some r') : r'.Inv Leaf used a := by
  obtain ⟨s, back, hFault, hMaps⟩ :=
    h.maps.pageFault hRule (mem_roots h) kernelEnd heap hRange hLeaf
  rw [exec, hFault, Option.map_some] at hExec
  obtain rfl := Option.some.inj hExec
  exact h.setPaging hRule hMaps r.exiting

theorem Inv.get (hRule : LeafRule Leaf) (h : r.Inv Leaf used a) {npages : Nat}
    (hExec : r.getPages kernelEnd npages = some r') : r'.Inv Leaf used a := by
  obtain ⟨frames, addr, hCall, hPool, _, hGrows, _⟩ := h.maps.pool.getPages kernelEnd npages
  have hCall' : r.frames.getPages kernelEnd npages = some (frames, addr) := hCall
  rw [getPages, hCall', Option.map_some] at hExec
  obtain rfl := Option.some.inj hExec
  exact ⟨h.sound, h.maps.keep hRule hPool hGrows fun _ _ => rfl⟩

theorem Inv.split (hRule : LeafRule Leaf) (h : r.Inv Leaf used a) {block : Nat × Nat} {npages : Nat}
    (hBlock : block ∈ r.held) (hPos : 0 < npages) (hLt : npages < block.2)
    (hExec : r.exec kernelEnd (.split block npages) = some r') : r'.Inv Leaf used a := by
  obtain ⟨hPool, hGrows⟩ := h.maps.pool.split hBlock hPos hLt
  obtain rfl := Option.some.inj hExec
  exact ⟨h.sound, h.maps.keep hRule hPool hGrows fun _ _ => rfl⟩

theorem Inv.put (hRule : LeafRule Leaf) (h : r.Inv Leaf used a) {block : Nat × Nat}
    (hBlock : block ∈ r.held) (hExec : r.exec kernelEnd (.put block) = some r') :
    r'.Inv Leaf used a := by
  obtain ⟨frames, ret, hCall, hPool, hGrows⟩ := h.maps.pool.putPages hBlock
  have hCall' : r.frames.putPages block.1 block.2 = some (frames, ret) := hCall
  rw [exec, hCall', Option.map_some] at hExec
  obtain rfl := Option.some.inj hExec
  exact ⟨h.sound, h.maps.keep hRule hPool hGrows fun _ _ => rfl⟩

theorem Inv.vma (h : r.Inv Leaf used a) {call : VmaCall} {answer : Answer} {fuel : Nat}
    (hExec : r.exec kernelEnd (.vma call answer fuel) = some r') : r'.Inv Leaf used a := by
  obtain ⟨vmas, _, rfl⟩ := Option.map_eq_some_iff.mp hExec
  exact ⟨h.sound, h.maps⟩

theorem bootPgt_flags (kernelEnd mbInfo j : Nat) :
    ¬ (bootPgt kernelEnd mbInfo j).Has pgUser ∧ ¬ (bootPgt kernelEnd mbInfo j).Has pgSelf := by
  have hConst : ∀ e : PageEntry, e.flags &&& (pgUser ||| pgSelf) = 0 →
      ¬ e.Has pgUser ∧ ¬ e.Has pgSelf := by
    intro e he
    have hBoth : ¬ (pgUser ||| pgSelf) &&& e.flags ≠ 0 := by
      rw [BitVec.and_comm]
      exact fun hne => hne he
    rw [PageEntry.or_and_ne_zero, not_or, BitVec.and_comm, BitVec.and_comm pgSelf] at hBoth
    exact hBoth
  apply hConst
  rw [bootPgt]
  split
  · show (pgPresent ||| pgRw ||| pgGlobal) &&& (pgUser ||| pgSelf) = 0
    decide
  · split
    · show (pgPresent ||| pgGlobal) &&& (pgUser ||| pgSelf) = 0
      decide
    · split
      · show (pgPresent ||| pgRw ||| pgPcd ||| pgGlobal) &&& (pgUser ||| pgSelf) = 0
        decide
      · show PageEntry.zero.flags &&& (pgUser ||| pgSelf) = 0
        decide

/-- Only the idle task is in use at the start. -/
theorem Initial.idle (h : Initial kernelEnd r) :
    r.kernel.Sound Kernel.bootQueue ∧ rootsOf r.kernel ⊆ {r.cr3} := by
  obtain ⟨regs, save, pgd, hBooted⟩ := h.booted
  have hSound : r.kernel.Sound bootQueue := (Booted.sound ⟨regs, save, _, hBooted⟩).1
  refine ⟨hSound, ?_⟩
  rintro p ⟨t, hLive, rfl⟩
  rw [hSound.represents.status] at hLive
  have ht : t = bootQueue.current := by
    by_contra hne
    exact hLive (if_neg hne)
  rw [← hSound.represents.current] at ht
  rw [ht]
  rfl

/-- The boot page map is in order. -/
theorem Initial.inv (hBoot : ∀ r e, ¬ e.Has pgUser → ¬ e.Has pgSelf → Leaf r e)
    (h : Initial kernelEnd r) : ∃ a, r.Inv Leaf r.frames.usedFrames a := by
  obtain ⟨hSound, hRoots⟩ := h.idle
  obtain ⟨pgt, mbInfo, hPgd, hPgt, hZero, hApart, ⟨hPgtLt, hPgtMarked⟩, hPgdLt, hPgdMarked⟩ := h.tables
  have hPool : Holding.Sound r.frames.usedFrames ⟨r.frames, r.held⟩ := by
    rw [h.held]
    exact Holding.reachable_sound h.ready
      (Transition.Reachable.of_init rfl : Holding.Reachable kernelEnd r.frames ⟨r.frames, []⟩)
  have hNone : ∀ block ∈ r.held, ∀ f, f ∉ framesOf block := by simp [h.held]
  have hWord : ∀ i, r.paging.mem r.cr3 i = bootPgd r.cr3 pgt i := congrFun hPgd
  refine ⟨_, hSound, maps_mono ⟨hPool, fun p hp => ?_, fun p hp i hi hPresent => ?_⟩ hRoots⟩
  · obtain rfl := Set.mem_singleton_iff.mp hp
    have hLast : bootPgd r.cr3 pgt (pageMapEntries - 1) =
        ⟨r.cr3, pgPresent ||| pgRw ||| pgGlobal ||| pgSelf⟩ := rfl
    refine ⟨⟨hPgdLt, hPgdMarked, fun block hb => hNone block hb _⟩, ⟨?_, ?_⟩, ?_, ?_, ?_⟩
    · rw [hWord, hLast]
    · rw [hWord, hLast]
      show (pgPresent ||| pgRw ||| pgGlobal ||| pgSelf) &&& pgPresent ≠ 0
      decide
    · rw [hWord, hLast]
      show ¬ (pgPresent ||| pgRw ||| pgGlobal ||| pgSelf) &&& pgUser ≠ 0
      decide
    · rw [hWord]
      exact PageEntry.not_has_zero
    · rw [hWord]
      show (pgPresent ||| pgRw ||| pgUser ||| pgGlobal) &&& pgPresent ≠ 0
      decide
  · obtain rfl := Set.mem_singleton_iff.mp hp
    rw [hWord, bootPgd] at hPresent
    have hFirst : i = 0 := by
      by_contra hne
      rw [if_neg hne, if_neg (by omega)] at hPresent
      exact PageEntry.not_has_zero hPresent
    subst hFirst
    have hEntry : r.paging.mem r.cr3 0 = ⟨pgt, pgPresent ||| pgRw ||| pgUser ||| pgGlobal⟩ := hWord 0
    rw [hEntry]
    refine ⟨?_, fun hRoot => hApart (Set.mem_singleton_iff.mp hRoot), hZero,
      ⟨hPgtLt, hPgtMarked, fun block hb => hNone block hb _⟩, fun j _ => ?_⟩
    · show (pgPresent ||| pgRw ||| pgUser ||| pgGlobal) &&& pgUser ≠ 0
      decide
    · have hLeaf : r.paging.mem pgt j = bootPgt kernelEnd mbInfo j := congrFun hPgt j
      rw [hLeaf]
      exact hBoot _ _ (bootPgt_flags ..).1 (bootPgt_flags ..).2

/-- The frames from 0x200 to 0x207 are free. -/
def exampleFrames : Frames where
  bitmap i := if i = 0x40 then 0 else 0xff
  allocStart := 2 ^ 32 - 1
  allocated := bitmapBits - 8
  available := 8

/-- A boot page map in the frames 0x110 and 0x111 of the kernel image. -/
def exampleStart : PageRun where
  kernel := ((bootKernel [] fun regs => (regs, regs)).multitaskingInit (0x110 <<< pageBits)).1
  mem f := if f = 0x110 then bootPgd 0x110 0x111
    else if f = 0x111 then bootPgt 0x200000 0x10000 else fun _ => PageEntry.zero
  frames := exampleFrames
  held := []
  vmas := VmaRun.start
  exiting _ := false

theorem exampleFrames_ready : exampleFrames.Ready := by
  refine ⟨?_, 0, mem_usedFrames.mpr ⟨by decide, by decide⟩⟩
  have hFree : Finset.Ico 0x200 0x208 ⊆ exampleFrames.freeFrames := by
    intro i hi
    obtain ⟨hLow, hHigh⟩ := Finset.mem_Ico.mp hi
    refine mem_freeFrames.mpr ⟨hHigh.trans (by decide), fun hMarked => ?_⟩
    have hByte : i / 8 = 0x40 := by omega
    rw [Marked, hByte] at hMarked
    exact absurd hMarked (by simp [exampleFrames])
  exact Finset.card_le_card hFree

theorem exampleStart_cr3 : exampleStart.cr3 = 0x110 := by decide

theorem exampleStart_initial : Initial 0x200000 exampleStart := by
  have hPgd : exampleStart.mem 0x110 = bootPgd 0x110 0x111 := by
    simp [exampleStart]
  have hPgt : exampleStart.mem 0x111 = bootPgt 0x200000 0x10000 := by
    simp [exampleStart]
  have hMarked : exampleFrames.Marked 0x110 ∧ exampleFrames.Marked 0x111 := by decide
  refine ⟨⟨_, _, 0x110, rfl⟩, ⟨0x111, 0x10000, ?_⟩, exampleFrames_ready, rfl, ⟨1, rfl, rfl, rfl⟩,
    fun _ => rfl⟩
  rw [exampleStart_cr3]
  exact ⟨hPgd, hPgt, by decide, by decide, ⟨by decide, hMarked.2⟩, by decide, hMarked.1⟩

/-- There are frames enough for a copy of the boot page map, and one more. -/
theorem exampleStart_supply :
    exampleStart.frames.Supply 0x200000 (exampleStart.paging.copyCount exampleStart.cr3 + 1) := by
  have hCount : exampleStart.paging.copyCount exampleStart.cr3 = 2 := by decide +kernel
  have hCalls : ((exampleFrames.getPages 0x200000 1).bind fun x =>
      (x.1.getPages 0x200000 1).bind fun y => (y.1.getPages 0x200000 1).map fun z =>
        (x.2, y.2, z.2)) = some (0x201000, 0x203000, 0x205000) := by
    decide
  obtain ⟨⟨s₁, addr₁⟩, hFirst, hCalls⟩ := Option.bind_eq_some_iff.mp hCalls
  obtain ⟨⟨s₂, addr₂⟩, hSecond, hCalls⟩ := Option.bind_eq_some_iff.mp hCalls
  obtain ⟨⟨s₃, addr₃⟩, hThird, hAddr⟩ := Option.map_eq_some_iff.mp hCalls
  simp only [Prod.mk.injEq] at hAddr
  obtain ⟨rfl, rfl, rfl⟩ := hAddr
  rw [hCount]
  exact Supply.next hFirst (by decide) (Supply.next hSecond (by decide)
    (Supply.next hThird (by decide) (Supply.zero s₃)))

theorem exampleStart_enough :
    exampleStart.frames.Supply 0x200000 (exampleStart.paging.copyCount exampleStart.cr3) :=
  exampleStart_supply.mono (Nat.le_add_right _ 1)

theorem exampleStart_newSlot : exampleStart.kernel.newSlot 1 5 = some 1 := by decide

end ArtOS.PageRun

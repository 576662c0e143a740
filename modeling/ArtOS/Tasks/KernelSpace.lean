import ArtOS.Memory.UserUsage
import ArtOS.Tasks.FrameOwners

/-! The kernel part of the address spaces. A copy of a page map translates
every page as its original does, but the page tables are copied, too: what
`page_map` enters later is seen by the task that called it, and by no other. -/
namespace ArtOS

namespace Paging

open Frames

/-- An entry of a page table that user space cannot use, and that is no self-reference. -/
def KernelLeaf (_ : Holding) (e : PageEntry) : Prop := ¬ e.Has pgUser ∧ ¬ e.Has pgSelf

theorem kernelLeaf_rule : CopyRule KernelLeaf where
  mono _ _ _ _ hLeaf := hLeaf
  zero _ := ⟨PageEntry.not_has_zero, PageEntry.not_has_zero⟩
  tmp _ e hFlags := by
    rw [KernelLeaf, PageEntry.Has, PageEntry.Has, hFlags]
    decide
  fresh _ _ _ hLeaf _ := hLeaf

variable {used : Finset Nat} {held : List (Nat × Nat)} {b s : Paging} {roots : Set Nat}
  {p q d v : Nat}

/-- The word of a table that is copied from a kernel table is the same, or both are empty. -/
theorem Image.kernel {r : Holding} {e e' : PageEntry} (h : Image r e e')
    (hLeaf : KernelLeaf r e) : e' = e ∨ ¬ e.Has pgPresent ∧ ¬ e'.Has pgPresent := by
  cases h with
  | dropped h =>
      rcases h with hAbsent | hSelf
      · exact Or.inr ⟨hAbsent, PageEntry.not_has_zero⟩
      · exact absurd hSelf.2 hLeaf.2
  | shared => exact Or.inl rfl
  | fresh hUser => exact absurd hUser.2 hLeaf.1

section Copy

variable (hBase : b.Maps KernelLeaf used held roots) (hp : p ∈ roots)
include hBase hp

theorem Maps.no_userLeaf : ¬ b.UserLeaf p := by
  rintro ⟨i, hi, hPresent, j, hj, hUser⟩
  exact ((hBase.table p hp i hi hPresent).2.2.leaf j hj).1 hUser.2

/-- A copy of the kernel changes no table that was in use. -/
theorem Copied.table_word (h : Copied held b s p d) {f : Nat} (hf : b.frames.Marked f) (hfp : f ≠ p)
    (j : Nat) : s.mem f j = b.mem f j := by
  rcases h.old f hf j fun he => absurd he hfp with hSame | hShifted
  · exact hSame
  · exact absurd hShifted.leaf (hBase.no_userLeaf hp)

/-- The maps that were there translate as before. -/
theorem Copied.walk_old (h : Copied held b s p d) (hq : q ∈ roots) (hv : v < lowPages) :
    walk s.mem q v = walk b.mem q v := by
  have hi := table_of_low hv
  have hWord : s.mem q (v / pageMapEntries) = b.mem q (v / pageMapEntries) :=
    h.root_word hBase hp hq fun _ => by omega
  rw [walk, walk, hWord]
  by_cases hPresent : (b.mem q (v / pageMapEntries)).Has pgPresent
  · obtain ⟨_, hApart, hTable⟩ := hBase.table q hq _ hi hPresent
    rw [h.table_word hBase hp hTable.owned.marked fun he => absurd hp (he ▸ hApart)]
  · rw [if_neg fun hBoth => hPresent hBoth.1, if_neg fun hBoth => hPresent hBoth.1]

/-- The copy translates as the original does. -/
theorem Copied.walk_new (h : Copied held b s p d) (hv : v < lowPages) :
    walk s.mem d v = walk b.mem p v := by
  have hi := table_of_low hv
  obtain ⟨hAbsent, hThere⟩ := h.tables _ (by omega : v / pageMapEntries < pageMapEntries) hi
  rw [walk, walk]
  by_cases hPresent : (b.mem p (v / pageMapEntries)).Has pgPresent
  · obtain ⟨hFlags, _, hTable⟩ := hThere hPresent
    have hDir : (s.mem d (v / pageMapEntries)).Has pgPresent :=
      (PageEntry.has_congr hFlags).mpr hPresent
    obtain ⟨e, he, hImage⟩ := hTable _ (Nat.mod_lt v (by decide) : v % pageMapEntries < pageMapEntries)
    obtain rfl := he.resolve_right fun hShifted => hBase.no_userLeaf hp hShifted.leaf
    have hLeaf := (hBase.table p hp _ hi hPresent).2.2.leaf _
      (Nat.mod_lt v (by decide) : v % pageMapEntries < pageMapEntries)
    rcases hImage.kernel hLeaf with hSame | ⟨hOld, hNew⟩
    · simp only [hDir, hPresent, hSame]
    · rw [if_neg fun hBoth => hNew hBoth.2, if_neg fun hBoth => hOld hBoth.2]
  · rw [if_neg fun hBoth => hAbsent hPresent hBoth.1, if_neg fun hBoth => hPresent hBoth.1]

/-- What is entered in the original afterwards does not show in the copy. -/
theorem Copied.unshared (h : Copied held b s p d) (hNew : ¬ b.frames.Marked d) (hv : v < lowPages)
    (hTable : (b.mem p (v / pageMapEntries)).Has pgPresent) {s' : Paging} (hMem : s'.mem = s.mem)
    {e : PageEntry} (he : e.Has pgPresent) :
    walk (s'.write (s'.mem p (v / pageMapEntries)).frame (v % pageMapEntries) e).mem p v = some e ∧
      walk (s'.write (s'.mem p (v / pageMapEntries)).frame (v % pageMapEntries) e).mem d v =
        walk b.mem p v := by
  have hi := table_of_low hv
  have hWord : s'.mem p (v / pageMapEntries) = b.mem p (v / pageMapEntries) := by
    rw [hMem]
    exact h.root_word hBase hp hp fun _ => by omega
  obtain ⟨_, hApart, hOld⟩ := hBase.table p hp _ hi hTable
  have hFresh := ((h.tables _ (by omega : v / pageMapEntries < pageMapEntries) hi).2 hTable).2.1
  constructor
  · refine walk_write ?_ ?_ he
    · rw [hWord]
      exact (ne_of_mem_of_not_mem hp hApart).symm
    · rw [hWord]
      exact hTable
  · rw [walk_write_of_ne, hMem, h.walk_new hBase hp hv]
    · rw [hWord]
      exact fun hSame => hNew (hSame ▸ hOld.owned.marked)
    · rw [hWord, hMem]
      exact fun hSame => hFresh.free (hSame ▸ hOld.owned.marked)

end Copy

section Others

variable {Leaf : Holding → PageEntry → Prop} {kernelEnd vpn n : Nat}

/-- `page_map` changes what the pages of its range translate to in its own map, and nothing else. -/
theorem Owners.pageMap_walk (h : s.Owners Leaf used held roots) (hp : p ∈ roots)
    {viraddr phyaddr npages : Nat} {bits : BitVec 12} {ret : Int} {s' : Paging} (hPages : 0 < npages)
    (hRange : viraddr >>> pageBits + npages ≤ lowPages)
    (hCall : s.pageMap kernelEnd p viraddr phyaddr npages bits = some (s', ret)) (hq : q ∈ roots)
    (hv : v < lowPages) (hOut : q = p → ∀ k < npages, v ≠ viraddr >>> pageBits + k) :
    walk s'.mem q v = walk s.mem q v := by
  have hLevel := h.twoLevel hp
  obtain ⟨new, tables, hDone⟩ := hLevel.pageMap hPages hRange (h.maps.unused_grants hp) hCall
  by_cases hqp : q = p
  · subst hqp
    have hSelf : lowPages ≤ self 0 := by decide
    have hWindow : ¬ s.Entered s' q v := by
      rintro ⟨i, _, hi, _⟩
      omega
    exact hDone.walk_other hLevel hRange (hv.trans (by decide)) (fun _ => hOut rfl) hWindow
  · exact (h.map_others hp hDone hRange hq hqp).walk_eq hv

theorem Owners.unmapPages_walk (h : s.Owners Leaf used held roots) (hp : p ∈ roots) {s' : Paging}
    (hRange : vpn + n ≤ lowPages) (hCall : s.unmapPages p n vpn = some s') (hq : q ∈ roots)
    (hv : v < lowPages) (hOut : q = p → ∀ k < n, v ≠ vpn + k) : walk s'.mem q v = walk s.mem q v := by
  have hLevel := h.twoLevel hp
  obtain ⟨_, hRewrites⟩ := hLevel.unmapPages (hRange.trans lowPages_le) hCall
  by_cases hqp : q = p
  · subst hqp
    exact hRewrites.walk_other hLevel (hRange.trans lowPages_le) (hv.trans (by decide)) (hOut rfl)
  · exact (h.unmap_others hp hRewrites hRange hq hqp).walk_eq hv

end Others

end Paging

namespace PageRun

open Frames Paging Kernel

/-- The pages below `KERNEL_SPACE` that lie in an area of the kernel list. -/
def KernelPage (r : PageRun) (v : Nat) : Prop :=
  v <<< pageBits < kernelSpace ∧
    ∃ nodes, LinkedList.Chain r.vmas.vmas.next r.vmas.vmas.vmaList nodes ∧ ∃ n ∈ nodes,
      (r.vmas.vmas.area n).start ≤ v <<< pageBits ∧
      v <<< pageBits < (r.vmas.vmas.area n).endAddr

/-- The page maps of all live tasks translate the kernel pages alike. -/
def Shared (r : PageRun) : Prop :=
  ∀ t u, r.kernel.task.status t ≠ .invalid → r.kernel.task.status u ≠ .invalid →
    ∀ v, r.KernelPage v →
      (walk r.mem (root r.kernel t) v).map PageEntry.frame =
        (walk r.mem (root r.kernel u) v).map PageEntry.frame

/-- Tasks are created, with frames enough for their page maps, and switched; the kernel maps and
unmaps pages for itself, below the self-references. -/
def Kernelside (kernelEnd : Nat) (r : PageRun) : PageCall → Prop
  | .create ep _ prio => r.kernel.newSlot ep prio ≠ none →
      r.frames.Supply kernelEnd (r.paging.copyCount r.cr3)
  | .map viraddr _ npages bits => viraddr >>> pageBits + npages ≤ lowPages ∧
      bits &&& pgUser = 0 ∧ bits &&& pgSelf = 0
  | .unmap viraddr npages => viraddr >>> pageBits + npages ≤ lowPages
  | .drop | .exit | .fault _ _ => False
  | _ => True

/-- The current task is the only one that is live. -/
def Alone (r : PageRun) : Prop :=
  ∀ t, r.kernel.task.status t ≠ .invalid → t = r.kernel.currentTask

/-- All live page maps have the same page table for the page. -/
def OneTable (r : PageRun) (v : Nat) : Prop :=
  ∀ t, r.kernel.task.status t ≠ .invalid →
    (r.mem (root r.kernel t) (v / pageMapEntries)).Has pgPresent ∧
      (r.mem (root r.kernel t) (v / pageMapEntries)).frame = (r.mem r.cr3 (v / pageMapEntries)).frame

/-- What is done to the pages shows in all live page maps, or concerns none of the kernel's pages. -/
def Shows (r : PageRun) (vpn npages : Nat) : Prop :=
  r.Alone ∨ ∀ k < npages, kernelSpace ≤ (vpn + k) <<< pageBits ∨ r.OneTable (vpn + k)

/-- The page tables of the kernel are edited only where all tasks see it. -/
def Early (kernelEnd : Nat) (r : PageRun) (call : PageCall) : Prop :=
  r.Kernelside kernelEnd call ∧
    match call with
    | .map viraddr _ npages _ | .unmap viraddr npages => r.Shows (viraddr >>> pageBits) npages
    | _ => True

/-- The pages below `KERNEL_SPACE`. -/
abbrev kernelPages : Nat := kernelSpace >>> pageBits

/-- All page maps in use translate the pages of the kernel alike. -/
def Agreed (mem : Nat → Nat → PageEntry) (roots : Set Nat) : Prop :=
  ∀ p ∈ roots, ∀ q ∈ roots, ∀ v < kernelPages, walk mem p v = walk mem q v

variable {r r' : PageRun} {a : RunQueue} {kernelEnd : Nat} {used : Finset Nat}
  {leaked : List (Nat × Nat)} {s : Paging}

theorem Kernelside.keeps {call : PageCall} (h : r.Kernelside kernelEnd call) : r.Keeps kernelEnd call := by
  cases call with
  | map viraddr phyaddr npages bits => exact ⟨h.1, fun hUser => absurd h.2.1 hUser⟩
  | unmap viraddr npages => exact h
  | create ep arg prio => exact h
  | drop => exact h
  | exit => exact h.elim
  | fault viraddr heap => exact h.elim
  | _ => exact trivial

/-- No two tasks share a page table. -/
theorem Owning.alone (h : r.Owning leaked a) (hStay : ∀ t, r.exiting t = false) {v : Nat} (hv : v < lowPages)
    (hOne : r.OneTable v) : r.Alone := by
  intro t ht
  have hCurrent := h.usable_current (hStay _)
  have hi := table_of_low hv
  obtain ⟨hPresent, hFrame⟩ := hOne t ht
  obtain ⟨hPresent', _⟩ := hOne _ hCurrent.1
  have hSame := (h.owners.exclusive _ (mem_usable ⟨ht, hStay t⟩) _ (mem_usable hCurrent)
    (.table (v / pageMapEntries)) (.table (v / pageMapEntries)) _ ⟨⟨hi, hPresent⟩, hFrame⟩
    ⟨⟨hi, hPresent'⟩, rfl⟩).1
  exact h.apart t _ ⟨ht, hStay t⟩ hCurrent hSame

theorem Shows.cases (h : r.Shows vpn npages) (hOwning : r.Owning leaked a) (hStay : ∀ t, r.exiting t = false)
    (hRange : vpn + npages ≤ lowPages) : r.Alone ∨ ∀ k < npages, kernelPages ≤ vpn + k := by
  by_cases hAlone : r.Alone
  · exact Or.inl hAlone
  · refine Or.inr fun k hk => ?_
    rcases h.resolve_left hAlone k hk with hUser | hOne
    · rw [Nat.shiftLeft_eq] at hUser
      have hPages : kernelPages * 2 ^ pageBits ≤ (vpn + k) * 2 ^ pageBits := hUser
      exact Nat.le_of_mul_le_mul_right hPages (by decide)
    · exact absurd (hOwning.alone hStay (by omega) hOne) hAlone

/-- A new entry of `page_map`. -/
theorem kernelLeaf_page {s : Holding} {f : Nat} {bits : BitVec 12} (hUser : bits &&& pgUser = 0)
    (hSelf : bits &&& pgSelf = 0) : KernelLeaf s ⟨f, bits ||| pgPresent⟩ := by
  constructor
  · exact fun h => (PageEntry.or_and_ne_zero.mp h).elim (fun hne => hne hUser) fun hne =>
      hne (by decide)
  · exact fun h => (PageEntry.or_and_ne_zero.mp h).elim (fun hne => hne hSelf) fun hne =>
      hne (by decide)

theorem Alone.agreed (h : r.Alone) (s : Paging) : Agreed s.mem (rootsOf (r.setPaging s).kernel) := by
  have hOnly : ∀ p ∈ rootsOf (r.setPaging s).kernel, p = r.cr3 := by
    rintro p ⟨t, hLive, rfl⟩
    rw [(setPaging_task t).1] at hLive
    rw [(setPaging_task t).2, h t hLive]
    rfl
  intro p hp q hq v _
  rw [hOnly p hp, hOnly q hq]

/-- A new task joins the agreement. -/
theorem Agreed.create {ep arg prio d : Nat} {s : Paging} {a' : RunQueue}
    (hAgreed : Agreed r.mem (rootsOf r.kernel)) (h : r.Inv KernelLeaf used a)
    (hCreated : Created used ep arg prio r r' s d a') : Agreed r'.mem (rootsOf r'.kernel) := by
  have hBase := h.maps
  have hp := mem_roots h
  have hMem : r'.mem = s.mem := by rw [hCreated.rest]
  have hSame : ∀ q ∈ rootsOf r'.kernel, ∀ v < kernelPages, walk r'.mem q v = walk r.mem r.cr3 v := by
    intro q hq v hKernel
    have hv : v < lowPages := hKernel.trans (by decide)
    rw [hMem]
    rcases Set.mem_insert_iff.mp (hCreated.rootsOf hq) with rfl | hOld
    · exact hCreated.copied.walk_new hBase hp hv
    · exact (hCreated.copied.walk_old hBase hp hOld hv).trans (hAgreed q hOld _ hp v hKernel)
  intro p hp' q hq v hv
  rw [hSame p hp' v hv, hSame q hq v hv]

/-- The page maps are in order, and they agree; no task has dropped its own. -/
structure Uniform (used : Finset Nat) (r : PageRun) (a : RunQueue) : Prop where
  inv : r.Inv KernelLeaf used a
  agreed : Agreed r.mem (rootsOf r.kernel)
  stays : ∀ t, r.exiting t = false

theorem Uniform.call (h : r.Uniform used a) (call : Call) {k : Kernel}
    (hAllowed : call.Allowed (fun k => k.currentStatus = .running) r.kernel)
    (hCreate : ∀ ep arg prio pages, call ≠ .create ep arg prio pages)
    (hExec : call.exec r.kernel = some k) : ∃ a', Uniform used { r with kernel := k } a' := by
  obtain ⟨a', hInv⟩ := h.inv.call kernelLeaf_rule.toLeafRule call hAllowed hCreate hExec r.exiting
  refine ⟨a', hInv, fun p hp q hq => h.agreed p ?_ q ?_, h.stays⟩
  · exact call_roots h.inv hAllowed hCreate hExec hp
  · exact call_roots h.inv hAllowed hCreate hExec hq

/-- The pages of the kernel translate as before. -/
theorem Uniform.kept (h : r.Uniform used a)
    (hSame : ∀ q ∈ r.usable, ∀ v < kernelPages, walk s.mem q v = walk r.mem q v) :
    Agreed s.mem (rootsOf (r.setPaging s).kernel) := by
  have hUsable : ∀ q ∈ rootsOf r.kernel, q ∈ r.usable := by
    rintro q ⟨t, ht, rfl⟩
    exact mem_usable ⟨ht, h.stays t⟩
  rw [setPaging_roots]
  intro p hp q hq v hv
  rw [hSame p (hUsable p hp) v hv, hSame q (hUsable q hq) v hv]
  exact h.agreed p hp q hq v hv

/-- Pages are mapped where no page map but the current one shows them, or above the kernel's. -/
theorem Uniform.map {a₀ : RunQueue} {viraddr phyaddr npages : Nat} {bits : BitVec 12} (h : r.Uniform used a)
    (hOwning : r.Owning leaked a₀) (hAllowed : r.Allowed (.map viraddr phyaddr npages bits))
    (hEarly : r.Early kernelEnd (.map viraddr phyaddr npages bits))
    (hExec : r.exec kernelEnd (.map viraddr phyaddr npages bits) = some r') : r'.Uniform used a := by
  obtain ⟨⟨hRange, hUser, hSelf⟩, hShows⟩ := hEarly
  have hCr3 := mem_usable (hOwning.usable_current (h.stays _))
  have hInv := h.inv.map kernelLeaf_rule.toLeafRule hAllowed.2 hRange (fun k _ => kernelLeaf_page hUser hSelf)
    hExec
  obtain ⟨⟨s, ret⟩, hMap, rfl⟩ := Option.map_eq_some_iff.mp hExec
  refine ⟨hInv, ?_, h.stays⟩
  rcases hShows.cases hOwning h.stays hRange with hAlone | hAbove
  · exact hAlone.agreed s
  · refine h.kept fun q hq v hv => ?_
    refine hOwning.owners.pageMap_walk hCr3 hAllowed.2 hRange hMap hq (hv.trans (by decide)) fun _ k hk => ?_
    exact (hv.trans_le (hAbove k hk)).ne

theorem Uniform.unmap {a₀ : RunQueue} {viraddr npages : Nat} (h : r.Uniform used a)
    (hOwning : r.Owning leaked a₀) (hEarly : r.Early kernelEnd (.unmap viraddr npages))
    (hExec : r.exec kernelEnd (.unmap viraddr npages) = some r') : r'.Uniform used a := by
  obtain ⟨hSide, hShows⟩ := hEarly
  have hCr3 := mem_usable (hOwning.usable_current (h.stays _))
  have hInv := h.inv.unmap kernelLeaf_rule.toLeafRule hSide hExec
  obtain ⟨⟨s, ret⟩, hUnmap, rfl⟩ := Option.map_eq_some_iff.mp hExec
  obtain ⟨s₁, hPages, hPair⟩ := Option.map_eq_some_iff.mp hUnmap
  obtain ⟨rfl, rfl⟩ := Prod.mk.inj hPair
  refine ⟨hInv, ?_, h.stays⟩
  rcases hShows.cases hOwning h.stays hSide with hAlone | hAbove
  · exact hAlone.agreed _
  · refine h.kept fun q hq v hv => ?_
    refine hOwning.owners.unmapPages_walk hCr3 hSide hPages hq (hv.trans (by decide)) fun _ k hk => ?_
    exact (hv.trans_le (hAbove k hk)).ne

theorem Uniform.early {call : PageCall} {a₀ : RunQueue} (h : r.Uniform used a) (hOwning : r.Owning leaked a₀)
    (hAllowed : r.Allowed call) (hEarly : r.Early kernelEnd call) (hExec : r.exec kernelEnd call = some r') :
    ∃ a', r'.Uniform used a' := by
  have hSide := hEarly.1
  have hRule := kernelLeaf_rule.toLeafRule
  cases call with
  | create ep arg prio =>
      rcases h.inv.create_cases hSide hExec with rfl | ⟨s, d, a', hCreated⟩
      · exact ⟨a, h⟩
      · refine ⟨a', hCreated.inv kernelLeaf_rule h.inv, h.agreed.create h.inv hCreated, ?_⟩
        rw [hCreated.rest]
        exact h.stays
  | schedule =>
      obtain ⟨k, hCall, rfl⟩ := Option.map_eq_some_iff.mp hExec
      exact h.call .schedule trivial (fun _ _ _ _ he => nomatch he) hCall
  | block =>
      obtain ⟨k, hCall, rfl⟩ := Option.map_eq_some_iff.mp hExec
      exact h.call .block trivial (fun _ _ _ _ he => nomatch he) hCall
  | wakeup id =>
      obtain ⟨k, hCall, rfl⟩ := Option.map_eq_some_iff.mp hExec
      exact h.call (.wakeup id) trivial (fun _ _ _ _ he => nomatch he) hCall
  | drop => exact hSide.elim
  | exit => exact hSide.elim
  | map viraddr phyaddr npages bits => exact ⟨a, h.map hOwning hAllowed hEarly hExec⟩
  | unmap viraddr npages => exact ⟨a, h.unmap hOwning hEarly hExec⟩
  | fault viraddr heap => exact hSide.elim
  | get npages =>
      have hInv := h.inv.get hRule hExec
      obtain ⟨_, _, rfl⟩ := Option.map_eq_some_iff.mp hExec
      exact ⟨a, hInv, h.agreed, h.stays⟩
  | split block npages =>
      have hInv := h.inv.split hRule hAllowed.1 hAllowed.2.1 hAllowed.2.2 hExec
      obtain rfl := Option.some.inj hExec
      exact ⟨a, hInv, h.agreed, h.stays⟩
  | put block =>
      have hInv := h.inv.put hRule hAllowed.2 hExec
      obtain ⟨_, _, rfl⟩ := Option.map_eq_some_iff.mp hExec
      exact ⟨a, hInv, h.agreed, h.stays⟩
  | vma call answer fuel =>
      have hInv := h.inv.vma hExec
      obtain ⟨_, _, rfl⟩ := Option.map_eq_some_iff.mp hExec
      exact ⟨a, hInv, h.agreed, h.stays⟩

theorem Uniform.shared (h : r.Uniform used a) : r.Shared := by
  intro t u ht hu v ⟨hKernel, _⟩
  rw [Nat.shiftLeft_eq] at hKernel
  have hLow : v < kernelPages :=
    Nat.lt_of_mul_lt_mul_right (hKernel.trans_le (by decide : kernelSpace ≤ kernelPages * 2 ^ pageBits))
  rw [h.agreed _ ⟨t, ht, rfl⟩ _ ⟨u, hu, rfl⟩ v hLow]

theorem Initial.uniform (h : Initial kernelEnd r) : ∃ a, r.Uniform r.frames.usedFrames a := by
  obtain ⟨a, hInv⟩ := h.inv fun _ _ hUser hSelf => (⟨hUser, hSelf⟩ : KernelLeaf _ _)
  refine ⟨a, hInv, fun p hp q hq v _ => ?_, h.exiting⟩
  rw [Set.mem_singleton_iff.mp (h.idle.2 hp), Set.mem_singleton_iff.mp (h.idle.2 hq)]

theorem reachable_uniform (h : Reachable kernelEnd (Early kernelEnd) r) :
    (∃ used a, r.Uniform used a) ∧ ∃ leaked a, r.Owning leaked a := by
  refine h.invariant (P := fun r => (∃ used a, r.Uniform used a) ∧ ∃ leaked a, r.Owning leaked a)
    (fun r hr => ⟨⟨_, hr.uniform⟩, [], hr.owning⟩) ?_
  rintro r r' ⟨⟨used, a, hr⟩, leaked, a₀, hOwning⟩ ⟨call, hAllowed, hEarly, hExec⟩
  obtain ⟨leaked', a₁, hOwning', _⟩ := hOwning.step hAllowed (Or.inr hEarly.1.keeps) hExec
  exact ⟨⟨used, hr.early hOwning hAllowed hEarly hExec⟩, leaked', a₁, hOwning'⟩

/-- As long as the page tables of the kernel are edited only where all tasks see it, all page maps show
the same kernel. -/
theorem reachable_shared (h : Reachable kernelEnd (Early kernelEnd) r) : r.Shared := by
  obtain ⟨⟨used, a, hUniform⟩, _⟩ := reachable_uniform h
  exact hUniform.shared

/-- A task is created, and then the idle task maps a page of user space. -/
theorem reachable_shared_example :
    ∃ r r' : PageRun, r.kernel.task.status 1 = .ready ∧
      r.exec 0x200000 (.map kernelSpace 0x200000 1 pgRw) = some r' ∧ r'.Shared := by
  obtain ⟨a, hUniform⟩ := exampleStart_initial.uniform
  obtain ⟨r, s, d, a₁, hExec, hCreated, _⟩ := hUniform.inv.created 1 0 5
    (by simp [exampleStart_newSlot]) exampleStart_supply
  have hReach : Reachable 0x200000 (Early 0x200000) r :=
    (Transition.Reachable.of_init exampleStart_initial).next
      ⟨.create 1 0 5, rfl, ⟨fun _ => exampleStart_enough, trivial⟩, hExec⟩
  have hInv := hCreated.inv kernelLeaf_rule hUniform.inv
  have hRange : kernelSpace >>> pageBits + 1 ≤ lowPages := by decide
  have hLeaf : ∀ k < 1, KernelLeaf ⟨r.frames, r.held⟩ ⟨0x200000 >>> pageBits + k, pgRw ||| pgPresent⟩ :=
    fun k _ => kernelLeaf_page (by decide) (by decide)
  obtain ⟨s', ret, hMap, _⟩ := hInv.maps.pageMap kernelLeaf_rule.toLeafRule (mem_roots hInv) 0x200000
    Nat.one_pos hRange (List.Sublist.refl _) hLeaf
  obtain ⟨r', hExec'⟩ : ∃ r', r.exec 0x200000 (.map kernelSpace 0x200000 1 pgRw) = some r' := by
    rw [exec, pageMap, hMap]
    exact ⟨_, rfl⟩
  have hStay : r.exiting r.kernel.currentTask = false := by
    rw [hCreated.rest]
    rfl
  have hShows : r.Shows (kernelSpace >>> pageBits) 1 := Or.inr fun k hk => Or.inl (by
    obtain rfl : k = 0 := by omega
    decide)
  exact ⟨r, r', (hCreated.roots_eq exampleStart_newSlot).1, hExec', reachable_shared (hReach.next
    ⟨.map kernelSpace 0x200000 1 pgRw, ⟨hStay, Nat.one_pos⟩, ⟨⟨hRange, by decide, by decide⟩, hShows⟩, hExec'⟩)⟩

/-- The area that the first `palloc` of a page gets. -/
theorem start_alloc : ∃ vmas, VmaRun.start.exec (.alloc 0x1000 vmaHeap) none 10 = some vmas ∧
    vmas.vmas.vmaList = some 1 ∧ vmas.vmas.next 1 = none ∧
    vmas.vmas.area 1 = ⟨0xC0000, 0xC1000, vmaHeap⟩ := by
  have hView : (VmaRun.start.exec (.alloc 0x1000 vmaHeap) none 10).map
      (fun s => (s.vmas.vmaList, s.vmas.next 1, s.vmas.area 1)) =
      some (some 1, none, ⟨0xC0000, 0xC1000, vmaHeap⟩) := by decide
  obtain ⟨vmas, hExec, hLinks⟩ := Option.map_eq_some_iff.mp hView
  simp only [Prod.mk.injEq] at hLinks
  exact ⟨vmas, hExec, hLinks.1, hLinks.2.1, hLinks.2.2⟩

/-- The idle task creates a task, and then `palloc` maps a page for it. -/
theorem palloc_unshared :
    ¬ ∀ kernelEnd r, Reachable kernelEnd (Kernelside kernelEnd) r → r.Shared := by
  intro h
  obtain ⟨a, hUniform⟩ := exampleStart_initial.uniform
  have hBase := hUniform.inv.maps
  have hp := mem_roots hUniform.inv
  obtain ⟨r₁, s, d, a₁, hExec₁, hCreated, hSupply⟩ := hUniform.inv.created 1 0 5
    (by simp [exampleStart_newSlot]) exampleStart_supply
  obtain ⟨hReady, hCurrent, hRoot, hRoots⟩ := hCreated.roots_eq exampleStart_newSlot
  obtain ⟨k, hr₁⟩ : ∃ k, r₁ = { exampleStart with kernel := k, mem := s.mem, frames := s.frames } :=
    ⟨_, hCreated.rest⟩
  have hCurrent₁ : r₁.kernel.currentTask = 0 := hCurrent
  have hCr3 : r₁.cr3 = exampleStart.cr3 := by
    rw [cr3, hCurrent₁, hRoots 0 (by decide)]
    rfl
  have hInv₁ := hCreated.inv kernelLeaf_rule hUniform.inv
  have hRoot₁ := hInv₁.maps.root _ (mem_roots hInv₁)
  have hReach₁ : Reachable 0x200000 (Kernelside 0x200000) r₁ :=
    (Transition.Reachable.of_init exampleStart_initial).next
      ⟨.create 1 0 5, rfl, fun _ => exampleStart_enough, hExec₁⟩
  cases hSupply with
  | @next _ _ frames addr hGet hAddr _ =>
  obtain ⟨vmas, hAlloc, hHead, hNext, hArea⟩ := start_alloc
  generalize hr₃ : ({ r₁ with vmas := vmas, frames := frames, held := [(addr, 1)] } : PageRun) = r₃
  have hPaging : r₃.paging.mem = s.mem := by rw [← hr₃, paging, hr₁]
  have hCr3₃ : r₃.cr3 = exampleStart.cr3 := by
    rw [← hr₃]
    exact hCr3
  have hReach₃ : Reachable 0x200000 (Kernelside 0x200000) r₃ := by
    refine (hReach₁.next (t := { r₁ with vmas := vmas })
      ⟨.vma (.alloc 0x1000 vmaHeap) none 10, ⟨rfl, fun _ hNode => by cases hNode⟩, trivial, ?_⟩).next
      ⟨.get 1, ?_, trivial, ?_⟩
    · have hVmas : r₁.vmas = VmaRun.start := by
        rw [hr₁]
        rfl
      rw [exec, hVmas, hAlloc, Option.map_some]
    · rw [hr₁]
      rfl
    · have hFrames : r₁.frames = s.frames := by rw [hr₁]
      have hHeld : r₁.held = [] := by
        rw [hr₁]
        rfl
      show PageRun.getPages 0x200000 { r₁ with vmas := vmas } 1 = some r₃
      rw [PageRun.getPages, show ({ r₁ with vmas := vmas } : PageRun).frames = s.frames from hFrames,
        hGet, Option.map_some]
      dsimp only
      rw [if_neg hAddr, ← hr₃, hHeld]
  have hTable : (r₃.paging.mem exampleStart.cr3 (0xC0 / pageMapEntries)).Has pgPresent := by
    rw [hPaging, ← hCr3]
    have hLow := hRoot₁.low
    rw [hr₁] at hLow ⊢
    exact hLow
  have hRooted : r₃.paging.Rooted exampleStart.cr3 := by
    obtain ⟨hFrame, hSelf⟩ := hRoot₁.rooted
    rw [hCr3, paging, hr₁] at hFrame hSelf
    exact ⟨hPaging ▸ hFrame, hPaging ▸ hSelf⟩
  generalize hEntry : (⟨addr >>> pageBits, pgRw ||| pgGlobal ||| pgPresent⟩ : PageEntry) = e
  have hThere : e.Has pgPresent := hEntry ▸ PageEntry.has_page
  obtain ⟨hSeen, hUnseen⟩ := hCreated.copied.unshared hBase hp hCreated.free
    (by decide : 0xC0 < lowPages) (hBase.root _ hp).low hPaging hThere
  generalize hw : r₃.paging.write (r₃.paging.mem exampleStart.cr3 (0xC0 / pageMapEntries)).frame
    (0xC0 % pageMapEntries) e = w at hSeen hUnseen
  have hMap : r₃.paging.pageMap 0x200000 exampleStart.cr3 0xC0000 addr 1 (pgRw ||| pgGlobal) =
      some (w, 0) := by
    rw [← hw, ← hEntry]
    exact hRooted.pageMap_one addr _ (by decide) hTable
  have hReach₄ : Reachable 0x200000 (Kernelside 0x200000) (r₃.setPaging w) := by
    refine hReach₃.next ⟨.map 0xC0000 addr 1 (pgRw ||| pgGlobal), ⟨?_, Nat.one_pos⟩,
      ⟨by decide, by decide, by decide⟩, ?_⟩
    · rw [← hr₃, hr₁]
      rfl
    · show r₃.pageMap 0x200000 0xC0000 addr 1 (pgRw ||| pgGlobal) = _
      rw [PageRun.pageMap, hCr3₃, hMap, Option.map_some]
      rfl
  have hStart : walk exampleStart.mem exampleStart.cr3 0xC0 = none := by decide
  have hKernel : r₃.kernel = r₁.kernel := by rw [← hr₃]
  have hIdle : r₁.kernel.task.status 0 ≠ .invalid := by
    rw [← hCurrent₁, hInv₁.sound.represents.status, hInv₁.sound.represents.current]
    exact hInv₁.sound.inv.current
  have hPage : (r₃.setPaging w).KernelPage 0xC0 := by
    rw [← hr₃]
    refine ⟨by decide, [1], ?_, 1, List.mem_singleton_self 1, ?_, ?_⟩
    · show LinkedList.Chain vmas.vmas.next vmas.vmas.vmaList [1]
      rw [hHead]
      exact ⟨rfl, hNext⟩
    · show (vmas.vmas.area 1).start ≤ _
      rw [hArea]
      decide
    · show _ < (vmas.vmas.area 1).endAddr
      rw [hArea]
      decide
  have hShared := h 0x200000 _ hReach₄ 0 1 (by rw [(setPaging_task 0).1, hKernel]; exact hIdle)
    (by rw [(setPaging_task 1).1, hKernel, hReady]; decide) 0xC0 hPage
  rw [(setPaging_task 0).2, (setPaging_task 1).2, hKernel, hRoot, hRoots 0 (by decide)] at hShared
  have hBoth : (walk w.mem exampleStart.cr3 0xC0).map PageEntry.frame =
      (walk w.mem d 0xC0).map PageEntry.frame := hShared
  rw [hSeen, hUnseen, show walk exampleStart.paging.mem exampleStart.cr3 0xC0 = none from hStart]
    at hBoth
  cases hBoth

end PageRun
end ArtOS

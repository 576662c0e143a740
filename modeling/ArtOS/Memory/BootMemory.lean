import ArtOS.Memory.BootFrames

/-! What `memory_init` leaves to `get_pages`: which frames it lets the allocator
hand out, which memory in use it protects, and whether the counters agree with
the bitmap then and after any further calls. -/
namespace ArtOS

open Strides

namespace MmapEntry

/-- The frame begins before the entry or ends after it. -/
def Cut (e : MmapEntry) (f : Nat) : Prop :=
  f * pageSize < e.addr ∨ e.addr + e.len < (f + 1) * pageSize

instance (e : MmapEntry) (f : Nat) : Decidable (e.Cut f) := inferInstanceAs (Decidable (_ ∨ _))

variable {e : MmapEntry} {f : Nat}

theorem available_of_visited (h : f ∈ e.visited) : e.type = multibootMemoryAvailable := by
  by_contra hType
  rw [visited, if_neg hType] at h
  cases h

/-- Below 4 GiB only the first and the last frame of an entry can be cut. -/
theorem cut_iff (hSmall : e.addr + e.len < 2 ^ 32) (h : f ∈ e.visited) :
    e.Cut f ↔ f = e.addr / pageSize ∧ e.addr % pageSize ≠ 0 ∨ f = (e.addr + e.len) / pageSize := by
  rw [visited, if_pos (available_of_visited h), Nat.mod_eq_of_lt (by omega),
    Nat.mod_eq_of_lt hSmall] at h
  obtain ⟨k, hk, rfl⟩ := (mem_visited (by decide)).mp h
  have hStop : e.addr + k * pageSize < e.addr + e.len := lt_of_lt_of_le hk (min_le_left _ _)
  have hPage : pageSize = 4096 := rfl
  clear hk
  rw [Cut]
  simp only [hPage] at hStop ⊢
  omega

end MmapEntry

namespace MultibootInfo

/-- The frame lies entirely inside one entry of available memory. -/
def Backed (info : MultibootInfo) (f : Nat) : Prop :=
  ∃ e ∈ info.mmap, e.type = multibootMemoryAvailable ∧ ¬ e.Cut f

instance (info : MultibootInfo) (f : Nat) : Decidable (info.Backed f) :=
  inferInstanceAs (Decidable (∃ e ∈ info.mmap, _))

/-- The frames with a byte of the kernel, of `mb_info`, of the list of modules or of a module. -/
def occupied (kernelEnd : Nat) (info : MultibootInfo) : Finset Nat :=
  touched pageSize kernelStart kernelEnd ∪
    touched pageSize info.address (info.address + sizeofMultibootInfo) ∪
    if info.flags &&& multibootInfoMods ≠ 0 then
      touched pageSize info.modsAddr
          (info.modsAddr + info.modules.length * sizeofMultibootModule) ∪
        info.modules.toFinset.biUnion fun m => touched pageSize m.modStart m.modEnd
    else ∅

/-- As many frames are counted as available as are neither counted as taken nor left free. -/
def Balanced (kernelEnd : Nat) (info : MultibootInfo) (vmaInit : VmaInit) : Prop :=
  info.marks kernelEnd + (if vmaInit.ret = 0 then info.moduleRounds else 0) +
    (info.freed \ info.used kernelEnd).card ≡ info.declared [MOD 2 ^ 32]

end MultibootInfo

namespace PageTotals

open Frames

variable {kernelEnd : Nat} {info : MultibootInfo} {vmaInit : VmaInit} {s s₁ s₂ : PageTotals}
  {ret : Int} {f : Nat}

/-- The frames that `vma_init` takes and keeps. -/
def vmaFrames (kernelEnd : Nat) (info : MultibootInfo) (vmaInit : VmaInit) : Finset Nat :=
  ((beforeVmaInit kernelEnd info static).bind fun s =>
    (runVmaInit kernelEnd vmaInit s).map fun s' => s'.usedFrames \ s.usedFrames).getD ∅

/-- The last loop over the modules counts them once more, if it is reached. -/
structure Finished (info : MultibootInfo) (vmaInit : VmaInit) (s₂ s : PageTotals) : Prop where
  marked : ∀ j, s.Marked j ↔ s₂.Marked j ∨ vmaInit.ret = 0 ∧ j ∈ info.moduleFrames
  small : s₂.available < 2 ^ 32 → s.available < 2 ^ 32
  available : s.available + (if vmaInit.ret = 0 then info.moduleRounds else 0) ≡
    s₂.available [MOD 2 ^ 32]
  sum : s.allocated + s.available ≡ s₂.allocated + s₂.available [MOD 2 ^ 32]
  total : s.total = s₂.total

theorem inBounds_of_before (h : beforeVmaInit kernelEnd info s = some s₁) :
    info.InBounds kernelEnd := by
  by_contra hNot
  rw [beforeVmaInit_none hNot] at h
  cases h

theorem booted_of_before (h : beforeVmaInit kernelEnd info s = some s₁) :
    Booted kernelEnd info s s₁ := by
  obtain ⟨s', hExec, hBooted⟩ := beforeVmaInit_booted (s := s) (inBounds_of_before h)
  obtain rfl := Option.some.inj (h.symm.trans hExec)
  exact hBooted

theorem finish (vmaInit : VmaInit) (s₂ : PageTotals)
    (hModules : info.moduleFrames ⊆ Finset.range bitmapBits) :
    ∃ s, (if vmaInit.ret ≠ 0 then some (s₂, vmaInit.ret)
      else (useModules info s₂).map fun s => (s, vmaInit.ret)) = some (s, vmaInit.ret) ∧
        Finished info vmaInit s₂ s := by
  by_cases hRet : vmaInit.ret = 0
  · obtain ⟨s, hExec, hUsed⟩ := useModules_used (s := s₂) hModules
    refine ⟨s, by rw [if_neg (not_not.mpr hRet), hExec, Option.map_some], ?_, hUsed.small, ?_,
      hUsed.sum, hUsed.total⟩
    · intro j
      rw [hUsed.marked, and_iff_right hRet]
    · rw [if_pos hRet]
      exact hUsed.available
  · refine ⟨s₂, if_pos hRet, fun j => ?_, id, ?_, rfl, rfl⟩
    · rw [or_iff_left fun hBoth => hRet hBoth.1]
    · rw [if_neg hRet, Nat.add_zero]

theorem moduleFrames_subset_used (kernelEnd : Nat) (info : MultibootInfo) :
    info.moduleFrames ⊆ info.used kernelEnd :=
  (used_subset.mp (Finset.Subset.refl (info.used kernelEnd))).1.2.2

/-- The three parts of a call that comes back. -/
theorem memoryInit_cases (h : memoryInit kernelEnd info vmaInit static = some (s, ret)) :
    ∃ s₁ s₂, beforeVmaInit kernelEnd info static = some s₁ ∧
      runVmaInit kernelEnd vmaInit s₁ = some s₂ ∧ Finished info vmaInit s₂ s := by
  rw [memoryInit] at h
  obtain ⟨s₁, hBefore, h⟩ := Option.bind_eq_some_iff.mp h
  obtain ⟨s₂, hVma, h⟩ := Option.bind_eq_some_iff.mp h
  obtain ⟨s', hExec, hFinished⟩ := finish vmaInit s₂
    ((moduleFrames_subset_used kernelEnd info).trans (inBounds_of_before hBefore).used)
  obtain ⟨rfl, rfl⟩ := Prod.mk.inj (Option.some.inj (hExec.symm.trans h))
  exact ⟨s₁, s₂, hBefore, hVma, hFinished⟩

theorem runVmaInit_kept (h : runVmaInit kernelEnd vmaInit s₁ = some s₂) :
    (∀ j, s₁.Marked j → s₂.Marked j) ∧ Neutral s₁.toFrames s₂.toFrames ∧ s₂.total = s₁.total := by
  obtain ⟨r, hRun, rfl⟩ := Option.map_eq_some_iff.mp h
  have hStart : Holding.Kept s₁.toFrames ⟨s₁.toFrames, []⟩ :=
    ⟨fun j hj => hj, fun block hBlock => (nomatch hBlock), Neutral.refl _⟩
  have hKept := hStart.perform hRun
  exact ⟨hKept.marked, hKept.neutral, rfl⟩

theorem mem_vmaFrames (hBefore : beforeVmaInit kernelEnd info static = some s₁)
    (hVma : runVmaInit kernelEnd vmaInit s₁ = some s₂) (hf : f < bitmapBits) :
    f ∈ vmaFrames kernelEnd info vmaInit ↔ s₂.Marked f ∧ ¬ s₁.Marked f := by
  rw [vmaFrames, hBefore, Option.bind_some, hVma, Option.map_some, Option.getD_some,
    Finset.mem_sdiff, mem_usedFrames, mem_usedFrames]
  simp only [hf, true_and]

/-- The bitmap after `memory_init`. -/
theorem memoryInit_marked (h : memoryInit kernelEnd info vmaInit static = some (s, ret))
    (hf : f < bitmapBits) :
    s.Marked f ↔
      (f ∉ info.freed ∨ f ∈ info.used kernelEnd) ∨ f ∈ vmaFrames kernelEnd info vmaInit := by
  obtain ⟨s₁, s₂, hBefore, hVma, hFinished⟩ := memoryInit_cases h
  have hMarked := (booted_of_before hBefore).marked f hf
  have hKeep := (runVmaInit_kept hVma).1 f
  have hModule : f ∈ info.moduleFrames → s₁.Marked f := fun hMem =>
    hMarked.mpr (Or.inr (moduleFrames_subset_used kernelEnd info hMem))
  rw [mem_vmaFrames hBefore hVma hf, ← hMarked, hFinished.marked]
  tauto

theorem memoryInit_clear (h : memoryInit kernelEnd info vmaInit static = some (s, ret))
    (hf : f < bitmapBits) :
    ¬ s.Marked f ↔
      f ∈ info.freed ∧ f ∉ info.used kernelEnd ∧ f ∉ vmaFrames kernelEnd info vmaInit := by
  rw [memoryInit_marked h hf, not_or, not_or, not_not, and_assoc]

/-- Every free frame is available memory, exactly when each frame that the walk over an entry
visits and that this entry covers in part only is used, taken or inside another entry. -/
theorem clear_backed (hMap : info.flags &&& multibootInfoMemMap ≠ 0)
    (h : memoryInit kernelEnd info vmaInit static = some (s, ret)) :
    (∀ f < bitmapBits, ¬ s.Marked f → info.Backed f) ↔
      ∀ e ∈ info.mmap, ∀ f ∈ e.visited, e.Cut f →
        f ∈ info.used kernelEnd ∨ f ∈ vmaFrames kernelEnd info vmaInit ∨ info.Backed f := by
  have hFreed : ∀ f, f ∈ info.freed ↔ ∃ e ∈ info.mmap, f ∈ e.visited := by
    intro f
    rw [MultibootInfo.freed, if_pos hMap, Finset.mem_biUnion]
    simp only [List.mem_toFinset]
  constructor
  · intro hAll e he f hVisited _
    have hMem : f ∈ info.freed := (hFreed f).mpr ⟨e, he, hVisited⟩
    have hf : f < bitmapBits := Finset.mem_range.mp (freed_subset info hMap hMem)
    by_contra hNot
    rw [not_or, not_or] at hNot
    exact hNot.2.2 (hAll f hf ((memoryInit_clear h hf).mpr ⟨hMem, hNot.1, hNot.2.1⟩))
  · intro hAll f hf hClear
    obtain ⟨hMem, hUsed, hVma⟩ := (memoryInit_clear h hf).mp hClear
    obtain ⟨e, he, hVisited⟩ := (hFreed f).mp hMem
    by_cases hCut : e.Cut f
    · exact ((hAll e he f hVisited hCut).resolve_left hUsed).resolve_left hVma
    · exact ⟨e, he, MmapEntry.available_of_visited hVisited, hCut⟩

/-- The memory map of a machine whose low memory ends inside a page. -/
def biosInfo : MultibootInfo where
  address := 0x9fd0
  flags := multibootInfoMemMap
  memLower := 0
  memUpper := 0
  mmap := [⟨0, 0x9fc00, 1⟩, ⟨0x9fc00, 0x400, 2⟩, ⟨0x100000, 0x20000, 1⟩]
  modsAddr := 0
  modules := []

/-- `vma_init` takes one block of 16 pages for its nodes. -/
def oneBlock : VmaInit := ⟨[.get 16], 0⟩

theorem biosInfo_init : ∃ s, memoryInit 0x108000 biosInfo oneBlock static = some (s, 0) := by
  have hSome : ((memoryInit 0x108000 biosInfo oneBlock static).map Prod.snd) = some 0 := by
    decide +kernel
  obtain ⟨⟨s, ret⟩, hInit, rfl⟩ := Option.map_eq_some_iff.mp hSome
  exact ⟨s, hInit⟩

theorem clear_backed_bios : ∃ s, memoryInit 0x108000 biosInfo oneBlock static = some (s, 0) ∧
    ((∀ f < bitmapBits, ¬ s.Marked f → biosInfo.Backed f) ↔
      ∀ e ∈ biosInfo.mmap, ∀ f ∈ e.visited, e.Cut f →
        f ∈ biosInfo.used 0x108000 ∨ f ∈ vmaFrames 0x108000 biosInfo oneBlock ∨
          biosInfo.Backed f) := by
  obtain ⟨s, hInit⟩ := biosInfo_init
  exact ⟨s, hInit, clear_backed (by decide) hInit⟩

theorem clear_reserved : ∃ s f, memoryInit 0x108000 biosInfo oneBlock static = some (s, 0) ∧
    f < bitmapBits ∧ ¬ s.Marked f ∧ ¬ biosInfo.Backed f := by
  obtain ⟨s, hInit⟩ := biosInfo_init
  have hBit : ((memoryInit 0x108000 biosInfo oneBlock static).map fun r =>
      decide (r.1.Marked 0x9f)) = some false := by decide +kernel
  rw [hInit, Option.map_some] at hBit
  exact ⟨s, 0x9f, hInit, by decide, of_decide_eq_false (Option.some.inj hBit), by decide⟩

/-- All memory in use is protected, exactly when no bit outside the bitmap is changed and each
frame of it that became free is visited again or taken by `vma_init`. -/
theorem occupied_marked
    (hVma : (beforeVmaInit kernelEnd info static).all fun s =>
      (runVmaInit kernelEnd vmaInit s).isSome) :
    (∃ s ret, memoryInit kernelEnd info vmaInit static = some (s, ret) ∧
      ∀ f ∈ info.occupied kernelEnd, f < bitmapBits → s.Marked f) ↔
    info.InBounds kernelEnd ∧
      ∀ f ∈ info.occupied kernelEnd, f < bitmapBits → f ∈ info.freed →
        f ∈ info.used kernelEnd ∨ f ∈ vmaFrames kernelEnd info vmaInit := by
  constructor
  · rintro ⟨s, ret, hInit, hAll⟩
    obtain ⟨s₁, s₂, hBefore, _, _⟩ := memoryInit_cases hInit
    refine ⟨inBounds_of_before hBefore, fun f hOccupied hf hFreed => ?_⟩
    have hMarked := (memoryInit_marked hInit hf).mp (hAll f hOccupied hf)
    rcases hMarked with (hNot | hUsed) | hTaken
    · exact absurd hFreed hNot
    · exact Or.inl hUsed
    · exact Or.inr hTaken
  · rintro ⟨hBounds, hAll⟩
    obtain ⟨s₁, hBefore, _⟩ := beforeVmaInit_booted (s := static) hBounds
    rw [hBefore, Option.all_some] at hVma
    obtain ⟨s₂, hRun⟩ := Option.isSome_iff_exists.mp hVma
    obtain ⟨s, hExec, _⟩ := finish vmaInit s₂
      ((moduleFrames_subset_used kernelEnd info).trans hBounds.used)
    have hInit : memoryInit kernelEnd info vmaInit static = some (s, vmaInit.ret) := by
      rw [memoryInit, hBefore, Option.bind_some, hRun, Option.bind_some, hExec]
    refine ⟨s, _, hInit, fun f hOccupied hf => (memoryInit_marked hInit hf).mpr ?_⟩
    by_cases hFreed : f ∈ info.freed
    · rcases hAll f hOccupied hf hFreed with hUsed | hTaken
      · exact Or.inl (Or.inr hUsed)
      · exact Or.inr hTaken
    · exact Or.inl (Or.inl hFreed)

theorem occupied_marked_bios :
    (∃ s ret, memoryInit 0x108000 biosInfo oneBlock static = some (s, ret) ∧
      ∀ f ∈ biosInfo.occupied 0x108000, f < bitmapBits → s.Marked f) ↔
    biosInfo.InBounds 0x108000 ∧
      ∀ f ∈ biosInfo.occupied 0x108000, f < bitmapBits → f ∈ biosInfo.freed →
        f ∈ biosInfo.used 0x108000 ∨ f ∈ vmaFrames 0x108000 biosInfo oneBlock :=
  occupied_marked (by decide +kernel)

theorem info_clear : ∃ s f, memoryInit 0x108000 biosInfo oneBlock static = some (s, 0) ∧
    f ∈ biosInfo.occupied 0x108000 ∧ f < bitmapBits ∧ ¬ s.Marked f := by
  obtain ⟨s, hInit⟩ := biosInfo_init
  have hBit : ((memoryInit 0x108000 biosInfo oneBlock static).map fun r =>
      decide (r.1.Marked 0xa)) = some false := by decide +kernel
  rw [hInit, Option.map_some] at hBit
  exact ⟨s, 0xa, hInit, by decide, by decide, of_decide_eq_false (Option.some.inj hBit)⟩

theorem freed_range (h : info.InBounds kernelEnd) : info.freed ⊆ Finset.range bitmapBits := by
  by_cases hMap : info.flags &&& multibootInfoMemMap ≠ 0
  · exact freed_subset info hMap
  · obtain ⟨_, hLower⟩ := h.informed.resolve_left hMap
    have hUpper := min_le_right (info.memUpper >>> 2) (bitmapBits - 256)
    have hBits : 256 ≤ bitmapBits := by decide
    rw [MultibootInfo.freed, if_neg hMap]
    intro f hf
    rw [Finset.mem_union, Finset.mem_range, Finset.mem_Ico] at hf
    rw [Finset.mem_range]
    omega

theorem Booted.freeFrames (h : Booted kernelEnd info s s₁) (hBounds : info.InBounds kernelEnd) :
    s₁.freeFrames = info.freed \ info.used kernelEnd := by
  ext f
  rw [mem_freeFrames, Finset.mem_sdiff]
  constructor
  · rintro ⟨hf, hClear⟩
    rwa [h.marked f hf, not_or, not_not] at hClear
  · rintro ⟨hFreed, hUsed⟩
    have hf := Finset.mem_range.mp (freed_range hBounds hFreed)
    rw [h.marked f hf, not_or, not_not]
    exact ⟨hf, hFreed, hUsed⟩

/-- The counter agrees with the bitmap after `memory_init` if and only if the counts balance. -/
theorem memoryInit_counters (h : memoryInit kernelEnd info vmaInit static = some (s, ret)) :
    s.available < 2 ^ 32 ∧ s.total ≡ s.allocated + s.available [MOD 2 ^ 32] ∧
      (s.available ≡ s.freeFrames.card [MOD 2 ^ 32] ↔ info.Balanced kernelEnd vmaInit) := by
  obtain ⟨s₁, s₂, hBefore, hVma, hFinished⟩ := memoryInit_cases h
  have hBounds := inBounds_of_before hBefore
  have hBooted := booted_of_before hBefore
  obtain ⟨hKeep, hNeutral, hTotal⟩ := runVmaInit_kept hVma
  have hCard : s₁.freeFrames.card = (info.freed \ info.used kernelEnd).card := by
    rw [hBooted.freeFrames hBounds]
  have hSame : s.freeFrames = s₂.freeFrames := by
    refine freeFrames_congr fun f => ?_
    rw [hFinished.marked]
    refine or_iff_left_of_imp fun hBoth => ?_
    have hUsed := moduleFrames_subset_used kernelEnd info hBoth.2
    exact hKeep f ((hBooted.marked f (Finset.mem_range.mp (hBounds.used hUsed))).mpr (Or.inr hUsed))
  have hAvailable := hBooted.available
  have hRounds := hFinished.available
  have hFree := hNeutral.free
  refine ⟨hFinished.small (hNeutral.small (hBooted.small (by decide))), ?_, ?_⟩
  · have hStart : s₁.total ≡ s₁.allocated + s₁.available [MOD 2 ^ 32] := by
      simpa [static] using hBooted.sum
    rw [hFinished.total, hTotal]
    exact hStart.trans (hNeutral.sum.symm.trans hFinished.sum.symm)
  · rw [hSame, MultibootInfo.Balanced, ← hCard]
    generalize (if vmaInit.ret = 0 then info.moduleRounds else 0) = rounds at hRounds ⊢
    have hStart : static.available = 0 := rfl
    simp only [Nat.ModEq, hStart] at hAvailable hRounds hFree ⊢
    omega

theorem card_modules (modules : List MultibootModule) :
    (modules.toFinset.biUnion fun m => visited pageSize m.modStart m.modEnd).card ≤
      (modules.map fun m => rounds pageSize m.modStart m.modEnd).sum := by
  induction modules with
  | nil => exact Nat.le_refl 0
  | cons m modules ih =>
      rw [List.toFinset_cons, Finset.biUnion_insert, List.map_cons, List.sum_cons]
      exact (Finset.card_union_le _ _).trans (Nat.add_le_add card_visited.le ih)

theorem card_moduleFrames (info : MultibootInfo) : info.moduleFrames.card ≤ info.moduleRounds := by
  rw [MultibootInfo.moduleFrames, MultibootInfo.moduleRounds]
  split
  · exact card_modules info.modules
  · exact Nat.le_refl 0

theorem card_used (kernelEnd : Nat) (info : MultibootInfo) :
    (info.used kernelEnd).card ≤ info.marks kernelEnd := by
  rw [MultibootInfo.used, MultibootInfo.marks]
  have hRanges : (info.listFrames ∪ info.moduleFrames).card ≤
      info.listFrames.card + info.moduleRounds :=
    (Finset.card_union_le _ _).trans (Nat.add_le_add_left (card_moduleFrames info) _)
  have hInfo : ({info.address / pageSize} ∪ (info.listFrames ∪ info.moduleFrames)).card ≤
      1 + (info.listFrames.card + info.moduleRounds) :=
    (Finset.card_union_le _ _).trans (Nat.add_le_add_left hRanges _)
  exact (Finset.card_union_le _ _).trans (Nat.add_le_add hInfo card_visited.le)

/-- A module with a byte is counted twice. -/
theorem unbalanced_of_module (hMap : info.flags &&& multibootInfoMemMap ≠ 0)
    (hRet : vmaInit.ret = 0) (hModule : 0 < info.moduleRounds)
    (hSmall : info.marks kernelEnd + info.moduleRounds + bitmapBits < 2 ^ 32) :
    ¬ info.Balanced kernelEnd vmaInit := by
  have hUsed := card_used kernelEnd info
  have hFreed := Finset.card_le_card (freed_subset info hMap)
  rw [Finset.card_range] at hFreed
  have hLeft : info.freed.card ≤ (info.freed \ info.used kernelEnd).card + (info.used kernelEnd).card :=
    Finset.card_le_card_sdiff_add_card
  have hLess := Finset.card_le_card (Finset.sdiff_subset (s := info.freed) (t := info.used kernelEnd))
  rw [MultibootInfo.Balanced, MultibootInfo.declared, if_pos hRet, if_pos hMap, Nat.ModEq,
    Nat.mod_eq_of_lt (by omega), Nat.mod_eq_of_lt (by omega)]
  omega

end PageTotals

namespace Frames

variable {kernelEnd : Nat} {s s' : Frames}

/-- Any call of the allocator that comes back. -/
inductive Call (kernelEnd : Nat) (s s' : Frames) : Prop where
  | get (npages addr : Nat) (h : getPages kernelEnd npages s = some (s', addr))
  | put (phyaddr npages : Nat) (ret : Int) (h : putPages phyaddr npages s = some (s', ret))

theorem Call.neutral (h : Call kernelEnd s s') : Neutral s s' := by
  cases h with
  | get npages addr h =>
      rcases getPages_cases h with ⟨_, _, hNeutral⟩ | ⟨_, _, hNeutral⟩
      · exact hNeutral
      · exact hNeutral
  | put phyaddr npages ret h => exact (putPages_cases h).2

theorem neutral_of_calls (h : Relation.ReflTransGen (Call kernelEnd) s s') : Neutral s s' := by
  induction h with
  | refl => exact Neutral.refl s
  | tail _ last ih => exact ih.trans last.neutral

end Frames

namespace PageTotals

open Frames

variable {kernelEnd : Nat} {info : MultibootInfo} {vmaInit : VmaInit} {s : PageTotals} {t : Frames}
  {ret : Int}

/-- After `memory_init` and any further calls the counters agree with the bitmap, exactly when as
many frames are counted as taken as are not left free. -/
theorem counters_exact (h : memoryInit kernelEnd info vmaInit static = some (s, ret))
    (hRun : Relation.ReflTransGen (Frames.Call kernelEnd) s.toFrames t) :
    (t.available = t.freeFrames.card ∧ s.total ≡ t.allocated + t.available [MOD 2 ^ 32]) ↔
      info.Balanced kernelEnd vmaInit := by
  obtain ⟨hSmall, hTotal, hExact⟩ := memoryInit_counters h
  have hNeutral := neutral_of_calls hRun
  have hFree := hNeutral.free
  have hLess : t.freeFrames.card < 2 ^ 32 := by
    refine lt_of_le_of_lt (Finset.card_le_card (Finset.filter_subset _ _)) ?_
    rw [Finset.card_range]
    exact bitmapBits_lt
  have hAvailable := hNeutral.small hSmall
  rw [and_iff_left (hTotal.trans hNeutral.sum.symm), ← hExact]
  simp only [Nat.ModEq] at hFree ⊢
  omega

/-- A machine with one module in its memory. -/
def moduleInfo : MultibootInfo where
  address := 0x9000
  flags := multibootInfoMemMap ||| multibootInfoMods
  memLower := 0
  memUpper := 0
  mmap := [⟨0, 0x9f000, 1⟩, ⟨0x100000, 0x20000, 1⟩]
  modsAddr := 0xa000
  modules := [⟨0x109000, 0x10a000⟩]

theorem moduleInfo_init : ∃ s, memoryInit 0x108000 moduleInfo oneBlock static = some (s, 0) := by
  have hSome : ((memoryInit 0x108000 moduleInfo oneBlock static).map Prod.snd) = some 0 := by
    decide +kernel
  obtain ⟨⟨s, ret⟩, hInit, rfl⟩ := Option.map_eq_some_iff.mp hSome
  exact ⟨s, hInit⟩

theorem counters_exact_module :
    ∃ s, memoryInit 0x108000 moduleInfo oneBlock static = some (s, 0) ∧
      ((s.available = s.freeFrames.card ∧ s.total ≡ s.allocated + s.available [MOD 2 ^ 32]) ↔
        moduleInfo.Balanced 0x108000 oneBlock) := by
  obtain ⟨s, hInit⟩ := moduleInfo_init
  exact ⟨s, hInit, counters_exact hInit Relation.ReflTransGen.refl⟩

theorem counters_drift : ∃ s, memoryInit 0x108000 moduleInfo oneBlock static = some (s, 0) ∧
    s.available ≠ s.freeFrames.card := by
  obtain ⟨s, hInit⟩ := moduleInfo_init
  refine ⟨s, hInit, fun hExact => ?_⟩
  have hBalanced := (memoryInit_counters hInit).2.2.mp (congrArg (· % 2 ^ 32) hExact)
  exact unbalanced_of_module (by decide) rfl (by decide) (by decide) hBalanced

end PageTotals
end ArtOS

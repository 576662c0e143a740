import ArtOS.Library.Strides
import ArtOS.Library.Transition
import ArtOS.Memory.Accounting
import ArtOS.Memory.MemoryInit

/-! The bitmap and the counters that `memory_init` leaves, in terms of what the
boot loader reports: which frames its loops free and take, and how often they
count them. -/
namespace ArtOS

open Strides

namespace MmapEntry

/-- The frames that the loop over this entry visits. -/
def visited (e : MmapEntry) : Finset Nat :=
  if e.type = multibootMemoryAvailable then
    Strides.visited pageSize (e.addr % 2 ^ 32)
      (min ((e.addr % 2 ^ 32 + e.len) % 2 ^ 32) (bitmapBits * pageSize))
  else ∅

end MmapEntry

namespace MultibootInfo

/-- The frames that become free. -/
def freed (info : MultibootInfo) : Finset Nat :=
  if info.flags &&& multibootInfoMemMap ≠ 0 then info.mmap.toFinset.biUnion MmapEntry.visited
  else Finset.range (info.memLower >>> 2) ∪
    Finset.Ico 256 (256 + min (info.memUpper >>> 2) (bitmapBits - 256))

/-- How many frames are counted as available. -/
def declared (info : MultibootInfo) : Nat :=
  if info.flags &&& multibootInfoMemMap ≠ 0 then info.freed.card
  else info.memLower >>> 2 + min (info.memUpper >>> 2) (bitmapBits - 256)

/-- The address behind the list of modules. -/
def listEnd (info : MultibootInfo) : Nat :=
  Word.add info.modsAddr (info.modules.length * sizeofMultibootModule)

/-- The frames of the list of modules. -/
def listFrames (info : MultibootInfo) : Finset Nat :=
  if info.flags &&& multibootInfoMods ≠ 0 then visited pageSize info.modsAddr info.listEnd else ∅

/-- The frames of the modules themselves. -/
def moduleFrames (info : MultibootInfo) : Finset Nat :=
  if info.flags &&& multibootInfoMods ≠ 0 then
    info.modules.toFinset.biUnion fun m => visited pageSize m.modStart m.modEnd
  else ∅

/-- How often the loops over the modules count a frame: one that two modules share counts twice. -/
def moduleRounds (info : MultibootInfo) : Nat :=
  if info.flags &&& multibootInfoMods ≠ 0 then
    (info.modules.map fun m => rounds pageSize m.modStart m.modEnd).sum
  else 0

/-- The frames that are taken again. -/
def used (kernelEnd : Nat) (info : MultibootInfo) : Finset Nat :=
  {info.address / pageSize} ∪ (info.listFrames ∪ info.moduleFrames) ∪
    visited pageSize kernelStart kernelEnd

/-- How many frames are counted as allocated before `vma_init`. -/
def marks (kernelEnd : Nat) (info : MultibootInfo) : Nat :=
  1 + (info.listFrames.card + info.moduleRounds) + rounds pageSize kernelStart kernelEnd

/-- The memory is described, and every bit that is changed belongs to the bitmap. -/
structure InBounds (kernelEnd : Nat) (info : MultibootInfo) : Prop where
  informed : info.flags &&& multibootInfoMemMap ≠ 0 ∨
    info.flags &&& multibootInfoMem ≠ 0 ∧ info.memLower >>> 2 ≤ bitmapBits
  used : info.used kernelEnd ⊆ Finset.range bitmapBits

end MultibootInfo

namespace PageTotals

open Frames

variable {s s' s₁ : PageTotals} {t t' : Finset Nat} {n m i stop addr fuel : Nat}

/-- Frames are taken, and `n` frames are counted. -/
structure Used (t : Finset Nat) (n : Nat) (s s' : PageTotals) : Prop where
  marked : ∀ j, s'.Marked j ↔ s.Marked j ∨ j ∈ t
  small : s.available < 2 ^ 32 → s'.available < 2 ^ 32
  available : s'.available + n ≡ s.available [MOD 2 ^ 32]
  sum : s'.allocated + s'.available ≡ s.allocated + s.available [MOD 2 ^ 32]
  total : s'.total = s.total

theorem Used.refl (s : PageTotals) : Used ∅ 0 s s :=
  ⟨fun j => by simp, id, rfl, rfl, rfl⟩

/-- The frames of two loops are taken together, and their counts add up. -/
theorem Used.trans (h : Used t n s s₁) (h' : Used t' m s₁ s') : Used (t ∪ t') (n + m) s s' := by
  obtain ⟨hMarked, hSmall, hAvailable, hSum, hTotal⟩ := h
  obtain ⟨hMarked', hSmall', hAvailable', hSum', hTotal'⟩ := h'
  refine ⟨fun j => ?_, fun h => hSmall' (hSmall h), ?_, hSum'.trans hSum, hTotal'.trans hTotal⟩
  · rw [hMarked', hMarked, Finset.mem_union, or_assoc]
  · simp only [Nat.ModEq] at hAvailable hAvailable' ⊢
    omega

theorem shr_pageBits (addr : Nat) : addr >>> pageBits = addr / pageSize :=
  Nat.shiftRight_eq_div_pow addr pageBits

/-- One frame of the bitmap is taken and counted. -/
theorem useFrame_used (h : i < bitmapBits) : ∃ s', s.useFrame i = some s' ∧ Used {i} 1 s s' := by
  obtain ⟨frames, hSet, hMarks, hSame⟩ := pageSetMark_eq (s := s.toFrames) h
  have hUse : s.useFrame i = some { s with
      bitmap := frames.bitmap
      allocated := Word.add s.allocated 1
      available := Word.sub s.available 1 } := by
    rw [useFrame, hSet, Option.map_some]
  refine ⟨_, hUse, fun j => ?_, fun _ => Word.sub_lt, ?_, ?_, rfl⟩
  · rw [Finset.mem_singleton, ← hMarks]
    exact marked_congr rfl
  · simp only [Nat.ModEq, Word.sub]
    omega
  · simp only [Nat.ModEq, Word.sub, Word.add]
    omega

/-- A frame behind the bitmap is written out of bounds. -/
theorem useFrame_none (h : bitmapBits ≤ i) : s.useFrame i = none := by
  have hIndex : ¬ i >>> 3 < bitmapSize := by
    rw [shr_three]
    exact fun hLt => absurd (lt_bitmapBits_of_div hLt) (Nat.not_lt.mpr h)
  rw [useFrame, pageSetMark, if_neg hIndex, Option.map_none]

/-- The next address is computed without a wrap. -/
theorem next_page (h : addr / pageSize < bitmapBits) :
    Word.add addr pageSize = addr + pageSize := by
  have hLt : addr < bitmapBits * pageSize := (Nat.div_lt_iff_lt_mul (by decide)).mp h
  exact Word.add_eq (lt_of_lt_of_le (Nat.add_lt_add_right hLt _) (by decide))

theorem next_block (addr : Nat) : (addr + pageSize) / pageSize = addr / pageSize + 1 :=
  Nat.add_div_right addr (by decide)

theorem fuel_enough (addr : Nat) : bitmapBits < bitmapBits + 1 + addr / pageSize :=
  Nat.lt_of_lt_of_le (Nat.lt_succ_self _) (Nat.le_add_right _ _)

/-- The loop over a range takes the frames it visits; the induction is on the rounds left. -/
theorem useRange_used (fuel addr : Nat) (hPos : 0 < fuel) (hFuel : bitmapBits < fuel + addr / pageSize)
    (hRange : visited pageSize addr stop ⊆ Finset.range bitmapBits) :
    ∃ s', useRange stop fuel addr s = some s' ∧
      Used (visited pageSize addr stop) (rounds pageSize addr stop) s s' := by
  induction fuel generalizing addr s with
  | zero => omega
  | succ fuel ih =>
      rw [useRange]
      split
      · rename_i hLt
        rw [visited_of_lt (by decide) hLt] at hRange ⊢
        rw [rounds_of_lt (by decide) hLt]
        obtain ⟨hFirst, hRest⟩ := Finset.insert_subset_iff.mp hRange
        have hFrame := Finset.mem_range.mp hFirst
        obtain ⟨s₁, hUse, hUsed⟩ := useFrame_used (s := s) hFrame
        obtain ⟨s', hLoop, hUsed'⟩ := ih (addr + pageSize) (by omega)
          (by rw [next_block]; omega) hRest
        refine ⟨s', ?_, ?_⟩
        · rw [shr_pageBits, hUse, Option.bind_some, next_page hFrame, hLoop]
        · have hBoth := hUsed.trans hUsed'
          rwa [← Finset.insert_eq, Nat.add_comm 1] at hBoth
      · rename_i hLe
        rw [visited_of_le (by decide) (Nat.not_lt.mp hLe), rounds_of_le (by decide) (Nat.not_lt.mp hLe)]
        exact ⟨s, rfl, Used.refl s⟩

/-- The loop runs out of the bitmap as soon as one visited frame lies behind it. -/
theorem useRange_none (fuel addr : Nat)
    (hRange : ¬ visited pageSize addr stop ⊆ Finset.range bitmapBits) :
    useRange stop fuel addr s = none := by
  induction fuel generalizing addr s with
  | zero => rfl
  | succ fuel ih =>
      rw [useRange]
      split
      · rename_i hLt
        rw [shr_pageBits]
        by_cases hFrame : addr / pageSize < bitmapBits
        · obtain ⟨s₁, hUse, _⟩ := useFrame_used (s := s) hFrame
          rw [hUse, Option.bind_some, next_page hFrame]
          refine ih _ fun hRest => hRange ?_
          rw [visited_of_lt (by decide) hLt]
          exact Finset.insert_subset (Finset.mem_range.mpr hFrame) hRest
        · rw [useFrame_none (Nat.not_lt.mp hFrame), Option.bind_none]
      · rename_i hLe
        rw [visited_of_le (by decide) (Nat.not_lt.mp hLe)] at hRange
        exact absurd (Finset.empty_subset _) hRange

/-- A list of ranges, one after another. -/
theorem useRanges_used (modules : List MultibootModule)
    (hRange : ∀ m ∈ modules, visited pageSize m.modStart m.modEnd ⊆ Finset.range bitmapBits) :
    ∃ s', modules.foldlM (fun s m => useRange m.modEnd (bitmapBits + 1) m.modStart s) s = some s' ∧
      Used (modules.toFinset.biUnion fun m => visited pageSize m.modStart m.modEnd)
        (modules.map fun m => rounds pageSize m.modStart m.modEnd).sum s s' := by
  induction modules generalizing s with
  | nil => exact ⟨s, rfl, Used.refl s⟩
  | cons m modules ih =>
      obtain ⟨hFirst, hRest⟩ := List.forall_mem_cons.mp hRange
      obtain ⟨s₁, hLoop, hUsed⟩ := useRange_used (s := s) (bitmapBits + 1) m.modStart (by decide)
        (fuel_enough _) hFirst
      obtain ⟨s', hLoops, hUsed'⟩ := ih (s := s₁) hRest
      refine ⟨s', ?_, ?_⟩
      · rw [List.foldlM_cons, hLoop]
        exact hLoops
      · rw [List.toFinset_cons, Finset.biUnion_insert, List.map_cons, List.sum_cons]
        exact hUsed.trans hUsed'

theorem useRanges_none (modules : List MultibootModule)
    (hRange : ¬ ∀ m ∈ modules, visited pageSize m.modStart m.modEnd ⊆ Finset.range bitmapBits) :
    modules.foldlM (fun s m => useRange m.modEnd (bitmapBits + 1) m.modStart s) s = none := by
  induction modules generalizing s with
  | nil => exact absurd (fun m hm => nomatch hm) hRange
  | cons m modules ih =>
      rw [List.foldlM_cons]
      by_cases hFirst : visited pageSize m.modStart m.modEnd ⊆ Finset.range bitmapBits
      · obtain ⟨s₁, hLoop, _⟩ := useRange_used (s := s) (bitmapBits + 1) m.modStart (by decide)
          (fuel_enough _) hFirst
        rw [hLoop]
        exact ih fun hRest => hRange (List.forall_mem_cons.mpr ⟨hFirst, hRest⟩)
      · rw [useRange_none _ _ hFirst]
        rfl

theorem moduleFrames_subset {info : MultibootInfo} (hMods : info.flags &&& multibootInfoMods ≠ 0) :
    info.moduleFrames ⊆ Finset.range bitmapBits ↔
      ∀ m ∈ info.modules, visited pageSize m.modStart m.modEnd ⊆ Finset.range bitmapBits := by
  rw [MultibootInfo.moduleFrames, if_pos hMods, Finset.biUnion_subset]
  simp only [List.mem_toFinset]

/-- The modules are taken, each for itself. -/
theorem useModules_used {info : MultibootInfo} (h : info.moduleFrames ⊆ Finset.range bitmapBits) :
    ∃ s', useModules info s = some s' ∧ Used info.moduleFrames info.moduleRounds s s' := by
  rw [useModules]
  split
  · rename_i hMods
    rw [MultibootInfo.moduleFrames, MultibootInfo.moduleRounds, if_pos hMods, if_pos hMods]
    exact useRanges_used info.modules ((moduleFrames_subset hMods).mp h)
  · rename_i hMods
    rw [MultibootInfo.moduleFrames, MultibootInfo.moduleRounds, if_neg hMods, if_neg hMods]
    exact ⟨s, rfl, Used.refl s⟩

theorem useModules_none {info : MultibootInfo} (h : ¬ info.moduleFrames ⊆ Finset.range bitmapBits) :
    useModules info s = none := by
  rw [useModules]
  split
  · rename_i hMods
    exact useRanges_none info.modules fun hAll => h ((moduleFrames_subset hMods).mpr hAll)
  · rename_i hMods
    rw [MultibootInfo.moduleFrames, if_neg hMods] at h
    exact absurd (Finset.empty_subset _) h

/-- The list of modules is taken, and each of its frames is counted once. -/
theorem useModuleList_used {info : MultibootInfo} (h : info.listFrames ⊆ Finset.range bitmapBits) :
    ∃ s', useModuleList info s = some s' ∧ Used info.listFrames info.listFrames.card s s' := by
  rw [useModuleList]
  split
  · rename_i hMods
    rw [MultibootInfo.listFrames, if_pos hMods] at h ⊢
    rw [card_visited]
    exact useRange_used (bitmapBits + 1) info.modsAddr (by decide) (fuel_enough _) h
  · rename_i hMods
    rw [MultibootInfo.listFrames, if_neg hMods]
    exact ⟨s, rfl, Used.refl s⟩

theorem useModuleList_none {info : MultibootInfo} (h : ¬ info.listFrames ⊆ Finset.range bitmapBits) :
    useModuleList info s = none := by
  rw [useModuleList]
  split
  · rename_i hMods
    rw [MultibootInfo.listFrames, if_pos hMods] at h
    exact useRange_none _ _ h
  · rename_i hMods
    rw [MultibootInfo.listFrames, if_neg hMods] at h
    exact absurd (Finset.empty_subset _) h

/-- Frames of available memory become free, and each of them is counted once. -/
structure Freed (t : Finset Nat) (s s' : PageTotals) : Prop where
  marked : ∀ j, s'.Marked j ↔ s.Marked j ∧ j ∉ t
  small : s.available < 2 ^ 32 → s'.available < 2 ^ 32
  available : s'.available + s.freeFrames.card ≡ s.available + s'.freeFrames.card [MOD 2 ^ 32]
  sum : s'.total + (s.allocated + s.available) ≡ s.total + (s'.allocated + s'.available) [MOD 2 ^ 32]

theorem Freed.refl (s : PageTotals) : Freed ∅ s s := ⟨fun j => by simp, id, rfl, rfl⟩

/-- The frames that two loops free are free together. -/
theorem Freed.trans (h : Freed t s s₁) (h' : Freed t' s₁ s') : Freed (t ∪ t') s s' := by
  obtain ⟨hMarked, hSmall, hAvailable, hSum⟩ := h
  obtain ⟨hMarked', hSmall', hAvailable', hSum'⟩ := h'
  refine ⟨fun j => ?_, fun h => hSmall' (hSmall h), ?_, ?_⟩
  · rw [hMarked', hMarked, Finset.mem_union, not_or, and_assoc]
  · simp only [Nat.ModEq] at hAvailable hAvailable' ⊢
    omega
  · simp only [Nat.ModEq] at hSum hSum' ⊢
    omega

/-- A frame that is free already is not counted again. -/
theorem freeFrame_freed (h : i < bitmapBits) : ∃ s', s.freeFrame i = some s' ∧ Freed {i} s s' := by
  rw [freeFrame, pageMarked_eq h, Option.bind_some]
  by_cases hMarked : s.Marked i
  · obtain ⟨frames, hClear, hMarks, hSame⟩ := pageClearMark_eq (s := s.toFrames) h
    rw [decide_eq_true hMarked, if_pos rfl, hClear, Option.map_some]
    have hMarks' : ∀ j, Marked ({ s with
        bitmap := frames.bitmap
        available := Word.add s.available 1
        total := Word.add s.total 1 } : PageTotals).toFrames j ↔ s.Marked j ∧ j ∉ ({i} : Finset Nat) :=
      fun j => by
        rw [Finset.mem_singleton, ← hMarks]
        exact marked_congr rfl
    have hCard := card_give hMarks' (Finset.singleton_subset_iff.mpr (mem_usedFrames.mpr ⟨h, hMarked⟩))
    rw [Finset.card_singleton] at hCard
    refine ⟨_, rfl, hMarks', fun _ => Word.add_lt, ?_, ?_⟩
    · rw [hCard]
      simp only [Nat.ModEq, Word.add]
      omega
    · simp only [Nat.ModEq, Word.add]
      omega
  · rw [decide_eq_false hMarked, if_neg Bool.false_ne_true]
    refine ⟨s, rfl, fun j => ?_, id, rfl, rfl⟩
    rw [Finset.mem_singleton]
    exact ⟨fun hj => ⟨hj, fun he => hMarked (he ▸ hj)⟩, fun hj => hj.1⟩

/-- The loop over an entry stops at the end of the bitmap, so it frees what it visits below. -/
theorem freeRange_freed (fuel addr : Nat) (hPos : 0 < fuel)
    (hFuel : bitmapBits < fuel + addr / pageSize) :
    ∃ s', freeRange stop fuel addr s = some s' ∧
      Freed (visited pageSize addr (min stop (bitmapBits * pageSize))) s s' := by
  induction fuel generalizing addr s with
  | zero => omega
  | succ fuel ih =>
      rw [freeRange]
      split
      · rename_i hBoth
        have hLt : addr < min stop (bitmapBits * pageSize) := lt_min hBoth.1 hBoth.2
        have hFrame : addr / pageSize < bitmapBits := (Nat.div_lt_iff_lt_mul (by decide)).mpr hBoth.2
        rw [visited_of_lt (by decide) hLt]
        obtain ⟨s₁, hFree, hFreed⟩ := freeFrame_freed (s := s) hFrame
        obtain ⟨s', hLoop, hFreed'⟩ := ih (s := s₁) (addr + pageSize) (by omega)
          (by rw [next_block]; omega)
        refine ⟨s', ?_, ?_⟩
        · rw [shr_pageBits, hFree, Option.bind_some, next_page hFrame, hLoop]
        · rw [Finset.insert_eq]
          exact hFreed.trans hFreed'
      · rename_i hNot
        have hLe : min stop (bitmapBits * pageSize) ≤ addr :=
          Nat.not_lt.mp fun hLt => hNot (lt_min_iff.mp hLt)
        rw [visited_of_le (by decide) hLe]
        exact ⟨s, rfl, Freed.refl s⟩

theorem freeEntry_freed (e : MmapEntry) : ∃ s', freeEntry s e = some s' ∧ Freed e.visited s s' := by
  rw [freeEntry, MmapEntry.visited]
  split
  · exact freeRange_freed (bitmapBits + 1) _ (by decide) (fuel_enough _)
  · exact ⟨s, rfl, Freed.refl s⟩

/-- Entries may overlap: a frame becomes free, and is counted, once. -/
theorem freeEntries_freed (entries : List MmapEntry) :
    ∃ s', entries.foldlM freeEntry s = some s' ∧
      Freed (entries.toFinset.biUnion MmapEntry.visited) s s' := by
  induction entries generalizing s with
  | nil => exact ⟨s, rfl, Freed.refl s⟩
  | cons e entries ih =>
      obtain ⟨s₁, hFirst, hFreed⟩ := freeEntry_freed (s := s) e
      obtain ⟨s', hRest, hFreed'⟩ := ih (s := s₁)
      refine ⟨s', ?_, ?_⟩
      · rw [List.foldlM_cons, hFirst]
        exact hRest
      · rw [List.toFinset_cons, Finset.biUnion_insert]
        exact hFreed.trans hFreed'

/-- Bits are cleared one by one, without a look at what they were. -/
theorem clearFrames_spec (first left : Nat) (h : first + left ≤ bitmapBits) :
    ∃ bitmap, clearFrames first left s = some { s with bitmap := bitmap } ∧
      ∀ j, Marked ({ s with bitmap := bitmap } : PageTotals).toFrames j ↔
        s.Marked j ∧ j ∉ Finset.Ico first (first + left) := by
  induction left with
  | zero => exact ⟨s.bitmap, rfl, fun j => by simp⟩
  | succ left ih =>
      obtain ⟨bitmap, hRest, hMarks⟩ := ih (by omega)
      obtain ⟨frames, hClear, hMarks', hSame⟩ :=
        pageClearMark_eq (s := ({ s with bitmap := bitmap } : PageTotals).toFrames)
          (by omega : left + first < bitmapBits)
      refine ⟨frames.bitmap, ?_, fun j => ?_⟩
      · rw [clearFrames, hRest, Option.bind_some, hClear, Option.map_some]
      · refine Iff.trans (marked_congr rfl) ((hMarks' j).trans ?_)
        rw [hMarks, and_assoc, Finset.mem_Ico, Finset.mem_Ico]
        exact and_congr_right fun _ => by omega

theorem clearFrames_none (first left : Nat) (h : bitmapBits < left) :
    clearFrames first left s = none := by
  induction left with
  | zero => omega
  | succ left ih =>
      by_cases hMore : bitmapBits < left
      · rw [clearFrames, ih hMore, Option.bind_none]
      · have hIndex : ¬ (left + first) / 8 < bitmapSize := fun hLt => by
          have hFrame := lt_bitmapBits_of_div hLt
          omega
        rw [clearFrames]
        cases clearFrames first left s with
        | none => rfl
        | some s => rw [Option.bind_some, pageClearMark, if_neg hIndex, Option.map_none]

/-- What is known once the available memory is free. -/
structure Opened (info : MultibootInfo) (s s' : PageTotals) : Prop where
  marked : ∀ j < bitmapBits, s'.Marked j ↔ j ∉ info.freed
  small : s.available < 2 ^ 32 → s'.available < 2 ^ 32
  available : s'.available ≡ s.available + info.declared [MOD 2 ^ 32]
  sum : s'.total + (s.allocated + s.available) ≡ s.total + (s'.allocated + s'.available) [MOD 2 ^ 32]

/-- With a memory map no frame behind the bitmap becomes free. -/
theorem freed_subset (info : MultibootInfo) (h : info.flags &&& multibootInfoMemMap ≠ 0) :
    info.freed ⊆ Finset.range bitmapBits := by
  rw [MultibootInfo.freed, if_pos h]
  intro j hj
  obtain ⟨e, _, hj⟩ := Finset.mem_biUnion.mp hj
  rw [MmapEntry.visited] at hj
  split at hj
  · obtain ⟨k, hk, rfl⟩ := (mem_visited (by decide)).mp hj
    exact Finset.mem_range.mpr
      ((Nat.div_lt_iff_lt_mul (by decide)).mpr (lt_of_lt_of_le hk (min_le_right _ _)))
  · cases hj

/-- Both ways of describing the memory open exactly what they declare. -/
theorem freeMemory_opened {info : MultibootInfo} (hAll : ∀ j < bitmapBits, s.Marked j)
    (h : info.flags &&& multibootInfoMemMap ≠ 0 ∨
      info.flags &&& multibootInfoMem ≠ 0 ∧ info.memLower >>> 2 ≤ bitmapBits) :
    ∃ s', freeMemory info s = some s' ∧ Opened info s s' := by
  by_cases hMap : info.flags &&& multibootInfoMemMap ≠ 0
  · obtain ⟨s', hExec, hFreed⟩ := freeEntries_freed (s := s) info.mmap
    have hNone : s.freeFrames = ∅ := by
      refine Finset.eq_empty_of_forall_notMem fun j hj => ?_
      exact (mem_freeFrames.mp hj).2 (hAll j (mem_freeFrames.mp hj).1)
    have hSet : info.mmap.toFinset.biUnion MmapEntry.visited = info.freed := by
      rw [MultibootInfo.freed, if_pos hMap]
    rw [hSet] at hFreed
    have hFree : s'.freeFrames = info.freed := by
      ext j
      rw [mem_freeFrames, hFreed.marked]
      constructor
      · rintro ⟨hLt, hNot⟩
        exact by_contra fun hj => hNot ⟨hAll j hLt, hj⟩
      · exact fun hj => ⟨Finset.mem_range.mp (freed_subset info hMap hj), fun hBoth => hBoth.2 hj⟩
    refine ⟨s', by rw [freeMemory, if_pos hMap, hExec], fun j hj => ?_, hFreed.small, ?_, hFreed.sum⟩
    · rw [hFreed.marked]
      exact and_iff_right (hAll j hj)
    · have hCount := hFreed.available
      rw [hNone, hFree, Finset.card_empty] at hCount
      rw [MultibootInfo.declared, if_pos hMap]
      exact hCount
  · obtain ⟨hMem, hLower⟩ := h.resolve_left hMap
    have hSet : info.freed = Finset.range (info.memLower >>> 2) ∪
        Finset.Ico 256 (256 + min (info.memUpper >>> 2) (bitmapBits - 256)) := by
      rw [MultibootInfo.freed, if_neg hMap]
    have hDeclared : info.declared =
        info.memLower >>> 2 + min (info.memUpper >>> 2) (bitmapBits - 256) := by
      rw [MultibootInfo.declared, if_neg hMap]
    have hUpper : 256 + min (info.memUpper >>> 2) (bitmapBits - 256) ≤ bitmapBits := by
      have hLe := min_le_right (info.memUpper >>> 2) (bitmapBits - 256)
      have hBits : 256 ≤ bitmapBits := by decide
      omega
    rw [freeMemory, if_neg hMap, if_pos hMem, freeLowerUpper]
    generalize info.memLower >>> 2 = lower at hLower hSet hDeclared ⊢
    generalize min (info.memUpper >>> 2) (bitmapBits - 256) = upper at hUpper hSet hDeclared ⊢
    obtain ⟨bitmap, hFirst, hMarks⟩ := clearFrames_spec (s := s) 0 lower (by omega)
    obtain ⟨bitmap', hSecond, hMarks'⟩ := clearFrames_spec (s := { s with bitmap := bitmap }) 256 upper
      hUpper
    rw [hFirst, Option.bind_some, hSecond, Option.map_some]
    refine ⟨_, rfl, fun j hj => ?_, fun _ => Word.add_lt, ?_, ?_⟩
    · refine Iff.trans (marked_congr rfl) ((hMarks' j).trans ?_)
      rw [hMarks, hSet, Finset.mem_union, Finset.mem_range, Finset.mem_Ico]
      simp only [hAll j hj, true_and, Nat.zero_le, Nat.zero_add]
      tauto
    · rw [hDeclared]
      exact Nat.mod_modEq _ _
    · simp only [Nat.ModEq, Word.add]
      omega

/-- Without a description, or with too much lower memory, there is no result. -/
theorem freeMemory_none {info : MultibootInfo}
    (h : ¬ (info.flags &&& multibootInfoMemMap ≠ 0 ∨
      info.flags &&& multibootInfoMem ≠ 0 ∧ info.memLower >>> 2 ≤ bitmapBits)) :
    freeMemory info s = none := by
  rw [not_or, not_and] at h
  rw [freeMemory, if_neg h.1]
  split
  · rename_i hMem
    rw [freeLowerUpper]
    rw [clearFrames_none 0 _ (Nat.lt_of_not_le (h.2 hMem)), Option.bind_none]
  · rfl

theorem useInfo_spec {info : MultibootInfo} (hAll : ∀ j < bitmapBits, s.Marked j)
    (hInformed : info.flags &&& multibootInfoMemMap ≠ 0 ∨
      info.flags &&& multibootInfoMem ≠ 0 ∧ info.memLower >>> 2 ≤ bitmapBits)
    (hInfo : info.address / pageSize < bitmapBits)
    (hList : info.listFrames ⊆ Finset.range bitmapBits)
    (hModules : info.moduleFrames ⊆ Finset.range bitmapBits) :
    ∃ s₁ s', useInfo info s = some s' ∧ Opened info s s₁ ∧
      Used ({info.address / pageSize} ∪ (info.listFrames ∪ info.moduleFrames))
        (1 + (info.listFrames.card + info.moduleRounds)) s₁ s' := by
  obtain ⟨s₁, hFree, hOpened⟩ := freeMemory_opened hAll hInformed
  obtain ⟨s₂, hFrame, hUsed₂⟩ := useFrame_used (s := s₁) hInfo
  obtain ⟨s₃, hRounds, hUsed₃⟩ := useModuleList_used (s := s₂) hList
  obtain ⟨s', hRest, hUsed'⟩ := useModules_used (s := s₃) hModules
  refine ⟨s₁, s', ?_, hOpened, hUsed₂.trans (hUsed₃.trans hUsed')⟩
  rw [useInfo, hFree, Option.bind_some, shr_pageBits, hFrame, Option.bind_some, hRounds,
    Option.bind_some, hRest]

/-- What is known when `vma_init` is called. -/
structure Booted (kernelEnd : Nat) (info : MultibootInfo) (s s' : PageTotals) : Prop where
  marked : ∀ j < bitmapBits, s'.Marked j ↔ j ∉ info.freed ∨ j ∈ info.used kernelEnd
  small : s.available < 2 ^ 32 → s'.available < 2 ^ 32
  available : s'.available + info.marks kernelEnd ≡ s.available + info.declared [MOD 2 ^ 32]
  sum : s'.total + (s.allocated + s.available) ≡ s.total + (s'.allocated + s'.available) [MOD 2 ^ 32]

/-- What is opened first and taken afterwards is what the boot leaves. -/
theorem Opened.booted {info : MultibootInfo} {kernelEnd : Nat} (h : Opened info s s₁)
    (hUsed : Used (info.used kernelEnd) (info.marks kernelEnd) s₁ s') :
    Booted kernelEnd info s s' := by
  obtain ⟨hMarked, hSmall, hAvailable, hSum⟩ := h
  obtain ⟨hMarked', hSmall', hAvailable', hSum', hTotal⟩ := hUsed
  refine ⟨fun j hj => ?_, fun h => hSmall' (hSmall h), hAvailable'.trans hAvailable, ?_⟩
  · rw [hMarked', hMarked j hj]
  · rw [hTotal]
    exact hSum.trans (Nat.ModEq.add_left _ hSum'.symm)

/-- Everything taken is in the bitmap once each part of it is. -/
theorem used_subset {info : MultibootInfo} {kernelEnd : Nat} {t : Finset Nat} :
    info.used kernelEnd ⊆ t ↔
      (info.address / pageSize ∈ t ∧ info.listFrames ⊆ t ∧ info.moduleFrames ⊆ t) ∧
        visited pageSize kernelStart kernelEnd ⊆ t := by
  rw [MultibootInfo.used, Finset.union_subset_iff, Finset.union_subset_iff,
    Finset.union_subset_iff, Finset.singleton_subset_iff]

/-- Within the bounds the code before `vma_init` ends, and its frames are known. -/
theorem beforeVmaInit_booted {info : MultibootInfo} {kernelEnd : Nat}
    (h : info.InBounds kernelEnd) :
    ∃ s', beforeVmaInit kernelEnd info s = some s' ∧ Booted kernelEnd info s s' := by
  obtain ⟨⟨hInfo, hList, hModules⟩, hKernel⟩ := used_subset.mp h.used
  have hAll : ∀ j < bitmapBits,
      Marked ({ s with bitmap := fun _ => 0xff } : PageTotals).toFrames j := by
    intro j _
    have hBits : ∀ b < 8, (0xff : BitVec 8).getLsbD b = true := by decide
    exact hBits (j % 8) (Nat.mod_lt _ (by decide))
  obtain ⟨s₁, s₂, hExec, hOpened, hUsed⟩ :=
    useInfo_spec hAll h.informed (Finset.mem_range.mp hInfo) hList hModules
  obtain ⟨s', hLoop, hUsed'⟩ := useRange_used (s := s₂) (bitmapBits + 1) kernelStart (by decide)
    (fuel_enough _) hKernel
  have hBooted : Booted kernelEnd info { s with bitmap := fun _ => 0xff } s' :=
    hOpened.booted (hUsed.trans hUsed')
  refine ⟨s', ?_, hBooted.marked, hBooted.small, hBooted.available, hBooted.sum⟩
  rw [beforeVmaInit, hExec, Option.bind_some, useKernel, hLoop]

/-- Out of the bounds it writes behind the bitmap. -/
theorem beforeVmaInit_none {info : MultibootInfo} {kernelEnd : Nat}
    (h : ¬ info.InBounds kernelEnd) : beforeVmaInit kernelEnd info s = none := by
  rw [beforeVmaInit]
  cases hExec : useInfo info { s with bitmap := fun _ => 0xff } with
  | none => rfl
  | some s₃ =>
      rw [useInfo] at hExec
      obtain ⟨s₀, hFree, hExec⟩ := Option.bind_eq_some_iff.mp hExec
      obtain ⟨s₁, hFrame, hExec⟩ := Option.bind_eq_some_iff.mp hExec
      obtain ⟨s₂, hList, hModules⟩ := Option.bind_eq_some_iff.mp hExec
      rw [Option.bind_some, useKernel]
      refine useRange_none _ _ fun hKernel => h ⟨?_, used_subset.mpr ⟨⟨?_, ?_, ?_⟩, hKernel⟩⟩
      · by_contra hNot
        rw [freeMemory_none hNot] at hFree
        cases hFree
      · by_contra hNot
        rw [shr_pageBits, useFrame_none (Nat.not_lt.mp (mt Finset.mem_range.mpr hNot))] at hFrame
        cases hFrame
      · by_contra hNot
        rw [useModuleList_none hNot] at hList
        cases hList
      · by_contra hNot
        rw [useModules_none hNot] at hModules
        cases hModules

end PageTotals

namespace Frames.Holding

variable {s : Frames} {r r' : Holding} {kernelEnd : Nat}

/-- The marks that were there stay, and no block in hand has one of them. -/
structure Kept (s : Frames) (r : Holding) : Prop where
  marked : ∀ j, s.Marked j → r.frames.Marked j
  apart : ∀ block ∈ r.live, ∀ j ∈ framesOf block, ¬ s.Marked j
  neutral : Neutral s r.frames

/-- A block in hand is never marked by the boot, so giving it back keeps the marks. -/
theorem Kept.call (h : Kept s r) {c : FrameCall} (hCall : call kernelEnd r c = some r') :
    Kept s r' := by
  cases c with
  | get npages =>
      obtain ⟨⟨frames, addr⟩, hGet, rfl⟩ := Option.map_eq_some_iff.mp hCall
      rcases getPages_cases hGet with ⟨hZero, hMarks, hNeutral⟩ | ⟨hFree, hMarks, hNeutral⟩
      · refine ⟨fun j hj => (hMarks j).mpr (h.marked j hj), ?_, h.neutral.trans hNeutral⟩
        dsimp only
        rw [if_pos hZero]
        exact h.apart
      · refine ⟨fun j hj => (hMarks j).mpr (Or.inl (h.marked j hj)), ?_, h.neutral.trans hNeutral⟩
        intro block hBlock
        dsimp only at hBlock
        split at hBlock
        · exact h.apart block hBlock
        · rcases List.mem_cons.mp hBlock with rfl | hBlock
          · exact fun j hj hMarked => (mem_freeFrames.mp (hFree hj)).2 (h.marked j hMarked)
          · exact h.apart block hBlock
  | put block =>
      rw [Holding.call] at hCall
      split at hCall
      · rename_i hLive
        obtain ⟨⟨frames, ret⟩, hPut, rfl⟩ := Option.map_eq_some_iff.mp hCall
        obtain ⟨hMarks, hNeutral⟩ := putPages_cases hPut
        refine ⟨fun j hj => (hMarks j).mpr ⟨h.marked j hj, ?_⟩, ?_, h.neutral.trans hNeutral⟩
        · exact Or.inr (Or.inr fun hMem => h.apart block hLive j hMem hj)
        · exact fun block' hBlock => h.apart block' (List.mem_of_mem_erase hBlock)
      · cases hCall

theorem Kept.perform {calls : List FrameCall} (h : Kept s r)
    (hRun : perform kernelEnd calls r = some r') : Kept s r' := by
  induction calls generalizing r with
  | nil => exact Option.some.inj hRun ▸ h
  | cons c calls ih =>
      rw [Holding.perform, List.foldlM_cons] at hRun
      obtain ⟨r₁, hCall, hRest⟩ := Option.bind_eq_some_iff.mp hRun
      exact ih (h.call hCall) hRest

end Frames.Holding
end ArtOS

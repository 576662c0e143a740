import ArtOS.Library.Partial
import ArtOS.Memory.BootMemory
import ArtOS.Memory.FrameSearch

/-! When the result 0 of `get_pages` means that nothing has been taken. Frame 0 has the address 0, so a
window that begins there is taken and reported as a failure. -/
namespace ArtOS

open Frames Partial

namespace PageTotals

variable {s s' : PageTotals} {i stop fuel addr first left kernelEnd : Nat} {info : MultibootInfo}

/-! `memory_init` does not touch `alloc_start`, but for the calls of `vma_init`. -/

theorem useFrame_cursor (h : s.useFrame i = some s') : s'.allocStart = s.allocStart := by
  obtain ⟨frames, _, rfl⟩ := Option.map_eq_some_iff.mp h
  rfl

/-- A loop over the pages of a range, whose body does not touch `alloc_start`. -/
theorem rangeLoop_cursor {loop : Nat → Nat → PageTotals → Option PageTotals} (test : Nat → Prop)
    [DecidablePred test] (body : Nat → PageTotals → Option PageTotals)
    (hZero : ∀ addr s, loop 0 addr s = none)
    (hLoop : ∀ fuel addr s, loop (fuel + 1) addr s =
      if test addr then (body (addr >>> pageBits) s).bind (loop fuel (Word.add addr pageSize)) else some s)
    (hBody : ∀ i s s', body i s = some s' → s'.allocStart = s.allocStart)
    (h : loop fuel addr s = some s') : s'.allocStart = s.allocStart := by
  induction fuel generalizing addr s with
  | zero =>
      rw [hZero] at h
      cases h
  | succ fuel ih =>
      rw [hLoop] at h
      split at h
      · obtain ⟨s₁, hFrame, hRest⟩ := Option.bind_eq_some_iff.mp h
        exact (ih hRest).trans (hBody _ _ _ hFrame)
      · cases h
        rfl

theorem useRange_cursor (h : useRange stop fuel addr s = some s') : s'.allocStart = s.allocStart :=
  rangeLoop_cursor (· < stop) useFrame (fun _ _ => rfl) (fun _ _ _ => rfl) (fun _ _ _ => useFrame_cursor) h

theorem freeFrame_cursor (h : s.freeFrame i = some s') : s'.allocStart = s.allocStart := by
  obtain ⟨marked, _, hFree⟩ := Option.bind_eq_some_iff.mp h
  split at hFree
  · obtain ⟨frames, _, rfl⟩ := Option.map_eq_some_iff.mp hFree
    rfl
  · cases hFree
    rfl

theorem freeRange_cursor (h : freeRange stop fuel addr s = some s') : s'.allocStart = s.allocStart :=
  rangeLoop_cursor (fun addr => addr < stop ∧ addr < bitmapBits * pageSize) freeFrame (fun _ _ => rfl)
    (fun _ _ _ => rfl) (fun _ _ _ => freeFrame_cursor) h

theorem freeEntry_cursor {e : MmapEntry} (h : freeEntry s e = some s') : s'.allocStart = s.allocStart := by
  rw [freeEntry] at h
  split at h
  · exact freeRange_cursor h
  · cases h
    rfl

theorem clearFrames_cursor (h : clearFrames first left s = some s') : s'.allocStart = s.allocStart := by
  induction left generalizing s' with
  | zero =>
      cases h
      rfl
  | succ left ih =>
      obtain ⟨s₁, hRest, hLast⟩ := Option.bind_eq_some_iff.mp h
      obtain ⟨frames, _, rfl⟩ := Option.map_eq_some_iff.mp hLast
      have hCursor : s₁.allocStart = s.allocStart := ih hRest
      exact hCursor

theorem freeMemory_cursor (h : freeMemory info s = some s') : s'.allocStart = s.allocStart := by
  rw [freeMemory] at h
  split at h
  · exact foldlM_invariant (P := fun t => t.allocStart = s.allocStart)
      (fun _ _ _ ht hEntry => (freeEntry_cursor hEntry).trans ht) rfl h
  · split at h
    · obtain ⟨s₁, hLower, hRest⟩ := Option.bind_eq_some_iff.mp h
      obtain ⟨s₂, hUpper, rfl⟩ := Option.map_eq_some_iff.mp hRest
      exact (clearFrames_cursor hUpper).trans (clearFrames_cursor hLower)
    · cases h

theorem useModules_cursor (h : useModules info s = some s') : s'.allocStart = s.allocStart := by
  rw [useModules] at h
  split at h
  · exact foldlM_invariant (P := fun t => t.allocStart = s.allocStart)
      (fun _ _ _ ht hRange => (useRange_cursor hRange).trans ht) rfl h
  · cases h
    rfl

theorem useModuleList_cursor (h : useModuleList info s = some s') : s'.allocStart = s.allocStart := by
  rw [useModuleList] at h
  split at h
  · exact useRange_cursor h
  · cases h
    rfl

theorem beforeVmaInit_cursor (h : beforeVmaInit kernelEnd info s = some s') :
    s'.allocStart = s.allocStart := by
  obtain ⟨s₁, hInfo, hKernel⟩ := Option.bind_eq_some_iff.mp h
  obtain ⟨s₂, hMemory, hInfo⟩ := Option.bind_eq_some_iff.mp hInfo
  obtain ⟨s₃, hFrame, hInfo⟩ := Option.bind_eq_some_iff.mp hInfo
  obtain ⟨s₄, hList, hModules⟩ := Option.bind_eq_some_iff.mp hInfo
  have hFirst := freeMemory_cursor hMemory
  exact (useRange_cursor hKernel).trans ((useModules_cursor hModules).trans
    ((useModuleList_cursor hList).trans ((useFrame_cursor hFrame).trans hFirst)))

end PageTotals

namespace Frames

variable {s s' t t' : Frames} {npages phyaddr addr base fuel off kernelEnd : Nat} {ret : Int}

/-- The cursor has its first value, or is the number of a page. -/
def CursorSmall (s : Frames) : Prop := s.allocStart = 2 ^ 32 - 1 ∨ s.allocStart ≤ 2 ^ 20

theorem search_range (hPos : 0 < npages) (h : s.search npages fuel off = some (some base)) :
    base + npages ≤ bitmapBits := by
  have hTest : s.testWindow base npages 0 = some (0 + npages) := by
    rw [Nat.zero_add]
    exact search_found h
  have hLast := (testWindow_all hTest (i := base + npages - 1) (by omega) (by omega)).1
  omega

theorem CursorSmall.getPages (hKernel : kernelEnd < 2 ^ 32)
    (hCall : getPages kernelEnd npages s = some (s', addr)) (h : s.CursorSmall) : s'.CursorSmall := by
  by_cases hPos : npages = 0
  · rw [Frames.getPages, if_pos hPos] at hCall
    cases hCall
    exact h
  by_cases hEnough : s.available < npages
  · rw [Frames.getPages, if_neg hPos, if_pos hEnough] at hCall
    cases hCall
    exact h
  have hStarted : (s.started kernelEnd).allocStart ≤ 2 ^ 20 := by
    rw [started]
    split
    next =>
      rw [Nat.shiftRight_eq_div_pow]
      exact Nat.le_of_lt (Nat.div_lt_of_lt_mul hKernel)
    next hne => exact h.resolve_left hne
  rw [getPages_eq (Nat.pos_of_ne_zero hPos) (Nat.not_lt.mp hEnough)] at hCall
  obtain ⟨found, hSearch, hRest⟩ := Option.bind_eq_some_iff.mp hCall
  cases found with
  | none =>
      cases hRest
      exact Or.inr hStarted
  | some base =>
      obtain ⟨s₃, hMark, hResult⟩ := Option.map_eq_some_iff.mp hRest
      have hRange := search_range (Nat.pos_of_ne_zero hPos) hSearch
      obtain ⟨s₂, hMark', _, hRecord⟩ := markRange_spec
        { s.started kernelEnd with allocStart := Word.add base npages } base npages 0 (by omega)
      obtain rfl := Option.some.inj (hMark'.symm.trans hMark)
      cases hResult
      have hCursor : s₂.allocStart = base + npages := by
        have hBits := bitmapBits_lt
        rw [hRecord]
        exact Word.add_eq (by omega)
      have hBits : bitmapBits ≤ 2 ^ 20 := by decide
      exact Or.inr (hCursor ▸ hRange.trans hBits)

theorem CursorSmall.putPages (hCall : putPages phyaddr npages s = some (s', ret)) (h : s.CursorSmall) :
    s'.CursorSmall := by
  rw [Frames.putPages] at hCall
  split at hCall
  · cases hCall
    exact h
  split at hCall
  · cases hCall
    exact h
  obtain ⟨⟨s₁, count⟩, hClear, hResult⟩ := Option.map_eq_some_iff.mp hCall
  cases hResult
  have hRecord := (clearRange_cases hClear).2.2
  have hCursor : s₁.allocStart = s.allocStart := by
    rw [hRecord]
  rw [CursorSmall] at h ⊢
  rwa [hCursor]

/-- The states that `memory_init` and later calls of the allocator lead to. -/
def AfterBoot (kernelEnd : Nat) (t : Frames) : Prop :=
  ∃ info vmaInit s ret, PageTotals.memoryInit kernelEnd info vmaInit PageTotals.static = some (s, ret) ∧
    Relation.ReflTransGen (Call kernelEnd) s.toFrames t

theorem CursorSmall.calls (hKernel : kernelEnd < 2 ^ 32) (hRun : Relation.ReflTransGen (Call kernelEnd) s t)
    (h : s.CursorSmall) : t.CursorSmall := by
  induction hRun with
  | refl => exact h
  | tail _ last ih =>
      cases last with
      | get npages addr hCall => exact ih.getPages hKernel hCall
      | put phyaddr npages ret hCall => exact ih.putPages hCall

theorem CursorSmall.perform {calls : List FrameCall} {r r' : Holding} (hKernel : kernelEnd < 2 ^ 32)
    (hRun : Holding.perform kernelEnd calls r = some r') (h : r.frames.CursorSmall) :
    r'.frames.CursorSmall := by
  apply foldlM_invariant (P := fun r : Holding => r.frames.CursorSmall) _ h hRun
  intro r c r' hr hCall
  cases c with
  | get npages =>
      obtain ⟨⟨frames, addr⟩, hGet, rfl⟩ := Option.map_eq_some_iff.mp hCall
      exact CursorSmall.getPages hKernel hGet hr
  | put block =>
      rw [Holding.call] at hCall
      split at hCall
      · obtain ⟨⟨frames, ret⟩, hPut, rfl⟩ := Option.map_eq_some_iff.mp hCall
        exact CursorSmall.putPages hPut hr
      · cases hCall

theorem AfterBoot.cursorSmall (hKernel : kernelEnd < 2 ^ 32) (h : AfterBoot kernelEnd t) :
    t.CursorSmall := by
  obtain ⟨info, vmaInit, s, ret, hInit, hRun⟩ := h
  obtain ⟨s₁, hBefore, hInit⟩ := Option.bind_eq_some_iff.mp hInit
  obtain ⟨s₂, hVma, hInit⟩ := Option.bind_eq_some_iff.mp hInit
  obtain ⟨r, hPerform, rfl⟩ := Option.map_eq_some_iff.mp hVma
  have hStatic : s₁.CursorSmall := Or.inl (PageTotals.beforeVmaInit_cursor hBefore)
  have hVmaInit : r.frames.CursorSmall := CursorSmall.perform hKernel hPerform hStatic
  apply CursorSmall.calls hKernel hRun
  split at hInit
  · cases hInit
    exact hVmaInit
  · obtain ⟨s₃, hModules, hEnd⟩ := Option.map_eq_some_iff.mp hInit
    cases hEnd
    rw [CursorSmall, PageTotals.useModules_cursor hModules]
    exact hVmaInit

theorem CursorSmall.sum_lt (hKernel : kernelEnd < 2 ^ 32) (h : s.CursorSmall) :
    bitmapBits + s.cursor kernelEnd < 2 ^ 32 := by
  have hBits : bitmapBits < 2 ^ 31 := by decide
  have hPage : kernelEnd >>> pageBits ≤ 2 ^ 20 := by
    rw [Nat.shiftRight_eq_div_pow]
    exact Nat.le_of_lt (Nat.div_lt_of_lt_mul hKernel)
  rw [cursor]
  split
  next => omega
  next hne =>
    have hSmall := h.resolve_left hne
    omega

theorem ZeroFirst.comes (h : s.ZeroFirst kernelEnd npages) : s.Comes kernelEnd npages 0 := by
  have hSmall := h.small
  refine ⟨by omega, ?_⟩
  rcases h.first with hFirst | ⟨hUsed, _⟩
  · exact Or.inl hFirst.le
  · exact Or.inr ⟨_, by omega, by omega, hUsed⟩

/-- The window at frame 0 is taken, and the result is that of a failure. -/
theorem ZeroFirst.taken (hCursor : bitmapBits + s.cursor kernelEnd < 2 ^ 32)
    (h : s.ZeroFirst kernelEnd npages) :
    ∃ s', getPages kernelEnd npages s = some (s', 0) ∧ ¬ Unchanged s s' := by
  rcases getPages_search h.positive h.enough h.small hCursor with
    ⟨s', base, hCall, hFound, hMarks⟩ | ⟨s', _, _, hNone⟩
  · obtain rfl : base = 0 := hFound.zero_iff.mpr ⟨h.free, h.first⟩
    refine ⟨s', hCall, ?_⟩
    intro hSame
    have hUsed : s'.Marked 0 := (hMarks 0).mpr (Or.inr ⟨le_rfl, (Nat.zero_add npages).symm ▸ h.positive⟩)
    exact h.free 0 le_rfl ((Nat.zero_add npages).symm ▸ h.positive) ((marked_congr hSame.bitmap).mp hUsed)
  · exact absurd h.free (hNone 0 h.comes)

/-- A request for more pages than there are is refused. -/
theorem getPages_large (hLarge : bitmapBits ≤ npages) (hCall : getPages kernelEnd npages s = some (s', 0)) :
    Unchanged s s' := by
  have hPos : 0 < npages := lt_of_lt_of_le (by decide) hLarge
  by_cases hEnough : s.available < npages
  · rw [getPages, if_neg hPos.ne', if_pos hEnough] at hCall
    cases hCall
    exact ⟨rfl, rfl, rfl⟩
  · rw [getPages_eq hPos (Nat.not_lt.mp hEnough)] at hCall
    obtain ⟨found, hSearch, hRest⟩ := Option.bind_eq_some_iff.mp hCall
    cases found with
    | none =>
        cases hRest
        exact started_unchanged
    | some base =>
        have hRange := search_range hPos hSearch
        obtain rfl : npages = bitmapBits := by omega
        have hEmpty : ¬ 1 ≤ windows bitmapBits := by decide
        rw [search, if_neg hEmpty] at hSearch
        cases hSearch

/-- A failure of `get_pages` leaves everything as it was exactly if it is not the window at frame 0 that
has been taken. -/
theorem getPages_null_iff (hKernel : kernelEnd < 2 ^ 32) (h : AfterBoot kernelEnd t)
    (hCall : getPages kernelEnd npages t = some (t', 0)) :
    Unchanged t t' ↔ ¬ t.ZeroFirst kernelEnd npages := by
  have hCursor := (h.cursorSmall hKernel).sum_lt hKernel
  constructor
  · intro hSame hZero
    obtain ⟨s', hTaken, hChanged⟩ := hZero.taken hCursor
    cases hCall.symm.trans hTaken
    exact hChanged hSame
  · intro hNot
    by_cases hPos : npages = 0
    · rw [getPages, if_pos hPos] at hCall
      cases hCall
      exact ⟨rfl, rfl, rfl⟩
    by_cases hEnough : t.available < npages
    · rw [getPages, if_neg hPos, if_pos hEnough] at hCall
      cases hCall
      exact ⟨rfl, rfl, rfl⟩
    by_cases hSmall : npages < bitmapBits
    · rcases getPages_search (Nat.pos_of_ne_zero hPos) (Nat.not_lt.mp hEnough) hSmall hCursor with
        ⟨s', base, hFound', hFound, _⟩ | ⟨s', hNull, hSame, _⟩
      · have hAddr : 0 = base <<< pageBits :=
          congrArg Prod.snd (Option.some.inj (hCall.symm.trans hFound'))
        obtain ⟨hFree, hFirst⟩ := hFound.zero_iff.mp (shl_pageBits_eq_zero.mp hAddr.symm)
        exact absurd ⟨Nat.pos_of_ne_zero hPos, Nat.not_lt.mp hEnough, hSmall, hFree, hFirst⟩ hNot
      · cases hCall.symm.trans hNull
        exact hSame
    · exact getPages_large (Nat.not_lt.mp hSmall) hCall

/-- A machine with memory from address 0 on, after its boot. -/
theorem bios_state : ∃ s, AfterBoot 0x108000 s ∧ s.allocStart = 0x119 ∧ 8 ≤ s.available ∧
    s.Free 8 0 ∧ ∀ f, 0x120 ≤ f → f < bitmapBits → s.Marked f := by
  obtain ⟨s, hInit⟩ := PageTotals.biosInfo_init
  have hView : (PageTotals.memoryInit 0x108000 PageTotals.biosInfo PageTotals.oneBlock
      PageTotals.static).map (fun r => (r.1.allocStart, decide (8 ≤ r.1.available),
        decide (∀ i ∈ List.range 8, ¬ r.1.toFrames.Marked i))) = some (0x119, true, true) := by
    decide +kernel
  rw [hInit] at hView
  obtain ⟨hCursor, hView⟩ := Prod.mk.inj (Option.some.inj hView)
  obtain ⟨hEnough, hFree⟩ := Prod.mk.inj hView
  refine ⟨s.toFrames, ⟨_, _, s, 0, hInit, Relation.ReflTransGen.refl⟩, hCursor,
    of_decide_eq_true hEnough, ?_, ?_⟩
  · intro i _ hi
    exact of_decide_eq_true hFree i (List.mem_range.mpr (by omega))
  · intro f hLow hf
    have hFreed : ∀ f ∈ PageTotals.biosInfo.freed, f < 0x120 := by decide +kernel
    have hNot : f ∉ PageTotals.biosInfo.freed := fun hMem => absurd (hFreed f hMem) (Nat.not_lt.mpr hLow)
    exact (PageTotals.memoryInit_marked hInit hf).mpr (Or.inl (Or.inl hNot))

theorem getPages_null_iff_example : ∃ s s', AfterBoot 0x108000 s ∧
    getPages 0x108000 0 s = some (s', 0) ∧ Unchanged s s' := by
  obtain ⟨s, hBoot, _⟩ := bios_state
  have hCall : getPages 0x108000 0 s = some (s, 0) := rfl
  exact ⟨s, s, hBoot, hCall, (getPages_null_iff (by decide) hBoot hCall).mpr fun h =>
    absurd h.positive (Nat.lt_irrefl 0)⟩

/-- The frames 0 to 7 are taken by a call that returns 0. -/
theorem getPages_null_takes : ¬ ∀ (kernelEnd npages : Nat) (s s' : Frames), AfterBoot kernelEnd s →
    getPages kernelEnd npages s = some (s', 0) → Unchanged s s' := by
  intro hAll
  obtain ⟨s, hBoot, hCursor, hEnough, hFree, hUsed⟩ := bios_state
  have hStart : s.cursor 0x108000 = 0x119 := by
    rw [cursor, hCursor]
    rfl
  have hWindow : s.firstWindow 0x108000 8 = 0x11a := by
    rw [firstWindow, hStart]
    decide
  have hZero : s.ZeroFirst 0x108000 8 := by
    refine ⟨by decide, hEnough, by decide, hFree, Or.inr ⟨hUsed _ (by decide) (by decide), ?_⟩⟩
    intro b hLow hHigh hWindowFree
    rw [hWindow] at hLow
    exact hWindowFree (b + 7) (by omega) (by omega) (hUsed _ (by omega) (by omega))
  obtain ⟨s', hCall, hChanged⟩ := hZero.taken (hStart ▸ by decide)
  exact hChanged (hAll 0x108000 8 s s' hBoot hCall)

end Frames
end ArtOS

import Mathlib.Data.Nat.ModEq
import ArtOS.Memory.FramePool

/-! The counters of the frame allocator, for every call that comes back: what
`total_available_pages` gains or loses is what the bitmap gains or loses. -/
namespace ArtOS.Frames

variable {s s' t : Frames} {i j npages addr kernelEnd : Nat}

/-- A change that keeps the difference between the counter and the free frames, and the sum of
the two counters. -/
structure Neutral (s s' : Frames) : Prop where
  small : s.available < 2 ^ 32 → s'.available < 2 ^ 32
  free : s'.available + s.freeFrames.card ≡ s.available + s'.freeFrames.card [MOD 2 ^ 32]
  sum : s'.allocated + s'.available ≡ s.allocated + s.available [MOD 2 ^ 32]

theorem Neutral.refl (s : Frames) : Neutral s s := ⟨id, rfl, rfl⟩

theorem Neutral.trans (h : Neutral s t) (h' : Neutral t s') : Neutral s s' := by
  obtain ⟨hSmall, hFree, hSum⟩ := h
  obtain ⟨hSmall', hFree', hSum'⟩ := h'
  refine ⟨fun h => hSmall' (hSmall h), ?_, hSum'.trans hSum⟩
  simp only [Nat.ModEq] at hFree hFree' ⊢
  omega

theorem freeFrames_congr (h : ∀ j, s'.Marked j ↔ s.Marked j) : s'.freeFrames = s.freeFrames := by
  ext j
  simp only [mem_freeFrames, h]

/-- Free frames are taken. -/
theorem card_take {t : Finset Nat} (hMarks : ∀ j, s'.Marked j ↔ s.Marked j ∨ j ∈ t)
    (hFree : t ⊆ s.freeFrames) : s'.freeFrames.card + t.card = s.freeFrames.card := by
  have hLeft : s'.freeFrames = s.freeFrames \ t := by
    ext j
    simp only [mem_freeFrames, Finset.mem_sdiff, hMarks, not_or, and_assoc]
  rw [hLeft]
  exact Finset.card_sdiff_add_card_eq_card hFree

/-- Frames are given back. -/
theorem card_give {t : Finset Nat} (hMarks : ∀ j, s'.Marked j ↔ s.Marked j ∧ j ∉ t)
    (hUsed : t ⊆ s.usedFrames) : s'.freeFrames.card = s.freeFrames.card + t.card := by
  have hMore : s'.freeFrames = s.freeFrames ∪ t := by
    ext j
    have hLt : j ∈ t → j < bitmapBits := fun hj => (mem_usedFrames.mp (hUsed hj)).1
    simp only [mem_freeFrames, Finset.mem_union, hMarks]
    tauto
  have hApart : Disjoint s.freeFrames t := Finset.disjoint_left.mpr fun j hj hjt =>
    (mem_freeFrames.mp hj).2 (mem_usedFrames.mp (hUsed hjt)).2
  rw [hMore, Finset.card_union_of_disjoint hApart]

theorem lt_bitmapBits_of_div (h : i / 8 < bitmapSize) : i < bitmapBits :=
  (Nat.div_lt_iff_lt_mul (by decide)).mp h

theorem pageMarked_some {marked : Bool} (h : s.pageMarked i = some marked) :
    i < bitmapBits ∧ marked = decide (s.Marked i) := by
  have hLt : i < bitmapBits := by
    rw [pageMarked, shr_three] at h
    split at h
    · rename_i hIndex
      exact lt_bitmapBits_of_div hIndex
    · cases h
  rw [pageMarked_eq hLt] at h
  exact ⟨hLt, (Option.some.inj h).symm⟩

/-- A window that passes the test is free. -/
theorem testWindow_all {base left cnt : Nat} (h : s.testWindow base left cnt = some (cnt + left))
    (hLow : base + cnt ≤ i) (hHigh : i < base + cnt + left) : i < bitmapBits ∧ ¬ s.Marked i := by
  induction left generalizing cnt with
  | zero => omega
  | succ left ih =>
      rw [testWindow] at h
      obtain ⟨marked, hMarked, hRest⟩ := Option.bind_eq_some_iff.mp h
      obtain ⟨hLt, rfl⟩ := pageMarked_some hMarked
      by_cases hFirst : s.Marked (base + cnt)
      · rw [decide_eq_true hFirst, if_pos rfl] at hRest
        have hLess := Option.some.inj hRest
        omega
      · rw [decide_eq_false hFirst, if_neg Bool.false_ne_true] at hRest
        rcases Nat.eq_or_lt_of_le hLow with rfl | hLow
        · exact ⟨hLt, hFirst⟩
        · exact ih (by rw [hRest]; congr 1; omega) (by omega) (by omega)

theorem search_found {fuel off base : Nat} (h : s.search npages fuel off = some (some base)) :
    s.testWindow base npages 0 = some npages := by
  induction fuel generalizing off with
  | zero => cases h
  | succ fuel ih =>
      rw [search] at h
      split at h
      · obtain ⟨start, _, hRest⟩ := Option.bind_eq_some_iff.mp h
        obtain ⟨cnt, hTest, hRest⟩ := Option.bind_eq_some_iff.mp hRest
        split at hRest
        · rename_i hAll
          obtain rfl := Option.some.inj (Option.some.inj hRest)
          exact hAll ▸ hTest
        · exact ih hRest
      · cases h

/-- What a call of `get_pages` can do, whatever the counters say. -/
theorem getPages_cases (h : getPages kernelEnd npages s = some (s', addr)) :
    (addr = 0 ∧ (∀ j, s'.Marked j ↔ s.Marked j) ∧ Neutral s s') ∨
      (framesOf (addr, npages) ⊆ s.freeFrames ∧
        (∀ j, s'.Marked j ↔ s.Marked j ∨ j ∈ framesOf (addr, npages)) ∧ Neutral s s') := by
  rw [getPages] at h
  split at h
  · cases h
    exact Or.inl ⟨rfl, fun _ => Iff.rfl, Neutral.refl _⟩
  split at h
  · cases h
    exact Or.inl ⟨rfl, fun _ => Iff.rfl, Neutral.refl _⟩
  rename_i hPos _
  dsimp only at h
  generalize hCursor : (if s.allocStart = 2 ^ 32 - 1 then
    { s with allocStart := kernelEnd >>> pageBits } else s) = s₁ at h
  have hSame : s₁.bitmap = s.bitmap ∧ s₁.available = s.available ∧ s₁.allocated = s.allocated := by
    rw [← hCursor]
    split <;> exact ⟨rfl, rfl, rfl⟩
  have hMarks₁ : ∀ j, s₁.Marked j ↔ s.Marked j := fun j => marked_congr hSame.1
  obtain ⟨found, hSearch, hRest⟩ := Option.bind_eq_some_iff.mp h
  cases found with
  | none =>
      cases hRest
      refine Or.inl ⟨rfl, hMarks₁, fun h => hSame.2.1 ▸ h, ?_, ?_⟩
      · rw [freeFrames_congr hMarks₁, hSame.2.1]
      · rw [hSame.2.1, hSame.2.2]
  | some base =>
      have hTest : s₁.testWindow base npages 0 = some (0 + npages) := by
        rw [Nat.zero_add]
        exact search_found hSearch
      have hWindow : ∀ i, base ≤ i → i < base + npages → i < bitmapBits ∧ ¬ s₁.Marked i :=
        fun i hLow hHigh => testWindow_all hTest hLow hHigh
      have hRange : base + npages ≤ bitmapBits := by
        have hLast := (hWindow (base + npages - 1) (by omega) (by omega)).1
        omega
      obtain ⟨s₂, hMark, hMarked, hRecord⟩ := markRange_spec
        { s₁ with allocStart := Word.add base npages } base npages 0 (by omega)
      obtain ⟨s₃, hMark', hResult⟩ := Option.map_eq_some_iff.mp hRest
      obtain rfl := Option.some.inj (hMark.symm.trans hMark')
      obtain ⟨rfl, rfl⟩ := Prod.mk.inj hResult
      have hBits : bitmapBits * 2 ^ pageBits < 2 ^ 32 := by decide
      have hBase : Word.shl base pageBits >>> pageBits = base :=
        Word.shl_shr (lt_of_le_of_lt (Nat.mul_le_mul_right _ (by omega)) hBits)
      have hFrames : framesOf (Word.shl base pageBits, npages) = Finset.Ico base (base + npages) := by
        rw [framesOf, hBase]
      have hFree : Finset.Ico base (base + npages) ⊆ s.freeFrames := by
        intro i hi
        obtain ⟨hLow, hHigh⟩ := Finset.mem_Ico.mp hi
        obtain ⟨hLt, hNot⟩ := hWindow i hLow hHigh
        exact mem_freeFrames.mpr ⟨hLt, mt (hMarks₁ i).mpr hNot⟩
      have hMarks : ∀ a b j, Marked { s₂ with allocated := a, available := b } j ↔
          s.Marked j ∨ j ∈ Finset.Ico base (base + npages) := by
        intro a b j
        refine (marked_congr (s := s₂) rfl).trans ?_
        rw [hMarked, Finset.mem_Ico]
        exact or_congr_left (hMarks₁ j)
      have hAvailable : s₂.available = s.available :=
        (congrArg Frames.available hRecord).trans hSame.2.1
      have hAllocated : s₂.allocated = s.allocated :=
        (congrArg Frames.allocated hRecord).trans hSame.2.2
      rw [hFrames]
      refine Or.inr ⟨hFree, hMarks _ _, fun _ => Word.sub_lt, ?_, ?_⟩
      · have hCard := card_take (hMarks (Word.add s₂.allocated npages) (Word.sub s₂.available npages))
          hFree
        rw [Nat.card_Ico, Nat.add_sub_cancel_left] at hCard
        simp only [Nat.ModEq, hAvailable, Word.sub] at hCard ⊢
        omega
      · simp only [Nat.ModEq, hAvailable, hAllocated, Word.sub, Word.add]
        omega

/-- The loop of `put_pages`: it counts the frames that were in use. -/
theorem clearRange_cases {base left ret ret' : Nat}
    (h : clearRange base left i (s, ret) = some (s', ret')) :
    (∀ j, s'.Marked j ↔ s.Marked j ∧ ¬ (base + i ≤ j ∧ j < base + i + left)) ∧
      s'.freeFrames.card + ret = s.freeFrames.card + ret' ∧
      s' = { s with bitmap := s'.bitmap } := by
  induction left generalizing i s ret with
  | zero =>
      obtain ⟨rfl, rfl⟩ := Prod.mk.inj (Option.some.inj h)
      exact ⟨fun j => by simp, rfl, rfl⟩
  | succ left ih =>
      rw [clearRange] at h
      obtain ⟨marked, hMarked, hRest⟩ := Option.bind_eq_some_iff.mp h
      obtain ⟨hLt, rfl⟩ := pageMarked_some hMarked
      by_cases hUsed : s.Marked (base + i)
      · rw [decide_eq_true hUsed, if_pos rfl] at hRest
        obtain ⟨s₁, hClear, hMarks₁, hSame₁⟩ := pageClearMark_eq (s := s) hLt
        rw [hClear, Option.bind_some] at hRest
        obtain ⟨hMarks, hCard, hSame⟩ := ih hRest
        have hCard₁ : s₁.freeFrames.card = s.freeFrames.card + ({base + i} : Finset Nat).card := by
          refine card_give (fun j => ?_) fun j hj => ?_
          · rw [hMarks₁, Finset.mem_singleton]
          · rw [Finset.mem_singleton.mp hj]
            exact mem_usedFrames.mpr ⟨hLt, hUsed⟩
        rw [Finset.card_singleton] at hCard₁
        refine ⟨fun j => ?_, by omega, by rw [hSame, hSame₁]⟩
        rw [hMarks, hMarks₁, and_assoc]
        refine and_congr_right fun _ => ⟨fun h => ?_, fun h => ?_⟩ <;> omega
      · rw [decide_eq_false hUsed, if_neg Bool.false_ne_true] at hRest
        obtain ⟨hMarks, hCard, hSame⟩ := ih hRest
        refine ⟨fun j => ?_, hCard, hSame⟩
        rw [hMarks]
        refine and_congr_right fun hj => ?_
        have hne : j ≠ base + i := fun he => hUsed (he ▸ hj)
        omega

theorem putPages_cases {phyaddr : Nat} {ret : Int}
    (h : putPages phyaddr npages s = some (s', ret)) :
    (∀ j, s'.Marked j ↔
        s.Marked j ∧ (phyaddr = 0 ∨ npages = 0 ∨ j ∉ framesOf (phyaddr, npages))) ∧
      Neutral s s' := by
  rw [putPages] at h
  split at h
  · rename_i hZero
    cases h
    exact ⟨fun j => by simp [hZero], Neutral.refl s⟩
  split at h
  · rename_i hZero
    cases h
    exact ⟨fun j => by simp [hZero], Neutral.refl s⟩
  rename_i hAddr hPages
  obtain ⟨⟨s₁, count⟩, hClear, hResult⟩ := Option.map_eq_some_iff.mp h
  obtain ⟨rfl, rfl⟩ := Prod.mk.inj hResult
  obtain ⟨hMarks, hCard, hSame⟩ := clearRange_cases hClear
  have hMarks' : ∀ a b j, Marked { s₁ with allocated := a, available := b } j ↔
      s.Marked j ∧ j ∉ framesOf (phyaddr, npages) := by
    intro a b j
    refine (marked_congr (s := s₁) rfl).trans ?_
    rw [hMarks, framesOf, Finset.mem_Ico]
    rfl
  have hFree : Frames.freeFrames
      { s₁ with
        allocated := Word.sub s₁.allocated count
        available := Word.add s₁.available count } = s₁.freeFrames :=
    freeFrames_congr fun j => marked_congr rfl
  have hAvailable : s₁.available = s.available := (congrArg Frames.available hSame).trans rfl
  have hAllocated : s₁.allocated = s.allocated := (congrArg Frames.allocated hSame).trans rfl
  refine ⟨fun j => ?_, fun _ => Word.add_lt, ?_, ?_⟩
  · rw [hMarks']
    simp [hAddr, hPages]
  · rw [hFree]
    simp only [Nat.ModEq, hAvailable, Word.add]
    omega
  · simp only [Nat.ModEq, hAvailable, hAllocated, Word.sub, Word.add]
    omega

end ArtOS.Frames

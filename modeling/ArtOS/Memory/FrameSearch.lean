import ArtOS.Memory.Accounting

/-! Which windows the search of `get_pages` comes to. It goes once around the places a window can have,
and jumps behind the first frame in use each time; a jump across the end also leaves out windows at the
beginning that this frame does not belong to. -/
namespace ArtOS.Frames

variable {s s' : Frames} {npages base b i off fuel kernelEnd : Nat}

/-- All frames of the window at `base` are free. -/
def Free (s : Frames) (npages base : Nat) : Prop := ∀ i, base ≤ i → i < base + npages → ¬ s.Marked i

/-- `alloc_start` as the search sees it. -/
def cursor (kernelEnd : Nat) (s : Frames) : Nat :=
  if s.allocStart = 2 ^ 32 - 1 then kernelEnd >>> pageBits else s.allocStart

/-- Where the search begins. -/
def firstWindow (kernelEnd npages : Nat) (s : Frames) : Nat :=
  (1 + s.cursor kernelEnd) % (bitmapBits - npages)

/-- A place behind the beginning is come to; one in front of it only if a frame is in use that is at most
so far behind the last place. -/
def Comes (kernelEnd npages : Nat) (s : Frames) (b : Nat) : Prop :=
  b < bitmapBits - npages ∧ (s.firstWindow kernelEnd npages ≤ b ∨
    ∃ f, bitmapBits - npages ≤ f + 1 ∧ f + 1 ≤ bitmapBits - npages + b ∧ s.Marked f)

/-- A call that takes the window at frame 0. -/
structure ZeroFirst (kernelEnd npages : Nat) (s : Frames) : Prop where
  positive : 0 < npages
  enough : npages ≤ s.available
  small : npages < bitmapBits
  free : s.Free npages 0
  first : s.firstWindow kernelEnd npages = 0 ∨ s.Marked (bitmapBits - npages - 1) ∧
    ∀ b, s.firstWindow kernelEnd npages ≤ b → b < bitmapBits - npages → ¬ s.Free npages b

/-- The test loop stops at the first frame in use. -/
theorem testWindow_least (s : Frames) (base left cnt : Nat) (hRange : base + cnt + left ≤ bitmapBits) :
    ∃ cnt', s.testWindow base left cnt = some cnt' ∧ cnt ≤ cnt' ∧ cnt' ≤ cnt + left ∧
      (∀ i, base + cnt ≤ i → i < base + cnt' → ¬ s.Marked i) ∧
        (cnt' < cnt + left → s.Marked (base + cnt')) := by
  induction left generalizing cnt with
  | zero => exact ⟨cnt, rfl, le_rfl, le_rfl, fun i h₁ h₂ => by omega, fun h => by omega⟩
  | succ left ih =>
      rw [testWindow, pageMarked_eq (by omega), Option.bind_some]
      by_cases hMarked : s.Marked (base + cnt)
      · exact ⟨cnt, by simp [hMarked], le_rfl, by omega, fun i h₁ h₂ => by omega, fun _ => hMarked⟩
      · obtain ⟨cnt', hTest, hLow, hHigh, hFree, hStop⟩ := ih (cnt + 1) (by omega)
        refine ⟨cnt', by simp [hMarked, hTest], by omega, by omega, ?_, fun h => hStop (by omega)⟩
        intro i h₁ h₂
        rcases Nat.eq_or_lt_of_le h₁ with rfl | h₁
        · exact hMarked
        · exact hFree i (by omega) h₂

section Search

variable {first : Nat}

/-- What the search knows when it has come to the place `z`, counted on from `first` around the end. -/
structure Ruled (s : Frames) (npages first z : Nat) : Prop where
  ahead : ∀ b, first ≤ b → b < bitmapBits - npages → b < z → ¬ s.Free npages b
  behind : ∀ b, bitmapBits - npages + b < z → (∃ f, bitmapBits - npages ≤ f + 1 ∧
    f + 1 ≤ bitmapBits - npages + b ∧ s.Marked f) → ¬ s.Free npages b
  around : bitmapBits - npages ≤ z → ∃ f, bitmapBits - npages ≤ f + 1 ∧ f + 1 ≤ z ∧ s.Marked f

/-- A frame in use rules out the windows up to it. -/
theorem not_free {f : Nat} (hf : s.Marked f) (hLow : b ≤ f) (hHigh : f < b + npages) :
    ¬ s.Free npages b := fun hFree => hFree f hLow hHigh hf

/-- A round in front of the end. -/
theorem Ruled.ahead_step {z cnt : Nat} (h : Ruled s npages first z) (hz : z < bitmapBits - npages)
    (hFree : ∀ i, z ≤ i → i < z + cnt → ¬ s.Marked i) (hStop : s.Marked (z + cnt)) (hCnt : cnt < npages) :
    Ruled s npages first (z + cnt + 1) := by
  refine ⟨?_, ?_, ?_⟩
  · intro b hb hLast hNext
    by_cases hOld : b < z
    · exact h.ahead b hb hLast hOld
    · exact not_free hStop (by omega) (by omega)
  · rintro b hb ⟨f, hLow, hHigh, hf⟩
    exact absurd hf (hFree f (by omega) (by omega))
  · exact fun hEnd => ⟨z + cnt, hEnd, le_rfl, hStop⟩

/-- A round behind the end. -/
theorem Ruled.behind_step {y cnt : Nat} (h : Ruled s npages first (bitmapBits - npages + y))
    (hStop : s.Marked (y + cnt)) (hCnt : cnt < npages) :
    Ruled s npages first (bitmapBits - npages + y + cnt + 1) := by
  refine ⟨?_, ?_, ?_⟩
  · exact fun b hb hLast _ => h.ahead b hb hLast (by omega)
  · intro b hb hUsed
    by_cases hOld : b < y
    · exact h.behind b (by omega) hUsed
    · exact not_free hStop (by omega) (by omega)
  · intro _
    obtain ⟨f, hLow, hHigh, hf⟩ := h.around (Nat.le_add_right _ _)
    exact ⟨f, hLow, by omega, hf⟩

/-- The search has found a free window, the first one on its way. -/
structure Found (s : Frames) (npages first base : Nat) : Prop where
  free : s.Free npages base
  small : base < bitmapBits - npages
  way : first ≤ base ∧ Ruled s npages first base ∨
    base < first ∧ Ruled s npages first (bitmapBits - npages + base)

/-- The place that belongs to `off`. -/
theorem windowStart_eq (hOff : 1 ≤ off) (hLast : off ≤ bitmapBits - npages) (hSmall : npages < bitmapBits)
    (hCursor : bitmapBits + s.allocStart < 2 ^ 32) :
    s.windowStart npages off =
      let z := (1 + s.allocStart) % (bitmapBits - npages) + (off - 1)
      some (if z < bitmapBits - npages then z else z - (bitmapBits - npages)) := by
  have hWindows := windows_eq hSmall.le
  have hPos : 0 < bitmapBits - npages := Nat.sub_pos_of_lt hSmall
  have hLess := Nat.mod_lt (1 + s.allocStart) hPos
  have hSum : Word.add off s.allocStart = 1 + s.allocStart + (off - 1) := by
    rw [Word.add_eq (by omega)]
    omega
  have hMod : (1 + s.allocStart + (off - 1)) % (bitmapBits - npages) =
      ((1 + s.allocStart) % (bitmapBits - npages) + (off - 1)) % (bitmapBits - npages) :=
    (Nat.mod_add_mod _ _ _).symm
  rw [windowStart, hWindows, if_neg hPos.ne', hSum, hMod]
  dsimp only
  split
  next hBefore => rw [Nat.mod_eq_of_lt hBefore]
  next hBehind =>
    rw [Nat.mod_eq_sub_mod (Nat.le_of_not_lt hBehind), Nat.mod_eq_of_lt (by omega)]

/-- One round: the window is taken, or the search goes on behind a frame in use. -/
theorem Ruled.round {z : Nat} (h : Ruled s npages first z) (hFirst : first ≤ z)
    (hLast : z < first + (bitmapBits - npages)) (hSmall : npages < bitmapBits)
    (hBegin : first < bitmapBits - npages) :
    ∃ cnt, s.testWindow (if z < bitmapBits - npages then z else z - (bitmapBits - npages)) npages 0 =
        some cnt ∧ cnt ≤ npages ∧
      (cnt = npages → Found s npages first
        (if z < bitmapBits - npages then z else z - (bitmapBits - npages))) ∧
      (cnt ≠ npages → Ruled s npages first (z + cnt + 1)) := by
  split
  next hBefore =>
    obtain ⟨cnt, hTest, _, hHigh, hFree, hStop⟩ := testWindow_least s z npages 0 (by omega)
    rw [Nat.zero_add] at hHigh hStop
    refine ⟨cnt, hTest, hHigh, ?_, ?_⟩
    · rintro rfl
      exact ⟨hFree, hBefore, Or.inl ⟨hFirst, h⟩⟩
    · intro hne
      exact h.ahead_step hBefore hFree (hStop (by omega)) (by omega)
  next hBehind =>
    obtain ⟨y, rfl⟩ := Nat.exists_eq_add_of_le (Nat.le_of_not_lt hBehind)
    rw [Nat.add_sub_cancel_left]
    obtain ⟨cnt, hTest, _, hHigh, hFree, hStop⟩ := testWindow_least s y npages 0 (by omega)
    rw [Nat.zero_add] at hHigh hStop
    refine ⟨cnt, hTest, hHigh, ?_, ?_⟩
    · rintro rfl
      exact ⟨hFree, by omega, Or.inr ⟨by omega, h⟩⟩
    · intro hne
      exact h.behind_step (hStop (by omega)) (by omega)

/-- The whole search, from one round on. -/
theorem search_ruled (hOff : 1 ≤ off) (hSmall : npages < bitmapBits)
    (hCursor : bitmapBits + s.allocStart < 2 ^ 32) (hFuel : 0 < fuel)
    (hRounds : bitmapBits - npages + 1 < off + fuel)
    (h : Ruled s npages ((1 + s.allocStart) % (bitmapBits - npages))
      ((1 + s.allocStart) % (bitmapBits - npages) + (off - 1))) :
    (∃ base, s.search npages fuel off = some (some base) ∧
      Found s npages ((1 + s.allocStart) % (bitmapBits - npages)) base) ∨
    s.search npages fuel off = some none ∧ ∃ z, Ruled s npages ((1 + s.allocStart) % (bitmapBits - npages))
      ((1 + s.allocStart) % (bitmapBits - npages) + (bitmapBits - npages) + z) := by
  have hWindows := windows_eq hSmall.le
  have hBegin := Nat.mod_lt (1 + s.allocStart) (Nat.sub_pos_of_lt hSmall)
  induction fuel generalizing off with
  | zero => omega
  | succ fuel ih =>
      rw [search, hWindows]
      split
      next hRound =>
        rw [windowStart_eq hOff hRound hSmall hCursor, Option.bind_some]
        obtain ⟨cnt, hTest, hCnt, hTaken, hMore⟩ := h.round (Nat.le_add_right _ _) (by omega) hSmall hBegin
        rw [hTest, Option.bind_some]
        by_cases hAll : cnt = npages
        · rw [if_pos hAll]
          exact Or.inl ⟨_, rfl, hTaken hAll⟩
        · have hNext : Word.add off (cnt + 1) = off + (cnt + 1) := Word.add_eq (by omega)
          rw [if_neg hAll, hNext]
          apply ih (by omega) (by omega) (by omega)
          have hPlace : (1 + s.allocStart) % (bitmapBits - npages) + (off + (cnt + 1) - 1) =
              (1 + s.allocStart) % (bitmapBits - npages) + (off - 1) + cnt + 1 := by omega
          rw [hPlace]
          exact hMore hAll
      next hEnd =>
        refine Or.inr ⟨rfl, off - 1 - (bitmapBits - npages), ?_⟩
        have hPlace : (1 + s.allocStart) % (bitmapBits - npages) + (bitmapBits - npages) +
            (off - 1 - (bitmapBits - npages)) =
              (1 + s.allocStart) % (bitmapBits - npages) + (off - 1) := by omega
        rw [hPlace]
        exact h

theorem Ruled.congr {z : Nat} (hMarks : ∀ j, s'.Marked j ↔ s.Marked j) (h : Ruled s' npages first z) :
    Ruled s npages first z := by
  have hFree : ∀ b, s'.Free npages b ↔ s.Free npages b := fun b =>
    forall₃_congr fun i _ _ => not_congr (hMarks i)
  refine ⟨fun b hb hLast hz => (hFree b).not.mp (h.ahead b hb hLast hz), ?_, ?_⟩
  · rintro b hb ⟨f, hLow, hHigh, hf⟩
    exact (hFree b).not.mp (h.behind b hb ⟨f, hLow, hHigh, (hMarks f).mpr hf⟩)
  · intro hEnd
    obtain ⟨f, hLow, hHigh, hf⟩ := h.around hEnd
    exact ⟨f, hLow, hHigh, (hMarks f).mp hf⟩

theorem Found.congr (hMarks : ∀ j, s'.Marked j ↔ s.Marked j) (h : Found s' npages first base) :
    Found s npages first base :=
  ⟨fun i hLow hHigh hi => h.free i hLow hHigh ((hMarks i).mpr hi), h.small,
    h.way.imp (And.imp_right (Ruled.congr hMarks)) (And.imp_right (Ruled.congr hMarks))⟩

theorem Found.zero_iff (h : Found s npages first base) :
    base = 0 ↔ s.Free npages 0 ∧ (first = 0 ∨ s.Marked (bitmapBits - npages - 1) ∧
      ∀ b, first ≤ b → b < bitmapBits - npages → ¬ s.Free npages b) := by
  obtain ⟨hFree, hSmall, hWay⟩ := h
  constructor
  · rintro rfl
    refine ⟨hFree, ?_⟩
    rcases hWay with ⟨hFirst, _⟩ | ⟨_, hRuled⟩
    · exact Or.inl (Nat.le_zero.mp hFirst)
    · obtain ⟨f, hLow, hHigh, hf⟩ := hRuled.around (Nat.le_add_right _ _)
      obtain rfl : f = bitmapBits - npages - 1 := by omega
      exact Or.inr ⟨hf, fun b hb hLast => hRuled.ahead b hb hLast (by omega)⟩
  · rintro ⟨hZero, hFirst⟩
    by_contra hne
    rcases hWay with ⟨hAhead, hRuled⟩ | ⟨hBehind, hRuled⟩
    · rcases hFirst with rfl | ⟨_, hNone⟩
      · exact hRuled.ahead 0 le_rfl (by omega) (by omega) hZero
      · exact hNone base hAhead hSmall hFree
    · rcases hFirst with rfl | ⟨hUsed, _⟩
      · omega
      · exact hRuled.behind 0 (by omega) ⟨_, by omega, by omega, hUsed⟩ hZero

end Search

/-- Nothing but the cursor differs. -/
structure Unchanged (s s' : Frames) : Prop where
  bitmap : s'.bitmap = s.bitmap
  allocated : s'.allocated = s.allocated
  available : s'.available = s.available

/-- The allocator when the search begins. -/
def started (kernelEnd : Nat) (s : Frames) : Frames :=
  if s.allocStart = 2 ^ 32 - 1 then { s with allocStart := kernelEnd >>> pageBits } else s

theorem started_allocStart : (s.started kernelEnd).allocStart = s.cursor kernelEnd := by
  rw [started, cursor]
  split
  next => rfl
  next => rfl

theorem started_unchanged : Unchanged s (s.started kernelEnd) := by
  rw [started]
  split
  next => exact ⟨rfl, rfl, rfl⟩
  next => exact ⟨rfl, rfl, rfl⟩

theorem getPages_eq (hPos : 0 < npages) (hEnough : npages ≤ s.available) :
    getPages kernelEnd npages s =
      ((s.started kernelEnd).search npages (windows npages + 1) 1).bind fun found =>
        match found with
        | none => some (s.started kernelEnd, 0)
        | some off =>
            (markRange off npages 0 { s.started kernelEnd with allocStart := Word.add off npages }).map fun s =>
              ({ s with
                  allocated := Word.add s.allocated npages
                  available := Word.sub s.available npages }, Word.shl off pageBits) := by
  rw [getPages, if_neg hPos.ne', if_neg (Nat.not_lt.mpr hEnough)]
  rfl

/-- The window that the search has found is taken. -/
theorem getPages_taken (hPos : 0 < npages) (hEnough : npages ≤ s.available) (hRange : base + npages ≤ bitmapBits)
    (hSearch : (s.started kernelEnd).search npages (windows npages + 1) 1 = some (some base)) :
    ∃ s', getPages kernelEnd npages s = some (s', base <<< pageBits) ∧
      ∀ j, s'.Marked j ↔ s.Marked j ∨ base ≤ j ∧ j < base + npages := by
  obtain ⟨s₂, hMark, hMarked, _⟩ := markRange_spec
    { s.started kernelEnd with allocStart := Word.add base npages } base npages 0 (by omega)
  have hBits : bitmapBits * 2 ^ pageBits < 2 ^ 32 := by decide
  have hAddr : Word.shl base pageBits = base <<< pageBits := by
    rw [Word.shl, Nat.shiftLeft_eq]
    exact Nat.mod_eq_of_lt (lt_of_le_of_lt (Nat.mul_le_mul_right _ (by omega)) hBits)
  refine ⟨{ s₂ with
    allocated := Word.add s₂.allocated npages
    available := Word.sub s₂.available npages }, ?_, ?_⟩
  · rw [getPages_eq hPos hEnough, hSearch, Option.bind_some]
    dsimp only at hMark ⊢
    rw [hMark, Option.map_some, hAddr]
  · intro j
    refine (marked_congr (s := s₂) rfl).trans ?_
    rw [hMarked]
    exact or_congr_left (marked_congr started_unchanged.bitmap)

/-- What a call of `get_pages` for some pages comes to. -/
theorem getPages_search (hPos : 0 < npages) (hEnough : npages ≤ s.available) (hSmall : npages < bitmapBits)
    (hCursor : bitmapBits + s.cursor kernelEnd < 2 ^ 32) :
    (∃ s' base, getPages kernelEnd npages s = some (s', base <<< pageBits) ∧
      Found s npages (s.firstWindow kernelEnd npages) base ∧
        ∀ j, s'.Marked j ↔ s.Marked j ∨ base ≤ j ∧ j < base + npages) ∨
    ∃ s', getPages kernelEnd npages s = some (s', 0) ∧ Unchanged s s' ∧
      ∀ b, s.Comes kernelEnd npages b → ¬ s.Free npages b := by
  have hMarks : ∀ j, (s.started kernelEnd).Marked j ↔ s.Marked j := fun j =>
    marked_congr started_unchanged.bitmap
  have hFirst : (1 + (s.started kernelEnd).allocStart) % (bitmapBits - npages) =
      s.firstWindow kernelEnd npages := by
    rw [started_allocStart, firstWindow]
  have hWindows := windows_eq hSmall.le
  have hBegin := Nat.mod_lt (1 + (s.started kernelEnd).allocStart) (Nat.sub_pos_of_lt hSmall)
  have hNothing : Ruled (s.started kernelEnd) npages
      ((1 + (s.started kernelEnd).allocStart) % (bitmapBits - npages))
      ((1 + (s.started kernelEnd).allocStart) % (bitmapBits - npages) + (1 - 1)) :=
    ⟨fun b _ _ _ => by omega, fun b hb => by omega, fun hEnd => by omega⟩
  rcases search_ruled le_rfl hSmall (started_allocStart ▸ hCursor) (by omega : 0 < windows npages + 1)
    (by omega) hNothing with ⟨base, hSearch, hFound⟩ | ⟨hSearch, z, hRuled⟩
  · have hSmall' := hFound.small
    obtain ⟨s', hCall, hTaken⟩ := getPages_taken hPos hEnough (by omega) hSearch
    rw [hFirst] at hFound
    exact Or.inl ⟨s', base, hCall, hFound.congr hMarks, hTaken⟩
  · refine Or.inr ⟨_, by rw [getPages_eq hPos hEnough, hSearch, Option.bind_some], started_unchanged, ?_⟩
    rintro b ⟨hLast, hWay⟩
    rw [hFirst] at hRuled hBegin
    have hRuled' := hRuled.congr hMarks
    by_cases hAhead : s.firstWindow kernelEnd npages ≤ b
    · exact hRuled'.ahead b hAhead hLast (by omega)
    · exact hRuled'.behind b (by omega) (hWay.resolve_left hAhead)

/-- A window that is found is one that the search comes to. -/
theorem Found.comes (h : Found s npages (s.firstWindow kernelEnd npages) base) :
    s.Comes kernelEnd npages base := by
  refine ⟨h.small, ?_⟩
  rcases h.way with ⟨hAhead, _⟩ | ⟨_, hRuled⟩
  · exact Or.inl hAhead
  · exact Or.inr (hRuled.around (Nat.le_add_right _ _))

theorem shl_pageBits_eq_zero : base <<< pageBits = 0 ↔ base = 0 := by
  rw [Nat.shiftLeft_eq]
  simp

/-- While some window behind frame 0 is free, `get_pages` finds one exactly if the search comes to a free
window and does not take the one at frame 0. -/
theorem getPages_complete_iff (hCursor : s.allocStart < bitmapBits) (hPages : 1 ≤ npages)
    (hEnough : npages ≤ s.available)
    (hWindow : ∃ b, 1 ≤ b ∧ b < bitmapBits - npages ∧ s.Free npages b) :
    (∃ s' addr, getPages kernelEnd npages s = some (s', addr) ∧ addr ≠ 0) ↔
      (∃ b, s.Comes kernelEnd npages b ∧ s.Free npages b) ∧ ¬ s.ZeroFirst kernelEnd npages := by
  have hSmall : npages < bitmapBits := by
    obtain ⟨b, _, hLast, _⟩ := hWindow
    omega
  have hBits : bitmapBits < 2 ^ 31 := by decide
  have hStart : s.cursor kernelEnd = s.allocStart := if_neg (by omega)
  have hSum : bitmapBits + s.cursor kernelEnd < 2 ^ 32 := by
    rw [hStart]
    omega
  rcases getPages_search hPages hEnough hSmall hSum with
    ⟨s', base, hCall, hFound, _⟩ | ⟨s', hCall, _, hNone⟩
  · have hZero : base = 0 ↔ s.ZeroFirst kernelEnd npages := by
      rw [hFound.zero_iff]
      exact ⟨fun ⟨hFree, hFirst⟩ => ⟨hPages, hEnough, hSmall, hFree, hFirst⟩,
        fun h => ⟨h.free, h.first⟩⟩
    rw [and_iff_right ⟨base, hFound.comes, hFound.free⟩, ← hZero, ← shl_pageBits_eq_zero]
    constructor
    · rintro ⟨s₁, addr, hSame, hne⟩
      cases hCall.symm.trans hSame
      exact hne
    · exact fun hne => ⟨s', _, hCall, hne⟩
  · refine iff_of_false ?_ fun ⟨⟨b, hComes, hFree⟩, _⟩ => hNone b hComes hFree
    rintro ⟨s₁, addr, hSame, hne⟩
    cases hCall.symm.trans hSame
    exact hne rfl

theorem getPages_complete_iff_example :
    ∃ s' addr, getPages 0 1 Holding.exampleFrames = some (s', addr) ∧ addr ≠ 0 := by
  have hFree : Holding.exampleFrames.Free 1 257 := by
    intro i hLow hHigh
    obtain rfl : i = 257 := by omega
    decide
  apply (getPages_complete_iff (by decide) le_rfl (by decide) ⟨257, by decide, by decide, hFree⟩).mpr
  refine ⟨⟨257, ⟨by decide, Or.inl (by decide)⟩, hFree⟩, ?_⟩
  intro hZero
  exact hZero.free 0 le_rfl Nat.one_pos (by decide)

/-- Three free frames at the beginning, and two at the end. -/
def scatteredFrames : Frames where
  bitmap i := if i = 0 then 0xF1#8 else if i = 4095 then 0xCF#8 else 0xFF#8
  allocStart := 32763
  allocated := 0
  available := 5

theorem scatteredFrames_free (h : ¬ scatteredFrames.Marked i) :
    i = 1 ∨ i = 2 ∨ i = 3 ∨ i = 32764 ∨ i = 32765 := by
  have hMod := Nat.mod_lt i (by decide : 0 < 8)
  have hDiv := Nat.div_add_mod i 8
  have hBits : ∀ m < 8, ((0xF1#8).getLsbD m = true ∨ m = 1 ∨ m = 2 ∨ m = 3) ∧
      ((0xCF#8).getLsbD m = true ∨ m = 4 ∨ m = 5) ∧ (0xFF#8).getLsbD m = true := by decide
  obtain ⟨hFirst, hLast, hOther⟩ := hBits (i % 8) hMod
  rw [Marked] at h
  dsimp only [scatteredFrames] at h
  split at h
  next =>
    have hBit := hFirst.resolve_left h
    omega
  next =>
    split at h
    next =>
      have hBit := hLast.resolve_left h
      omega
    next => exact absurd hOther h

/-- The search jumps from the end over the only free window. -/
theorem getPages_incomplete : ¬ ∀ (kernelEnd npages : Nat) (s : Frames), s.allocStart < bitmapBits →
    1 ≤ npages → npages ≤ s.available →
      (∃ b, 1 ≤ b ∧ b < bitmapBits - npages ∧ s.Free npages b) →
        ∃ s' addr, getPages kernelEnd npages s = some (s', addr) ∧ addr ≠ 0 := by
  intro hAll
  have hWindow : scatteredFrames.Free 3 1 := by
    intro i hLow hHigh
    obtain rfl | rfl | rfl : i = 1 ∨ i = 2 ∨ i = 3 := by omega
    · decide
    · decide
    · decide
  have hNone : ∀ b, scatteredFrames.Comes 0 3 b → ¬ scatteredFrames.Free 3 b := by
    rintro b ⟨hLast, hWay⟩ hFree
    have hb := scatteredFrames_free (hFree b le_rfl (by omega))
    have hb' := scatteredFrames_free (hFree (b + 1) (by omega) (by omega))
    have hb'' := scatteredFrames_free (hFree (b + 2) (by omega) (by omega))
    obtain rfl : b = 1 := by omega
    rcases hWay with hAhead | ⟨f, hLow, hHigh, hf⟩
    · exact absurd hAhead (by decide)
    · have hBits : bitmapBits - 3 = 32765 := by decide
      rw [hBits] at hLow hHigh
      obtain rfl | rfl : f = 32764 ∨ f = 32765 := by omega
      · exact absurd hf (by decide)
      · exact absurd hf (by decide)
  obtain ⟨s', addr, hCall, hne⟩ :=
    hAll 0 3 scatteredFrames (by decide) (by decide) (by decide) ⟨1, le_rfl, by decide, hWindow⟩
  rcases @getPages_search scatteredFrames 3 0 (by decide) (by decide) (by decide) (by decide) with
    ⟨_, base, _, hFound, _⟩ | ⟨_, hNull, _⟩
  · exact hNone base hFound.comes hFound.free
  · cases hNull.symm.trans hCall
    exact hne rfl

end ArtOS.Frames

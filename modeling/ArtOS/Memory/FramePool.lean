import Mathlib.Order.Interval.Finset.Nat
import ArtOS.Library.Pool
import ArtOS.Library.Transition
import ArtOS.Memory.Frames

/-! The frame allocator as a pool of frames: `get_pages` takes an interval of
free frames out of the pool and `put_pages` gives it back. -/
namespace ArtOS.Frames

variable {s s' : Frames} {i j npages : Nat}

theorem getLsbD_bitMask (mod : Nat) {bit : Nat} (h : bit < 8) :
    (bitMask mod).getLsbD bit = decide (bit = mod) := by
  simp only [bitMask, BitVec.getLsbD_shiftLeft, BitVec.getLsbD_one]
  by_cases he : bit = mod
  · simp [he, he ▸ h]
  · have : bit < mod ∨ bit - mod ≠ 0 := by omega
    rcases this with hlt | hne
    · simp [he, hlt]
    · simp [he, hne]

theorem and_bitMask_ne_zero {b : BitVec 8} {mod : Nat} (h : mod < 8) :
    b &&& bitMask mod ≠ 0 ↔ b.getLsbD mod = true := by
  constructor
  · intro hne
    by_contra hBit
    refine hne (BitVec.eq_of_getLsbD_eq fun bit hb => ?_)
    by_cases he : bit = mod
    · simp [he, hBit]
    · simp [getLsbD_bitMask mod hb, he]
  · intro hBit he
    have hZero := congrArg (fun b => b.getLsbD mod) he
    simp [getLsbD_bitMask mod h, hBit] at hZero

theorem shr_three (i : Nat) : i >>> 3 = i / 8 := Nat.shiftRight_eq_div_pow i 3

theorem and_seven (i : Nat) : i &&& 7 = i % 8 := Nat.and_two_pow_sub_one_eq_mod i 3

theorem div_lt_bitmapSize (h : i < bitmapBits) : i / 8 < bitmapSize :=
  (Nat.div_lt_iff_lt_mul (by decide)).mpr h

theorem pageMarked_eq (h : i < bitmapBits) : s.pageMarked i = some (decide (s.Marked i)) := by
  rw [pageMarked, shr_three, and_seven, if_pos (div_lt_bitmapSize h)]
  exact congrArg some (decide_eq_decide.mpr (and_bitMask_ne_zero (Nat.mod_lt i (by decide))))

/-- Two bits are the same bit if byte and position agree. -/
theorem eq_of_div_mod (hDiv : i / 8 = j / 8) (hMod : i % 8 = j % 8) : i = j := by omega

/-- A byte that differs in one bit changes the mark of one frame. -/
theorem marked_update {b : BitVec 8} {mark : Prop} (hBit : b.getLsbD (i % 8) = true ↔ mark)
    (hOther : ∀ bit < 8, bit ≠ i % 8 → b.getLsbD bit = (s.bitmap (i / 8)).getLsbD bit) :
    Marked { s with bitmap := Function.update s.bitmap (i / 8) b } j ↔
      if j = i then mark else s.Marked j := by
  rw [Marked]
  dsimp only
  by_cases hDiv : j / 8 = i / 8
  · rw [hDiv, Function.update_self]
    split
    · next he => rw [he, hBit]
    · next hne =>
        have hMod : j % 8 ≠ i % 8 := fun hMod => hne (eq_of_div_mod hDiv hMod)
        rw [hOther _ (Nat.mod_lt j (by decide)) hMod, Marked, hDiv]
  · have hne : j ≠ i := fun he => hDiv (he ▸ rfl)
    rw [Function.update_of_ne hDiv, if_neg hne, Marked]

theorem pageSetMark_eq (h : i < bitmapBits) :
    ∃ s', s.pageSetMark i = some s' ∧ (∀ j, s'.Marked j ↔ s.Marked j ∨ j = i) ∧
      s' = { s with bitmap := s'.bitmap } := by
  let b := s.bitmap (i / 8) ||| bitMask (i % 8)
  have hBit : b.getLsbD (i % 8) = true ↔ True := by
    rw [BitVec.getLsbD_or, getLsbD_bitMask _ (Nat.mod_lt i (by decide))]
    simp
  have hOther : ∀ bit < 8, bit ≠ i % 8 → b.getLsbD bit = (s.bitmap (i / 8)).getLsbD bit := by
    intro bit hb hne
    rw [BitVec.getLsbD_or, getLsbD_bitMask _ hb, decide_eq_false hne, Bool.or_false]
  rw [pageSetMark, shr_three, and_seven, if_pos (div_lt_bitmapSize h)]
  refine ⟨_, rfl, fun j => ?_, rfl⟩
  rw [marked_update hBit hOther]
  split
  · next he => simp [he]
  · next hne => simp [hne]

theorem pageClearMark_eq (h : i < bitmapBits) :
    ∃ s', s.pageClearMark i = some s' ∧ (∀ j, s'.Marked j ↔ s.Marked j ∧ j ≠ i) ∧
      s' = { s with bitmap := s'.bitmap } := by
  let b := s.bitmap (i / 8) &&& ~~~bitMask (i % 8)
  have hBit : b.getLsbD (i % 8) = true ↔ False := by
    rw [BitVec.getLsbD_and, BitVec.getLsbD_not, getLsbD_bitMask _ (Nat.mod_lt i (by decide))]
    simp
  have hOther : ∀ bit < 8, bit ≠ i % 8 → b.getLsbD bit = (s.bitmap (i / 8)).getLsbD bit := by
    intro bit hb hne
    rw [BitVec.getLsbD_and, BitVec.getLsbD_not, getLsbD_bitMask _ hb, decide_eq_false hne]
    simp [hb]
  rw [pageClearMark, if_pos (div_lt_bitmapSize h)]
  refine ⟨_, rfl, fun j => ?_, rfl⟩
  rw [marked_update hBit hOther]
  split
  · next he => simp [he]
  · next hne => simp [hne]

/-- The test loop stays inside the window; it runs to the end exactly on a
window of free frames. -/
theorem testWindow_spec (s : Frames) (base left cnt : Nat)
    (hRange : base + cnt + left ≤ bitmapBits) :
    ∃ cnt', s.testWindow base left cnt = some cnt' ∧ cnt ≤ cnt' ∧ cnt' ≤ cnt + left ∧
      (cnt' = cnt + left → ∀ i, base + cnt ≤ i → i < base + cnt + left → ¬ s.Marked i) := by
  induction left generalizing cnt with
  | zero => exact ⟨cnt, rfl, le_rfl, le_rfl, fun _ i h₁ h₂ => by omega⟩
  | succ left ih =>
      rw [testWindow, pageMarked_eq (by omega), Option.bind_some]
      by_cases hMarked : s.Marked (base + cnt)
      · exact ⟨cnt, by simp [hMarked], le_rfl, by omega, fun he => by omega⟩
      · obtain ⟨cnt', hTest, hLow, hHigh, hFree⟩ := ih (cnt + 1) (by omega)
        refine ⟨cnt', by simp [hMarked, hTest], by omega, by omega, fun he i h₁ h₂ => ?_⟩
        rcases Nat.eq_or_lt_of_le h₁ with rfl | h₁
        · exact hMarked
        · exact hFree (by omega) i (by omega) (by omega)

theorem markRange_spec (s : Frames) (base left cnt : Nat)
    (hRange : base + cnt + left ≤ bitmapBits) :
    ∃ s', markRange base left cnt s = some s' ∧
      (∀ j, s'.Marked j ↔ s.Marked j ∨ base + cnt ≤ j ∧ j < base + cnt + left) ∧
      s' = { s with bitmap := s'.bitmap } := by
  induction left generalizing cnt s with
  | zero => exact ⟨s, rfl, fun j => by simp, rfl⟩
  | succ left ih =>
      obtain ⟨s₁, hSet, hMarked, hSame⟩ := pageSetMark_eq (s := s) (i := base + cnt) (by omega)
      obtain ⟨s₂, hRest, hMarked', hSame'⟩ := ih s₁ (cnt + 1) (by omega)
      refine ⟨s₂, by rw [markRange, hSet, Option.bind_some, hRest], fun j => ?_, ?_⟩
      · rw [hMarked', hMarked, or_assoc]
        refine or_congr_right ⟨fun h => ?_, fun h => ?_⟩ <;> omega
      · rw [hSame', hSame]

theorem clearRange_spec (s : Frames) (base left cnt ret : Nat)
    (hRange : base + cnt + left ≤ bitmapBits)
    (hMarked : ∀ j, base + cnt ≤ j → j < base + cnt + left → s.Marked j) :
    ∃ s', clearRange base left cnt (s, ret) = some (s', ret + left) ∧
      (∀ j, s'.Marked j ↔ s.Marked j ∧ ¬ (base + cnt ≤ j ∧ j < base + cnt + left)) ∧
      s' = { s with bitmap := s'.bitmap } := by
  induction left generalizing cnt s ret with
  | zero => exact ⟨s, rfl, fun j => by simp, rfl⟩
  | succ left ih =>
      obtain ⟨s₁, hClear, hMarked₁, hSame⟩ := pageClearMark_eq (s := s) (i := base + cnt) (by omega)
      obtain ⟨s₂, hRest, hMarked₂, hSame'⟩ := ih s₁ (cnt + 1) (ret + 1) (by omega)
        fun j h₁ h₂ => (hMarked₁ j).mpr ⟨hMarked j (by omega) (by omega), by omega⟩
      refine ⟨s₂, ?_, fun j => ?_, by rw [hSame', hSame]⟩
      · rw [clearRange, pageMarked_eq (by omega), Option.bind_some,
          decide_eq_true (hMarked _ le_rfl (by omega)), if_pos rfl, hClear, Option.bind_some, hRest,
          Nat.add_assoc, Nat.add_comm 1 left]
      · rw [hMarked₂, hMarked₁, and_assoc]
        refine and_congr_right fun _ => ⟨fun h => ?_, fun h => ?_⟩ <;> omega

theorem bitmapBits_lt : bitmapBits < 2 ^ 32 := by decide

theorem windows_eq (h : npages ≤ bitmapBits) : windows npages = bitmapBits - npages :=
  Word.sub_eq h bitmapBits_lt

theorem windowStart_spec (s : Frames) (off : Nat) (h : npages < bitmapBits) :
    ∃ base, s.windowStart npages off = some base ∧ base + npages ≤ bitmapBits := by
  have hWindows := windows_eq h.le
  have hPos : 0 < windows npages := by omega
  refine ⟨_, if_neg hPos.ne', ?_⟩
  have hLt := Nat.mod_lt (Word.add off s.allocStart) hPos
  omega

/-- The search ends, since `off` grows in every round, and what it finds is a
window of free frames inside the bitmap. -/
theorem search_spec (s : Frames) (fuel off : Nat) (h : npages < bitmapBits) (hFuel : 0 < fuel)
    (hRounds : windows npages + 1 < off + fuel) :
    ∃ found, s.search npages fuel off = some found ∧
      ∀ base, found = some base → base + npages ≤ bitmapBits ∧
        ∀ i, base ≤ i → i < base + npages → ¬ s.Marked i := by
  induction fuel generalizing off with
  | zero => omega
  | succ fuel ih =>
      rw [search]
      split
      · next hOff =>
          have hWindows := windows_eq h.le
          obtain ⟨base, hStart, hRange⟩ := windowStart_spec s off h
          obtain ⟨cnt, hTest, _, hHigh, hFree⟩ :=
            testWindow_spec s base npages 0 (by omega)
          rw [hStart, Option.bind_some, hTest, Option.bind_some]
          by_cases hAll : cnt = npages
          · refine ⟨some base, if_pos hAll, fun base' he => ?_⟩
            obtain rfl := Option.some.inj he
            exact ⟨hRange, fun i h₁ h₂ => hFree (by omega) i h₁ (by omega)⟩
          · have hBits := bitmapBits_lt
            have hNext : Word.add off (cnt + 1) = off + (cnt + 1) := Word.add_eq (by omega)
            rw [if_neg hAll, hNext]
            exact ih _ (by omega) (by omega)
      · exact ⟨none, rfl, by simp⟩

def freeFrames (s : Frames) : Finset Nat := (Finset.range bitmapBits).filter fun i => ¬ s.Marked i

def usedFrames (s : Frames) : Finset Nat := (Finset.range bitmapBits).filter fun i => s.Marked i

/-- The frames of a block that `get_pages` returned. -/
def framesOf (range : Nat × Nat) : Finset Nat :=
  Finset.Ico (range.1 >>> pageBits) (range.1 >>> pageBits + range.2)

@[simp] theorem mem_freeFrames : i ∈ s.freeFrames ↔ i < bitmapBits ∧ ¬ s.Marked i := by
  simp [freeFrames]

@[simp] theorem mem_usedFrames : i ∈ s.usedFrames ↔ i < bitmapBits ∧ s.Marked i := by
  simp [usedFrames]

/-- The counter never promises more than there is, and not every frame is free. -/
structure Ready (s : Frames) : Prop where
  available : s.available ≤ s.freeFrames.card
  used : s.usedFrames.Nonempty

theorem card_freeFrames_lt (h : s.usedFrames.Nonempty) : s.freeFrames.card < bitmapBits := by
  obtain ⟨i, hi⟩ := h
  rw [mem_usedFrames] at hi
  have hLt : s.freeFrames.card < (Finset.range bitmapBits).card :=
    Finset.card_lt_card (Finset.filter_ssubset.mpr ⟨i, by simpa using hi.1, by simpa using hi.2⟩)
  simpa using hLt

theorem marked_congr (h : s'.bitmap = s.bitmap) : s'.Marked j ↔ s.Marked j := by
  rw [Marked, Marked, h]

/-- `get_pages` either changes no mark or takes a window of free frames. -/
theorem getPages_spec (kernelEnd npages : Nat) (h : s.Ready) :
    ∃ s' addr, getPages kernelEnd npages s = some (s', addr) ∧
      ((s'.bitmap = s.bitmap ∧ s'.available = s.available ∧ addr = 0) ∨
        framesOf (addr, npages) ⊆ s.freeFrames ∧ 0 < npages ∧
          (∀ j, s'.Marked j ↔ s.Marked j ∨ j ∈ framesOf (addr, npages)) ∧
          s'.available + npages = s.available) := by
  unfold getPages
  split
  · exact ⟨s, 0, rfl, .inl ⟨rfl, rfl, rfl⟩⟩
  split
  · exact ⟨s, 0, rfl, .inl ⟨rfl, rfl, rfl⟩⟩
  next hPos hEnough =>
  have hFree := card_freeFrames_lt h.used
  have hPages : npages < bitmapBits := by
    have hAvailable := h.available
    omega
  generalize hCursor : (if s.allocStart = 2 ^ 32 - 1 then
    { s with allocStart := kernelEnd >>> pageBits } else s) = s₁
  have hSame : s₁.bitmap = s.bitmap ∧ s₁.available = s.available := by
    rw [← hCursor]
    split <;> exact ⟨rfl, rfl⟩
  obtain ⟨found, hSearch, hFound⟩ := search_spec s₁ (windows npages + 1) 1
    hPages (by omega) (by omega)
  simp only [hSearch, Option.bind_some]
  cases found with
  | none => exact ⟨s₁, 0, rfl, .inl ⟨hSame.1, hSame.2, rfl⟩⟩
  | some base =>
      obtain ⟨hRange, hWindow⟩ := hFound base rfl
      obtain ⟨s₂, hMark, hMarked, hRest⟩ := markRange_spec
        { s₁ with allocStart := Word.add base npages } base npages 0 (by omega)
      have hBits : bitmapBits * 2 ^ pageBits < 2 ^ 32 := by decide
      have hBase : Word.shl base pageBits >>> pageBits = base :=
        Word.shl_shr (lt_of_le_of_lt (Nat.mul_le_mul_right _ (by omega)) hBits)
      have hAvailable : s₂.available = s.available :=
        (congrArg Frames.available hRest).trans hSame.2
      have hSmall : s.freeFrames.card < 2 ^ 32 := hFree.trans bitmapBits_lt
      have hLe := h.available
      refine ⟨_, _, by simp only [hMark, Option.map_some]; rfl, .inr ⟨fun i hi => ?_, by omega,
        fun j => ?_, ?_⟩⟩
      · simp only [framesOf, hBase, Finset.mem_Ico] at hi
        exact mem_freeFrames.mpr
          ⟨by omega, mt (marked_congr hSame.1).mpr (hWindow i hi.1 hi.2)⟩
      · refine (marked_congr (s := s₂) rfl).trans ?_
        rw [hMarked, framesOf, hBase, Finset.mem_Ico]
        exact or_congr_left (marked_congr hSame.1)
      · simp only [hAvailable]
        rw [Word.sub_eq (by omega) (by omega)]
        omega

/-- `put_pages` gives a block of marked frames back. -/
theorem putPages_spec {range : Nat × Nat} (hAddr : range.1 ≠ 0) (hPages : 0 < range.2)
    (hUsed : framesOf range ⊆ s.usedFrames)
    (hAvailable : s.available + range.2 ≤ bitmapBits) :
    ∃ s' ret, putPages range.1 range.2 s = some (s', ret) ∧
      (∀ j, s'.Marked j ↔ s.Marked j ∧ j ∉ framesOf range) ∧
      s'.available = s.available + range.2 := by
  simp only [putPages, hAddr, hPages.ne', if_false]
  unfold framesOf at hUsed ⊢
  generalize range.1 >>> pageBits = base at hUsed ⊢
  have hMem : ∀ j, base ≤ j → j < base + range.2 → j < bitmapBits ∧ s.Marked j :=
    fun j h₁ h₂ => mem_usedFrames.mp (hUsed (Finset.mem_Ico.mpr ⟨h₁, h₂⟩))
  have hLast := (hMem (base + range.2 - 1) (by omega) (by omega)).1
  obtain ⟨s', hClear, hMarked, hRest⟩ := clearRange_spec s base range.2 0 0
    (by omega) fun j h₁ h₂ => (hMem j h₁ h₂).2
  have hSame : s'.available = s.available := (congrArg Frames.available hRest).trans rfl
  have hBits := bitmapBits_lt
  rw [Nat.zero_add] at hClear
  refine ⟨_, _, by rw [hClear, Option.map_some], fun j => ?_, ?_⟩
  · refine (marked_congr (s := s') rfl).trans ?_
    rw [hMarked, Finset.mem_Ico]
    rfl
  · simp only [hSame]
    exact Word.add_eq (by omega)

/-- The allocator with the blocks that are in use: address and number of pages. -/
structure Holding where
  frames : Frames
  live : List (Nat × Nat)

namespace Holding

/-- A call of `get_pages` whose result is not null makes a live block;
`put_pages` is called for live blocks only. -/
inductive Step (kernelEnd : Nat) : Holding → Holding → Prop
  | get {s s' : Frames} {live : List (Nat × Nat)} {addr : Nat} (npages : Nat)
      (h : getPages kernelEnd npages s = some (s', addr)) :
      Step kernelEnd ⟨s, live⟩ ⟨s', if addr = 0 then live else (addr, npages) :: live⟩
  | put {s s' : Frames} {live : List (Nat × Nat)} {ret : Int} (range : Nat × Nat)
      (hLive : range ∈ live) (h : putPages range.1 range.2 s = some (s', ret)) :
      Step kernelEnd ⟨s, live⟩ ⟨s', live.erase range⟩

/-- The bitmap is the free part of a sound pool in which the frames that were
used at first stay out of circulation. -/
structure Sound (used : Finset Nat) (r : Holding) : Prop where
  pool : Pool.Sound used r.frames.freeFrames (r.live.map framesOf)
  available : r.frames.available ≤ r.frames.freeFrames.card
  used : used.Nonempty ∧ used ⊆ Finset.range bitmapBits
  block : ∀ range ∈ r.live, range.1 ≠ 0 ∧ 0 < range.2 ∧
    framesOf range ⊆ Finset.range bitmapBits

variable {used : Finset Nat} {r : Holding} {live : List (Nat × Nat)} {kernelEnd : Nat}

/-- Frames that are not free are marked. -/
theorem subset_usedFrames {t : Finset Nat} (hRange : t ⊆ Finset.range bitmapBits)
    (hFree : Disjoint t s.freeFrames) : t ⊆ s.usedFrames := by
  intro i hi
  have hLt := Finset.mem_range.mp (hRange hi)
  refine mem_usedFrames.mpr ⟨hLt, by_contra fun hMarked => ?_⟩
  exact Finset.disjoint_left.mp hFree hi (mem_freeFrames.mpr ⟨hLt, hMarked⟩)

theorem Sound.ready (h : r.Sound used) : r.frames.Ready :=
  ⟨h.available, h.used.1.mono (subset_usedFrames h.used.2 h.pool.outside)⟩

theorem card_framesOf {range : Nat × Nat} : (framesOf range).card = range.2 := by
  simp [framesOf]

/-- Whatever `get_pages` returns, the pool stays sound. -/
theorem Sound.get {s' : Frames} {npages addr : Nat} (h : Sound used ⟨s, live⟩)
    (hCall : getPages kernelEnd npages s = some (s', addr)) :
    Sound used ⟨s', if addr = 0 then live else (addr, npages) :: live⟩ := by
  have hReady : s.Ready := h.ready
  obtain ⟨s₁, addr₁, hCall₁, hCases⟩ := getPages_spec kernelEnd npages hReady
  obtain ⟨rfl, rfl⟩ := Prod.mk.inj (Option.some.inj (hCall.symm.trans hCall₁))
  have hPool : Pool.Sound used s.freeFrames (live.map framesOf) := h.pool
  have hAvailable : s.available ≤ s.freeFrames.card := h.available
  rcases hCases with ⟨hSame, hCount, rfl⟩ | ⟨hFree, hPos, hMarked, hCount⟩
  · have hFrames : s'.freeFrames = s.freeFrames := by
      ext i
      simp only [mem_freeFrames, marked_congr hSame]
    refine ⟨?_, ?_, h.used, h.block⟩
    · rwa [hFrames]
    · rwa [hFrames, hCount]
  · have hFrames : s'.freeFrames = s.freeFrames \ framesOf (addr, npages) := by
      ext i
      simp only [mem_freeFrames, Finset.mem_sdiff, hMarked, not_or, and_assoc]
    have hCard := Finset.card_sdiff_add_card_eq_card hFree
    rw [← hFrames, card_framesOf] at hCard
    have hLeft : s'.available ≤ s'.freeFrames.card := by omega
    by_cases hAddr : addr = 0
    · rw [if_pos hAddr]
      refine ⟨?_, hLeft, h.used, h.block⟩
      rw [hFrames]
      exact hPool.leak
    · rw [if_neg hAddr]
      refine ⟨?_, hLeft, h.used, List.forall_mem_cons.mpr ⟨?_, h.block⟩⟩
      · rw [hFrames]
        exact hPool.take hFree
      · exact ⟨hAddr, hPos, hFree.trans (Finset.filter_subset _ _)⟩

/-- A live block can be given back, and returns to the pool. -/
theorem Sound.put {range : Nat × Nat} (h : Sound used ⟨s, live⟩) (hLive : range ∈ live) :
    ∃ s' ret, putPages range.1 range.2 s = some (s', ret) ∧
      (∀ j, s'.Marked j ↔ s.Marked j ∧ j ∉ framesOf range) ∧ Sound used ⟨s', live.erase range⟩ := by
  obtain ⟨hAddr, hPages, hRange⟩ := h.block range hLive
  have hPool : Pool.Sound used s.freeFrames (framesOf range :: (live.erase range).map framesOf) :=
    Pool.Sound.perm h.pool ((List.perm_cons_erase hLive).map framesOf)
  have hApart := hPool.taken _ List.mem_cons_self
  have hAvailable : s.available ≤ s.freeFrames.card := h.available
  have hCard : (s.freeFrames ∪ framesOf range).card = s.freeFrames.card + range.2 := by
    rw [Finset.card_union_of_disjoint hApart.symm, card_framesOf]
  have hAll : (s.freeFrames ∪ framesOf range).card ≤ bitmapBits := by
    have hSub : s.freeFrames ∪ framesOf range ⊆ Finset.range bitmapBits :=
      Finset.union_subset (Finset.filter_subset _ _) hRange
    simpa using Finset.card_le_card hSub
  obtain ⟨s', ret, hCall, hMarked, hCount⟩ :=
    putPages_spec hAddr hPages (subset_usedFrames hRange hApart) (by omega)
  have hFrames : s'.freeFrames = s.freeFrames ∪ framesOf range := by
    ext i
    rw [Finset.mem_union, mem_freeFrames, mem_freeFrames, hMarked]
    by_cases hi : i ∈ framesOf range
    · exact iff_of_true ⟨Finset.mem_range.mp (hRange hi), fun hn => hn.2 hi⟩ (.inr hi)
    · simp only [hi, not_false_eq_true, and_true, or_false]
  refine ⟨s', ret, hCall, hMarked, ?_, ?_, h.used,
    fun t ht => h.block t (List.mem_of_mem_erase ht)⟩
  · rw [hFrames]
    exact hPool.give
  · rw [hFrames, hCard, hCount]
    omega

theorem Sound.step {r' : Holding} (h : r.Sound used) (hStep : Step kernelEnd r r') :
    r'.Sound used := by
  cases hStep with
  | get npages hCall => exact h.get hCall
  | put range hLive hCall =>
      obtain ⟨s', ret, hCall', _, hSound⟩ := h.put hLive
      obtain ⟨rfl, rfl⟩ := Prod.mk.inj (Option.some.inj (hCall.symm.trans hCall'))
      exact hSound

abbrev Reachable (kernelEnd : Nat) (s : Frames) : Holding → Prop :=
  Transition.Reachable (fun r => r = ⟨s, []⟩) (Step kernelEnd)

theorem reachable_sound (hReady : s.Ready) (h : Reachable kernelEnd s r) :
    r.Sound s.usedFrames := by
  refine h.invariant (P := Sound s.usedFrames) ?_ fun _ _ hs hStep => hs.step hStep
  rintro r rfl
  refine ⟨Pool.Sound.start ?_, hReady.available, ⟨hReady.used, Finset.filter_subset _ _⟩, by simp⟩
  exact (Finset.disjoint_filter_filter_not _ _ _)

/-- From every bitmap with a frame in use and a modest counter, whatever the
cursor is: no call leaves the bitmap or divides by zero, blocks in use never
overlap, and they consist of frames that were free at the start. -/
theorem reachable_disjoint (hReady : s.Ready) (h : Reachable kernelEnd s r) :
    (∀ npages, ∃ s' addr, getPages kernelEnd npages r.frames = some (s', addr)) ∧
      (∀ range ∈ r.live, ∃ s' ret, putPages range.1 range.2 r.frames = some (s', ret)) ∧
      r.live.Pairwise (fun x y => Disjoint (framesOf x) (framesOf y)) ∧
      ∀ range ∈ r.live, ∀ i ∈ framesOf range, i < bitmapBits ∧ ¬ s.Marked i := by
  have hSound := reachable_sound hReady h
  refine ⟨fun npages => ?_, fun range hLive => ?_, List.pairwise_map.mp hSound.pool.disjoint,
    fun range hLive i hi => ?_⟩
  · obtain ⟨s', addr, hCall, _⟩ := getPages_spec kernelEnd npages hSound.ready
    exact ⟨s', addr, hCall⟩
  · obtain ⟨s', ret, hCall, _⟩ := hSound.put hLive
    exact ⟨s', ret, hCall⟩
  · have hLt := Finset.mem_range.mp ((hSound.block range hLive).2.2 hi)
    refine ⟨hLt, fun hMarked => ?_⟩
    have hApart := hSound.pool.apart _ (List.mem_map_of_mem hLive)
    exact Finset.disjoint_left.mp hApart hi (mem_usedFrames.mpr ⟨hLt, hMarked⟩)

def exampleFrames : Frames where
  bitmap i := if i = 0 then 0xff#8 else 0#8
  allocStart := 256
  allocated := 0
  available := 2

theorem exampleFrames_ready : exampleFrames.Ready := by
  refine ⟨?_, 0, mem_usedFrames.mpr ⟨by decide, by decide⟩⟩
  have hPair : ({8, 9} : Finset Nat) ⊆ exampleFrames.freeFrames := by
    intro i hi
    rcases Finset.mem_insert.mp hi with rfl | hi
    · exact mem_freeFrames.mpr ⟨by decide, by decide⟩
    · rw [Finset.mem_singleton.mp hi]
      exact mem_freeFrames.mpr ⟨by decide, by decide⟩
  exact Finset.card_le_card hPair

theorem reachable_disjoint_example :
    ∃ r, Reachable 0 exampleFrames r ∧ r.live = [(0x103000, 1), (0x101000, 1)] ∧
      r.live.Pairwise (fun x y => Disjoint (framesOf x) (framesOf y)) := by
  have hRun : ((getPages 0 1 exampleFrames).bind fun x =>
      (getPages 0 1 x.1).map fun y => (x.2, y.2)) = some (0x101000, 0x103000) := by decide
  obtain ⟨⟨s₁, addr₁⟩, hFirst, hRun⟩ := Option.bind_eq_some_iff.mp hRun
  obtain ⟨⟨s₂, addr₂⟩, hSecond, hAddr⟩ := Option.map_eq_some_iff.mp hRun
  obtain ⟨rfl, rfl⟩ := Prod.mk.inj hAddr
  have hStart : Reachable 0 exampleFrames ⟨exampleFrames, []⟩ := Transition.Reachable.of_init rfl
  have hReach : Reachable 0 exampleFrames ⟨s₂, [(0x103000, 1), (0x101000, 1)]⟩ :=
    (hStart.next (Step.get 1 hFirst)).next (Step.get 1 hSecond)
  exact ⟨_, hReach, rfl, (reachable_disjoint exampleFrames_ready hReach).2.2.1⟩

end Holding
end ArtOS.Frames

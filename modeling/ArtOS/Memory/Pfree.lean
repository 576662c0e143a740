import ArtOS.Memory.PallocPages

/-! `pfree` right after `palloc`: the address space and the page frames are as before but for
new page tables, and the pages are not mapped. -/
namespace ArtOS

open Frames Intervals

variable {s s' b a c : Paging} {p viraddr vpn f₀ npages left i n kernelEnd addr r fuel sz : Nat}
  {bits : BitVec 12}

namespace Paging

/-- The loop of `pfree` that gives the frames back. -/
def putFrames (cr3 viraddr : Nat) : Nat → Nat → Paging → Option Paging
  | 0, _, s => some s
  | left + 1, i, s =>
      (s.virtToPhys cr3 (Word.add viraddr (i * pageSize))).bind fun phyaddr =>
        (s.frames.putPages phyaddr 1).bind fun (frames, _) =>
          putFrames cr3 viraddr left (i + 1) { s with frames := frames }

/-- The pages from `vpn` on are mapped to the frames from `f₀` on. -/
structure Consecutive (s : Paging) (p vpn f₀ npages : Nat) (bits : BitVec 12) : Prop where
  table : ∀ k < npages, (s.mem p ((vpn + k) / pageMapEntries)).Has pgPresent
  page : ∀ k < npages,
    s.mem (s.mem p ((vpn + k) / pageMapEntries)).frame ((vpn + k) % pageMapEntries) = ⟨f₀ + k, bits⟩
  frame : ∀ k < npages, f₀ + k ≠ 0 ∧ f₀ + k < bitmapBits

end Paging

/-- `pfree`, with the heap as a parameter. -/
def pfree (cr3 : Nat) (kmalloc : Allocator (Option Paging)) (kfree : Deallocator (Option Paging))
    (fuel addr sz : Nat) (s : Mm (Option Paging)) : Option (Mm (Option Paging)) :=
  if addr = 0 ∨ sz = 0 then some s
  else
    let viraddr := addr &&& pageMask
    let npages := pageFloor sz >>> pageBits
    (s.env.bind fun env =>
      (env.putFrames cr3 viraddr npages 0).bind (Paging.pageUnmap cr3 viraddr npages)).bind
        fun (env, _) =>
          (vmaFree kmalloc kfree fuel viraddr (Word.add viraddr (npages * pageSize))
            { s with env := some env }).map Prod.fst

namespace Paging

/-- The frame behind a page that is mapped. -/
theorem Consecutive.virtToPhys (h : s.Consecutive p vpn f₀ npages bits) (hRooted : s.Rooted p)
    (hAligned : viraddr = vpn * pageSize) (hRange : vpn + npages ≤ lowPages) (hi : i < npages) :
    s.virtToPhys p (Word.add viraddr (i * pageSize)) = some ((f₀ + i) <<< pageBits) := by
  have hAdd : Word.add viraddr (i * pageSize) = (vpn + i) * pageSize := by
    have hLow : vpn + npages ≤ 1046528 := hRange
    rw [hAligned, Nat.add_mul]
    refine Word.add_eq ?_
    show vpn * 4096 + i * 4096 < 4294967296
    omega
  have hPage : ((vpn + i) * pageSize) >>> pageBits = vpn + i := by
    rw [Nat.shiftRight_eq_div_pow]
    exact Nat.mul_div_cancel _ (by decide : 0 < pageSize)
  have hTable := table_of_low (by omega : vpn + i < lowPages)
  have hEntry := hRooted.entry_table (by omega : (vpn + i) / pageMapEntries < pageMapEntries)
    (Nat.mod_lt (vpn + i) (by decide)) (h.table i hi)
  rw [index_split, h.page i hi] at hEntry
  rw [Paging.virtToPhys, hAdd, hPage, hEntry, Option.map_some, Nat.mul_mod_left, Nat.add_zero]

/-- The loop gives back all frames of the range, in use or not. -/
theorem Consecutive.putFrames (h : s.Consecutive p vpn f₀ npages bits) (hRooted : s.Rooted p)
    (hAligned : viraddr = vpn * pageSize) (hRange : vpn + npages ≤ lowPages)
    (hEnd : i + left = npages) :
    ∃ s', s.putFrames p viraddr left i = some s' ∧ s'.mem = s.mem ∧ Neutral s.frames s'.frames ∧
      ∀ f, s'.frames.Marked f ↔ s.frames.Marked f ∧ ¬ (f₀ + i ≤ f ∧ f < f₀ + npages) := by
  induction left generalizing i s with
  | zero =>
      refine ⟨s, rfl, rfl, Neutral.refl _, fun f => ?_⟩
      exact (and_iff_left (by omega)).symm
  | succ left ih =>
      have hi : i < npages := by omega
      obtain ⟨hZero, hLt⟩ := h.frame i hi
      obtain ⟨frames, ret, hPut, hMarks⟩ := putPages_one (s := s.frames) hZero hLt
      have hNeutral := (putPages_cases hPut).2
      obtain ⟨s', hRest, hMem, hNeutral', hMarks'⟩ := ih (s := { s with frames := frames })
        ⟨h.table, h.page, h.frame⟩ ⟨hRooted.frame, hRooted.present⟩ (by omega : i + 1 + left = npages)
      refine ⟨s', ?_, hMem, hNeutral.trans hNeutral', fun f => ?_⟩
      · rw [Paging.putFrames, h.virtToPhys hRooted hAligned hRange hi, Option.bind_some, hPut,
          Option.bind_some]
        exact hRest
      · rw [hMarks', hMarks, and_assoc]
        refine and_congr_right fun _ => ?_
        omega

/-- The entries of the root that refer to new tables. -/
def newTables (s s' : Paging) (p : Nat) : Finset Nat :=
  (Finset.range (pageMapEntries - 2)).filter fun i =>
    ¬ (s.mem p i).Has pgPresent ∧ (s'.mem p i).Has pgPresent

variable {new : List Nat} {ret : Int} {tables : Paging} {frame : Nat}

theorem MapDone.newTables_eq (h : MapDone bits p vpn frame npages s s' ret new tables) :
    s.newTables s' p = new.toFinset := by
  ext i
  rw [newTables, Finset.mem_filter, Finset.mem_range, List.mem_toFinset, h.entered_iff]

/-- As many frames are taken for tables as tables are new. -/
theorem MapDone.card (h : MapDone bits p vpn frame npages s s' ret new tables)
    (hc : ∀ f, c.frames.Marked f ↔ b.frames.Marked f ∨ s.TableFrame s' p f)
    (hb : ∀ f, b.frames.Marked f → s.frames.Marked f) :
    c.frames.freeFrames.card + (s.newTables s' p).card = b.frames.freeFrames.card := by
  have hInj : Set.InjOn (fun i => (tables.mem p i).frame) (s.newTables s' p) := by
    intro i hi k hk hSame
    rw [h.newTables_eq, List.coe_toFinset] at hi hk
    by_contra hne
    have hi' := (h.enter.absent i hi).1
    have hk' := (h.enter.absent k hk).1
    exact h.level.apart i (by omega) k (by omega) hne (h.enter.present hi).1 (h.enter.present hk).1 hSame
  rw [← Finset.card_image_of_injOn hInj]
  refine card_take (fun f => ?_) fun f hf => ?_
  · rw [hc, h.tableFrame_iff, Finset.mem_image, h.newTables_eq]
    simp only [List.mem_toFinset]
  · obtain ⟨i, hi, rfl⟩ := Finset.mem_image.mp hf
    rw [h.newTables_eq, List.mem_toFinset] at hi
    obtain ⟨_, hLt, _, hFree⟩ := h.enter.fresh i hi
    exact mem_freeFrames.mpr ⟨hLt, fun hMarked => hFree (hb _ hMarked)⟩

end Paging

/-- `palloc` and `pfree` together: `a` is the state between them. -/
structure Released (p npages : Nat) (b a c : Paging) (l : List Entry) (t : Mm (Option Paging)) (r : Nat) :
    Prop where
  list : ∃ l', t.vmas.Spells .kernel l' ∧ Sorted l' ∧ ∀ addr, assigns l' addr = assigns l addr
  marked : ∀ f, c.frames.Marked f ↔ b.frames.Marked f ∨ b.TableFrame a p f
  available : c.frames.available + (b.newTables a p).card ≡ b.frames.available [MOD 2 ^ 32]
  allocated : c.frames.allocated ≡ b.frames.allocated + (b.newTables a p).card [MOD 2 ^ 32]
  unmapped : ∀ k < npages, walk c.mem p (r >>> pageBits + k) = none
  walk : ∀ v < Paging.allPages, (∀ k < npages, v ≠ r >>> pageBits + k) → ¬ b.Entered a p v →
    walk a.mem p v = walk b.mem p v ∧ walk c.mem p v = walk b.mem p v

section Pfree

variable {kmalloc kmalloc' : Allocator (Option Paging)} {kfree : Deallocator (Option Paging)}
variable {m t u : Mm (Option Paging)} {l : List Entry} {node : Option Nat}
variable {contents : Nat → Nat → Nat → Option Paging → Nat → BitVec 8}
variable {frames : Frames} {entered : List Nat} {tables : Paging}

/-- The pages after `palloc`. -/
theorem PallocDone.consecutive
    (hDone : PallocDone kernelEnd p npages b a l t r addr frames entered tables) :
    a.Consecutive p (r >>> pageBits) (addr >>> pageBits) npages (pgRw ||| pgGlobal ||| pgPresent) := by
  obtain ⟨hFree, _⟩ := getPages_done hDone.taken hDone.addr_ne
  have hRewrites := (hDone.map.result.resolve_right fun hError => absurd hError.1 (by decide)).2
  refine ⟨fun k hk => ?_, fun k hk => ?_, fun k hk => ⟨?_, ?_⟩⟩
  · rw [hRewrites.root]
    exact hRewrites.table k hk
  · rw [hRewrites.root]
    exact hRewrites.page k hk
  · exact fun he => hDone.addr_ne
      (getPages_aligned hDone.taken (Nat.eq_zero_of_add_eq_zero_right he))
  · exact (mem_freeFrames.mp (hFree (Finset.mem_Ico.mpr ⟨Nat.le_add_right _ _,
      Nat.add_lt_add_left hk _⟩))).1

variable (h : KernelMemory p m b l)
include h

/-- The page frames and the page tables after both calls. -/
theorem KernelMemory.released
    (hDone : PallocDone kernelEnd p npages b a l t r addr frames entered tables)
    (hCleared : Neutral a.frames c.frames) (hMarks : ∀ f, c.frames.Marked f ↔
      a.frames.Marked f ∧ ¬ (addr >>> pageBits ≤ f ∧ f < addr >>> pageBits + npages))
    (hUnmapped : ∃ a', a'.mem = a.mem ∧
      Paging.Rewrites (fun _ => PageEntry.zero) p (r >>> pageBits) npages a' c)
    (hList : ∃ l', u.vmas.Spells .kernel l' ∧ Sorted l' ∧ ∀ addr, assigns l' addr = assigns l addr) :
    Released p npages b a c l u r := by
  obtain ⟨hFree, hTaken, hNeutral⟩ := getPages_done hDone.taken hDone.addr_ne
  obtain ⟨hMap, hMapped⟩ := hDone.map.marks (Or.inl rfl)
  have hTables : Paging.newTables { b with frames := frames } a p = b.newTables a p := rfl
  have hTable : ∀ f, b.TableFrame a p f →
      ¬ (addr >>> pageBits ≤ f ∧ f < addr >>> pageBits + npages) := by
    intro f hf hMem
    obtain ⟨i, hi, rfl⟩ := hDone.map.tableFrame_iff.mp hf
    exact (hDone.map.enter.fresh i hi).2.2.2 ((hTaken _).mpr (Or.inr (Finset.mem_Ico.mpr hMem)))
  have hMarked : ∀ f, c.frames.Marked f ↔ b.frames.Marked f ∨ b.TableFrame a p f := by
    intro f
    have hOld : b.frames.Marked f → ¬ (addr >>> pageBits ≤ f ∧ f < addr >>> pageBits + npages) :=
      fun hf hMem => (mem_freeFrames.mp (hFree (Finset.mem_Ico.mpr hMem))).2 hf
    have hNew := hTable f
    rw [hMarks, hMap, hTaken, framesOf, Finset.mem_Ico]
    constructor
    · rintro ⟨(hf | hMem) | hNew, hNot⟩
      · exact Or.inl hf
      · exact absurd hMem hNot
      · exact Or.inr hNew
    · rintro (hf | hNew')
      · exact ⟨Or.inl (Or.inl hf), hOld hf⟩
      · exact ⟨Or.inr hNew', hNew hNew'⟩
  have hAll := (hNeutral.trans hMapped).trans hCleared
  have hCard := hDone.map.card (b := b) (c := c) hMarked fun f hf => (hTaken f).mpr (Or.inl hf)
  rw [hTables] at hCard
  obtain ⟨a', hMem, hRewrites⟩ := hUnmapped
  have hGiven := h.given hDone
  have hLevel : a'.TwoLevel p := by
    obtain ⟨⟨hFrame, hPresent⟩, hRoot, hApart⟩ := hDone.map.level'
    rw [← hMem] at hFrame hPresent hRoot hApart
    exact ⟨⟨hFrame, hPresent⟩, hRoot, hApart⟩
  refine ⟨hList, hMarked, ?_, ?_, fun k hk => ?_, fun v hv hOut hWindow => ?_⟩
  · have hCount := hAll.free
    simp only [Nat.ModEq] at hCount ⊢
    omega
  · have hCount := hAll.free
    have hSum := hAll.sum
    simp only [Nat.ModEq] at hCount hSum ⊢
    omega
  · rw [hRewrites.walk_page hk, if_neg PageEntry.not_has_zero]
  · have hWalk := hGiven.walk v hv hOut hWindow
    rw [hRewrites.walk_other hLevel (hDone.room.pages.trans Paging.lowPages_le) hv hOut, hMem]
    exact ⟨hWalk, hWalk⟩

/-- `pfree` takes back what `palloc` has given. -/
theorem pfree_palloc (hNode : NodeAnswer kmalloc .kernel l m u node) (hEnv : u.env = m.env)
    (hKfree : FreesOnly kfree) (hEnds : ∀ q s, ∃ t, kfree q s = some t) (hPos : 0 < sz)
    (hSmall : sz ≤ 2 ^ 31)
    (hRun : palloc (Paging.phys kernelEnd p contents) kmalloc fuel sz m = some (t, some r))
    (ha : t.env = some a) :
    ∃ n, ∀ fuel' ≥ n, ∃ t' c, pfree p kmalloc' kfree fuel' r sz t = some t' ∧ t'.env = some c ∧
      Released p (pageFloor sz >>> pageBits) b a c l t' r := by
  obtain ⟨r', addr, frames, entered, tables, hr, hDone⟩ :=
    (h.palloc_cases hNode hEnv hPos hSmall hRun ha).resolve_left fun hFail =>
      absurd hFail.1 (Option.some_ne_none r)
  obtain rfl := Option.some.inj hr
  have hPages := (pageFloor_pages hPos hSmall).1
  have hSizePos : 0 < pageFloor sz >>> pageBits * pageSize := Nat.mul_pos hPages (by decide)
  obtain ⟨left, e, right, hReserved⟩ := hDone.room.reserved
  refine ⟨(left ++ e :: right).length + 1, fun fuel' hFuel => ?_⟩
  have hHigh : r + pageFloor sz >>> pageBits * 4096 < 1073741824 := hDone.room.high
  have hMask : r &&& pageMask = r := by
    rw [and_pageMask (lt_of_le_of_lt (Nat.le_add_right r _) (hHigh.trans (by decide)))]
    exact Nat.div_mul_cancel hDone.room.aligned
  have hStart : r = r >>> pageBits * pageSize := by
    rw [Nat.shiftRight_eq_div_pow]
    exact (Nat.div_mul_cancel hDone.room.aligned).symm
  have hrPos : ¬ (r = 0 ∨ sz = 0) := by
    have hLow : 0xC0000 ≤ r := hDone.room.low
    omega
  obtain ⟨a', hPut, hMem, hNeutral, hMarks⟩ := hDone.consecutive.putFrames hDone.map.level'.rooted
    hStart hDone.room.pages (Nat.zero_add _)
  have hLevel : a'.TwoLevel p := by
    obtain ⟨⟨hFrame, hPresent⟩, hRoot, hApart⟩ := hDone.map.level'
    rw [← hMem] at hFrame hPresent hRoot hApart
    exact ⟨⟨hFrame, hPresent⟩, hRoot, hApart⟩
  obtain ⟨c, hUnmap⟩ := hLevel.unmapPages_ends (hDone.room.pages.trans Paging.lowPages_le) fun k hk => by
    rw [hMem]
    exact hDone.consecutive.table k hk
  obtain ⟨_, hRewrites⟩ := hLevel.unmapPages (hDone.room.pages.trans Paging.lowPages_le) hUnmap
  have hWord : Word.add r (pageFloor sz >>> pageBits * pageSize) =
      r + pageFloor sz >>> pageBits * pageSize := Word.add_eq (hHigh.trans (by decide))
  have hKernel : freeSpace r (r + pageFloor sz >>> pageBits * pageSize) = some .kernel := by
    rw [freeSpace, if_pos hDone.room.high]
  have hIn : Within .kernel e r e.2.endAddr :=
    ⟨by rw [hReserved.high]; omega, by rw [hReserved.high]; exact hKernel, hReserved.low, le_rfl⟩
  obtain ⟨t', ret, hFree⟩ := vmaFree_ends kmalloc' (s := { t with env := some c })
    hReserved.spells hReserved.sorted hIn hEnds hFuel
  rw [hReserved.high, ← hWord] at hFree
  obtain ⟨hEnv', hList⟩ := hDone.room.undo hSizePos hKfree hFree rfl
  refine ⟨t', c, ?_, hEnv', h.released hDone ?_ ?_ ⟨a', hMem, hRewrites⟩ hList⟩
  · rw [pfree, if_neg hrPos, hMask, ha]
    dsimp only
    rw [Option.bind_some, hPut, Option.bind_some, Paging.pageUnmap, hUnmap, Option.map_some,
      Option.bind_some]
    dsimp only
    rw [hFree, Option.map_some]
  · rw [hRewrites.frames]
    exact hNeutral
  · rw [hRewrites.frames]
    exact hMarks

end Pfree

/-- One page, with a new table. -/
theorem pallocStart_run : ∃ t a,
    palloc (Paging.phys 0x200000 0x110 fun _ _ _ _ _ => 0) noNode 3 0x1000 pallocStart =
      some (t, some 0x7ff000) ∧ t.env = some a ∧ walk a.mem 0x110 0xffc01 =
        some ⟨0x204, pgRw ||| pgGlobal ||| pgPresent ||| pgUser ||| pgRw⟩ := by
  have hCall : ((palloc (Paging.phys 0x200000 0x110 fun _ _ _ _ _ => 0) noNode 3 0x1000
      pallocStart).map fun x => (x.2, x.1.env.map fun a => walk a.mem 0x110 0xffc01)) =
      some (some 0x7ff000, some (some
        ⟨0x204, pgRw ||| pgGlobal ||| pgPresent ||| pgUser ||| pgRw⟩)) := by
    decide
  obtain ⟨⟨t, ret⟩, hRun, hSeen⟩ := Option.map_eq_some_iff.mp hCall
  obtain ⟨rfl, hEnv⟩ := Prod.mk.inj hSeen
  obtain ⟨a, ha, hAfter⟩ := Option.map_eq_some_iff.mp hEnv
  exact ⟨t, a, hRun, ha, hAfter⟩

theorem pfree_palloc_example : ∃ b t a, t.env = some a ∧ ∃ n, ∀ fuel ≥ n, ∃ t' c,
    pfree 0x110 noNode (fun _ s => some s) fuel 0x7ff000 0x1000 t = some t' ∧ t'.env = some c ∧
      Released 0x110 (pageFloor 0x1000 >>> pageBits) b a c [pallocArea] t' 0x7ff000 := by
  obtain ⟨b, _, _, hMemory⟩ := pallocStart_memory
  obtain ⟨t, a, hRun, ha, _⟩ := pallocStart_run
  have hKfree : @FreesOnly (Option Paging) fun _ s => some s := by
    intro p s t hCall
    obtain rfl := Option.some.inj hCall
    exact ⟨rfl, rfl⟩
  exact ⟨b, t, a, ha, pfree_palloc hMemory noNode_answer rfl hKfree (fun _ s => ⟨s, rfl⟩) (by decide)
    (by decide) hRun ha⟩

/-- The new table appears among the pages of the self-reference. -/
theorem palloc_window :
    ¬ ∀ (kernelEnd p sz fuel r : Nat) (s t u : Mm (Option Paging)) (b a : Paging) (l : List Entry)
      (kmalloc : Allocator (Option Paging)) (node : Option Nat), KernelMemory p s b l →
      NodeAnswer kmalloc .kernel l s u node → u.env = s.env → 0 < sz → sz ≤ 2 ^ 31 →
      palloc (Paging.phys kernelEnd p fun _ _ _ _ _ => 0) kmalloc fuel sz s = some (t, some r) →
      t.env = some a → ∀ v < Paging.allPages,
        (∀ k < pageFloor sz >>> pageBits, v ≠ r >>> pageBits + k) → walk a.mem p v = walk b.mem p v := by
  intro hAll
  obtain ⟨b, hMem, _, hMemory⟩ := pallocStart_memory
  obtain ⟨t, a, hRun, ha, hAfter⟩ := pallocStart_run
  have hSame := hAll 0x200000 0x110 0x1000 3 0x7ff000 pallocStart t pallocStart b a [pallocArea] noNode
    none hMemory noNode_answer rfl (by decide) (by decide) hRun ha 0xffc01 (by decide) (by decide)
  have hBefore : walk Paging.onePage.mem 0x110 0xffc01 = none := by decide
  rw [hAfter, hMem, hBefore] at hSame
  cases hSame

end ArtOS

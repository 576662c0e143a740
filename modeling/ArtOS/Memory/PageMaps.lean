import Mathlib.Data.Set.Basic
import ArtOS.Memory.SelfMap

/-! Page maps in use. Their root tables and page tables are frames that the
allocator handed out and that no one else holds; `page_map` and `page_unmap`
keep it so. What an entry of a page table has to satisfy is a parameter. -/
namespace ArtOS

namespace Frames.Holding

variable {used : Finset Nat} {s s' : Frames} {held held' : List (Nat × Nat)} {kernelEnd addr f : Nat}
  {block : Nat × Nat}

/-- A frame in use that belongs to none of the live blocks. -/
structure Owned (r : Holding) (f : Nat) : Prop where
  lt : f < bitmapBits
  marked : r.frames.Marked f
  apart : ∀ block ∈ r.live, f ∉ framesOf block

/-- No frame loses its owner. -/
def Grows (r r' : Holding) : Prop := ∀ f, r.Owned f → r'.Owned f

/-- Frames are only taken. -/
def Taking (s s' : Frames) : Prop := ∀ f, s.Marked f → s'.Marked f

theorem Taking.grows (h : Taking s s') : Grows ⟨s, held⟩ ⟨s', held⟩ :=
  fun f hf => ⟨hf.lt, h f hf.marked, hf.apart⟩

theorem Sound.sublist (h : Sound used ⟨s, held⟩) (hSub : held'.Sublist held) :
    Sound used ⟨s, held'⟩ := by
  obtain ⟨⟨hOutside, hTaken, hApart, hDisjoint⟩, hAvailable, hUsed, hBlock⟩ := h
  have hMap := hSub.map framesOf
  exact ⟨⟨hOutside, fun t ht => hTaken t (hMap.subset ht), fun t ht => hApart t (hMap.subset ht),
    hDisjoint.sublist hMap⟩, hAvailable, hUsed, fun range hr => hBlock range (hSub.subset hr)⟩

theorem Sound.marked (h : Sound used ⟨s, held⟩) (hBlock : block ∈ held) (hf : f ∈ framesOf block) :
    f < bitmapBits ∧ s.Marked f :=
  mem_usedFrames.mp (subset_usedFrames (h.block block hBlock).2.2
    (h.pool.taken _ (List.mem_map_of_mem hBlock)) hf)

theorem grows_sublist (hSub : held'.Sublist held) : Grows ⟨s, held⟩ ⟨s, held'⟩ :=
  fun _ h => ⟨h.lt, h.marked, fun block hb => h.apart block (hSub.subset hb)⟩

/-- The frames of a block that leaves the list have an owner. -/
theorem Sound.owned (h : Sound used ⟨s, held⟩) (hBlock : block ∈ held) (hf : f ∈ framesOf block) :
    Owned ⟨s, held.erase block⟩ f := by
  obtain ⟨hLt, hMarked⟩ := h.marked hBlock hf
  refine ⟨hLt, hMarked, fun other hOther hMem => ?_⟩
  have hPerm : (block :: held.erase block).Pairwise fun x y => Disjoint (framesOf x) (framesOf y) :=
    (List.Perm.pairwise_iff (fun hd => hd.symm) (List.perm_cons_erase hBlock)).mp
      (List.pairwise_map.mp h.pool.disjoint)
  exact Finset.disjoint_left.mp ((List.pairwise_cons.mp hPerm).1 other hOther) hf hMem

theorem framesOf_add {n m : Nat} :
    framesOf (addr + n <<< pageBits, m) = Finset.Ico (addr >>> pageBits + n) (addr >>> pageBits + n + m) := by
  have hBase : (addr + n <<< pageBits) >>> pageBits = addr >>> pageBits + n := by
    rw [Nat.shiftLeft_eq, Nat.shiftRight_eq_div_pow, Nat.shiftRight_eq_div_pow]
    exact Nat.add_mul_div_right _ _ (by decide)
  rw [framesOf, hBase]

/-- A block in hand is divided. -/
theorem Sound.split {n : Nat} (h : Sound used ⟨s, held⟩) (hBlock : block ∈ held) (hPos : 0 < n)
    (hLt : n < block.2) :
    Sound used ⟨s, (block.1, n) :: (block.1 + n <<< pageBits, block.2 - n) :: held.erase block⟩ ∧
      Grows ⟨s, held⟩
        ⟨s, (block.1, n) :: (block.1 + n <<< pageBits, block.2 - n) :: held.erase block⟩ := by
  have hFirst : framesOf (block.1, n) ⊆ framesOf block :=
    Finset.Ico_subset_Ico le_rfl (Nat.add_le_add_left hLt.le _)
  have hSecond : framesOf (block.1 + n <<< pageBits, block.2 - n) ⊆ framesOf block := by
    rw [framesOf_add]
    exact Finset.Ico_subset_Ico (Nat.le_add_right _ _) (by omega)
  have hApart : Disjoint (framesOf (block.1, n))
      (framesOf (block.1 + n <<< pageBits, block.2 - n)) := by
    rw [framesOf_add]
    exact Finset.Ico_disjoint_Ico_consecutive _ _ _
  have hPerm : (held.map framesOf).Perm (framesOf block :: (held.erase block).map framesOf) :=
    (List.perm_cons_erase hBlock).map framesOf
  obtain ⟨hZero, _, hRange⟩ := h.block block hBlock
  refine ⟨⟨(h.pool.perm hPerm).split hFirst hSecond hApart, h.available, h.used, ?_⟩, fun f hf => ?_⟩
  · refine List.forall_mem_cons.mpr ⟨⟨hZero, hPos, hFirst.trans hRange⟩,
      List.forall_mem_cons.mpr ⟨⟨?_, Nat.sub_pos_of_lt hLt, hSecond.trans hRange⟩, ?_⟩⟩
    · exact fun he => hZero (Nat.eq_zero_of_add_eq_zero_right he)
    · exact fun range hr => h.block range (List.mem_of_mem_erase hr)
  · refine ⟨hf.lt, hf.marked, List.forall_mem_cons.mpr ⟨fun hMem => ?_,
      List.forall_mem_cons.mpr ⟨fun hMem => ?_, fun other hOther => ?_⟩⟩⟩
    · exact hf.apart block hBlock (hFirst hMem)
    · exact hf.apart block hBlock (hSecond hMem)
    · exact hf.apart other (List.mem_of_mem_erase hOther)

theorem mem_framesOf_one : f ∈ framesOf (addr, 1) ↔ f = addr >>> pageBits := by
  simp only [framesOf, Finset.mem_Ico]
  omega

/-- Blocks from `get_pages` join the list. -/
theorem Sound.getPages (h : Sound used ⟨s, held⟩) (kernelEnd npages : Nat) :
    ∃ s' addr, Frames.getPages kernelEnd npages s = some (s', addr) ∧
      Sound used ⟨s', if addr = 0 then held else (addr, npages) :: held⟩ ∧ Taking s s' ∧
      Grows ⟨s, held⟩ ⟨s', if addr = 0 then held else (addr, npages) :: held⟩ ∧
      (addr ≠ 0 → ∀ f ∈ framesOf (addr, npages), ¬ s.Marked f) := by
  obtain ⟨s', addr, hCall, hCases⟩ := getPages_spec kernelEnd npages h.ready
  have hTaking : Taking s s' := by
    intro f hf
    rcases hCases with ⟨hSame, _⟩ | ⟨_, _, hMarked, _⟩
    · exact (marked_congr hSame).mpr hf
    · exact (hMarked f).mpr (Or.inl hf)
  have hFree : addr ≠ 0 → ∀ f ∈ framesOf (addr, npages), ¬ s.Marked f := by
    intro hAddr f hf
    rcases hCases with ⟨_, _, hZero⟩ | ⟨hFree, _⟩
    · exact absurd hZero hAddr
    · exact (mem_freeFrames.mp (hFree hf)).2
  refine ⟨s', addr, hCall, h.get hCall, hTaking, fun f hf => ⟨hf.lt, hTaking f hf.marked, ?_⟩, hFree⟩
  split
  · exact hf.apart
  · rename_i hAddr
    exact List.forall_mem_cons.mpr ⟨fun hMem => hFree hAddr f hMem hf.marked, hf.apart⟩

/-- One frame more for the page maps. -/
theorem Sound.take (h : Sound used ⟨s, held⟩) (kernelEnd : Nat) :
    ∃ s' addr, Frames.getPages kernelEnd 1 s = some (s', addr) ∧ Sound used ⟨s', held⟩ ∧
      Taking s s' ∧ (addr ≠ 0 → addr >>> pageBits ≠ 0 ∧ ¬ s.Marked (addr >>> pageBits) ∧
        Owned ⟨s', held⟩ (addr >>> pageBits)) := by
  obtain ⟨s', addr, hCall, hPool, hTaking, _, hFree⟩ := h.getPages kernelEnd 1
  refine ⟨s', addr, hCall, hPool.sublist ?_, hTaking, fun hAddr => ?_⟩
  · split
    · exact List.Sublist.refl held
    · exact List.sublist_cons_self _ held
  · rw [if_neg hAddr] at hPool
    have hOwned := hPool.owned List.mem_cons_self (mem_framesOf_one.mpr rfl)
    rw [List.erase_cons_head] at hOwned
    exact ⟨mt (getPages_aligned hCall) hAddr, hFree hAddr _ (mem_framesOf_one.mpr rfl), hOwned⟩

theorem Sound.putPages (h : Sound used ⟨s, held⟩) (hBlock : block ∈ held) :
    ∃ s' ret, Frames.putPages block.1 block.2 s = some (s', ret) ∧
      Sound used ⟨s', held.erase block⟩ ∧ Grows ⟨s, held⟩ ⟨s', held.erase block⟩ := by
  obtain ⟨s', ret, hCall, hMarks, hSound⟩ := h.put hBlock
  exact ⟨s', ret, hCall, hSound, fun f hf => ⟨hf.lt, (hMarks f).mpr ⟨hf.marked, hf.apart _ hBlock⟩,
    fun other hOther => hf.apart other (List.mem_of_mem_erase hOther)⟩⟩

end Frames.Holding

namespace Paging

open Frames

variable {used : Finset Nat} {held held' : List (Nat × Nat)} {s s' : Paging} {roots : Set Nat}
  {p d f g i j : Nat} {e : PageEntry} {words : Nat → PageEntry} {kernelEnd : Nat}
  {Leaf : Holding → PageEntry → Prop}

@[simp] theorem setFrame_frames : (s.setFrame f words).frames = s.frames := rfl

@[simp] theorem write_frames : (s.write f i e).frames = s.frames := rfl

theorem mem_setFrame : (s.setFrame f words).mem f = words := Function.update_self ..

theorem mem_setFrame_of_ne (h : g ≠ f) : (s.setFrame f words).mem g = s.mem g :=
  Function.update_of_ne h ..

theorem mem_write : (s.write f i e).mem f i = e := by
  rw [write, mem_setFrame, Function.update_self]

theorem mem_write_of_index (h : j ≠ i) : (s.write f i e).mem g j = s.mem g j := by
  by_cases hg : g = f
  · subst hg
    rw [write, mem_setFrame, Function.update_of_ne h]
  · rw [write, mem_setFrame_of_ne hg]

theorem mem_write_of_frame (h : g ≠ f) : (s.write f i e).mem g = s.mem g := mem_setFrame_of_ne h

theorem write_word (h : g = f → j ≠ i) : (s.write f i e).mem g j = s.mem g j := by
  by_cases hg : g = f
  · exact mem_write_of_index (h hg)
  · rw [mem_write_of_frame hg]

/-- What the entries of a page table have to satisfy lasts as long as frames keep their owners,
and an empty entry satisfies it. -/
structure LeafRule (Leaf : Holding → PageEntry → Prop) : Prop where
  mono : ∀ r r' e, Holding.Grows r r' → Leaf r e → Leaf r' e
  zero : ∀ r, Leaf r PageEntry.zero

/-- A page table in use. -/
structure Table (Leaf : Holding → PageEntry → Prop) (held : List (Nat × Nat)) (s : Paging) (f : Nat) :
    Prop where
  ne_zero : f ≠ 0
  owned : Holding.Owned ⟨s.frames, held⟩ f
  leaf : ∀ j < pageMapEntries, Leaf ⟨s.frames, held⟩ (s.mem f j)

/-- A root table: it refers to itself, has no second reference, and covers the first pages. -/
structure Root (held : List (Nat × Nat)) (s : Paging) (p : Nat) : Prop where
  owned : Holding.Owned ⟨s.frames, held⟩ p
  rooted : s.Rooted p
  kernel : ¬ (s.mem p (pageMapEntries - 1)).Has pgUser
  closed : ¬ (s.mem p (pageMapEntries - 2)).Has pgPresent
  low : (s.mem p 0).Has pgPresent

/-- The page maps with these roots are in order. -/
structure Maps (Leaf : Holding → PageEntry → Prop) (used : Finset Nat) (held : List (Nat × Nat))
    (s : Paging) (roots : Set Nat) : Prop where
  pool : Holding.Sound used ⟨s.frames, held⟩
  root : ∀ p ∈ roots, s.Root held p
  table : ∀ p ∈ roots, ∀ i < pageMapEntries - 2, (s.mem p i).Has pgPresent →
    (s.mem p i).Has pgUser ∧ (s.mem p i).frame ∉ roots ∧ s.Table Leaf held (s.mem p i).frame

theorem Table.keep (hRule : LeafRule Leaf) (h : s.Table Leaf held f)
    (hGrows : Holding.Grows ⟨s.frames, held⟩ ⟨s'.frames, held'⟩) (hMem : s'.mem f = s.mem f) :
    s'.Table Leaf held' f := by
  refine ⟨h.ne_zero, hGrows f h.owned, fun j hj => ?_⟩
  rw [hMem]
  exact hRule.mono _ _ _ hGrows (h.leaf j hj)

theorem Root.keep (h : s.Root held p)
    (hGrows : Holding.Grows ⟨s.frames, held⟩ ⟨s'.frames, held'⟩) (hMem : s'.mem p = s.mem p) :
    s'.Root held' p := by
  obtain ⟨hOwned, ⟨hFrame, hPresent⟩, hKernel, hClosed, hLow⟩ := h
  rw [← hMem] at hFrame hPresent hKernel hClosed hLow
  exact ⟨hGrows p hOwned, ⟨hFrame, hPresent⟩, hKernel, hClosed, hLow⟩

/-- Frames that belong to no page map may change. -/
theorem Maps.keep (hRule : LeafRule Leaf) (h : s.Maps Leaf used held roots)
    (hPool : Holding.Sound used ⟨s'.frames, held'⟩)
    (hGrows : Holding.Grows ⟨s.frames, held⟩ ⟨s'.frames, held'⟩)
    (hMem : ∀ f, Holding.Owned ⟨s.frames, held⟩ f → s'.mem f = s.mem f) :
    s'.Maps Leaf used held' roots := by
  refine ⟨hPool, fun p hp => (h.root p hp).keep hGrows (hMem p (h.root p hp).owned), ?_⟩
  intro p hp i hi hPresent
  rw [hMem p (h.root p hp).owned] at hPresent ⊢
  obtain ⟨hUser, hApart, hTable⟩ := h.table p hp i hi hPresent
  exact ⟨hUser, hApart, hTable.keep hRule hGrows (hMem _ hTable.owned)⟩

/-- An entry of a page table is written. -/
theorem Maps.write_leaf (h : s.Maps Leaf used held roots) (hp : p ∈ roots)
    (hi : i < pageMapEntries - 2) (hPresent : (s.mem p i).Has pgPresent)
    (hLeaf : Leaf ⟨s.frames, held⟩ e) : (s.write (s.mem p i).frame j e).Maps Leaf used held roots := by
  have hApart := (h.table p hp i hi hPresent).2.1
  generalize (s.mem p i).frame = g at hApart
  have hRoot : ∀ q ∈ roots, (s.write g j e).mem q = s.mem q := fun q hq =>
    mem_write_of_frame fun he => hApart (he ▸ hq)
  refine ⟨h.pool, fun q hq => (h.root q hq).keep (fun _ hf => hf) (hRoot q hq), ?_⟩
  intro q hq k hk hPresent
  rw [hRoot q hq] at hPresent ⊢
  obtain ⟨hUser, hNot, hZero, hOwned, hTable⟩ := h.table q hq k hk hPresent
  refine ⟨hUser, hNot, hZero, hOwned, fun l hl => ?_⟩
  by_cases hl' : l = j
  · subst hl'
    by_cases hg : (s.mem q k).frame = g
    · rw [hg, mem_write]
      exact hLeaf
    · rw [mem_write_of_frame hg]
      exact hTable l hl
  · rw [mem_write_of_index hl']
    exact hTable l hl

/-- A root table gets a new page table. -/
theorem Maps.write_table (h : s.Maps Leaf used held roots) (hp : p ∈ roots)
    (hi : i < pageMapEntries - 2) (hAbsent : ¬ (s.mem p i).Has pgPresent) (hUser : e.Has pgUser) (hApart : e.frame ∉ roots) (hTable : s.Table Leaf held e.frame) :
    (s.write p i e).Maps Leaf used held roots := by
  have hOther : ∀ q ≠ p, (s.write p i e).mem q = s.mem q := fun q hq => mem_write_of_frame hq
  have hKeep : ∀ f ∉ roots, s.Table Leaf held f → (s.write p i e).Table Leaf held f := by
    intro f hf hTable
    refine ⟨hTable.ne_zero, hTable.owned, fun j hj => ?_⟩
    rw [hOther f fun he => hf (he ▸ hp)]
    exact hTable.leaf j hj
  refine ⟨h.pool, fun q hq => ?_, fun q hq k hk hThere => ?_⟩
  · by_cases hqp : q = p
    · subst hqp
      obtain ⟨hOwned, ⟨hFrame, hSelf⟩, hKernel, hClosed, hLow⟩ := h.root q hq
      have hLast : (s.write q i e).mem q (pageMapEntries - 1) = s.mem q (pageMapEntries - 1) :=
        mem_write_of_index (by omega)
      have hSecond : (s.write q i e).mem q (pageMapEntries - 2) = s.mem q (pageMapEntries - 2) :=
        mem_write_of_index (by omega)
      refine ⟨hOwned, ⟨hLast ▸ hFrame, hLast ▸ hSelf⟩, hLast ▸ hKernel, hSecond ▸ hClosed, ?_⟩
      have hFirst : 0 ≠ i := fun he => hAbsent (he ▸ hLow)
      rw [mem_write_of_index hFirst]
      exact hLow
    · exact (h.root q hq).keep (fun _ hf => hf) (hOther q hqp)
  · by_cases hNew : q = p ∧ k = i
    · obtain ⟨rfl, rfl⟩ := hNew
      rw [mem_write]
      exact ⟨hUser, hApart, hKeep _ hApart hTable⟩
    · have hSame : (s.write p i e).mem q k = s.mem q k := by
        by_cases hqp : q = p
        · exact mem_write_of_index fun hki => hNew ⟨hqp, hki⟩
        · rw [hOther q hqp]
      rw [hSame] at hThere ⊢
      obtain ⟨hUser', hApart', hTable'⟩ := h.table q hq k hk hThere
      exact ⟨hUser', hApart', hKeep _ hApart' hTable'⟩

theorem write_setFrame (h : g ≠ f) :
    (s.write f i e).setFrame g words = (s.setFrame g words).write f i e := by
  rw [write, write, mem_setFrame_of_ne h.symm]
  exact congrArg (fun mem => Paging.mk mem s.frames s.usage) (Function.update_comm h.symm _ _ _)

theorem Rooted.write (h : s.Rooted p) (hi : i ≠ pageMapEntries - 1) : (s.write f i e).Rooted p := by
  obtain ⟨hFrame, hPresent⟩ := h
  have hSame : (s.write f i e).mem p (pageMapEntries - 1) = s.mem p (pageMapEntries - 1) :=
    mem_write_of_index hi.symm
  exact ⟨hSame ▸ hFrame, hSame ▸ hPresent⟩

/-- What the allocator gives is not part of any page map yet. -/
theorem Maps.getPages (hRule : LeafRule Leaf) (h : s.Maps Leaf used held roots) (kernelEnd : Nat) :
    ∃ frames addr, Frames.getPages kernelEnd 1 s.frames = some (frames, addr) ∧
      Holding.Taking s.frames frames ∧
      (∀ usage, Maps Leaf used held { s with frames := frames, usage := usage } roots) ∧
      (addr ≠ 0 → addr >>> pageBits ≠ 0 ∧ ¬ s.frames.Marked (addr >>> pageBits) ∧
        Holding.Owned ⟨frames, held⟩ (addr >>> pageBits)) := by
  obtain ⟨frames, addr, hCall, hPool, hTaking, hNew⟩ := h.pool.take kernelEnd
  exact ⟨frames, addr, hCall, hTaking, fun usage => h.keep hRule hPool hTaking.grows fun _ _ => rfl,
    hNew⟩

/-- One new table of `page_map`, entered in the root and filled with zeros. -/
theorem Maps.newTable (hRule : LeafRule Leaf) (h : s.Maps Leaf used held roots) (hp : p ∈ roots)
    (hi : i < pageMapEntries - 2) (hAbsent : ¬ (s.mem p i).Has pgPresent) {frames : Frames}
    {usage : Nat} (hTaking : Holding.Taking s.frames frames)
    (hMaps : Maps Leaf used held { s with frames := frames, usage := usage } roots)
    (hZero : f ≠ 0) (hFree : ¬ s.frames.Marked f) (hOwned : Holding.Owned ⟨frames, held⟩ f)
    {flags : BitVec 12} (hPresent : PageEntry.Has ⟨f, flags⟩ pgPresent)
    (hUser : PageEntry.Has ⟨f, flags⟩ pgUser) :
    ∃ s', ((setEntry p (self 1) i ⟨f, flags⟩ { s with frames := frames, usage := usage }).bind
        (clearPage p (self 0 + i))) = some s' ∧ s'.frames = frames ∧
      s'.Maps Leaf used held roots ∧ s'.mem p i = ⟨f, flags⟩ ∧
      (∀ j ≠ i, s'.mem p j = s.mem p j) ∧ (∀ g, g ≠ p → g ≠ f → s'.mem g = s.mem g) ∧
      s'.mem f = fun _ => PageEntry.zero := by
  have hApart : ∀ q, Holding.Owned ⟨s.frames, held⟩ q → q ≠ f := fun q hq he => hFree (he ▸ hq.marked)
  have hRoot : ∀ q ∈ roots, q ≠ f := fun q hq => hApart q (h.root q hq).owned
  have hRooted : Rooted { s with frames := frames, usage := usage } p := (hMaps.root p hp).rooted
  generalize hs₁ : ({ s with frames := frames, usage := usage } : Paging) = s₁ at *
  have hMem₁ : s₁.mem = s.mem := by rw [← hs₁]
  have hFrames₁ : s₁.frames = frames := by rw [← hs₁]
  have hNew : (s₁.write p i ⟨f, flags⟩).mem p i = ⟨f, flags⟩ := mem_write
  have hCleared := (hRooted.write (f := p) (e := ⟨f, flags⟩) (by omega : i ≠ _)).frameAt_self
    (by omega : i < pageMapEntries) (by rw [hNew]; exact hPresent)
  refine ⟨(s₁.setFrame f fun _ => PageEntry.zero).write p i ⟨f, flags⟩, ?_, hFrames₁, ?_, mem_write,
    ?_, ?_, ?_⟩
  · rw [hRooted.setEntry_dir (by omega), Option.bind_some, clearPage, hCleared, hNew,
      Option.map_some, write_setFrame (hRoot p hp).symm]
  · rw [← hFrames₁] at hTaking hOwned
    have hCleared : (s₁.setFrame f fun _ => PageEntry.zero).Maps Leaf used held roots :=
      h.keep hRule hMaps.pool hTaking.grows fun g hg => by
        rw [mem_setFrame_of_ne (hApart g hg), hMem₁]
    refine hCleared.write_table hp hi ?_ hUser (fun hf => hRoot f hf rfl) ⟨hZero, hOwned, fun j _ => ?_⟩
    · rw [mem_setFrame_of_ne (hRoot p hp), hMem₁]
      exact hAbsent
    · rw [mem_setFrame]
      exact hRule.zero _
  · intro j hj
    rw [mem_write_of_index hj, mem_setFrame_of_ne (hRoot p hp), hMem₁]
  · intro g hgp hgf
    rw [mem_write_of_frame hgp, mem_setFrame_of_ne hgf, hMem₁]
  · rw [mem_write_of_frame (hRoot p hp).symm, mem_setFrame]

/-- The first round of `page_map`: if it gets all frames, no table is missing. -/
theorem Maps.mapTables (hRule : LeafRule Leaf) (h : s.Maps Leaf used held roots) (hp : p ∈ roots)
    (kernelEnd : Nat) (bits : BitVec 12) (left vpn : Nat) (hRange : vpn + left ≤ pageMapEntries - 2) :
    ∃ s' complete, s.mapTables kernelEnd p bits left vpn = some (s', complete) ∧
      s'.Maps Leaf used held roots ∧ Holding.Taking s.frames s'.frames ∧
      (∀ i, (s.mem p i).Has pgPresent → (s'.mem p i).Has pgPresent) ∧
      (∀ q ∈ roots, q ≠ p → s'.mem q = s.mem q) ∧
      (complete = true → ∀ i, vpn ≤ i → i < vpn + left → (s'.mem p i).Has pgPresent) := by
  induction left generalizing vpn s with
  | zero => exact ⟨s, true, rfl, h, fun _ hf => hf, fun _ hi => hi, fun _ _ _ => rfl,
      fun _ i h₁ h₂ => by omega⟩
  | succ left ih =>
      rw [Paging.mapTables, (h.root p hp).rooted.entry_dir (by omega), Option.bind_some]
      by_cases hPresent : (s.mem p vpn).Has pgPresent
      · rw [if_pos hPresent]
        obtain ⟨s', complete, hExec, hMaps, hTaking, hStay, hOther, hAll⟩ :=
          ih h (vpn + 1) (by omega)
        refine ⟨s', complete, hExec, hMaps, hTaking, hStay, hOther, fun hDone i h₁ h₂ => ?_⟩
        rcases Nat.eq_or_lt_of_le h₁ with rfl | h₁
        · exact hStay vpn hPresent
        · exact hAll hDone i h₁ (by omega)
      · obtain ⟨frames, addr, hCall, hTaking, hMaps, hNew⟩ := h.getPages hRule kernelEnd
        rw [if_neg hPresent, hCall, Option.bind_some]
        dsimp only
        by_cases hAddr : addr = 0
        · rw [if_pos hAddr]
          exact ⟨_, false, rfl, hMaps s.usage, hTaking, fun _ hi => hi, fun _ _ _ => rfl,
            fun hDone => nomatch hDone⟩
        · obtain ⟨hZero, hFree, hOwned⟩ := hNew hAddr
          obtain ⟨hTable, hUser⟩ := PageEntry.has_table (addr >>> pageBits) bits
          obtain ⟨s₁, hExec, hFrames, hMaps₁, hNew, hSame, hOther, _⟩ := h.newTable hRule hp
            (by omega) hPresent hTaking (hMaps _) hZero hFree hOwned hTable hUser
          have hThere : (s₁.mem p vpn).Has pgPresent := by
            rw [hNew]
            exact hTable
          obtain ⟨s', complete, hRest, hMaps', hTaking', hStay, hOther', hAll⟩ :=
            ih hMaps₁ (vpn + 1) (by omega)
          have hKept : ∀ i, (s.mem p i).Has pgPresent → (s₁.mem p i).Has pgPresent := by
            intro i hi
            by_cases hvpn : i = vpn
            · exact hvpn ▸ hThere
            · exact hSame i hvpn ▸ hi
          refine ⟨s', complete, ?_, hMaps', fun f hf => hTaking' f (hFrames ▸ hTaking f hf),
            fun i hi => hStay i (hKept i hi), fun q hq hqp => ?_, fun hDone i h₁ h₂ => ?_⟩
          · rw [if_neg hAddr, ← Option.bind_assoc, hExec, Option.bind_some]
            exact hRest
          · refine (hOther' q hq hqp).trans (hOther q hqp fun he => hFree ?_)
            exact he ▸ (h.root q hq).owned.marked
          · rcases Nat.eq_or_lt_of_le h₁ with rfl | h₁
            · exact hStay vpn hThere
            · exact hAll hDone i h₁ (by omega)

theorem index_split (vpn : Nat) :
    (vpn / pageMapEntries) <<< pageMapBits + vpn % pageMapEntries = vpn := by
  have hShift : (vpn / pageMapEntries) <<< pageMapBits = pageMapEntries * (vpn / pageMapEntries) := by
    rw [Nat.shiftLeft_eq, Nat.mul_comm]
    rfl
  rw [hShift]
  exact Nat.div_add_mod vpn pageMapEntries

/-- The pages below the two self-references. -/
abbrev lowPages : Nat := (pageMapEntries - 2) <<< pageMapBits

theorem table_of_low {vpn : Nat} (h : vpn < lowPages) : vpn / pageMapEntries < pageMapEntries - 2 :=
  Nat.div_lt_of_lt_mul h

/-- A page is entered where the MMU will look for it. -/
theorem Rooted.setEntry_leaf (h : s.Rooted p) {vpn : Nat} (hDir : vpn / pageMapEntries < pageMapEntries)
    (hPresent : (s.mem p (vpn / pageMapEntries)).Has pgPresent) :
    s.setEntry p (self 0) vpn e =
      some (s.write (s.mem p (vpn / pageMapEntries)).frame (vpn % pageMapEntries) e) := by
  have hSet := h.setEntry_table (e := e) hDir (Nat.mod_lt vpn (by decide)) hPresent
  rwa [index_split] at hSet

theorem Rooted.setEntry_page (h : s.Rooted p) {vpn : Nat} (hLow : vpn < lowPages)
    (hPresent : (s.mem p (vpn / pageMapEntries)).Has pgPresent) :
    s.setEntry p (self 0) vpn e =
      some (s.write (s.mem p (vpn / pageMapEntries)).frame (vpn % pageMapEntries) e) :=
  h.setEntry_leaf ((table_of_low hLow).trans (by decide)) hPresent

/-- The MMU finds an entry that has been written. -/
theorem walk_write {vpn : Nat} (hApart : (s.mem p (vpn / pageMapEntries)).frame ≠ p)
    (hTable : (s.mem p (vpn / pageMapEntries)).Has pgPresent) (hPresent : e.Has pgPresent) :
    walk (s.write (s.mem p (vpn / pageMapEntries)).frame (vpn % pageMapEntries) e).mem p vpn =
      some e := by
  have hRoot := mem_write_of_frame (s := s) (i := vpn % pageMapEntries) (e := e) hApart.symm
  rw [walk, hRoot, mem_write, if_pos ⟨hTable, hPresent⟩]

/-- A map is not affected by what is written to a frame that is not part of it. -/
theorem walk_write_of_ne {vpn : Nat} (hRoot : p ≠ f)
    (hTable : (s.mem p (vpn / pageMapEntries)).frame ≠ f) :
    walk (s.write f i e).mem p vpn = walk s.mem p vpn := by
  rw [walk, walk, mem_write_of_frame hRoot, mem_write_of_frame hTable]

/-- The second round of `page_map`. -/
theorem Maps.mapPages (h : s.Maps Leaf used held roots) (hp : p ∈ roots) (bits : BitVec 12)
    (left vpn frame : Nat) (hRange : vpn + left ≤ lowPages)
    (hTables : ∀ k < left, (s.mem p ((vpn + k) / pageMapEntries)).Has pgPresent)
    (hLeaf : ∀ k < left, Leaf ⟨s.frames, held⟩ ⟨frame + k, bits ||| pgPresent⟩) :
    ∃ s', s.mapPages p bits left vpn frame = some s' ∧ s'.Maps Leaf used held roots ∧
      s'.frames = s.frames ∧ (∀ q ∈ roots, s'.mem q = s.mem q) ∧
      (left = 1 → walk s'.mem p vpn = some ⟨frame, bits ||| pgPresent⟩) := by
  induction left generalizing vpn frame s with
  | zero => exact ⟨s, rfl, h, rfl, fun _ _ => rfl, fun he => nomatch he⟩
  | succ left ih =>
      have hFirst : (s.mem p (vpn / pageMapEntries)).Has pgPresent := hTables 0 (Nat.zero_lt_succ left)
      have hTable := table_of_low (by omega : vpn < lowPages)
      have hApart := (h.table p hp _ hTable hFirst).2.1
      have hMaps := h.write_leaf (j := vpn % pageMapEntries) hp hTable hFirst
        (hLeaf 0 (Nat.zero_lt_succ left))
      rw [Paging.mapPages, (h.root p hp).rooted.setEntry_page (by omega) hFirst, Option.bind_some]
      generalize hs₁ : s.write (s.mem p (vpn / pageMapEntries)).frame (vpn % pageMapEntries)
        ⟨frame, bits ||| pgPresent⟩ = s₁ at hMaps ⊢
      have hFrames : s₁.frames = s.frames := by rw [← hs₁, write_frames]
      have hSame : ∀ q ∈ roots, s₁.mem q = s.mem q := fun q hq => by
        rw [← hs₁]
        exact mem_write_of_frame fun he => hApart (he ▸ hq)
      have hNext : ∀ n k : Nat, n + 1 + k = n + (k + 1) := fun n k => by omega
      obtain ⟨s', hExec, hMaps', hFrames', hSame', _⟩ := ih hMaps (vpn + 1) (frame + 1) (by omega)
        (fun k hk => by
          rw [hSame p hp, hNext]
          exact hTables (k + 1) (by omega))
        (fun k hk => by
          rw [hFrames, hNext]
          exact hLeaf (k + 1) (by omega))
      refine ⟨s', hExec, hMaps', hFrames'.trans hFrames, fun q hq => (hSame' q hq).trans (hSame q hq),
        fun hOne => ?_⟩
      obtain rfl : left = 0 := by omega
      obtain rfl := Option.some.inj hExec
      rw [← hs₁]
      exact walk_write (fun he => hApart (by rw [he]; exact hp)) hFirst PageEntry.has_page

/-- `page_map` below the self-references: the page maps stay in order, and the blocks that the
new entries refer to may change hands. -/
theorem Maps.pageMap (hRule : LeafRule Leaf) (h : s.Maps Leaf used held roots) (hp : p ∈ roots)
    (kernelEnd : Nat) {viraddr phyaddr npages : Nat} {bits : BitVec 12} (hPages : 0 < npages)
    (hRange : viraddr >>> pageBits + npages ≤ lowPages) (hSub : held'.Sublist held)
    (hLeaf : ∀ k < npages,
      Leaf ⟨s.frames, held'⟩ ⟨phyaddr >>> pageBits + k, bits ||| pgPresent⟩) :
    ∃ s' ret, s.pageMap kernelEnd p viraddr phyaddr npages bits = some (s', ret) ∧
      Holding.Taking s.frames s'.frames ∧ (∀ q ∈ roots, q ≠ p → s'.mem q = s.mem q) ∧
      (npages = 1 → ret = 0 →
        walk s'.mem p (viraddr >>> pageBits) = some ⟨phyaddr >>> pageBits, bits ||| pgPresent⟩) ∧
      (ret = 0 ∧ s'.Maps Leaf used held' roots ∨ ret ≠ 0 ∧ s'.Maps Leaf used held roots) := by
  rw [Paging.pageMap]
  dsimp only
  generalize viraddr >>> pageBits = vpn at hRange ⊢
  have hLast := table_of_low (by omega : vpn + npages - 1 < lowPages)
  have hOrder : vpn / pageMapEntries ≤ (vpn + npages - 1) / pageMapEntries :=
    Nat.div_le_div_right (by omega)
  obtain ⟨s₁, complete, hExec, hMaps, hTaking, _, hOther, hAll⟩ := h.mapTables hRule hp kernelEnd bits
    ((vpn + npages - 1) / pageMapEntries + 1 - vpn / pageMapEntries) (vpn / pageMapEntries)
    (by omega)
  rw [hExec, Option.bind_some]
  dsimp only
  cases complete with
  | false =>
      exact ⟨s₁, -enomem, rfl, hTaking, hOther, fun _ hRet => absurd hRet (by decide),
        Or.inr ⟨by decide, hMaps⟩⟩
  | true =>
      have hMaps₁ : s₁.Maps Leaf used held' roots :=
        hMaps.keep hRule (hMaps.pool.sublist hSub) (Holding.grows_sublist hSub) fun _ _ => rfl
      have hThere : ∀ k < npages, (s₁.mem p ((vpn + k) / pageMapEntries)).Has pgPresent := by
        intro k hk
        have hUpper : (vpn + k) / pageMapEntries ≤ (vpn + npages - 1) / pageMapEntries :=
          Nat.div_le_div_right (by omega)
        exact hAll rfl _ (Nat.div_le_div_right (by omega)) (by omega)
      obtain ⟨s', hExec', hMaps', hFrames, hSame, hWalk⟩ := hMaps₁.mapPages hp bits npages vpn
        (phyaddr >>> pageBits) hRange hThere
        fun k hk => hRule.mono _ _ _ hTaking.grows (hLeaf k hk)
      refine ⟨s', 0, by rw [if_pos rfl, hExec', Option.map_some], ?_, ?_, fun hOne _ => hWalk hOne,
        Or.inl ⟨rfl, hMaps'⟩⟩
      · rw [hFrames]
        exact hTaking
      · exact fun q hq hqp => (hSame q hq).trans (hOther q hq hqp)

/-- The loop of `page_unmap`, as long as it finds its tables. -/
theorem Maps.unmapPages (hRule : LeafRule Leaf) (h : s.Maps Leaf used held roots) (hp : p ∈ roots)
    (left vpn : Nat) (hRange : vpn + left ≤ lowPages) (hExec : s.unmapPages p left vpn = some s') :
    s'.Maps Leaf used held roots ∧ s'.frames = s.frames ∧ ∀ q ∈ roots, s'.mem q = s.mem q := by
  induction left generalizing vpn s with
  | zero => exact Option.some.inj hExec ▸ ⟨h, rfl, fun _ _ => rfl⟩
  | succ left ih =>
      rw [Paging.unmapPages] at hExec
      obtain ⟨s₁, hSet, hRest⟩ := Option.bind_eq_some_iff.mp hExec
      have hRooted := (h.root p hp).rooted
      have hTable := table_of_low (by omega : vpn < lowPages)
      by_cases hPresent : (s.mem p (vpn / pageMapEntries)).Has pgPresent
      · rw [hRooted.setEntry_page (by omega) hPresent] at hSet
        obtain rfl := Option.some.inj hSet
        have hApart := (h.table p hp _ hTable hPresent).2.1
        obtain ⟨hMaps, hFrames, hSame⟩ :=
          ih (h.write_leaf hp hTable hPresent (hRule.zero _)) (vpn + 1) (by omega) hRest
        exact ⟨hMaps, hFrames, fun q hq => (hSame q hq).trans
          (mem_write_of_frame fun he => hApart (he ▸ hq))⟩
      · rw [setEntry, hRooted.frameAt_self_absent (by omega) hPresent] at hSet
        cases hSet

/-- A frame that is no root may be filled with zeros. -/
theorem Maps.clearFrame (hRule : LeafRule Leaf) (h : s.Maps Leaf used held roots) (hf : f ∉ roots) :
    (s.setFrame f fun _ => PageEntry.zero).Maps Leaf used held roots := by
  have hSame : ∀ q ∈ roots, (s.setFrame f fun _ => PageEntry.zero).mem q = s.mem q :=
    fun q hq => mem_setFrame_of_ne fun he => hf (he ▸ hq)
  refine ⟨h.pool, fun q hq => (h.root q hq).keep (fun _ hg => hg) (hSame q hq), ?_⟩
  intro q hq i hi hPresent
  rw [hSame q hq] at hPresent ⊢
  obtain ⟨hUser, hApart, hTable⟩ := h.table q hq i hi hPresent
  refine ⟨hUser, hApart, hTable.ne_zero, hTable.owned, fun j hj => ?_⟩
  by_cases hg : (s.mem q i).frame = f
  · rw [hg, mem_setFrame]
    exact hRule.zero _
  · rw [mem_setFrame_of_ne hg]
    exact hTable.leaf j hj

/-- A page fault below the self-references maps a frame of its own, or gives it back. -/
theorem Maps.pageFault (hRule : LeafRule Leaf) (h : s.Maps Leaf used held roots) (hp : p ∈ roots)
    (kernelEnd : Nat) {viraddr : Nat} (heap : Option (Nat × Nat))
    (hRange : (∃ area ∈ heap, area.1 ≤ viraddr ∧ viraddr < area.2) → viraddr >>> pageBits < lowPages)
    (hLeaf : ∀ r f, Holding.Owned r f → Leaf r ⟨f, pgUser ||| pgRw ||| pgPresent⟩) :
    ∃ s' back, s.pageFaultHandler kernelEnd p viraddr heap = some (s', back) ∧
      s'.Maps Leaf used held roots := by
  rw [pageFaultHandler]
  split
  · rename_i hHeap
    have hRange := hRange hHeap
    have hPage : viraddr >>> pageBits <<< pageBits >>> pageBits = viraddr >>> pageBits :=
      Nat.shiftLeft_shiftRight _ _
    obtain ⟨frames, addr, hCall, hPool, hTaking, hGrows, hNew⟩ := h.pool.getPages kernelEnd 1
    dsimp only
    rw [hCall, Option.bind_some]
    dsimp only
    by_cases hAddr : addr = 0
    · rw [if_pos hAddr] at hPool hGrows ⊢
      exact ⟨_, false, rfl, h.keep hRule hPool hGrows fun _ _ => rfl⟩
    · rw [if_neg hAddr] at hPool hGrows ⊢
      have hMaps : Maps Leaf used ((addr, 1) :: held) { s with frames := frames } roots :=
        h.keep hRule hPool hGrows fun _ _ => rfl
      have hOwned := hPool.owned List.mem_cons_self (Holding.mem_framesOf_one.mpr rfl)
      rw [List.erase_cons_head] at hOwned
      have hFrame : ∀ k < 1,
          Leaf ⟨frames, held⟩ ⟨addr >>> pageBits + k, pgUser ||| pgRw ||| pgPresent⟩ := by
        intro k hk
        obtain rfl : k = 0 := by omega
        exact hLeaf _ _ hOwned
      generalize viraddr >>> pageBits <<< pageBits = page at hPage ⊢
      obtain ⟨s', ret, hMap, _, _, hWalk, hCases⟩ := hMaps.pageMap hRule hp kernelEnd Nat.one_pos
        (by omega : page >>> pageBits + 1 ≤ lowPages) (List.sublist_cons_self _ held) hFrame
      rw [hMap, Option.bind_some]
      dsimp only
      rcases hCases with ⟨hRet, hMaps'⟩ | ⟨hRet, hMaps'⟩
      · have hFound : s'.frameAt p (page >>> pageBits) = some (addr >>> pageBits) := by
          rw [frameAt, hWalk rfl hRet, Option.map_some]
        rw [if_neg fun hne => hne hRet, clearPage, hFound, Option.map_some, Option.map_some]
        refine ⟨_, true, rfl, hMaps'.clearFrame hRule fun hRoot => ?_⟩
        exact hNew hAddr _ (Holding.mem_framesOf_one.mpr rfl) (h.root _ hRoot).owned.marked
      · obtain ⟨frames', back, hPut, hPool', hGrows'⟩ := hMaps'.pool.putPages List.mem_cons_self
        rw [List.erase_cons_head] at hPool' hGrows'
        rw [if_pos hRet, hPut, Option.map_some]
        exact ⟨_, false, rfl, hMaps'.keep hRule hPool' hGrows' fun _ _ => rfl⟩
  · exact ⟨s, false, rfl, h⟩

end Paging
end ArtOS

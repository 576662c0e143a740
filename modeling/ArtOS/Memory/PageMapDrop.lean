import ArtOS.Library.Partial
import ArtOS.Memory.PageMapCopy

/-! What `page_map_drop` does to a page map in order: all frames of user space
and their tables become free, while the entries that refer to them stay. -/
namespace ArtOS.Paging

open Frames

variable {used : Finset Nat} {held : List (Nat × Nat)} {s s' s₁ : Paging} {roots : Set Nat}
  {p f i : Nat} {Leaf : Holding → PageEntry → Prop}

/-- No entry changes, and frames are only given back. -/
structure Dropped (s s' : Paging) : Prop where
  mem : s'.mem = s.mem
  marked : ∀ f, s'.frames.Marked f → s.frames.Marked f

theorem Dropped.refl (s : Paging) : Dropped s s := ⟨rfl, fun _ hf => hf⟩

theorem Dropped.trans (h : Dropped s s₁) (h' : Dropped s₁ s') : Dropped s s' :=
  ⟨h'.mem.trans h.mem, fun f hf => h.marked f (h'.marked f hf)⟩

/-- A frame is given back, in use or not. -/
theorem Dropped.put (s : Paging) (hLt : f < bitmapBits) :
    ∃ frames ret, s.frames.putPages (f <<< pageBits) 1 = some (frames, ret) ∧
      (∀ usage, Dropped s ⟨s.mem, frames, usage⟩) ∧ (f ≠ 0 → ¬ frames.Marked f) := by
  by_cases hZero : f = 0
  · refine ⟨s.frames, -einval, ?_, fun usage => ⟨rfl, fun _ hf => hf⟩, fun hne => absurd hZero hne⟩
    rw [hZero]
    rfl
  · obtain ⟨frames, ret, hCall, hMarks⟩ := putPages_one (s := s.frames) hZero hLt
    exact ⟨frames, ret, hCall, fun usage => ⟨rfl, fun j hj => ((hMarks j).mp hj).1⟩,
      fun _ hf => ((hMarks f).mp hf).2 rfl⟩

section Drop

variable (h : s.Maps Leaf used held roots) (hp : p ∈ roots)
  (hLeaf : ∀ r e, Leaf r e → e.IsUser → e.frame < bitmapBits)
include h hp hLeaf

/-- The loop over a page table. -/
theorem Maps.dropTable (hi : i < pageMapEntries - 2) (hPresent : (s.mem p i).Has pgPresent)
    (hSame : Dropped s s₁) :
    ∃ s', s₁.dropTraverse p 0 (i <<< pageMapBits) = some s' ∧ Dropped s₁ s' := by
  refine Partial.foldlM_rel Dropped.refl Dropped.trans _ fun vpn hVpn s₂ hSame₂ => ?_
  obtain ⟨j, hj, rfl⟩ := List.mem_range'.mp hVpn
  have hMem : s₂.mem = s.mem := (hSame.trans hSame₂).mem
  have hRooted : s₂.Rooted p := by
    obtain ⟨hFrame, hSelf⟩ := (h.root p hp).rooted
    exact ⟨hMem ▸ hFrame, hMem ▸ hSelf⟩
  rw [Nat.one_mul, dropEntry, hRooted.entry_table (by omega) hj (hMem ▸ hPresent), hMem,
    Option.bind_some]
  split
  · rename_i hUser
    obtain ⟨frames, ret, hCall, hDropped, _⟩ := Dropped.put s₂
      (hLeaf _ _ ((h.table p hp i hi hPresent).2.2.leaf j hj) hUser)
    rw [Option.bind_some, hCall, Option.map_some]
    exact ⟨_, rfl, hMem ▸ hDropped _⟩
  · exact ⟨s₂, rfl, Dropped.refl s₂⟩

/-- One round of the loop over the root. -/
theorem Maps.dropRound (hi : i < pageMapEntries) (hSame : Dropped s s₁) :
    ∃ s', s₁.dropEntry p 1 (dropTraverse p 0) i = some s' ∧ Dropped s₁ s' ∧
      ((s.mem p i).IsUser → ¬ s'.frames.Marked (s.mem p i).frame) := by
  have hRoot := h.root p hp
  have hMem := hSame.mem
  have hRooted : s₁.Rooted p := by
    obtain ⟨hFrame, hSelf⟩ := hRoot.rooted
    exact ⟨hMem ▸ hFrame, hMem ▸ hSelf⟩
  rw [dropEntry, hRooted.entry_dir hi, hMem, Option.bind_some]
  split
  · rename_i hUser
    have hTable : i < pageMapEntries - 2 := by
      by_contra hHigh
      rcases (by omega : i = pageMapEntries - 2 ∨ i = pageMapEntries - 1) with rfl | rfl
      · exact hRoot.closed hUser.1
      · exact hRoot.kernel hUser.2
    obtain ⟨_, _, hZero, hOwned, _⟩ := h.table p hp i hTable hUser.1
    obtain ⟨s₂, hDeeper, hSame₂⟩ := h.dropTable hp hLeaf hTable hUser.1 hSame
    obtain ⟨frames, ret, hCall, hDropped, hFree⟩ := Dropped.put s₂ hOwned.lt
    rw [hDeeper, Option.bind_some, hCall, Option.map_some]
    exact ⟨_, rfl, hSame₂.trans (hDropped _), fun _ => hFree hZero⟩
  · rename_i hNone
    exact ⟨s₁, rfl, Dropped.refl s₁, fun hUser => absurd hUser hNone⟩

/-- `page_map_drop` comes to its end, and the first page table is free afterwards. -/
theorem Maps.pageMapDrop : ∃ s', s.pageMapDrop p = some (s', 0) ∧ Dropped s s' ∧
    (s.mem p 0).IsUser ∧ ¬ s'.frames.Marked (s.mem p 0).frame := by
  have hUser : (s.mem p 0).IsUser :=
    ⟨(h.root p hp).low, (h.table p hp 0 (by decide) (h.root p hp).low).1⟩
  obtain ⟨s₁, hFirst, hSame, hFree⟩ := h.dropRound hp hLeaf (by decide : 0 < pageMapEntries)
    (Dropped.refl s)
  obtain ⟨s', hRest, hSame'⟩ := Partial.foldlM_rel 
    Dropped.refl Dropped.trans (List.range' 1 (pageMapEntries - 1))
    fun i hi s₂ hSame₂ => by
      obtain ⟨s₃, hRound, hSame₃, _⟩ := h.dropRound hp hLeaf
        (by have := List.mem_range'_1.mp hi; omega : i < pageMapEntries) (hSame.trans hSame₂)
      exact ⟨s₃, hRound, hSame₃⟩
  refine ⟨s', ?_, hSame.trans hSame', hUser, fun hMarked => hFree hUser (hSame'.marked _ hMarked)⟩
  have hList : List.range' 0 pageMapEntries = 0 :: List.range' 1 (pageMapEntries - 1) := rfl
  rw [Paging.pageMapDrop, dropTraverse, hList, List.foldlM_cons, hFirst]
  show Option.map _ (List.foldlM _ s₁ _) = _
  rw [hRest, Option.map_some]

end Drop

end ArtOS.Paging

import Mathlib.Data.Finset.Card
import Mathlib.Data.Finset.SDiff
import Mathlib.Data.Finset.Lattice.Fold

/-! A pool of items that are handed out and taken back in sets. What an
allocator of frames, slots or addresses has to guarantee is that its own
operations are moves of such a pool. -/
namespace Pool

variable {Item : Type*} [DecidableEq Item]

/-- No two handed-out sets overlap, and none overlaps the free items or the
items in `used`, which never belonged to the pool. -/
structure Sound (used free : Finset Item) (live : List (Finset Item)) : Prop where
  outside : Disjoint used free
  taken : ∀ s ∈ live, Disjoint s free
  apart : ∀ s ∈ live, Disjoint s used
  disjoint : live.Pairwise Disjoint

variable {used free s : Finset Item} {live : List (Finset Item)}

omit [DecidableEq Item] in
theorem Sound.start (h : Disjoint used free) : Sound used free [] :=
  ⟨h, by simp, by simp, List.Pairwise.nil⟩

/-- Items that leave the pool for good. -/
theorem Sound.leak (h : Sound used free live) : Sound used (free \ s) live :=
  ⟨h.outside.mono_right Finset.sdiff_subset,
    fun t ht => (h.taken t ht).mono_right Finset.sdiff_subset, h.apart, h.disjoint⟩

theorem Sound.take (h : Sound used free live) (hFree : s ⊆ free) :
    Sound used (free \ s) (s :: live) := by
  refine ⟨h.leak.outside, ?_, ?_, List.pairwise_cons.mpr ⟨fun t ht => ?_, h.disjoint⟩⟩
  · exact List.forall_mem_cons.mpr ⟨Finset.disjoint_sdiff, h.leak.taken⟩
  · exact List.forall_mem_cons.mpr ⟨(h.outside.mono_right hFree).symm, h.apart⟩
  · exact ((h.taken t ht).mono_right hFree).symm

omit [DecidableEq Item] in
theorem Sound.perm {live' : List (Finset Item)} (h : Sound used free live)
    (hPerm : live.Perm live') : Sound used free live' :=
  ⟨h.outside, fun t ht => h.taken t (hPerm.mem_iff.mpr ht), fun t ht => h.apart t (hPerm.mem_iff.mpr ht),
    (hPerm.pairwise_iff (fun hd => hd.symm)).mp h.disjoint⟩

theorem Sound.give (h : Sound used free (s :: live)) : Sound used (free ∪ s) live := by
  obtain ⟨hRest, hLive⟩ := List.pairwise_cons.mp h.disjoint
  refine ⟨?_, fun t ht => ?_, fun t ht => h.apart t (by simp [ht]), hLive⟩
  · exact Finset.disjoint_union_right.mpr ⟨h.outside, (h.apart s (by simp)).symm⟩
  · exact Finset.disjoint_union_right.mpr ⟨h.taken t (by simp [ht]), (hRest t ht).symm⟩

omit [DecidableEq Item] in
/-- A set in hand may be taken apart. -/
theorem Sound.split {t u : Finset Item} (h : Sound used free (s :: live)) (ht : t ⊆ s) (hu : u ⊆ s)
    (hApart : Disjoint t u) : Sound used free (t :: u :: live) := by
  obtain ⟨hRest, hLive⟩ := List.pairwise_cons.mp h.disjoint
  have hFirst := List.forall_mem_cons.mp h.taken
  have hUsed := List.forall_mem_cons.mp h.apart
  refine ⟨h.outside, ?_, ?_, ?_⟩
  · exact List.forall_mem_cons.mpr ⟨hFirst.1.mono_left ht,
      List.forall_mem_cons.mpr ⟨hFirst.1.mono_left hu, hFirst.2⟩⟩
  · exact List.forall_mem_cons.mpr ⟨hUsed.1.mono_left ht,
      List.forall_mem_cons.mpr ⟨hUsed.1.mono_left hu, hUsed.2⟩⟩
  · refine List.pairwise_cons.mpr ⟨List.forall_mem_cons.mpr ⟨hApart, ?_⟩,
      List.pairwise_cons.mpr ⟨?_, hLive⟩⟩
    · exact fun v hv => (hRest v hv).mono_left ht
    · exact fun v hv => (hRest v hv).mono_left hu

end Pool

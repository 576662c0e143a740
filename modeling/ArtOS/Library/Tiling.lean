import Mathlib.Data.Set.Lattice
import Mathlib.Order.CompletePartialOrder
import Mathlib.Data.List.Perm.Basic
import Mathlib.Data.List.Pairwise

/-! Sets that together make up a whole without overlapping. Cutting a piece in
two and adding new material at the outside are the moves an allocator makes. -/
namespace Tiling

variable {Point : Type*}

/-- The pieces are pairwise disjoint and cover the whole exactly. -/
structure Exact (pieces : List (Set Point)) (whole : Set Point) : Prop where
  disjoint : pieces.Pairwise Disjoint
  cover : ∀ x, x ∈ whole ↔ ∃ s ∈ pieces, x ∈ s

variable {pieces pieces' : List (Set Point)} {whole s s₁ s₂ : Set Point}

theorem exact_nil : Exact ([] : List (Set Point)) ∅ := ⟨List.Pairwise.nil, by simp⟩

theorem Exact.perm (h : Exact pieces whole) (hPerm : pieces.Perm pieces') : Exact pieces' whole :=
  ⟨(hPerm.pairwise_iff fun hd => hd.symm).mp h.disjoint, fun x => by simp [h.cover, hPerm.mem_iff]⟩

/-- A piece is cut in two. -/
theorem Exact.split (h : Exact (s :: pieces) whole) (hUnion : s = s₁ ∪ s₂)
    (hDisjoint : Disjoint s₁ s₂) : Exact (s₁ :: s₂ :: pieces) whole := by
  subst hUnion
  obtain ⟨hFirst, hRest⟩ := List.pairwise_cons.mp h.disjoint
  refine ⟨List.pairwise_cons.mpr ⟨List.forall_mem_cons.mpr ⟨hDisjoint, fun t ht => ?_⟩,
    List.pairwise_cons.mpr ⟨fun t ht => ?_, hRest⟩⟩, fun x => ?_⟩
  · exact (hFirst t ht).mono_left Set.subset_union_left
  · exact (hFirst t ht).mono_left Set.subset_union_right
  · simp [h.cover, or_assoc]

/-- New material from outside. -/
theorem Exact.grow (h : Exact pieces whole) (hDisjoint : Disjoint s whole) :
    Exact (s :: pieces) (s ∪ whole) := by
  refine ⟨List.pairwise_cons.mpr ⟨fun t ht => ?_, h.disjoint⟩, fun x => by simp [h.cover]⟩
  exact hDisjoint.mono_right fun x hx => (h.cover x).mpr ⟨t, ht, hx⟩

/-- A piece lies inside the whole. -/
theorem Exact.subset (h : Exact pieces whole) (hs : s ∈ pieces) : s ⊆ whole :=
  fun x hx => (h.cover x).mpr ⟨s, hs, hx⟩

end Tiling

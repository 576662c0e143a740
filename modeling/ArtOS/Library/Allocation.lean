import Mathlib.Data.List.Nodup
import Mathlib.Data.List.Perm.Basic

/-! Who holds the blocks of an allocator. A block goes by the number of the request that it answers, so
that memory which is handed out again is another block. -/
namespace Allocation

/-- The blocks in hand and those given back, out of the first `next` requests. No block is in two
places. -/
structure Owned (held freed : List Nat) (next : Nat) : Prop where
  distinct : (held ++ freed).Nodup
  below : ∀ b ∈ held ++ freed, b < next

/-- What is in hand has grown by blocks that have been requested meanwhile. -/
structure Grows (held : List Nat) (next : Nat) (held' : List Nat) (next' : Nat) : Prop where
  le : next ≤ next'
  new : ∃ new : List Nat, held'.Perm (held ++ new) ∧ new.Nodup ∧ ∀ b ∈ new, next ≤ b ∧ b < next'

variable {held held' held'' other other' freed gone : List Nat} {next next' next'' b : Nat}

theorem Grows.refl (held : List Nat) (h : next ≤ next') : Grows held next held next' :=
  ⟨h, [], by rw [List.append_nil], List.nodup_nil, by simp⟩

theorem Grows.one (next : Nat) : Grows [] next [next] (next + 1) :=
  ⟨Nat.le_succ next, [next], List.Perm.refl _, List.nodup_singleton next, by simp⟩

theorem Grows.trans (h : Grows held next held' next') (h' : Grows held' next' held'' next'') :
    Grows held next held'' next'' := by
  obtain ⟨hLe, new, hPerm, hNew, hRange⟩ := h
  obtain ⟨hLe', new', hPerm', hNew', hRange'⟩ := h'
  refine ⟨Nat.le_trans hLe hLe', new ++ new', ?_, hNew.append hNew' ?_, ?_⟩
  · rw [← List.append_assoc]
    exact hPerm'.trans (hPerm.append_right new')
  · intro b hb hb'
    exact absurd (hRange b hb).2 (Nat.not_lt_of_le (hRange' b hb').1)
  · intro b hb
    rcases List.mem_append.mp hb with hb | hb
    · exact ⟨(hRange b hb).1, Nat.lt_of_lt_of_le (hRange b hb).2 hLe'⟩
    · exact ⟨Nat.le_trans hLe (hRange' b hb).1, (hRange' b hb).2⟩

theorem Grows.append_left (h : Grows held next held' next') (other : List Nat) :
    Grows (other ++ held) next (other ++ held') next' := by
  obtain ⟨hLe, new, hPerm, hNew⟩ := h
  refine ⟨hLe, new, ?_, hNew⟩
  rw [List.append_assoc]
  exact hPerm.append_left other

theorem Grows.append_right (h : Grows held next held' next') (other : List Nat) :
    Grows (held ++ other) next (held' ++ other) next' := by
  obtain ⟨hLe, new, hPerm, hNew⟩ := h.append_left other
  exact ⟨hLe, new, (List.perm_append_comm.trans hPerm).trans (List.perm_append_comm.append_right new), hNew⟩

/-- First one part grows, then another. -/
theorem Grows.append (h : Grows held next held' next') (h' : Grows other next' other' next'') :
    Grows (held ++ other) next (held' ++ other') next'' :=
  (h.append_right other).trans (h'.append_left held')

/-- A block in hand has been there before, or it is new. -/
theorem Grows.mem (h : Grows held next held' next') (hb : b ∈ held') : b ∈ held ∨ next ≤ b := by
  obtain ⟨_, new, hPerm, _, hRange⟩ := h
  exact (List.mem_append.mp (hPerm.mem_iff.mp hb)).imp_right fun hNew => (hRange b hNew).1

theorem Owned.grow (h : Owned held freed next) (hGrows : Grows held next held' next') :
    Owned held' freed next' := by
  obtain ⟨hLe, new, hPerm, hNew, hRange⟩ := hGrows
  have hAll : (held' ++ freed).Perm ((held ++ freed) ++ new) := by
    calc (held' ++ freed).Perm ((held ++ new) ++ freed) := hPerm.append_right freed
      _ = held ++ (new ++ freed) := List.append_assoc ..
      List.Perm _ (held ++ (freed ++ new)) := List.perm_append_comm.append_left held
      _ = (held ++ freed) ++ new := (List.append_assoc ..).symm
  constructor
  · rw [hAll.nodup_iff]
    refine h.distinct.append hNew fun b hb hb' => ?_
    exact absurd (h.below b hb) (Nat.not_lt_of_le (hRange b hb').1)
  · intro b hb
    rcases List.mem_append.mp (hAll.mem_iff.mp hb) with hb | hb
    · exact Nat.lt_of_lt_of_le (h.below b hb) hLe
    · exact (hRange b hb).2

/-- Some of the blocks are given back. -/
theorem Owned.free (h : Owned (held ++ gone) freed next) : Owned held (freed ++ gone) next := by
  have hAll : (held ++ (freed ++ gone)).Perm ((held ++ gone) ++ freed) := by
    rw [List.append_assoc]
    exact List.perm_append_comm.append_left held
  exact ⟨hAll.nodup_iff.mpr h.distinct, fun b hb => h.below b (hAll.mem_iff.mp hb)⟩

theorem Owned.not_freed (h : Owned held freed next) (hb : b ∈ held) : b ∉ freed :=
  fun hFreed => List.disjoint_of_nodup_append h.distinct hb hFreed

theorem Owned.freed_nodup (h : Owned held freed next) : freed.Nodup := h.distinct.of_append_right

end Allocation

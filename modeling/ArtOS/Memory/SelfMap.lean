import ArtOS.Memory.FramePool
import ArtOS.Memory.PageTable

/-! The page tables seen through the self-references: while the last entry of
the root refers to the root, `self` and `other` name the words of the tables.
The maps in use own their tables, and `page_map` and `page_unmap` keep it so. -/
namespace ArtOS

namespace PageEntry

theorem or_and_ne_zero {a b bits : BitVec 12} :
    (a ||| b) &&& bits ≠ 0 ↔ a &&& bits ≠ 0 ∨ b &&& bits ≠ 0 := by
  simp only [BitVec.and_or_distrib_right, ne_eq, BitVec.ofNat_eq_ofNat, BitVec.or_eq_zero_iff,
    not_and_or]

/-- The flags of a new table. -/
theorem has_table (f : Nat) (bits : BitVec 12) :
    Has ⟨f, bits ||| pgPresent ||| pgUser ||| pgRw⟩ pgPresent ∧
      Has ⟨f, bits ||| pgPresent ||| pgUser ||| pgRw⟩ pgUser := by
  have hPresent : (bits ||| pgPresent) &&& pgPresent ≠ 0 := or_and_ne_zero.mpr (Or.inr (by decide))
  constructor
  · exact or_and_ne_zero.mpr (Or.inl (or_and_ne_zero.mpr (Or.inl hPresent)))
  · exact or_and_ne_zero.mpr (Or.inl (or_and_ne_zero.mpr (Or.inr (by decide))))

theorem has_page {f : Nat} {bits : BitVec 12} : Has ⟨f, bits ||| pgPresent⟩ pgPresent :=
  or_and_ne_zero.mpr (Or.inr (by decide))

theorem not_has_zero {bits : BitVec 12} : ¬ zero.Has bits := by
  simp [Has, zero]

/-- A flag of an entry depends on its flags only. -/
theorem has_congr {e e' : PageEntry} {bits : BitVec 12} (h : e.flags = e'.flags) :
    e.Has bits ↔ e'.Has bits := by
  rw [Has, Has, h]

end PageEntry

namespace Frames

variable {s s' : Frames} {f addr kernelEnd : Nat}

theorem getPages_aligned {npages : Nat} (h : getPages kernelEnd npages s = some (s', addr)) :
    addr >>> pageBits = 0 → addr = 0 := by
  have hShift : ∀ off, Word.shl off pageBits >>> pageBits = 0 → Word.shl off pageBits = 0 := by
    intro off hOff
    rw [Word.shl, Nat.shiftLeft_eq, Nat.shiftRight_eq_div_pow] at hOff
    rw [Word.shl, Nat.shiftLeft_eq]
    have hDvd : 2 ^ pageBits ∣ off * 2 ^ pageBits % 2 ^ 32 :=
      (Nat.dvd_mod_iff (by decide)).mpr (Nat.dvd_mul_left _ _)
    exact Nat.eq_zero_of_dvd_of_div_eq_zero hDvd hOff
  rw [getPages] at h
  split at h
  · cases h
    exact fun _ => rfl
  · split at h
    · cases h
      exact fun _ => rfl
    · obtain ⟨found, _, hFound⟩ := Option.bind_eq_some_iff.mp h
      cases found with
      | none =>
          cases hFound
          exact fun _ => rfl
      | some off =>
          obtain ⟨s₁, _, hResult⟩ := Option.map_eq_some_iff.mp hFound
          obtain ⟨_, rfl⟩ := Prod.mk.inj hResult
          exact hShift off

theorem marked_counters {a b : Nat} {j : Nat} :
    Marked { s with allocated := a, available := b } j ↔ s.Marked j :=
  marked_congr rfl

/-- Giving back one frame, in use or not. -/
theorem putPages_one (hFrame : f ≠ 0) (hLt : f < bitmapBits) :
    ∃ s' ret, putPages (f <<< pageBits) 1 s = some (s', ret) ∧
      ∀ j, s'.Marked j ↔ s.Marked j ∧ j ≠ f := by
  have hAddr : f <<< pageBits ≠ 0 := by
    rw [Nat.shiftLeft_eq]
    exact Nat.mul_ne_zero hFrame (by decide)
  have hBase : f <<< pageBits >>> pageBits = f := Nat.shiftLeft_shiftRight f pageBits
  rw [putPages, if_neg hAddr, if_neg (by decide), hBase]
  by_cases hMarked : s.Marked f
  · obtain ⟨s', hClear, hMarks, _⟩ := clearRange_spec s f 1 0 0 hLt fun j h₁ h₂ => by
      obtain rfl : j = f := by omega
      exact hMarked
    refine ⟨{ s' with allocated := _, available := _ }, _, by rw [hClear, Option.map_some],
      fun j => ?_⟩
    rw [marked_counters, hMarks]
    refine and_congr_right fun _ => ⟨fun h => ?_, fun h => ?_⟩ <;> omega
  · have hClear : clearRange f 1 0 (s, 0) = some (s, 0) := by
      rw [clearRange, Nat.add_zero, pageMarked_eq hLt, Option.bind_some, decide_eq_false hMarked]
      rfl
    refine ⟨{ s with allocated := _, available := _ }, _, by rw [hClear, Option.map_some],
      fun j => ?_⟩
    rw [marked_counters]
    exact ⟨fun h => ⟨h, fun he => hMarked (he ▸ h)⟩, fun h => h.1⟩

end Frames

namespace Paging

variable {s s' : Paging} {p d f i j : Nat} {e : PageEntry}

theorem table_index (hj : j < pageMapEntries) :
    (i <<< pageMapBits + j) / pageMapEntries = i ∧ (i <<< pageMapBits + j) % pageMapEntries = j := by
  have hShift : i <<< pageMapBits = pageMapEntries * i := by
    rw [Nat.shiftLeft_eq, Nat.mul_comm]
    rfl
  rw [hShift]
  constructor
  · rw [Nat.mul_add_div (by decide), Nat.div_eq_of_lt hj, Nat.add_zero]
  · rw [Nat.mul_add_mod, Nat.mod_eq_of_lt hj]

theorem frameAt_eq (hDir : (s.mem p i).Has pgPresent) (hj : j < pageMapEntries)
    (hEntry : (s.mem (s.mem p i).frame j).Has pgPresent) :
    s.frameAt p (i <<< pageMapBits + j) = some (s.mem (s.mem p i).frame j).frame := by
  obtain ⟨hDiv, hMod⟩ := table_index (i := i) hj
  rw [frameAt, walk, hDiv, hMod, if_pos ⟨hDir, hEntry⟩, Option.map_some]

/-- The last entry of a root table refers to the table itself. -/
structure Rooted (s : Paging) (p : Nat) : Prop where
  frame : (s.mem p (pageMapEntries - 1)).frame = p
  present : (s.mem p (pageMapEntries - 1)).Has pgPresent

/-- The entry before it refers to the root table of another map. -/
structure Opened (s : Paging) (p d : Nat) : Prop where
  frame : (s.mem p (pageMapEntries - 2)).frame = d
  present : (s.mem p (pageMapEntries - 2)).Has pgPresent

namespace Rooted

theorem frameAt_self (h : s.Rooted p) (hi : i < pageMapEntries)
    (hPresent : (s.mem p i).Has pgPresent) : s.frameAt p (self 0 + i) = some (s.mem p i).frame := by
  have hEntry : (s.mem (s.mem p (pageMapEntries - 1)).frame i).Has pgPresent := by
    rw [h.frame]
    exact hPresent
  have hWalk := frameAt_eq h.present hi hEntry
  rw [h.frame] at hWalk
  exact hWalk

theorem frameAt_self_absent (h : s.Rooted p) (hi : i < pageMapEntries)
    (hAbsent : ¬ (s.mem p i).Has pgPresent) : s.frameAt p (self 0 + i) = none := by
  obtain ⟨hDiv, hMod⟩ := table_index (i := pageMapEntries - 1) hi
  have hEntry : ¬ (s.mem (s.mem p (pageMapEntries - 1)).frame i).Has pgPresent := by
    rw [h.frame]
    exact hAbsent
  show (walk s.mem p ((pageMapEntries - 1) <<< pageMapBits + i)).map _ = none
  rw [walk, hDiv, hMod, if_neg fun hBoth => hEntry hBoth.2, Option.map_none]

theorem frameAt_dir (h : s.Rooted p) : s.frameAt p (self 1) = some p := by
  have hWalk := h.frameAt_self (i := pageMapEntries - 1) (by decide) h.present
  rw [h.frame] at hWalk
  exact hWalk

theorem entry_dir (h : s.Rooted p) (hi : i < pageMapEntries) :
    s.entry p (self 1) i = some (s.mem p i) := by
  rw [entry, Nat.div_eq_of_lt hi, Nat.add_zero, h.frameAt_dir, Nat.mod_eq_of_lt hi, Option.map_some]

theorem setEntry_dir (h : s.Rooted p) (hi : i < pageMapEntries) :
    s.setEntry p (self 1) i e = some (s.write p i e) := by
  rw [setEntry, Nat.div_eq_of_lt hi, Nat.add_zero, h.frameAt_dir, Nat.mod_eq_of_lt hi,
    Option.map_some]

theorem entry_table (h : s.Rooted p) (hi : i < pageMapEntries) (hj : j < pageMapEntries)
    (hPresent : (s.mem p i).Has pgPresent) :
    s.entry p (self 0) (i <<< pageMapBits + j) = some (s.mem (s.mem p i).frame j) := by
  obtain ⟨hDiv, hMod⟩ := table_index (i := i) hj
  rw [entry, hDiv, h.frameAt_self hi hPresent, hMod, Option.map_some]

theorem setEntry_table (h : s.Rooted p) (hi : i < pageMapEntries) (hj : j < pageMapEntries)
    (hPresent : (s.mem p i).Has pgPresent) :
    s.setEntry p (self 0) (i <<< pageMapBits + j) e = some (s.write (s.mem p i).frame j e) := by
  obtain ⟨hDiv, hMod⟩ := table_index (i := i) hj
  rw [setEntry, hDiv, h.frameAt_self hi hPresent, hMod, Option.map_some]

end Rooted

end Paging
end ArtOS

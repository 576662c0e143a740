import ArtOS.FileSystem.FileData

/-! Reading a mounted file through one descriptor, call by call. The end of the file shows only in that
there is no second block. -/
namespace ArtOS.FileNode

variable {flags : BitVec 32} {offset size k : Nat} {contents : List (BitVec 8)} {sizes : List Nat}

/-- Calls of `initrd_read` with buffers of these sizes; each gives its bytes and leaves an offset. -/
def readCalls (flags : BitVec 32) (f : FileNode) : List Nat → Nat → Option (List (List (BitVec 8) × Nat))
  | [], _ => some []
  | size :: sizes, offset =>
      match f.initrdRead flags offset size with
      | some (.ok bytes) =>
          (readCalls flags f sizes (Word.add offset bytes.length)).map
            ((bytes, Word.add offset bytes.length) :: ·)
      | _ => none

/-- What has been returned by the first `k` calls. -/
def returned (calls : List (List (BitVec 8) × Nat)) (k : Nat) : List (BitVec 8) :=
  ((calls.take k).map Prod.fst).flatten

/-- The call number `k`, with a buffer of this size, goes on where the calls before it have ended. -/
structure Continues (contents : List (BitVec 8)) (calls : List (List (BitVec 8) × Nat)) (k size : Nat)
    (bytes : List (BitVec 8)) (offset : Nat) : Prop where
  delivers : returned calls k ++ bytes <+: contents
  count : bytes.length = min size (contents.length - (returned calls k).length)
  advances : offset = (returned calls k).length + bytes.length
  ends : returned calls k = contents → bytes = []

theorem blocks_mounted : (mounted contents).blocks = [contents] := by
  rw [blocks, mounted, List.flatten_singleton, List.reduceOption_cons_of_some]
  refine congrArg (contents :: ·) ?_
  rw [List.reduceOption, List.filterMap_eq_nil_iff]
  intro slot hSlot
  exact (List.mem_replicate.mp hSlot).2

/-- One call returns what is left, as far as the buffer goes. -/
theorem initrdRead_mounted (hFlags : flags &&& oWronly = 0) (hOffset : offset ≤ contents.length)
    (hRange : offset + size < 2 ^ 32) :
    (mounted contents).initrdRead flags offset size = some (.ok ((contents.drop offset).take size)) := by
  have hSize : (mounted contents).blockSize = contents.length := rfl
  by_cases hEnd : offset < contents.length
  · have hBlock : (mounted contents).blocks[offset / (mounted contents).blockSize]? = some contents := by
      rw [hSize, Nat.div_eq_of_lt hEnd, blocks_mounted]
      rfl
    rw [initrdRead_eq hFlags hBlock (Or.inr (by omega))]
    dsimp only
    rw [hSize, Nat.mod_eq_of_lt hEnd, Word.add_eq hRange]
    by_cases hLong : contents.length ≤ offset + size
    · rw [if_pos hLong, if_neg (fun hOut => by unfold Outside at hOut; omega),
        List.take_of_length_le (List.length_drop ▸ le_rfl),
        List.take_of_length_le (by rw [List.length_drop]; omega)]
    · rw [if_neg hLong, if_neg fun hOut => by unfold Outside at hOut; omega]
  · have hSame : offset = contents.length := by omega
    have hNone : (contents.drop offset).take size = [] := by
      rw [hSame, List.drop_length, List.take_nil]
    rw [hNone]
    by_cases hZero : contents.length = 0
    · have hBlock : (mounted contents).blocks[offset / (mounted contents).blockSize]? = some contents := by
        rw [hSize, hZero, Nat.div_zero, blocks_mounted]
        rfl
      rw [initrdRead_eq hFlags hBlock (Or.inl (by omega))]
      dsimp only
      rw [hSize, hZero, hSame, hZero, if_pos (Nat.zero_le _)]
      rfl
    · apply initrdRead_end hFlags _ (Or.inr (by omega))
      rw [hSize, hSame, Nat.div_self (by omega), blocks_mounted]
      rfl

/-- The bytes that calls with buffers of these sizes return, from an offset on. -/
def pieces (contents : List (BitVec 8)) : List Nat → Nat → List (List (BitVec 8) × Nat)
  | [], _ => []
  | size :: sizes, offset =>
      ((contents.drop offset).take size, min contents.length (offset + size)) ::
        pieces contents sizes (min contents.length (offset + size))

theorem readCalls_mounted (hFlags : flags &&& oWronly = 0)
    (hOffset : offset ≤ contents.length)
    (hRange : ∀ k size, sizes[k]? = some size →
      min contents.length (offset + (sizes.take k).sum) + size < 2 ^ 32) :
    (mounted contents).readCalls flags sizes offset = some (pieces contents sizes offset) := by
  induction sizes generalizing offset with
  | nil => rfl
  | cons size sizes ih =>
      have hFirst := hRange 0 size rfl
      rw [List.take_zero, List.sum_nil, Nat.add_zero, Nat.min_eq_right hOffset] at hFirst
      have hCount : ((contents.drop offset).take size).length = min size (contents.length - offset) := by
        rw [List.length_take, List.length_drop]
      have hNext : Word.add offset ((contents.drop offset).take size).length =
          min contents.length (offset + size) := by
        rw [hCount, Word.add_eq (by omega)]
        omega
      rw [readCalls, initrdRead_mounted hFlags hOffset hFirst]
      dsimp only
      rw [hNext, ih (by omega) ?_]
      · rfl
      · intro k size' hk
        have hLater := hRange (k + 1) size' hk
        rw [List.take_succ_cons, List.sum_cons] at hLater
        omega

theorem drop_min (n : Nat) : contents.drop (min contents.length n) = contents.drop n := by
  by_cases hEnd : contents.length ≤ n
  · rw [Nat.min_eq_left hEnd, List.drop_length, List.drop_of_length_le hEnd]
  · rw [Nat.min_eq_right (by omega)]

theorem pieces_get (hOffset : offset ≤ contents.length) (hk : sizes[k]? = some size) :
    (pieces contents sizes offset)[k]? =
      some ((contents.drop (offset + (sizes.take k).sum)).take size,
        min contents.length (offset + (sizes.take k).sum + size)) := by
  induction sizes generalizing offset k with
  | nil => cases hk
  | cons first sizes ih =>
      cases k with
      | zero =>
          cases hk
          rfl
      | succ k =>
          have hRest := ih (Nat.min_le_left _ (offset + first)) hk
          have hSum : min contents.length (offset + first) + (sizes.take k).sum =
              offset + (first + (sizes.take k).sum) ∨ contents.length ≤ offset + first := by omega
          rw [pieces, List.getElem?_cons_succ, hRest, List.take_succ_cons, List.sum_cons]
          rcases hSum with hSum | hEnd
          · rw [hSum]
          · rw [List.drop_of_length_le (by omega), List.drop_of_length_le (by omega),
              Nat.min_eq_left (by omega), Nat.min_eq_left (by omega)]

/-- The first calls together return the first bytes. -/
theorem returned_pieces (k : Nat) : returned (pieces contents sizes offset) k =
    (contents.drop offset).take (sizes.take k).sum := by
  induction sizes generalizing offset k with
  | nil =>
      rw [List.take_nil, List.sum_nil, List.take_zero, returned, pieces, List.take_nil]
      rfl
  | cons size sizes ih =>
      cases k with
      | zero =>
          rw [List.take_zero, List.sum_nil, List.take_zero]
          rfl
      | succ k =>
          have hRest : returned (pieces contents sizes (min contents.length (offset + size))) k = _ := ih k
          rw [drop_min] at hRest
          have hStep : returned (pieces contents (size :: sizes) offset) (k + 1) =
              (contents.drop offset).take size ++
                returned (pieces contents sizes (min contents.length (offset + size))) k := rfl
          rw [hStep, hRest, List.take_succ_cons, List.sum_cons, ← List.drop_drop, ← List.take_add]

theorem length_pieces : (pieces contents sizes offset).length = sizes.length := by
  induction sizes generalizing offset with
  | nil => rfl
  | cons size sizes ih => exact congrArg (· + 1) ih

/-- Every call on a mounted file returns the next bytes of it, as far as the buffer goes, and nothing
once all of them have been returned. -/
theorem mounted_reads (contents : List (BitVec 8)) (flags : BitVec 32) (sizes : List Nat)
    (hFlags : flags &&& oWronly = 0)
    (hRange : ∀ k size, sizes[k]? = some size →
      min contents.length (sizes.take k).sum + size < 2 ^ 32) :
    ∃ calls, (mounted contents).readCalls flags sizes 0 = some calls ∧ calls.length = sizes.length ∧
      ∀ k size, sizes[k]? = some size → ∃ bytes offset, calls[k]? = some (bytes, offset) ∧
        Continues contents calls k size bytes offset := by
  refine ⟨pieces contents sizes 0, ?_, length_pieces, ?_⟩
  · apply readCalls_mounted hFlags (Nat.zero_le _)
    intro k size hk
    rw [Nat.zero_add]
    exact hRange k size hk
  · intro k size hk
    have hGet := pieces_get (Nat.zero_le contents.length) hk
    rw [Nat.zero_add] at hGet
    refine ⟨_, _, hGet, ?_⟩
    have hBefore : returned (pieces contents sizes 0) k = contents.take (sizes.take k).sum :=
      returned_pieces k
    have hCount : ((contents.drop (sizes.take k).sum).take size).length =
        min size (contents.length - (sizes.take k).sum) := by
      rw [List.length_take, List.length_drop]
    refine ⟨?_, ?_, ?_, ?_⟩
    · rw [hBefore, ← List.take_add]
      exact List.take_prefix _ _
    · rw [hCount, hBefore, List.length_take]
      omega
    · rw [hCount, hBefore, List.length_take]
      omega
    · intro hAll
      have hEnd := congrArg List.length (hBefore.symm.trans hAll)
      rw [List.length_take] at hEnd
      rw [List.drop_of_length_le (by omega), List.take_nil]

/-- A file of three bytes, read with buffers of two bytes. -/
theorem mounted_reads_abc :
    ∃ calls, (mounted [0x61, 0x62, 0x63]).readCalls 0 [2, 2, 2] 0 = some calls ∧ calls.length = 3 ∧
      ∀ k size, [2, 2, 2][k]? = some size → ∃ bytes offset, calls[k]? = some (bytes, offset) ∧
        Continues [0x61, 0x62, 0x63] calls k size bytes offset := by
  refine mounted_reads [0x61, 0x62, 0x63] 0 [2, 2, 2] (by decide) ?_
  intro k size hk
  have hSize : size = 2 := by simpa using List.mem_of_getElem? hk
  have hMin : min 3 ([2, 2, 2].take k).sum ≤ 3 := Nat.min_le_left _ _
  exact lt_of_le_of_lt (Nat.add_le_add hMin hSize.le) (by decide)

end ArtOS.FileNode

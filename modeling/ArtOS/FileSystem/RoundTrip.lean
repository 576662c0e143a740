import ArtOS.FileSystem.FileData

/-! When a file gives back what was written to it. The writer goes by blocks of `MAX_DATAENTRIES` bytes,
the reader takes the whole length of the file for the length of a block. -/
namespace ArtOS.FileNode

open Splice

variable {f f' : FileNode} {flags : BitVec 32} {offset size fuel k cap : Nat} {sizes : Nat → Nat}
variable {first second : DataBlock} {contents contents' delivered : List (BitVec 8)}

section Read

/-- Buffers that fit into memory beside the file. -/
def Buffers (f : FileNode) (sizes : Nat → Nat) : Prop :=
  ∀ k, 0 < sizes k ∧ sizes k < 2 ^ 32 ∧ sizes k + f.blockSize ≤ 2 ^ 32

theorem readFile_step (sizes : Nat → Nat) {bytes : List (BitVec 8)} 
    (h : f.initrdRead flags offset (sizes k) = some (.ok bytes)) (hBytes : bytes ≠ []) :
    readFile flags sizes f (fuel + 1) k offset =
      (readFile flags sizes f fuel (k + 1) (Word.add offset bytes.length)).map (bytes ++ ·) := by
  obtain ⟨b, rest, rfl⟩ := List.exists_cons_of_ne_nil hBytes
  rw [readFile, h]

theorem readFile_end (h : f.initrdRead flags offset (sizes k) = some (.ok [])) :
    readFile flags sizes f (fuel + 1) k offset = some [] := by
  rw [readFile, h]

theorem readFile_mono {fuel' : Nat} (hFuel : fuel ≤ fuel')
    (h : readFile flags sizes f fuel k offset = some delivered) :
    readFile flags sizes f fuel' k offset = some delivered := by
  induction fuel generalizing fuel' k offset delivered with
  | zero => cases h
  | succ fuel ih =>
      obtain ⟨fuel', rfl⟩ := Nat.exists_eq_add_of_le' (Nat.le_of_add_left_le hFuel)
      cases hRead : f.initrdRead flags offset (sizes k) with
      | none =>
          rw [readFile, hRead] at h
          cases h
      | some result =>
          cases result with
          | error e =>
              rw [readFile, hRead] at h
              cases h
          | ok bytes =>
              by_cases hBytes : bytes = []
              · rw [hBytes] at hRead
                rw [readFile_end hRead] at h ⊢
                exact h
              · rw [readFile_step sizes hRead hBytes] at h ⊢
                obtain ⟨rest, hRest, rfl⟩ := Option.map_eq_some_iff.mp h
                rw [ih (by omega) hRest]
                rfl

theorem length_take_one {data : DataBlock} {start : Nat} (h : start < data.length) :
    ((data.drop start).take 1).length = 1 := by
  rw [List.length_take, List.length_drop]
  omega

theorem take_one_ne_nil {data : DataBlock} {start : Nat} (h : start < data.length) :
    (data.drop start).take 1 ≠ [] := by
  apply List.ne_nil_of_length_pos
  rw [length_take_one h]
  exact Nat.one_pos

variable (hFlags : flags &&& oWronly = 0)
include hFlags

/-- A file within its only block is read to its end. -/
theorem readFile_single (hBlocks : f.blocks = [first]) (hFits : f.blockSize ≤ first.length)
    (hSizes : Buffers f sizes) (hOffset : offset ≤ f.blockSize) (hFuel : f.blockSize - offset < fuel) :
    readFile flags sizes f fuel k offset = some ((first.take f.blockSize).drop offset) := by
  induction fuel generalizing k offset with
  | zero => exact absurd hFuel (Nat.not_lt_zero _)
  | succ fuel ih =>
      obtain ⟨hPos, hWord, hRoom⟩ := hSizes k
      by_cases hEnd : offset < f.blockSize
      · have hBlock : f.blocks[offset / f.blockSize]? = some first := by
          rw [Nat.div_eq_of_lt hEnd, hBlocks]
          rfl
        have hRead : f.initrdRead flags offset (sizes k) = _ :=
          initrdRead_eq hFlags hBlock (Or.inr (by omega))
        dsimp only at hRead
        rw [Nat.mod_eq_of_lt hEnd, Word.add_eq (by omega)] at hRead
        obtain ⟨count, hCount⟩ : ∃ count, count =
          if f.blockSize ≤ offset + sizes k then f.blockSize - offset else sizes k := ⟨_, rfl⟩
        have hBounds : 0 < count ∧ offset + count ≤ f.blockSize := by
          rw [hCount]
          split <;> omega
        rw [← hCount, if_neg (fun hOut => by unfold Outside at hOut; omega)] at hRead
        have hLength : ((first.drop offset).take count).length = count := by
          rw [List.length_take, List.length_drop]
          omega
        have hBytes : (first.drop offset).take count ≠ [] := by
          intro hNil
          rw [hNil] at hLength
          exact absurd hLength (by simp; omega)
        rw [readFile_step sizes hRead hBytes, hLength, Word.add_eq (by omega), ih (by omega) (by omega)]
        have hSame : (first.drop offset).take count = ((first.take f.blockSize).drop offset).take count := by
          rw [List.drop_take, List.take_take, Nat.min_eq_left (by omega)]
        rw [Option.map_some, hSame, ← List.drop_drop, List.take_append_drop]
      · have hOffset' : offset = f.blockSize := by omega
        have hDrop : (first.take f.blockSize).drop offset = [] := by
          rw [List.drop_eq_nil_iff, List.length_take]
          omega
        rw [hDrop]
        apply readFile_end
        by_cases hZero : f.blockSize = 0
        · have hBlock : f.blocks[offset / f.blockSize]? = some first := by
            rw [hZero, Nat.div_zero, hBlocks]
            rfl
          rw [initrdRead_eq hFlags hBlock (Or.inl (by omega))]
          dsimp only
          rw [hZero, if_pos (Nat.zero_le _), hOffset', hZero]
          rfl
        · apply initrdRead_end hFlags _ (Or.inr hZero)
          rw [hOffset', Nat.div_self (by omega), hBlocks]
          rfl

/-- Reading one byte. -/
theorem initrdRead_one {data : DataBlock} (hBlock : f.blocks[offset / f.blockSize]? = some data)
    (hSize : 0 < f.blockSize) (hWord : f.blockSize < 2 ^ 32) :
    f.initrdRead flags offset 1 =
      if data.length ≤ offset % f.blockSize then none
      else some (.ok ((data.drop (offset % f.blockSize)).take 1)) := by
  have hStart := Nat.mod_lt offset hSize
  have hOne : (if f.blockSize ≤ Word.add (offset % f.blockSize) 1 then
      f.blockSize - offset % f.blockSize else 1) = 1 := by
    rw [Word.add_eq (by omega)]
    split <;> omega
  rw [initrdRead_eq hFlags hBlock (Or.inr (by omega))]
  dsimp only
  rw [hOne]
  apply if_congr _ rfl rfl
  unfold Outside
  omega

/-- A file that is longer than its first block is read beyond it. -/
theorem readFile_beyond (hFirst : f.blocks[0]? = some first) (hLong : first.length < f.blockSize)
    (hWord : f.blockSize < 2 ^ 32) (hOffset : offset ≤ first.length) :
    readFile flags (fun _ => 1) f fuel k offset = none := by
  induction fuel generalizing k offset with
  | zero => rfl
  | succ fuel ih =>
      have hBlock : f.blocks[offset / f.blockSize]? = some first := by
        rw [Nat.div_eq_of_lt (by omega), hFirst]
      have hRead := initrdRead_one hFlags hBlock (by omega) hWord
      rw [Nat.mod_eq_of_lt (by omega)] at hRead
      by_cases hEnd : first.length ≤ offset
      · rw [if_pos hEnd] at hRead
        rw [readFile, hRead]
      · rw [if_neg hEnd] at hRead
        have hOne := length_take_one (Nat.lt_of_not_le hEnd)
        have hBytes := take_one_ne_nil (Nat.lt_of_not_le hEnd)
        rw [readFile_step (fun _ => 1) hRead hBytes, hOne, Word.add_eq (by omega), ih (by omega)]
        rfl

/-- Behind the end of the file the reader goes on with the second block. -/
theorem readFile_extra (hFirst : f.blocks[0]? = some first) (hSecond : f.blocks[1]? = some second)
    (hNonempty : second ≠ []) (hSize : 0 < f.blockSize) (hWord : f.blockSize < 2 ^ 32)
    (hOffset : offset ≤ f.blockSize)
    (h : readFile flags (fun _ => 1) f fuel k offset = some delivered) :
    f.blockSize - offset < delivered.length := by
  induction fuel generalizing k offset delivered with
  | zero => cases h
  | succ fuel ih =>
      by_cases hEnd : offset < f.blockSize
      · have hBlock : f.blocks[offset / f.blockSize]? = some first := by
          rw [Nat.div_eq_of_lt hEnd, hFirst]
        have hRead := initrdRead_one hFlags hBlock hSize hWord
        rw [Nat.mod_eq_of_lt hEnd] at hRead
        by_cases hShort : first.length ≤ offset
        · rw [if_pos hShort] at hRead
          rw [readFile, hRead] at h
          cases h
        · rw [if_neg hShort] at hRead
          have hOne := length_take_one (Nat.lt_of_not_le hShort)
          have hBytes := take_one_ne_nil (Nat.lt_of_not_le hShort)
          rw [readFile_step (fun _ => 1) hRead hBytes, hOne, Word.add_eq (by omega)] at h
          obtain ⟨rest, hRest, rfl⟩ := Option.map_eq_some_iff.mp h
          have hLonger := ih hEnd hRest
          rw [List.length_append, hOne]
          omega
      · have hOffset' : offset = f.blockSize := by omega
        have hBlock : f.blocks[offset / f.blockSize]? = some second := by
          rw [hOffset', Nat.div_self hSize, hSecond]
        have hRead := initrdRead_one hFlags hBlock hSize hWord
        have hPos : 0 < second.length := List.length_pos_iff.mpr hNonempty
        rw [hOffset', Nat.mod_self, if_neg (by omega)] at hRead
        rw [hOffset', readFile_step (fun _ => 1) hRead (take_one_ne_nil hPos)] at h
        obtain ⟨rest, _, rfl⟩ := Option.map_eq_some_iff.mp h
        rw [List.length_append, length_take_one hPos]
        omega

end Read

/-- Reading the file gives these bytes, whatever buffers are used. -/
def Delivers (f : FileNode) (contents : List (BitVec 8)) : Prop :=
  ∀ flags sizes, flags &&& oWronly = 0 → Buffers f sizes →
    ∃ fuel, readFile flags sizes f fuel 0 0 = some contents

/-- One call of `initrd_write`. -/
structure Write where
  flags : BitVec 32
  offset : Nat
  buffer : List (BitVec 8)

/-- Where a write starts in a file of this length. -/
def Write.start (w : Write) (blockSize : Nat) : Nat :=
  if w.flags &&& oAppend ≠ 0 then blockSize else w.offset

/-- How many bytes it writes. -/
def Write.count (w : Write) (blockSize : Nat) : Nat := writeSize (w.start blockSize) w.buffer.length

/-- The file and the reference array. -/
def Write.exec (w : Write) (x : FileNode × List (BitVec 8)) : Option (FileNode × List (BitVec 8)) :=
  (fullWrite w.flags w.offset w.buffer x.1).map fun y =>
    (y.1, splice 0 x.2 (w.start x.1.blockSize) (w.buffer.take y.2.1))

/-- The writes come back, and reading gives the reference array. -/
def RoundTrip (x : FileNode × List (BitVec 8)) (writes : List Write) : Prop :=
  ∃ y, writes.foldlM (fun x w => w.exec x) x = some y ∧ Delivers y.1 y.2

/-- Every write starts within `MAX_DATAENTRIES` and ends within the first block of the file; and none
that writes nothing has made the file longer than its contents. -/
def Fits (cap : Nat) : Nat → Nat → List Write → Prop
  | blockSize, length, [] => blockSize = length
  | blockSize, length, w :: writes =>
      w.start blockSize < maxDataentries ∧ w.start blockSize + w.count blockSize ≤ cap ∧
        Fits cap (max blockSize (w.start blockSize + w.count blockSize))
          (if w.count blockSize = 0 then length
            else max length (w.start blockSize + w.count blockSize)) writes

instance decidableFits (cap : Nat) : ∀ blockSize length writes, Decidable (Fits cap blockSize length writes)
  | _, _, [] => inferInstanceAs (Decidable (_ = _))
  | blockSize, length, w :: writes =>
      have : Decidable (Fits cap (max blockSize (w.start blockSize + w.count blockSize))
          (if w.count blockSize = 0 then length
            else max length (w.start blockSize + w.count blockSize)) writes) :=
        decidableFits cap _ _ writes
      inferInstanceAs (Decidable (_ ∧ _ ∧ _))

/-- A file created by `initrd_open`, or mounted by `initrd_init` with these bytes. -/
def origin : Option DataBlock → FileNode × List (BitVec 8)
  | none => (created, [])
  | some bytes => (mounted bytes, bytes)

/-- The length of its first block. -/
def capacity : Option DataBlock → Nat
  | none => maxDataentries
  | some bytes => bytes.length

section Write

variable {w : Write} {writes : List Write}

/-- What all files have in common: arrays of pointers, to blocks whose lengths are words. -/
structure Sound (f : FileNode) : Prop where
  shaped : Shaped f.lists
  word : f.blockSize < 2 ^ 32
  bounded : ∀ i block, slotAt f.lists i = some block → block.length < 2 ^ 32

/-- The block that a write at this offset comes to. -/
def target (f : FileNode) (offset : Nat) : DataBlock :=
  (slotAt f.lists (offset / maxDataentries)).getD DataBlock.zero

theorem length_zero : DataBlock.zero.length = 4096 := List.length_replicate

/-- The pointers after a write at this offset. -/
def SlotsAfter (f : FileNode) (lists : List DataList) (offset : Nat) (bytes : List (BitVec 8)) : Prop :=
  ∀ i, slotAt lists i =
    if i = offset / maxDataentries then
      some (splice 0 (target f offset) (offset % maxDataentries) bytes)
    else if i < offset / maxDataentries then some ((slotAt f.lists i).getD DataBlock.zero)
    else slotAt f.lists i

theorem fullWrite_eq (h : Shaped f.lists) (hStart : w.start f.blockSize < 2 ^ 31) :
    ∃ lists, Shaped lists ∧
      SlotsAfter f lists (w.start f.blockSize) (w.buffer.take (w.count f.blockSize)) ∧
      fullWrite w.flags w.offset w.buffer f =
        if Outside (target f (w.start f.blockSize)) (w.start f.blockSize % maxDataentries)
          (w.count f.blockSize) then none
        else
          some (⟨if f.blockSize < Word.add (w.start f.blockSize) (w.count f.blockSize) then
              Word.add (w.start f.blockSize) (w.count f.blockSize) else f.blockSize, lists⟩,
            w.count f.blockSize, Word.add (w.start f.blockSize) (w.count f.blockSize)) := by
  obtain ⟨start, hIs⟩ : ∃ start, start = w.start f.blockSize := ⟨_, rfl⟩
  have hCount : writeSize start w.buffer.length = w.count f.blockSize := by
    rw [hIs]
    rfl
  rw [← hIs] at hStart ⊢
  have hFuel : start / maxDataentries / maxDatablocks < start / maxDataentries + 1 :=
    Nat.lt_succ_of_le (Nat.div_le_self _ _)
  obtain ⟨lists, calls, hShaped, hSlots, hWalk⟩ := walkLists_spec h hFuel 0
  have hTarget : slotAt lists (start / maxDataentries) = some (target f start) := by
    rw [hSlots, if_pos le_rfl]
    rfl
  refine ⟨setSlot lists (start / maxDataentries)
    (splice 0 (target f start) (start % maxDataentries) (w.buffer.take (w.count f.blockSize))),
    hShaped.setSlot hTarget, ?_, ?_⟩
  · intro i
    rw [(setSlot_spec hTarget).2, hSlots]
    grind
  · have hStart' : (if w.flags &&& oAppend ≠ 0 then f.blockSize else w.offset) = start := hIs.symm
    rw [fullWrite, initrdWrite]
    dsimp only
    rw [hStart', if_neg (by omega), hWalk, Option.bind_some, hCount]
    dsimp only
    rw [← target]
    split <;> rfl

theorem fullWrite_none (hStart : ¬ w.start f.blockSize < 2 ^ 31) :
    fullWrite w.flags w.offset w.buffer f = none := by
  have hStart' : 2 ^ 31 ≤ if w.flags &&& oAppend ≠ 0 then f.blockSize else w.offset :=
    Nat.le_of_not_lt hStart
  rw [fullWrite, initrdWrite]
  dsimp only
  rw [if_pos hStart']
  rfl

/-- A write within a block of at most 2^32 bytes writes at most `MAX_DATAENTRIES` bytes. -/
theorem writeSize_le {data : DataBlock} (hData : data.length < 2 ^ 32)
    (h : ¬ Outside data (offset % maxDataentries) (writeSize offset size)) :
    writeSize offset size ≤ 4096 := by
  unfold Outside at h
  unfold writeSize at h ⊢
  rw [show maxDataentries = 4096 from rfl] at h ⊢
  split at h
  next hLong =>
    rw [if_pos hLong]
    omega
  next hShort =>
    rw [if_neg hShort]
    rw [Word.add] at hShort
    omega

/-- A write in place keeps the length of the block. -/
theorem length_target (hOut : ¬ Outside (target f offset) (offset % maxDataentries) size)
    (bytes : List (BitVec 8)) :
    (splice 0 (target f offset) (offset % maxDataentries) (bytes.take size)).length =
      (target f offset).length := by
  by_cases hNil : bytes.take size = []
  · rw [hNil, splice_nil]
  · apply length_splice_of_le
    have hTake : (bytes.take size).length ≤ size := List.length_take_le _ _
    have hPos := List.length_pos_iff.mpr hNil
    unfold Outside at hOut
    omega

/-- A write that comes back. -/
theorem Write.exec_spec (h : Sound f) (hExec : w.exec (f, contents) = some (f', contents')) :
    Sound f' ∧ w.count f.blockSize ≤ 4096 ∧
      ¬ Outside (target f (w.start f.blockSize)) (w.start f.blockSize % maxDataentries)
        (w.count f.blockSize) ∧
      f'.blockSize = max f.blockSize (w.start f.blockSize + w.count f.blockSize) ∧
      SlotsAfter f f'.lists (w.start f.blockSize) (w.buffer.take (w.count f.blockSize)) ∧
      contents' = splice 0 contents (w.start f.blockSize) (w.buffer.take (w.count f.blockSize)) := by
  have hStart : w.start f.blockSize < 2 ^ 31 := by
    by_contra hNot
    rw [Write.exec, fullWrite_none hNot] at hExec
    cases hExec
  obtain ⟨lists, hShaped, hSlots, hWrite⟩ := fullWrite_eq h.shaped hStart
  by_cases hOut : Outside (target f (w.start f.blockSize)) (w.start f.blockSize % maxDataentries)
      (w.count f.blockSize)
  · rw [Write.exec, hWrite, if_pos hOut] at hExec
    cases hExec
  · rw [Write.exec, hWrite, if_neg hOut] at hExec
    have hTarget : (target f (w.start f.blockSize)).length < 2 ^ 32 := by
      rw [target]
      cases hSlot : slotAt f.lists (w.start f.blockSize / maxDataentries) with
      | none =>
          rw [Option.getD_none, length_zero]
          omega
      | some block => exact h.bounded _ block hSlot
    have hCount : w.count f.blockSize ≤ 4096 := writeSize_le hTarget hOut
    have hTop : Word.add (w.start f.blockSize) (w.count f.blockSize) =
        w.start f.blockSize + w.count f.blockSize := Word.add_eq (by omega)
    rw [hTop] at hExec
    cases hExec
    have hWord := h.word
    refine ⟨⟨hShaped, ?_, ?_⟩, hCount, hOut, ?_, hSlots, rfl⟩
    · dsimp only
      split <;> omega
    · intro i block hBlock
      rw [hSlots] at hBlock
      split at hBlock
      next hHere =>
        cases hBlock
        rw [length_target hOut]
        exact hTarget
      next =>
        split at hBlock
        next =>
          cases hSlot : slotAt f.lists i with
          | none =>
              rw [hSlot] at hBlock
              cases hBlock
              rw [Option.getD_none, length_zero]
              omega
          | some old =>
              rw [hSlot] at hBlock
              cases hBlock
              exact h.bounded i old hSlot
        next => exact h.bounded i block hBlock
    · dsimp only
      split <;> omega

/-- So far the file is its first block, which reads like the contents. -/
structure Good (cap : Nat) (f : FileNode) (contents : List (BitVec 8)) : Prop where
  sound : Sound f
  capacity : (target f 0).length = cap
  single : ∀ i, 0 < i → slotAt f.lists i = none
  empty : slotAt f.lists 0 = none → f.blockSize = 0
  fits : f.blockSize ≤ cap
  length : contents.length ≤ f.blockSize
  reads : ∀ i, (target f 0).getD i 0 = contents.getD i 0

/-- The file is longer than its first block, or there is another block behind that. -/
structure Doomed (f : FileNode) (contents : List (BitVec 8)) : Prop where
  sound : Sound f
  length : contents.length ≤ f.blockSize
  blocks : ∃ first, slotAt f.lists 0 = some first ∧
    (first.length < f.blockSize ∨
      0 < f.blockSize ∧ ∃ second, slotAt f.lists 1 = some second ∧ second ≠ [])

theorem buffers_one (h : f.blockSize < 2 ^ 32) : Buffers f fun _ => 1 := by
  intro k
  dsimp only
  omega

theorem Doomed.not_delivers (h : Doomed f contents) : ¬ Delivers f contents := by
  intro hDelivers
  obtain ⟨fuel, hRead⟩ := hDelivers 0 (fun _ => 1) (by decide) (buffers_one h.sound.word)
  obtain ⟨first, hFirst, hLong | ⟨hSize, second, hSecond, hNonempty⟩⟩ := h.blocks
  · rw [readFile_beyond (by decide) (blocks_first hFirst) hLong h.sound.word (Nat.zero_le _)] at hRead
    cases hRead
  · have hLonger := readFile_extra (by decide) (blocks_first hFirst) (blocks_second hFirst hSecond)
      hNonempty hSize h.sound.word (Nat.zero_le _) hRead
    have hLength := h.length
    omega

theorem length_contents {start : Nat} (hLength : contents.length ≤ offset) :
    (splice 0 contents start (w.buffer.take size)).length ≤ max offset (start + size) := by
  by_cases hNil : w.buffer.take size = []
  · rw [hNil, splice_nil]
    omega
  · rw [length_splice hNil]
    have hTake : (w.buffer.take size).length ≤ size := List.length_take_le _ _
    omega

/-- The blocks that are there stay, and keep their lengths. -/
theorem SlotsAfter.kept {lists : List DataList} {i : Nat} {block : DataBlock}
    (h : SlotsAfter f lists offset (w.buffer.take size))
    (hOut : ¬ Outside (target f offset) (offset % maxDataentries) size)
    (hBlock : slotAt f.lists i = some block) :
    ∃ block', slotAt lists i = some block' ∧ block'.length = block.length := by
  rw [h i]
  split
  next hHere =>
    have hTarget : target f offset = block := by rw [target, ← hHere, hBlock, Option.getD_some]
    exact ⟨_, rfl, (length_target hOut _).trans (congrArg List.length hTarget)⟩
  next =>
    rw [hBlock, Option.getD_some]
    split <;> exact ⟨block, rfl, rfl⟩

theorem Doomed.exec (h : Doomed f contents) (hExec : w.exec (f, contents) = some (f', contents')) :
    Doomed f' contents' := by
  obtain ⟨hSound, _, hOut, hSize, hSlots, rfl⟩ := Write.exec_spec h.sound hExec
  refine ⟨hSound, hSize ▸ length_contents h.length, ?_⟩
  obtain ⟨first, hFirst, hBad⟩ := h.blocks
  obtain ⟨first', hFirst', hLength⟩ := hSlots.kept hOut hFirst
  refine ⟨first', hFirst', ?_⟩
  rw [hSize, hLength]
  rcases hBad with hLong | ⟨hPos, second, hSecond, hNonempty⟩
  · exact Or.inl (lt_of_lt_of_le hLong (le_max_left _ _))
  · obtain ⟨second', hSecond', hLength'⟩ := hSlots.kept hOut hSecond
    refine Or.inr ⟨lt_of_lt_of_le hPos (le_max_left _ _), second', hSecond', ?_⟩
    apply List.ne_nil_of_length_pos
    rw [hLength']
    exact List.length_pos_iff.mpr hNonempty

theorem Good.doomed (h : Good cap f contents) (hExec : w.exec (f, contents) = some (f', contents'))
    (hBad : ¬ (w.start f.blockSize < maxDataentries ∧
      w.start f.blockSize + w.count f.blockSize ≤ cap)) : Doomed f' contents' := by
  obtain ⟨hSound, _, hOut, hSize, hSlots, rfl⟩ := Write.exec_spec h.sound hExec
  refine ⟨hSound, hSize ▸ length_contents h.length, ?_⟩
  rw [hSize]
  have hFirst := hSlots 0
  by_cases hStart : w.start f.blockSize < 4096
  · have hPos : w.start f.blockSize / maxDataentries = 0 := Nat.div_eq_of_lt hStart
    have hTarget : target f (w.start f.blockSize) = target f 0 := by
      rw [target, target, hPos, Nat.zero_div]
    rw [if_pos hPos.symm] at hFirst
    refine ⟨_, hFirst, Or.inl ?_⟩
    rw [length_target hOut, hTarget, h.capacity]
    have hMod : w.start f.blockSize % maxDataentries = w.start f.blockSize := Nat.mod_eq_of_lt hStart
    rw [hTarget, hMod, Outside, h.capacity] at hOut
    have hEnd : ¬ w.start f.blockSize + w.count f.blockSize ≤ cap := fun hEnd => hBad ⟨hStart, hEnd⟩
    omega
  · have hPos : 0 < w.start f.blockSize / maxDataentries :=
      Nat.div_pos (Nat.le_of_not_lt hStart) (by decide)
    rw [if_neg hPos.ne, if_pos hPos] at hFirst
    have hSecond := hSlots 1
    rw [h.single 1 Nat.one_pos] at hSecond
    refine ⟨_, hFirst, Or.inr ⟨by omega, ?_⟩⟩
    split at hSecond
    next hHere =>
      refine ⟨_, hSecond, ?_⟩
      apply List.ne_nil_of_length_pos
      rw [length_target hOut, target, ← hHere, h.single 1 Nat.one_pos, Option.getD_none, length_zero]
      decide
    next hThere =>
      rw [if_pos (by omega)] at hSecond
      exact ⟨_, hSecond, by decide⟩

theorem writeSize_le_size : writeSize offset size ≤ size := by
  unfold writeSize
  rw [show maxDataentries = 4096 from rfl]
  split
  next hLong =>
    rw [Word.add] at hLong
    omega
  next => exact le_rfl

theorem Good.exec (h : Good cap f contents)
    (hStart : w.start f.blockSize < maxDataentries)
    (hEnd : w.start f.blockSize + w.count f.blockSize ≤ cap) :
    ∃ f' contents', w.exec (f, contents) = some (f', contents') ∧ Good cap f' contents' ∧
      f'.blockSize = max f.blockSize (w.start f.blockSize + w.count f.blockSize) ∧
      contents'.length = if w.count f.blockSize = 0 then contents.length
        else max contents.length (w.start f.blockSize + w.count f.blockSize) := by
  have hPos : w.start f.blockSize / maxDataentries = 0 := Nat.div_eq_of_lt hStart
  have hMod : w.start f.blockSize % maxDataentries = w.start f.blockSize := Nat.mod_eq_of_lt hStart
  have hTarget : target f (w.start f.blockSize) = target f 0 := by
    rw [target, target, hPos, Nat.zero_div]
  have hOut : ¬ Outside (target f (w.start f.blockSize)) (w.start f.blockSize % maxDataentries)
      (w.count f.blockSize) := by
    rw [hTarget, hMod, Outside, h.capacity]
    omega
  obtain ⟨lists, hShaped, hAfter, hWrite⟩ :=
    fullWrite_eq h.sound.shaped (lt_trans hStart (by decide))
  rw [if_neg hOut] at hWrite
  obtain ⟨f', contents', hExec⟩ : ∃ f' contents', w.exec (f, contents) = some (f', contents') := by
    rw [Write.exec, hWrite]
    exact ⟨_, _, rfl⟩
  obtain ⟨hSound, _, _, hSize, hSlots, rfl⟩ := Write.exec_spec h.sound hExec
  have hFirst := hSlots 0
  rw [if_pos hPos.symm, hTarget, hMod] at hFirst
  have hTarget' : target f' 0 = splice 0 (target f 0) (w.start f.blockSize)
      (w.buffer.take (w.count f.blockSize)) := by
    rw [target, Nat.zero_div, hFirst, Option.getD_some]
  refine ⟨f', _, hExec, ⟨hSound, ?_, ?_, ?_, ?_, hSize ▸ length_contents h.length, ?_⟩, hSize, ?_⟩
  · have hLength := length_target hOut w.buffer
    rw [hTarget, hMod] at hLength
    rw [hTarget', hLength, h.capacity]
  · intro i hi
    rw [hSlots, hPos, if_neg hi.ne', if_neg (Nat.not_lt_zero i)]
    exact h.single i hi
  · intro hNone
    rw [hFirst] at hNone
    cases hNone
  · have hFits := h.fits
    omega
  · intro i
    rw [hTarget', getD_splice, getD_splice, h.reads]
  · have hCount : w.count f.blockSize ≤ w.buffer.length := writeSize_le_size
    have hTake : (w.buffer.take (w.count f.blockSize)).length = w.count f.blockSize :=
      List.length_take_of_le hCount
    by_cases hZero : w.count f.blockSize = 0
    · rw [if_pos hZero, hZero, List.take_zero, splice_nil]
    · rw [if_neg hZero, length_splice, hTake]
      apply List.ne_nil_of_length_pos
      omega

/-- At the end. -/
theorem Good.delivers_iff (h : Good cap f contents) :
    Delivers f contents ↔ f.blockSize = contents.length := by
  have hWord := h.sound.word
  cases hSlot : slotAt f.lists 0 with
  | none =>
      have hSize := h.empty hSlot
      have hLength : contents = [] := List.eq_nil_of_length_eq_zero (by have := h.length; omega)
      refine iff_of_true ?_ (by rw [hSize, hLength]; rfl)
      intro flags sizes hFlags _
      have hBlocks : f.blocks = [] := by
        apply blocks_none
        intro i
        cases i with
        | zero => exact hSlot
        | succ i => exact h.single (i + 1) (Nat.succ_pos i)
      have hEnd : f.blocks[0 / f.blockSize]? = none := by rw [hBlocks, List.getElem?_nil]
      exact ⟨1, hLength ▸ readFile_end (initrdRead_end hFlags hEnd (Or.inl rfl))⟩
  | some first =>
      have hBlocks := blocks_single hSlot h.single
      have hTarget : target f 0 = first := by rw [target, Nat.zero_div, hSlot, Option.getD_some]
      have hFits : f.blockSize ≤ first.length := by
        rw [← hTarget, h.capacity]
        exact h.fits
      constructor
      · intro hDelivers
        obtain ⟨fuel, hRead⟩ := hDelivers 0 (fun _ => 1) (by decide) (buffers_one hWord)
        have hWhole := readFile_single (k := 0) (by decide : (0 : BitVec 32) &&& oWronly = 0) hBlocks hFits
          (buffers_one hWord) (Nat.zero_le _) (Nat.lt_succ_self _)
        have hSame := (readFile_mono (le_max_left fuel _) hRead).symm.trans
          (readFile_mono (le_max_right fuel _) hWhole)
        rw [Option.some.inj hSame, List.drop_zero, List.length_take, Nat.min_eq_left hFits]
      · intro hSize flags sizes hFlags hSizes
        refine ⟨f.blockSize - 0 + 1, ?_⟩
        rw [readFile_single hFlags hBlocks hFits hSizes (Nat.zero_le _) (Nat.lt_succ_self _), List.drop_zero]
        apply congrArg some
        apply ext_getD 0
        · rw [List.length_take, Nat.min_eq_left hFits, hSize]
        · intro i
          by_cases hi : i < f.blockSize
          · rw [List.getD_eq_getElem?_getD, List.getElem?_take_of_lt hi, ← List.getD_eq_getElem?_getD,
              ← h.reads, hTarget]
          · rw [List.getD_eq_default _ _ (by rw [List.length_take]; omega),
              List.getD_eq_default _ _ (by omega)]

theorem Doomed.not_roundTrip (h : Doomed f contents) : ¬ RoundTrip (f, contents) writes := by
  rintro ⟨⟨f', contents'⟩, hRun, hDelivers⟩
  induction writes generalizing f contents with
  | nil =>
      cases hRun
      exact h.not_delivers hDelivers
  | cons w writes ih =>
      obtain ⟨⟨next, between⟩, hFirst, hRest⟩ :=
        Option.bind_eq_some_iff.mp (List.foldlM_cons.symm.trans hRun)
      exact ih (h.exec hFirst) hRest

theorem Good.written_iff (h : Good cap f contents) (writes : List Write) :
    RoundTrip (f, contents) writes ↔ Fits cap f.blockSize contents.length writes := by
  induction writes generalizing f contents with
  | nil =>
      rw [Fits, ← h.delivers_iff]
      constructor
      · rintro ⟨x, hRun, hDelivers⟩
        cases hRun
        exact hDelivers
      · exact fun hDelivers => ⟨_, rfl, hDelivers⟩
  | cons w writes ih =>
      rw [Fits]
      constructor
      · rintro ⟨x, hRun, hDelivers⟩
        obtain ⟨⟨next, between⟩, hFirst, hRest⟩ :=
          Option.bind_eq_some_iff.mp (List.foldlM_cons.symm.trans hRun)
        by_cases hFits : w.start f.blockSize < maxDataentries ∧
            w.start f.blockSize + w.count f.blockSize ≤ cap
        · obtain ⟨f', contents', hExec, hGood, hSize, hLength⟩ := h.exec hFits.1 hFits.2
          cases hExec.symm.trans hFirst
          refine ⟨hFits.1, hFits.2, ?_⟩
          rw [← hSize, ← hLength]
          exact (ih hGood).mp ⟨x, hRest, hDelivers⟩
        · exact absurd ⟨x, hRest, hDelivers⟩ (h.doomed hFirst hFits).not_roundTrip
      · rintro ⟨hStart, hEnd, hRest⟩
        obtain ⟨f', contents', hExec, hGood, hSize, hLength⟩ := h.exec hStart hEnd
        rw [← hSize, ← hLength] at hRest
        obtain ⟨x, hRun, hDelivers⟩ := (ih hGood).mpr hRest
        refine ⟨x, ?_, hDelivers⟩
        rw [List.foldlM_cons, hExec]
        exact hRun

end Write

theorem origin_good {mapped : Option DataBlock} (h : ∀ bytes ∈ mapped, bytes.length < 2 ^ 32) :
    Good (capacity mapped) (origin mapped).1 (origin mapped).2 := by
  cases mapped with
  | none =>
      have hNone : ∀ i, slotAt created.lists i = none := slotAt_zero
      have hTarget : target created 0 = DataBlock.zero := by rw [target, hNone, Option.getD_none]
      refine ⟨⟨⟨List.cons_ne_nil _ _, by decide⟩, by decide, ?_⟩, ?_, fun i _ => hNone i, fun _ => rfl,
        Nat.zero_le _, le_rfl, ?_⟩
      · intro i block hBlock
        cases (hNone i).symm.trans hBlock
      · exact (congrArg List.length hTarget).trans length_zero
      · intro i
        have hZero : DataBlock.zero.getD i 0 = 0 := by
          by_cases hi : i < 4096
          · exact List.getD_replicate 0 hi
          · exact List.getD_eq_default _ _ (by rw [length_zero]; omega)
        exact (congrArg (fun block : DataBlock => block.getD i 0) hTarget).trans hZero
  | some bytes =>
      have hBytes : bytes.length < 2 ^ 32 := h bytes rfl
      have hRest : ∀ i, 0 < i → slotAt (mounted bytes).lists i = none := by
        intro i hi
        obtain ⟨i, rfl⟩ := Nat.exists_eq_succ_of_ne_zero hi.ne'
        have hEnd : ((List.replicate (maxDatablocks - 1) (none : Option DataBlock)) ++ []).getD i none =
            none := by
          rw [List.append_nil]
          by_cases hi : i < maxDatablocks - 1
          · exact List.getD_replicate none hi
          · exact List.getD_eq_default _ _ (by rw [List.length_replicate]; omega)
        exact hEnd
      refine ⟨⟨⟨List.cons_ne_nil _ _, ?_⟩, hBytes, ?_⟩, rfl, hRest, fun hNone => ?_, le_rfl, le_rfl,
        fun i => rfl⟩
      · intro list hList
        rw [List.mem_singleton.mp hList, List.length_cons, List.length_replicate]
        rfl
      · intro i block hBlock
        cases i with
        | zero =>
            cases hBlock
            exact hBytes
        | succ i => cases (hRest (i + 1) (Nat.succ_pos i)).symm.trans hBlock
      · cases hNone

/-- A file gives back what was written exactly while everything is written within its first block, of
`MAX_DATAENTRIES` bytes or as long as the mounted file. -/
theorem roundTrip_iff (mapped : Option DataBlock) (h : ∀ bytes ∈ mapped, bytes.length < 2 ^ 32)
    (writes : List Write) : RoundTrip (origin mapped) writes ↔
      Fits (capacity mapped) (origin mapped).1.blockSize (origin mapped).2.length writes :=
  (origin_good h).written_iff writes

theorem roundTrip_iff_hello :
    RoundTrip (origin none) [⟨0, 2, [0x68, 0x69]⟩, ⟨oAppend, 0, [0x21]⟩] :=
  (roundTrip_iff none (by simp) _).mpr (by decide)

/-- A whole block and one byte more. -/
theorem not_roundTrip : ¬ ∀ (mapped : Option DataBlock) (writes : List Write),
    (∀ bytes ∈ mapped, bytes.length < 2 ^ 32) → RoundTrip (origin mapped) writes := by
  intro hAll
  have hRound := hAll none [⟨0, 4095, [0x61]⟩, ⟨0, 4096, [0x62]⟩] (by simp)
  rw [(origin_good (by simp)).written_iff] at hRound
  exact absurd hRound (by decide)

end ArtOS.FileNode

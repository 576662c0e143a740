import ArtOS.FileSystem.Directory
import ArtOS.Library.Splice
import ArtOS.Library.Word
import Mathlib.Data.List.ReduceOption

/-! The contents of a regular file: the chain of its block lists, with pointers to data blocks. A
mounted file has one block, as long as the file, in the module it came from; `initrd_write` adds blocks
of `MAX_DATAENTRIES` bytes, or leaves gaps where `kmalloc` fails. An access outside a block has no result,
and neither has a negative offset. -/
namespace ArtOS

open Splice

abbrev maxDataentries : Nat := 4096

abbrev oWronly : BitVec 32 := 0x0001
abbrev oAppend : BitVec 32 := 0x0008

abbrev DataBlock : Type := List (BitVec 8)

/-- The array `data` of a `block_list_t`. -/
abbrev DataList : Type := List (Option DataBlock)

/-- A node of type `FS_FILE`. -/
structure FileNode where
  blockSize : Nat
  lists : List DataList

/-- What `memset` leaves. -/
def DataBlock.zero : DataBlock := List.replicate maxDataentries 0
def DataList.zero : DataList := List.replicate maxDatablocks none

namespace FileNode

/-- A file as `initrd_open` creates it. -/
def created : FileNode := ⟨0, [DataList.zero]⟩

/-- A file as `initrd_init` mounts it. -/
def mounted (bytes : DataBlock) : FileNode :=
  ⟨bytes.length, [some bytes :: List.replicate (maxDatablocks - 1) none]⟩

/-- The pointer number `i` of the chain. -/
def slotAt (lists : List DataList) (i : Nat) : Option DataBlock := lists.flatten.getD i none

/-- The blocks in the order in which `initrd_read` counts them. -/
def blocks (f : FileNode) : List DataBlock := f.lists.flatten.reduceOption

/-- A copy of `size` bytes from or to `start` goes beyond the block. -/
def Outside (data : DataBlock) (start size : Nat) : Prop := size ≠ 0 ∧ data.length < start + size

instance (data : DataBlock) (start size : Nat) : Decidable (Outside data start size) :=
  inferInstanceAs (Decidable (_ ∧ _))

/-- The result is the error, or the bytes that are copied. -/
def initrdRead (flags : BitVec 32) (offset size : Nat) (f : FileNode) :
    Option (Except Int (List (BitVec 8))) :=
  if flags &&& oWronly ≠ 0 then some (.error (-eacces))
  else if offset ≠ 0 ∧ f.blockSize = 0 then none
  else
    let pos := offset / f.blockSize
    let start := offset % f.blockSize
    match f.blocks[pos]? with
    | none => some (.ok [])
    | some data =>
        let size := if f.blockSize ≤ Word.add start size then f.blockSize - start else size
        if Outside data start size then none else some (.ok ((data.drop start).take size))

section Walk

variable {α : Type} (kmalloc : Nat → Option α)

/-- A pointer that is not set gets the answer to the call number `calls` of `kmalloc`. -/
def orKmalloc (slot : Option α) (calls : Nat) : Option α × Nat :=
  match slot with
  | some block => (some block, calls)
  | none => (kmalloc calls, calls + 1)

/-- The inner loop of `initrd_write`, with `togo` pointers to pass by. The results are the pointers, how
many more to pass by, the calls of `kmalloc`, and what has been found at which pointer. -/
def walkSlots : List (Option α) → Nat → Nat → List (Option α) × Nat × Nat × Option (Nat × α)
  | [], togo, calls => ([], togo, calls, none)
  | slot :: slots, togo, calls =>
      let (slot, calls) := orKmalloc kmalloc slot calls
      match togo, slot with
      | 0, some data => (some data :: slots, 0, calls, some (0, data))
      | togo, slot =>
          let (slots, togo, calls, found) := walkSlots slots (togo - 1) calls
          (slot :: slots, togo, calls, found.map fun (i, data) => (i + 1, data))

end Walk

section Write

-- If the call number `n` of `kmalloc` has an answer.
variable (answers : Nat → Bool)

/-- A new block, and a new block list behind the last one. -/
def newBlock (calls : Nat) : Option DataBlock := if answers calls then some DataBlock.zero else none

def orNewList (behind : List DataList) (calls : Nat) : List DataList × Nat :=
  match behind with
  | [] => (if answers calls then [DataList.zero] else [], calls + 1)
  | list :: behind => (list :: behind, calls)

/-- The outer loop. It ends without a block where `kmalloc` has not answered with another list. -/
def walkLists : Nat → List DataList → Nat → Nat → Option (List DataList × Nat × Option (Nat × DataBlock))
  | 0, _, _, _ => none
  | _ + 1, [], _, calls => some ([], calls, none)
  | fuel + 1, blist :: behind, togo, calls =>
      let (slots, togo, calls, found) := walkSlots (newBlock answers) blist togo calls
      let (behind, calls) := orNewList answers behind calls
      match found with
      | some found => some (slots :: behind, calls, some found)
      | none =>
          (walkLists fuel behind togo calls).map fun (behind, calls, found) =>
            (slots :: behind, calls, found.map fun (i, data) => (slots.length + i, data))

end Write

/-- The pointer number `i` now leads to this block. -/
def setSlot : List DataList → Nat → DataBlock → List DataList
  | [], _, _ => []
  | blist :: behind, i, block =>
      if i < blist.length then blist.set i (some block) :: behind
      else blist :: setSlot behind (i - blist.length) block

/-- How much a write of `size` bytes at this offset writes. -/
def writeSize (offset size : Nat) : Nat :=
  if maxDataentries ≤ Word.add size (offset % maxDataentries) then
    maxDataentries - offset % maxDataentries
  else size

/-- The results are the file, the number of bytes written, the offset behind them and the calls of
`kmalloc`. The test for `O_RDONLY`, which is zero, never holds. Where no block has been found, the bytes go
to the page at 0, unless there are none. -/
def initrdWrite (answers : Nat → Bool) (fuel calls : Nat) (flags : BitVec 32) (offset : Nat)
    (buffer : List (BitVec 8)) (f : FileNode) : Option (FileNode × Nat × Nat × Nat) :=
  let offset := if flags &&& oAppend ≠ 0 then f.blockSize else offset
  if 2 ^ 31 ≤ offset then none
  else
    let pos := offset / maxDataentries
    let start := offset % maxDataentries
    let size := writeSize offset buffer.length
    let top := Word.add offset size
    let blockSize := if f.blockSize < top then top else f.blockSize
    (walkLists answers fuel f.lists pos calls).bind fun (lists, calls, found) =>
      match found with
      | none => if size ≠ 0 then none else some (⟨blockSize, lists⟩, size, top, calls)
      | some (i, data) =>
          if Outside data start size then none
          else some (⟨blockSize, setSlot lists i (splice 0 data start (buffer.take size))⟩, size, top, calls)

/-- A write while `kmalloc` succeeds. The loops come to the block in the list number `pos` at the
latest. -/
def fullWrite (flags : BitVec 32) (offset : Nat) (buffer : List (BitVec 8)) (f : FileNode) :
    Option (FileNode × Nat × Nat) :=
  let pos := (if flags &&& oAppend ≠ 0 then f.blockSize else offset) / maxDataentries
  (initrdWrite (fun _ => true) (pos + 1) 0 flags offset buffer f).map fun (f, count, offset, _) =>
    (f, count, offset)

/-- Reading until nothing comes any more, with a buffer of size `sizes k` in the call number `k`. -/
def readFile (flags : BitVec 32) (sizes : Nat → Nat) (f : FileNode) :
    Nat → Nat → Nat → Option (List (BitVec 8))
  | 0, _, _ => none
  | fuel + 1, k, offset =>
      match f.initrdRead flags offset (sizes k) with
      | some (.ok []) => some []
      | some (.ok bytes) =>
          (readFile flags sizes f fuel (k + 1) (Word.add offset bytes.length)).map (bytes ++ ·)
      | _ => none

variable {f : FileNode} {flags : BitVec 32} {offset size fuel togo i k : Nat}
variable {lists : List DataList} {block first second : DataBlock}

/-- The block lists are arrays. -/
def Shaped (lists : List DataList) : Prop := lists ≠ [] ∧ ∀ list ∈ lists, list.length = maxDatablocks

theorem walkSlots_here {α : Type} {kmalloc : Nat → Option α} {slot : Option α} {slots : List (Option α)}
    {calls next : Nat} {data : α} (h : orKmalloc kmalloc slot calls = (some data, next)) :
    walkSlots kmalloc (slot :: slots) 0 calls = (some data :: slots, 0, next, some (0, data)) := by
  rw [walkSlots, h]
  rfl

/-- The loop goes on behind the pointers it passes by, and where there is no block. -/
theorem walkSlots_on {α : Type} {kmalloc : Nat → Option α} {slot slot' : Option α}
    {slots slots' : List (Option α)} {togo togo' calls calls' next : Nat} {found : Option (Nat × α)}
    (h : orKmalloc kmalloc slot calls = (slot', next)) (hOn : togo ≠ 0 ∨ slot' = none)
    (hWalk : walkSlots kmalloc slots (togo - 1) next = (slots', togo', calls', found)) :
    walkSlots kmalloc (slot :: slots) togo calls =
      (slot' :: slots', togo', calls', found.map fun (i, data) => (i + 1, data)) := by
  rw [walkSlots, h]
  dsimp only
  split
  next data => exact absurd hOn (by simp)
  next => rw [hWalk]

/-- While `kmalloc` succeeds, the inner loop leaves a block at every pointer up to the one that it looks
for. -/
theorem walkSlots_spec (slots : DataList) (togo calls : Nat) :
    ∃ slots' calls', slots'.length = slots.length ∧
      (∀ i, slots'.getD i none =
        if i ≤ togo ∧ i < slots.length then some ((slots.getD i none).getD DataBlock.zero)
        else slots.getD i none) ∧
      walkSlots (newBlock fun _ => true) slots togo calls = (slots', togo - slots.length, calls',
        if togo < slots.length then some (togo, (slots.getD togo none).getD DataBlock.zero) else none) := by
  induction slots generalizing togo calls with
  | nil => exact ⟨[], calls, rfl, by simp, rfl⟩
  | cons slot slots ih =>
      obtain ⟨next, hSlot⟩ : ∃ next, orKmalloc (newBlock fun _ => true) slot calls =
          (some (slot.getD DataBlock.zero), next) := by
        cases slot with
        | some block => exact ⟨calls, rfl⟩
        | none => exact ⟨calls + 1, rfl⟩
      cases togo with
      | zero =>
          refine ⟨some (slot.getD DataBlock.zero) :: slots, next, rfl, fun i => ?_, ?_⟩
          · cases i with
            | zero => simp
            | succ i => simp
          · rw [walkSlots_here hSlot, Nat.zero_sub, List.length_cons, if_pos (Nat.succ_pos _),
              List.getD_cons_zero]
      | succ togo =>
          obtain ⟨slots', calls', hLength, hSlots, hWalk⟩ := ih togo next
          refine ⟨some (slot.getD DataBlock.zero) :: slots', calls', by simp [hLength], fun i => ?_, ?_⟩
          · cases i with
            | zero => simp
            | succ i => simpa using hSlots i
          · rw [walkSlots_on hSlot (Or.inl (Nat.succ_ne_zero togo)) hWalk, List.length_cons,
              Nat.add_sub_add_right]
            simp only [Nat.add_lt_add_iff_right, List.getD_cons_succ]
            split <;> rfl

theorem slotAt_cons (list : DataList) (behind : List DataList) (i : Nat) :
    slotAt (list :: behind) i =
      if i < list.length then list.getD i none else slotAt behind (i - list.length) := by
  rw [slotAt, List.flatten_cons]
  split
  next h => exact List.getD_append _ _ _ _ h
  next h => exact List.getD_append_right _ _ _ _ (Nat.le_of_not_lt h)

theorem slotAt_zero (i : Nat) : slotAt [DataList.zero] i = none := by
  rw [slotAt_cons]
  split
  · rw [DataList.zero, List.getD_replicate]
    assumption
  · rfl

/-- Hanging on an empty block list. -/
theorem slotAt_grown (behind : List DataList) (i : Nat) :
    slotAt (if behind = [] then [DataList.zero] else behind) i = slotAt behind i := by
  split
  next h =>
    rw [slotAt_zero, h]
    rfl
  next => rfl

theorem shaped_grown {behind : List DataList} (h : ∀ list ∈ behind, list.length = maxDatablocks) :
    Shaped (if behind = [] then [DataList.zero] else behind) := by
  split
  next =>
    refine ⟨List.cons_ne_nil _ _, ?_⟩
    intro list hList
    rw [List.mem_singleton.mp hList]
    rfl
  next hNil => exact ⟨hNil, h⟩

/-- While `kmalloc` succeeds, the loops leave a block at every pointer up to the number `togo`, and come to
that one. -/
theorem walkLists_spec (h : Shaped lists) (hFuel : togo / maxDatablocks < fuel) (calls : Nat) :
    ∃ lists' calls', Shaped lists' ∧
      (∀ i, slotAt lists' i =
        if i ≤ togo then some ((slotAt lists i).getD DataBlock.zero) else slotAt lists i) ∧
      walkLists (fun _ => true) fuel lists togo calls =
        some (lists', calls', some (togo, (slotAt lists togo).getD DataBlock.zero)) := by
  induction fuel generalizing lists togo calls with
  | zero => exact absurd hFuel (Nat.not_lt_zero _)
  | succ fuel ih =>
      obtain ⟨hNil, hLengths⟩ := h
      obtain ⟨list, behind, rfl⟩ := List.exists_cons_of_ne_nil hNil
      obtain ⟨slots, next, hLength, hSlots, hWalk⟩ := walkSlots_spec list togo calls
      have hList : list.length = 12 := hLengths list List.mem_cons_self
      have hGrown := shaped_grown fun x hx => hLengths x (List.mem_cons_of_mem _ hx)
      obtain ⟨next', hNew⟩ : ∃ next', orNewList (fun _ => true) behind next =
          (if behind = [] then [DataList.zero] else behind, next') := by
        cases behind with
        | nil => exact ⟨next + 1, rfl⟩
        | cons list behind => exact ⟨next, rfl⟩
      rw [walkLists, hWalk]
      dsimp only
      rw [hNew]
      rw [hList] at hLength hSlots ⊢
      by_cases hHere : togo < 12
      · rw [if_pos hHere]
        refine ⟨slots :: if behind = [] then [DataList.zero] else behind, next',
          ⟨List.cons_ne_nil _ _, List.forall_mem_cons.mpr ⟨hLength, hGrown.2⟩⟩, fun i => ?_, ?_⟩
        · rw [slotAt_cons, slotAt_cons, hLength, hList, slotAt_grown, hSlots]
          grind
        · rw [slotAt_cons, hList, if_pos hHere]
      · rw [if_neg hHere]
        have hFuel' : (togo - 12) / maxDatablocks < fuel := by
          rw [show maxDatablocks = 12 from rfl] at hFuel ⊢
          omega
        obtain ⟨lists', calls', hShaped, hRest, hOn⟩ := ih hGrown hFuel' next'
        dsimp only
        rw [hOn]
        refine ⟨slots :: lists', calls', ⟨List.cons_ne_nil _ _, List.forall_mem_cons.mpr ⟨hLength, hShaped.2⟩⟩,
          fun i => ?_, ?_⟩
        · rw [slotAt_cons, slotAt_cons, hLength, hList, hSlots, hRest, slotAt_grown]
          grind
        · rw [slotAt_cons, hList, if_neg hHere, slotAt_grown, Option.map_some, Option.map_some, hLength,
            Nat.add_sub_cancel' (Nat.le_of_not_lt hHere)]

theorem setSlot_spec (h : slotAt lists k = some first) :
    (setSlot lists k block).map List.length = lists.map List.length ∧
      ∀ i, slotAt (setSlot lists k block) i = if i = k then some block else slotAt lists i := by
  induction lists generalizing k with
  | nil => cases h
  | cons list behind ih =>
      rw [slotAt_cons] at h
      rw [setSlot]
      by_cases hHere : k < list.length
      · rw [if_pos hHere]
        refine ⟨by simp, ?_⟩
        intro i
        rw [slotAt_cons, slotAt_cons, List.length_set]
        grind
      · rw [if_neg hHere] at h ⊢
        obtain ⟨hLengths, hSlots⟩ := ih h
        refine ⟨by simp [hLengths], ?_⟩
        intro i
        rw [slotAt_cons, slotAt_cons, hSlots]
        grind

theorem Shaped.setSlot (h : Shaped lists) (hSlot : slotAt lists k = some first) :
    Shaped (setSlot lists k block) := by
  obtain ⟨hLengths, _⟩ := setSlot_spec hSlot
  refine ⟨?_, ?_⟩
  · intro hNil
    rw [hNil] at hLengths
    exact h.1 (List.map_eq_nil_iff.mp hLengths.symm)
  · intro list hList
    obtain ⟨list', hList', hSame⟩ := List.mem_map.mp (hLengths ▸ List.mem_map_of_mem hList)
    exact hSame ▸ h.2 list' hList'

/-- The blocks of a file that has one, at the first pointer. -/
theorem blocks_single (hFirst : slotAt f.lists 0 = some first) (hRest : ∀ i, 0 < i → slotAt f.lists i = none) :
    f.blocks = [first] := by
  rw [blocks]
  rw [slotAt] at hFirst
  cases hSlots : f.lists.flatten with
  | nil =>
      rw [hSlots] at hFirst
      cases hFirst
  | cons slot slots =>
      rw [hSlots] at hFirst
      have hNone : slots.reduceOption = [] := by
        rw [List.reduceOption, List.filterMap_eq_nil_iff]
        intro slot' hSlot
        obtain ⟨i, hi, rfl⟩ := List.getElem_of_mem hSlot
        have hAt := hRest (i + 1) (Nat.succ_pos i)
        rw [slotAt, hSlots, List.getD_cons_succ, List.getD_eq_getElem _ _ hi] at hAt
        exact hAt
      obtain rfl : slot = some first := hFirst
      rw [List.reduceOption_cons_of_some, hNone]

theorem blocks_none (h : ∀ i, slotAt f.lists i = none) : f.blocks = [] := by
  rw [blocks, List.reduceOption, List.filterMap_eq_nil_iff]
  intro slot hSlot
  obtain ⟨i, hi, rfl⟩ := List.getElem_of_mem hSlot
  have hAt := h i
  rw [slotAt, List.getD_eq_getElem _ _ hi] at hAt
  exact hAt

theorem blocks_first (hFirst : slotAt f.lists 0 = some first) : f.blocks[0]? = some first := by
  rw [blocks]
  rw [slotAt] at hFirst
  cases hSlots : f.lists.flatten with
  | nil =>
      rw [hSlots] at hFirst
      cases hFirst
  | cons slot slots =>
      rw [hSlots] at hFirst
      obtain rfl : slot = some first := hFirst
      rw [List.reduceOption_cons_of_some]
      rfl

theorem blocks_second (hFirst : slotAt f.lists 0 = some first) (hSecond : slotAt f.lists 1 = some second) :
    f.blocks[1]? = some second := by
  rw [blocks]
  rw [slotAt] at hFirst hSecond
  cases hSlots : f.lists.flatten with
  | nil =>
      rw [hSlots] at hFirst
      cases hFirst
  | cons slot slots =>
      rw [hSlots] at hFirst hSecond
      obtain rfl : slot = some first := hFirst
      cases slots with
      | nil => cases hSecond
      | cons slot' slots =>
          obtain rfl : slot' = some second := hSecond
          rw [List.reduceOption_cons_of_some, List.reduceOption_cons_of_some]
          rfl

section Read

variable {sizes : Nat → Nat} (hFlags : flags &&& oWronly = 0)
include hFlags

/-- A read of a file with a block. -/
theorem initrdRead_eq {data : DataBlock} (hBlock : f.blocks[offset / f.blockSize]? = some data)
    (hDivides : offset = 0 ∨ f.blockSize ≠ 0) :
    f.initrdRead flags offset size =
      let count := if f.blockSize ≤ Word.add (offset % f.blockSize) size then
        f.blockSize - offset % f.blockSize else size
      if Outside data (offset % f.blockSize) count then none
      else some (.ok ((data.drop (offset % f.blockSize)).take count)) := by
  rw [initrdRead, if_neg (not_not.mpr hFlags), if_neg (by omega)]
  dsimp only
  rw [hBlock]

theorem initrdRead_end (hBlock : f.blocks[offset / f.blockSize]? = none)
    (hDivides : offset = 0 ∨ f.blockSize ≠ 0) : f.initrdRead flags offset size = some (.ok []) := by
  rw [initrdRead, if_neg (not_not.mpr hFlags), if_neg (by omega)]
  dsimp only
  rw [hBlock]

end Read

end FileNode
end ArtOS

import ArtOS.Memory.Palloc
import ArtOS.Tasks.Creation

/-! `load_task`: an executable from the initial ramdisk is mapped into the current page map, and the
arguments are pushed on its stack. What the rest of the kernel does is a parameter, so that one
loader runs on different descriptions of the memory. -/
namespace ArtOS

/-- Each string takes at least its final zero. -/
theorem length_le_flatMap (strings : List (List (BitVec 8))) :
    strings.length ≤ (strings.flatMap fun x => x ++ [0]).length := by
  induction strings with
  | nil => exact le_rfl
  | cons x strings ih =>
      rw [List.flatMap_cons, List.length_append, List.length_append, List.length_cons]
      exact Nat.le_trans (Nat.succ_le_succ ih) (by simp only [List.length_cons]; omega)

/-- What `create_user_task` leaves for `load_task`. -/
theorem TaskRun.createUserTask_packed {kernelEnd offset : Nat} {s s' : TaskRun}
    {node : Option (Nat × NodeType)} {argv : Option (List (List (BitVec 8)))} {heap : HeapAnswer}
    {ret : Int} (h : s.createUserTask kernelEnd offset node argv heap = some (s', ret)) (addr : Nat) :
    s'.loadArgs addr = s.loadArgs addr ∨ (s'.loadArgs addr).Packed := by
  unfold createUserTask at h
  split at h
  next file =>
    dsimp only at h
    by_cases hNone : ((argv.getD []).map cString).length = 0
    · rw [if_pos hNone] at h
      cases h
      exact Or.inl rfl
    · rw [if_neg hNone] at h
      split at h
      · cases h
        exact Or.inl rfl
      · obtain ⟨s₁, hBlock, h⟩ := Option.bind_eq_some_iff.1 h
        obtain ⟨pages, _, rfl⟩ := Option.map_eq_some_iff.1 hBlock
        split at h
        · cases h
          exact Or.inl rfl
        next block hBlock =>
          split at h
          · cases h
          next hFits =>
            obtain ⟨⟨pages', ret'⟩, _, hEnd⟩ := Option.map_eq_some_iff.1 h
            cases hEnd
            by_cases hAddr : addr = block
            · rw [hAddr]
              dsimp only
              rw [Function.update_self]
              refine Or.inr ⟨rfl, le_trans ?_ (Nat.le_of_not_lt hFits)⟩
              exact length_le_flatMap _
            · exact Or.inl (Function.update_of_ne hAddr ..)
  · cases h
    exact Or.inl rfl

/-- A file that was mounted from the initial ramdisk: one data block as long as the file. `byte` goes
on with what lies behind it in memory, and does not change. -/
structure InitrdFile where
  length : Nat
  byte : Nat → BitVec 8

/-- The bytes that `initrd_read` copies. Behind the first block there is nothing; the division by the
length of an empty file is left out. -/
def InitrdFile.read (f : InitrdFile) (offset size : Nat) : List (BitVec 8) :=
  if f.length ≤ offset then []
  else
    let size := if f.length ≤ Word.add offset size then f.length - offset else size
    (List.range size).map fun i => f.byte (offset + i)

abbrev elfMagic : Nat := 0x464C457F
abbrev elfEtExec : Nat := 2
abbrev elfEm386 : Nat := 3
abbrev elfClass32 : Nat := 1
abbrev elfData2Lsb : Nat := 1
abbrev elfPtLoad : Nat := 1
abbrev elfPtGnuStack : Nat := 0x6474e551
abbrev defaultStackSize : Nat := 16 * 1024

/-- `sizeof(elf_header_t)` and `sizeof(elf_program_header_t)`. -/
abbrev sizeofElfHeader : Nat := 52
abbrev sizeofProgramHeader : Nat := 32

/-- A field of `n` bytes, the lowest byte first. -/
def field (bytes : List (BitVec 8)) (offset n : Nat) : Nat :=
  ((bytes.drop offset).take n).foldr (fun byte rest => byte.toNat + 256 * rest) 0

/-- The fields of `elf_header_t` that `load_task` looks at. -/
structure ElfHeader where
  magic : Nat
  identClass : Nat
  data : Nat
  type : Nat
  machine : Nat
  entry : Nat
  phOffset : Nat
  phEntrySize : Nat
  phEntryCount : Nat

def ElfHeader.ofBytes (bytes : List (BitVec 8)) : ElfHeader where
  magic := field bytes 0 4
  identClass := field bytes 4 1
  data := field bytes 5 1
  type := field bytes 16 2
  machine := field bytes 18 2
  entry := field bytes 24 4
  phOffset := field bytes 28 4
  phEntrySize := field bytes 42 2
  phEntryCount := field bytes 44 2

/-- The fields of `elf_program_header_t` that `load_task` looks at. -/
structure ProgramHeader where
  type : Nat
  offset : Nat
  virtAddr : Nat
  fileSize : Nat
  memSize : Nat
  flags : Nat

def ProgramHeader.ofBytes (bytes : List (BitVec 8)) : ProgramHeader where
  type := field bytes 0 4
  offset := field bytes 4 4
  virtAddr := field bytes 8 4
  fileSize := field bytes 16 4
  memSize := field bytes 20 4
  flags := field bytes 24 4

/-- A read that comes to less than the size of the variable leaves the rest as it was. -/
def overlay (bytes var : List (BitVec 8)) : List (BitVec 8) := bytes ++ var.drop bytes.length

/-- The checks of `load_task`. -/
def ElfHeader.Valid (h : ElfHeader) : Prop :=
  h.magic = elfMagic ∧ h.type = elfEtExec ∧ h.machine = elfEm386 ∧ h.identClass = elfClass32 ∧
    h.data = elfData2Lsb ∧ kernelSpace < h.entry

instance : DecidablePred ElfHeader.Valid := fun _ => inferInstanceAs (Decidable (_ ∧ _))

/-- The pages of a segment of this size. -/
def pageCount (size : Nat) : Nat := size / pageSize + if size % pageSize ≠ 0 then 1 else 0

/-- `PF_R`, `PF_W` and `PF_X` as flags of an area. -/
def ProgramHeader.vmaFlags (h : ProgramHeader) : BitVec 32 :=
  vmaCacheable ||| (if h.flags.testBit 2 then vmaRead else 0) |||
    (if h.flags.testBit 1 then vmaWrite else 0) ||| if h.flags.testBit 0 then vmaExecute else 0

/-- What `load_task` calls, and its accesses to the memory of the task. `heapArea` makes sure that
`task->heap` points to an area, and says if it does. -/
structure Loader (State : Type) where
  getPages : Nat → State → State × Nat
  pageMap : Nat → Nat → Nat → BitVec 12 → State → State × Int
  write : Nat → List (BitVec 8) → State → State
  vmaAdd : Nat → Nat → BitVec 32 → State → State × Int
  heapArea : State → State × Bool
  setHeap : Nat → State → State

namespace Loader

variable {State : Type} (m : Loader State)

/-- The case `ELF_PT_LOAD`. The result is the end of the heap so far. -/
def loadSegment (f : InitrdFile) (h : ProgramHeader) (heap : Nat) (s : State) : State × Nat :=
  let npages := pageCount h.memSize
  let (s, addr) := m.getPages npages s
  let (s, _) := m.pageMap h.virtAddr addr npages (pgUser ||| pgRw) s
  let s := m.write h.virtAddr (List.replicate (npages * pageSize % 2 ^ 32) 0) s
  let top := Word.add h.virtAddr h.memSize
  let heap := if heap < top then top else heap
  let s := m.write h.virtAddr (f.read h.offset h.fileSize) s
  -- `page_set_flags` refuses in any case
  let (s, _) := m.vmaAdd h.virtAddr
    (Word.sub (Word.add h.virtAddr (npages * pageSize % 2 ^ 32)) 1) h.vmaFlags s
  (s, heap)

/-- The case `ELF_PT_GNU_STACK`. Without a result the stack could not be mapped. -/
def loadStack (entry : Nat) (h : ProgramHeader) (s : State) : State × Option Nat :=
  let npages := pageCount defaultStackSize
  let (s, addr) := m.getPages npages s
  let stack := entry * 2 % 2 ^ 32
  let (s, err) := m.pageMap stack addr npages (pgUser ||| pgRw) s
  if err ≠ 0 then (s, none)
  else
    let s := m.write stack (List.replicate (npages * pageSize) 0) s
    let (s, _) := m.vmaAdd stack (Word.sub (Word.add stack (npages * pageSize)) 1) h.vmaFlags s
    (s, some stack)

/-- The loop over the program headers; `var` is the variable that they are read into. The result is
the end of the heap and the stack. -/
def loadHeaders (f : InitrdFile) (header : ElfHeader) :
    Nat → Nat → List (BitVec 8) → Nat → Nat → State → State × Option (Nat × Nat)
  | 0, _, _, heap, stack, s => (s, some (heap, stack))
  | left + 1, i, var, heap, stack, s =>
      let bytes := f.read (Word.add header.phOffset (i * header.phEntrySize % 2 ^ 32))
        sizeofProgramHeader
      if bytes = [] then loadHeaders f header left (i + 1) var heap stack s
      else
        let var := overlay bytes var
        let h := ProgramHeader.ofBytes var
        if h.type = elfPtLoad then
          if h.virtAddr = 0 then loadHeaders f header left (i + 1) var heap stack s
          else
            let (s, heap) := m.loadSegment f h heap s
            loadHeaders f header left (i + 1) var heap stack s
        else if h.type = elfPtGnuStack then
          match m.loadStack header.entry h s with
          | (s, none) => (s, none)
          | (s, some stack) => loadHeaders f header left (i + 1) var heap stack s
        else loadHeaders f header left (i + 1) var heap stack s

/-- The bytes of a word. -/
def word (n : Nat) : List (BitVec 8) :=
  (List.range 4).map fun i => BitVec.ofNat 8 (n / 256 ^ i)

/-- All of `largs->buffer`; `behind` is what the block held before it was written. -/
def bufferOf (args : LoadArgs) (behind : Nat → BitVec 8) : List (BitVec 8) :=
  (List.range maxArgs).map fun i => args.buffer.getD i (behind i)

/-- Where the string behind this one starts in the buffer, and the zeros behind it. -/
def nextString (buffer : List (BitVec 8)) (idx : Nat) : Nat :=
  idx + ((buffer.drop idx).takeWhile (· ≠ 0)).length + 1

/-- The loop that stores the pointers to `left` strings. The result is the index of the next one. -/
def pushPointers (buffer : List (BitVec 8)) (base : Nat) : Nat → Nat → Nat → State → State × Nat
  | 0, _, idx, s => (s, idx)
  | left + 1, addr, idx, s =>
      pushPointers buffer base left (Word.add addr 4) (nextString buffer idx)
        (m.write addr (word (Word.add base idx)) s)

/-- The arguments on the stack. The result is the stack pointer for user space. -/
def pushArgs (args : LoadArgs) (behind : Nat → BitVec 8) (stack : Nat) (s : State) : State × Nat :=
  let buffer := bufferOf args behind
  let offset := defaultStackSize - 8
  let s := m.write (Word.add stack offset) (List.replicate 4 0) s
  let offset := offset - maxArgs
  let s := m.write (Word.add stack offset) buffer s
  let strings := Word.add stack offset
  let offset := Word.sub offset (args.argc * 4)
  let (s, idx) := m.pushPointers buffer strings args.argc (Word.add stack offset) 0 s
  let offset := Word.sub offset ((args.envc + 1) * 4)
  let (s, _) := m.pushPointers buffer strings args.envc (Word.add stack offset) idx s
  let s := m.write (Word.add stack (Word.add offset (args.envc * 4))) (word 0) s
  let offset := Word.sub offset 4
  let envp := if args.envc = 0 then 0 else Word.add stack (Word.add offset 4)
  let s := m.write (Word.add stack offset) (word envp) s
  let offset := Word.sub offset 4
  let argv := Word.add stack (Word.add offset (8 + (args.envc + 1) * 4))
  let s := m.write (Word.add stack offset) (word argv) s
  let offset := Word.sub offset 4
  (m.write (Word.add stack offset) (word args.argc) s, Word.add stack offset)

/-- `load_task` up to the jump to user space. `header` and `var` are what the variables for the two
kinds of headers held before. -/
def loadTask (f : InitrdFile) (args : LoadArgs) (behind : Nat → BitVec 8)
    (header var : List (BitVec 8)) (s : State) : State × Int :=
  let header := ElfHeader.ofBytes (overlay (f.read 0 sizeofElfHeader) header)
  if ¬ header.Valid then (s, -einval)
  else
    match m.loadHeaders f header header.phEntryCount 0 var 0 0 s with
    | (s, none) => (s, -enomem)
    | (s, some (heap, stack)) =>
        let (s, found) := m.heapArea s
        if ¬ found ∨ heap = 0 then (s, -enomem)
        else
          let s := m.setHeap (pageFloor heap) s
          if stack = 0 then (s, -enomem) else ((m.pushArgs args behind stack s).1, 0)

end Loader
end ArtOS

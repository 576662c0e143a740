import ArtOS.Config
import ArtOS.Memory.Types
import ArtOS.Devices.Terminal

/-! The system calls. A call gets what the registers of the user task held; the kernel takes a pointer
from there as it is. -/
namespace ArtOS

abbrev nrExit : BitVec 32 := 0
abbrev nrWrite : BitVec 32 := 1
abbrev nrOpen : BitVec 32 := 2
abbrev nrClose : BitVec 32 := 3
abbrev nrRead : BitVec 32 := 4
abbrev nrSbrk : BitVec 32 := 11

/-- The first loop of `print_dec`, with `n_width` and `i`; it comes to `UINT32_MAX` at last. -/
def decWidth (value : BitVec 32) : Nat → Nat → BitVec 32 → Nat
  | 0, width, _ => width
  | fuel + 1, width, i =>
      if i < value ∧ i < BitVec.allOnes 32 then decWidth value fuel (width + 1) (i * 10 + 9) else width

/-- `print_dec` with no width of its own. -/
def printDec (value : BitVec 32) : List (BitVec 8) :=
  (List.range (decWidth value 32 1 9)).reverse.map fun k =>
    BitVec.ofNat 8 (value.toNat / 10 ^ k % 10 + 0x30)

/-- The variables that a system call looks at: all the memory as the kernel sees it, and what the
kernel keeps for itself. `accessed` has the addresses at which the memory was read or written for the
task. -/
structure SyscallState (Input : Type) where
  mem : BitVec 32 → BitVec 8
  accessed : List (BitVec 32)
  terminal : Terminal
  input : Input
  bufferNum : Int
  heap : Option (BitVec 32 × BitVec 32)
  finished : Option (BitVec 32)

/-- What `getChar` gets from the keyboard, and what it does to the terminal. -/
abbrev GetChar (Input : Type) : Type := Input → Terminal → BitVec 8 × Input × Terminal

namespace SyscallState

variable {Input : Type} (getChar : GetChar Input)

def print (message : List (BitVec 8)) (s : SyscallState Input) : SyscallState Input :=
  { s with terminal := s.terminal.print message }

/-- A byte of the task. -/
def load (addr : BitVec 32) (s : SyscallState Input) : SyscallState Input × BitVec 8 :=
  ({ s with accessed := addr :: s.accessed }, s.mem addr)

def store (addr : BitVec 32) (value : BitVec 8) (s : SyscallState Input) : SyscallState Input :=
  { s with
    mem := Function.update s.mem addr value
    accessed := addr :: s.accessed }

def sysExit (arg : BitVec 32) (s : SyscallState Input) : SyscallState Input :=
  { s with finished := some arg }

/-- One round of the loop of `sys_write`. -/
def writeChar (buf : BitVec 32) (i : Nat) (s : SyscallState Input) : SyscallState Input :=
  let (s, c) := s.load (buf + BitVec.ofNat 32 i)
  { s with terminal := s.terminal.monPut c }

def sysWrite (buf len : BitVec 32) (s : SyscallState Input) : SyscallState Input × BitVec 32 :=
  if buf = 0 then (s, BitVec.ofInt 32 (-einval))
  else ((List.range len.toNat).foldl (fun s i => s.writeChar buf i) s, len)

def addToBuffer (buffer : BitVec 32) (size : Int) (character : BitVec 8) (s : SyscallState Input) :
    SyscallState Input × Int :=
  if s.bufferNum < size then
    let s := s.store (buffer + BitVec.ofInt 32 s.bufferNum) character
    let s := { s with bufferNum := s.bufferNum + 1 }
    (s.store (buffer + BitVec.ofInt 32 (size - 1)) 0, 1)
  else (s, 0)

/-- One round of the loop of `sys_read`. -/
def readChar (buf : BitVec 32) (s : SyscallState Input) : SyscallState Input :=
  let (c, input, terminal) := getChar s.input s.terminal
  ({ s with input := input, terminal := terminal }.addToBuffer buf 5 c).1

def sysRead (fd buf len : BitVec 32) (s : SyscallState Input) : SyscallState Input × BitVec 32 :=
  if fd = 0 then (s.print (ascii "error\n"), 1)
  else ((List.range len.toNat).foldl (fun s _ => s.readChar getChar buf) s, 1 + len)

def sysSbrk (incr : BitVec 32) (s : SyscallState Input) : SyscallState Input × BitVec 32 :=
  match s.heap with
  | none => ((s.print (ascii "sys_sbrk: missing heap!\n")).sysExit (BitVec.ofInt 32 (-1)), 0)
  | some (start, endAddr) =>
      let newEnd := endAddr + incr
      ({ s with heap := some (start, if newEnd < start then start else newEnd) }, endAddr)

/-- `syscall_handler`, with the registers behind the number of the call. -/
def syscallHandler (sysNr ebx ecx edx : BitVec 32) (s : SyscallState Input) :
    SyscallState Input × BitVec 32 :=
  let s := { s with accessed := [] }
  if sysNr = nrExit then (s.sysExit ebx, 0)
  else if sysNr = nrWrite then s.sysWrite ecx edx
  else if sysNr = nrRead then s.sysRead getChar ebx ecx edx
  else if sysNr = nrOpen ∨ sysNr = nrClose then (s, 0)
  else if sysNr = nrSbrk then s.sysSbrk ebx
  else (s.print (ascii "invalid system call: " ++ printDec sysNr ++ [charNewline]),
    BitVec.ofInt 32 (-enosys))

end SyscallState

/-- The addresses of user space. -/
def UserAddress (addr : BitVec 32) : Prop := kernelSpace ≤ addr.toNat ∧ addr.toNat < vmaUserMax

namespace SyscallState

variable {Input : Type}

/-- Two states that differ in the memory of the kernel only, but for what the kernel itself looks at. -/
structure SameUser (s s' : SyscallState Input) : Prop where
  mem : ∀ addr, UserAddress addr → s.mem addr = s'.mem addr
  accessed : s.accessed = s'.accessed
  terminal : s.terminal = s'.terminal
  input : s.input = s'.input
  bufferNum : s.bufferNum = s'.bufferNum
  heap : s.heap = s'.heap
  finished : s.finished = s'.finished

/-- The call stays in user space, and what lies outside does not show. -/
def Contained (call : SyscallState Input → SyscallState Input) (s : SyscallState Input) : Prop :=
  (∀ addr ∈ (call s).accessed, UserAddress addr) ∧ ∀ s', SameUser s s' → SameUser (call s) (call s')

/-- The addresses that a call names: the bytes of a `write`, unless the pointer is `NULL`, and those
bytes of a `read` that `addToBuffer` writes. -/
def Names (sysNr ebx ecx edx : BitVec 32) (bufferNum : Int) (addr : BitVec 32) : Prop :=
  (sysNr = nrWrite ∧ ecx ≠ 0 ∧ ∃ i < edx.toNat, addr = ecx + BitVec.ofNat 32 i) ∨
    (sysNr = nrRead ∧ ebx ≠ 0 ∧ ∃ i < edx.toNat, bufferNum + i < 5 ∧
      (addr = ecx + BitVec.ofInt 32 (bufferNum + i) ∨ addr = ecx + BitVec.ofInt 32 4))

variable {getChar : GetChar Input} {s s' : SyscallState Input} {addr buf : BitVec 32} {n : Nat}

theorem SameUser.print (h : SameUser s s') (message : List (BitVec 8)) :
    SameUser (s.print message) (s'.print message) :=
  { h with terminal := congrArg (Terminal.print message) h.terminal }

theorem SameUser.sysExit (h : SameUser s s') (arg : BitVec 32) :
    SameUser (s.sysExit arg) (s'.sysExit arg) :=
  { h with finished := rfl }

theorem SameUser.store (h : SameUser s s') (value : BitVec 8) :
    SameUser (s.store addr value) (s'.store addr value) where
  mem := by
    intro other hOther
    show Function.update s.mem addr value other = Function.update s'.mem addr value other
    rw [Function.update_apply, Function.update_apply, h.mem other hOther]
  accessed := congrArg (addr :: ·) h.accessed
  terminal := h.terminal
  input := h.input
  bufferNum := h.bufferNum
  heap := h.heap
  finished := h.finished

/-- A byte of user space is the same in both. -/
theorem SameUser.writeChar (h : SameUser s s') {i : Nat} (hUser : UserAddress (buf + BitVec.ofNat 32 i)) :
    SameUser (s.writeChar buf i) (s'.writeChar buf i) where
  mem := h.mem
  accessed := congrArg (_ :: ·) h.accessed
  terminal := congrArg₂ (fun c (t : Terminal) => t.monPut c) (h.mem _ hUser) h.terminal
  input := h.input
  bufferNum := h.bufferNum
  heap := h.heap
  finished := h.finished

theorem SameUser.count (h : SameUser s s') :
    SameUser { s with bufferNum := s.bufferNum + 1 } { s' with bufferNum := s'.bufferNum + 1 } :=
  { h with bufferNum := congrArg (· + 1) h.bufferNum }

theorem SameUser.addToBuffer (h : SameUser s s') (size : Int) (c : BitVec 8) :
    SameUser (s.addToBuffer buf size c).1 (s'.addToBuffer buf size c).1 := by
  rw [SyscallState.addToBuffer, SyscallState.addToBuffer, ← h.bufferNum]
  by_cases hRoom : s.bufferNum < size
  · rw [if_pos hRoom, if_pos hRoom]
    exact (h.store c).count.store 0
  · rw [if_neg hRoom, if_neg hRoom]
    exact h

theorem SameUser.readChar (h : SameUser s s') :
    SameUser (s.readChar getChar buf) (s'.readChar getChar buf) := by
  rw [SyscallState.readChar, SyscallState.readChar, ← h.input, ← h.terminal]
  have hKeys : SameUser
      { s with input := (getChar s.input s.terminal).2.1, terminal := (getChar s.input s.terminal).2.2 }
      { s' with input := (getChar s.input s.terminal).2.1, terminal := (getChar s.input s.terminal).2.2 } :=
    { h with input := rfl, terminal := rfl }
  exact hKeys.addToBuffer 5 _

theorem SameUser.sysSbrk (h : SameUser s s') (incr : BitVec 32) :
    SameUser (s.sysSbrk incr).1 (s'.sysSbrk incr).1 := by
  rw [SyscallState.sysSbrk, SyscallState.sysSbrk, ← h.heap]
  cases s.heap with
  | none => exact (h.print _).sysExit _
  | some heap => exact { h with heap := rfl }

/-- The loop of `sys_read` after `n` rounds. -/
def readLoop (getChar : GetChar Input) (buf : BitVec 32) (n : Nat) (s : SyscallState Input) :
    SyscallState Input :=
  (List.range n).foldl (fun s _ => s.readChar getChar buf) s

theorem readLoop_succ : s.readLoop getChar buf (n + 1) = (s.readLoop getChar buf n).readChar getChar buf := by
  rw [readLoop, List.range_succ, List.foldl_concat]
  rfl

theorem bufferNum_readChar : (s.readChar getChar buf).bufferNum =
    if s.bufferNum < 5 then s.bufferNum + 1 else s.bufferNum := by
  simp only [readChar, addToBuffer]
  split <;> rfl

theorem bufferNum_readLoop : (s.readLoop getChar buf n).bufferNum =
    if s.bufferNum + n ≤ 5 then s.bufferNum + n else max s.bufferNum 5 := by
  induction n with
  | zero =>
      show s.bufferNum = _
      omega
  | succ n ih =>
      rw [readLoop_succ, bufferNum_readChar, ih]
      split_ifs <;> omega

theorem accessed_readChar : addr ∈ (s.readChar getChar buf).accessed ↔
    (s.bufferNum < 5 ∧ (addr = buf + BitVec.ofInt 32 s.bufferNum ∨ addr = buf + BitVec.ofInt 32 4)) ∨
      addr ∈ s.accessed := by
  simp only [readChar, addToBuffer]
  by_cases hRoom : s.bufferNum < 5
  · rw [if_pos hRoom]
    simp only [store, List.mem_cons, hRoom, true_and]
    tauto
  · rw [if_neg hRoom]
    simp [hRoom]

/-- The addresses that the loop of `sys_read` writes. -/
theorem accessed_readLoop : addr ∈ (s.readLoop getChar buf n).accessed ↔
    (∃ i < n, s.bufferNum + i < 5 ∧
      (addr = buf + BitVec.ofInt 32 (s.bufferNum + i) ∨ addr = buf + BitVec.ofInt 32 4)) ∨
      addr ∈ s.accessed := by
  induction n with
  | zero => simp [readLoop]
  | succ n ih =>
      have hRoom : (s.readLoop getChar buf n).bufferNum < 5 ↔ s.bufferNum + n < 5 := by
        rw [bufferNum_readLoop]
        split <;> omega
      rw [readLoop_succ, accessed_readChar, ih, hRoom, Nat.exists_lt_succ_right]
      constructor
      · rintro (⟨hLess, hAddr⟩ | hOld | hOld)
        · rw [bufferNum_readLoop, if_pos hLess.le] at hAddr
          exact Or.inl (Or.inr ⟨hLess, hAddr⟩)
        · exact Or.inl (Or.inl hOld)
        · exact Or.inr hOld
      · rintro ((hOld | ⟨hLess, hAddr⟩) | hOld)
        · exact Or.inr (Or.inl hOld)
        · refine Or.inl ⟨hLess, ?_⟩
          rw [bufferNum_readLoop, if_pos hLess.le]
          exact hAddr
        · exact Or.inr (Or.inr hOld)

theorem SameUser.readLoop (h : SameUser s s') :
    SameUser (s.readLoop getChar buf n) (s'.readLoop getChar buf n) :=
  List.foldl_rel h fun _ _ _ _ h => h.readChar

/-- The addresses that the loop of `sys_write` reads. -/
theorem accessed_writeLoop :
    addr ∈ ((List.range n).foldl (fun s i => s.writeChar buf i) s).accessed ↔
      (∃ i < n, addr = buf + BitVec.ofNat 32 i) ∨ addr ∈ s.accessed := by
  induction n with
  | zero => simp
  | succ n ih =>
      rw [List.range_succ, List.foldl_concat, Nat.exists_lt_succ_right, or_right_comm, ← ih, or_comm]
      exact List.mem_cons

theorem SameUser.writeLoop (h : SameUser s s')
    (hUser : ∀ i < n, UserAddress (buf + BitVec.ofNat 32 i)) :
    SameUser ((List.range n).foldl (fun s i => s.writeChar buf i) s)
      ((List.range n).foldl (fun s i => s.writeChar buf i) s') :=
  List.foldl_rel h fun i hi _ _ h => h.writeChar (hUser i (List.mem_range.mp hi))

theorem accessed_print (message : List (BitVec 8)) : (s.print message).accessed = s.accessed := rfl

theorem accessed_sysExit (arg : BitVec 32) : (s.sysExit arg).accessed = s.accessed := rfl

theorem accessed_sysSbrk (incr : BitVec 32) : (s.sysSbrk incr).1.accessed = s.accessed := by
  unfold sysSbrk
  cases s.heap with
  | none =>
      dsimp only
      rw [accessed_sysExit, accessed_print]
  | some heap => rfl

variable {sysNr ebx ecx edx : BitVec 32} {bufferNum : Int}

theorem names_write : Names nrWrite ebx ecx edx bufferNum addr ↔
    ecx ≠ 0 ∧ ∃ i < edx.toNat, addr = ecx + BitVec.ofNat 32 i := by
  have hOther : nrWrite ≠ nrRead := by decide
  rw [Names, or_iff_left fun h => hOther h.1, and_iff_right rfl]

theorem names_read : Names nrRead ebx ecx edx bufferNum addr ↔
    ebx ≠ 0 ∧ ∃ i < edx.toNat, bufferNum + i < 5 ∧
      (addr = ecx + BitVec.ofInt 32 (bufferNum + i) ∨ addr = ecx + BitVec.ofInt 32 4) := by
  have hOther : nrRead ≠ nrWrite := by decide
  rw [Names, or_iff_right fun h => hOther h.1, and_iff_right rfl]

theorem not_names (hWrite : sysNr ≠ nrWrite) (hRead : sysNr ≠ nrRead) :
    ¬ Names sysNr ebx ecx edx bufferNum addr := by
  rintro (h | h)
  · exact hWrite h.1
  · exact hRead h.1

/-- A call reads and writes for the task at the addresses that it names. -/
theorem accessed_syscallHandler :
    addr ∈ (s.syscallHandler getChar sysNr ebx ecx edx).1.accessed ↔
      Names sysNr ebx ecx edx s.bufferNum addr := by
  unfold syscallHandler
  split_ifs with hExit hWrite hRead hOpen hSbrk
  · rw [accessed_sysExit]
    refine iff_of_false List.not_mem_nil (not_names ?_ ?_) <;> rw [hExit] <;> decide
  · rw [hWrite, names_write]
    unfold sysWrite
    by_cases hNull : ecx = 0
    · rw [if_pos hNull]
      exact iff_of_false List.not_mem_nil fun h => h.1 hNull
    · rw [if_neg hNull, accessed_writeLoop, and_iff_right hNull]
      exact or_iff_left List.not_mem_nil
  · rw [hRead, names_read]
    unfold sysRead
    by_cases hFd : ebx = 0
    · rw [if_pos hFd, accessed_print]
      exact iff_of_false List.not_mem_nil fun h => h.1 hFd
    · rw [if_neg hFd, and_iff_right hFd]
      exact accessed_readLoop.trans (or_iff_left List.not_mem_nil)
  · exact iff_of_false List.not_mem_nil (not_names hWrite hRead)
  · rw [accessed_sysSbrk]
    exact iff_of_false List.not_mem_nil (not_names hWrite hRead)
  · rw [accessed_print]
    exact iff_of_false List.not_mem_nil (not_names hWrite hRead)

/-- Nothing outside of user space shows if the addresses that the call names lie in it. -/
theorem SameUser.syscallHandler (h : SameUser s s')
    (hUser : ∀ addr, Names sysNr ebx ecx edx s.bufferNum addr → UserAddress addr) :
    SameUser (s.syscallHandler getChar sysNr ebx ecx edx).1
      (s'.syscallHandler getChar sysNr ebx ecx edx).1 := by
  have hStart : SameUser { s with accessed := [] } { s' with accessed := [] } :=
    { h with accessed := rfl }
  unfold SyscallState.syscallHandler
  split_ifs with hExit hWrite hRead hOpen hSbrk
  · exact hStart.sysExit ebx
  · rw [sysWrite, sysWrite]
    by_cases hNull : ecx = 0
    · rw [if_pos hNull, if_pos hNull]
      exact hStart
    · rw [if_neg hNull, if_neg hNull]
      exact hStart.writeLoop fun i hi => hUser _ (Or.inl ⟨hWrite, hNull, i, hi, rfl⟩)
  · rw [sysRead, sysRead]
    by_cases hFd : ebx = 0
    · rw [if_pos hFd, if_pos hFd]
      exact hStart.print _
    · rw [if_neg hFd, if_neg hFd]
      exact hStart.readLoop
  · exact hStart
  · exact hStart.sysSbrk ebx
  · exact hStart.print _

/-- A system call reads and writes for the task at the addresses that it names, and it stays in user space
exactly when all of them lie there: the kernel checks none. -/
theorem syscallHandler_contained_iff (sysNr ebx ecx edx : BitVec 32) :
    (∀ addr, addr ∈ (s.syscallHandler getChar sysNr ebx ecx edx).1.accessed ↔
        Names sysNr ebx ecx edx s.bufferNum addr) ∧
      (Contained (fun s => (s.syscallHandler getChar sysNr ebx ecx edx).1) s ↔
        ∀ addr, Names sysNr ebx ecx edx s.bufferNum addr → UserAddress addr) := by
  refine ⟨fun addr => accessed_syscallHandler, ?_, fun hUser => ⟨?_, ?_⟩⟩
  · rintro ⟨hAccessed, _⟩ addr hNames
    exact hAccessed addr (accessed_syscallHandler.mpr hNames)
  · intro addr hAddr
    exact hUser addr (accessed_syscallHandler.mp hAddr)
  · intro s' h
    exact h.syscallHandler hUser

/-- A task that has done nothing. -/
def quiet : SyscallState Unit where
  mem := fun _ => 0
  accessed := []
  terminal := Terminal.off
  input := ()
  bufferNum := 0
  heap := none
  finished := none

/-- A `write` of one byte of the kernel. -/
theorem syscallHandler_not_contained : ¬ ∀ (getChar : GetChar Unit) (sysNr ebx ecx edx : BitVec 32)
    (s : SyscallState Unit), Contained (fun s => (s.syscallHandler getChar sysNr ebx ecx edx).1) s := by
  intro h
  have hContained := h (fun input t => (0, input, t)) nrWrite 1 0x1000 1 quiet
  have hUser := hContained.1 0x1000
    (accessed_syscallHandler.mpr (Or.inl ⟨rfl, by decide, 0, by decide, by decide⟩))
  exact absurd hUser.1 (by decide)

end SyscallState
end ArtOS

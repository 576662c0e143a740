import ArtOS.Tasks.LoadTask

/-! The accesses of `load_task`. Which pages it maps for user space, and which memory it writes, is
decided by the program headers, whatever the rest of the kernel answers. -/
namespace ArtOS

/-- A call of `page_map` with its result, or a write. -/
inductive Access where
  | map (viraddr npages : Nat) (bits : BitVec 12) (ret : Int)
  | write (addr len : Nat)

/-- The pages that are mapped for user space or written. -/
def Access.pages : Access → Set Nat
  | .map viraddr npages bits _ =>
      {vpn | bits &&& pgUser ≠ 0 ∧ ∃ k < npages, vpn = viraddr >>> pageBits + k}
  | .write addr len => {vpn | ∃ i < len, vpn = ((addr + i) % 2 ^ 32) >>> pageBits}

/-- A page between `KERNEL_SPACE` and `VMA_USER_MAX`. -/
def UserPage (vpn : Nat) : Prop := kernelSpace ≤ vpn <<< pageBits ∧ vpn <<< pageBits < vmaUserMax

def Access.Within (a : Access) : Prop := ∀ vpn ∈ a.pages, UserPage vpn

/-- The range `[addr, addr + len)` lies between `KERNEL_SPACE` and `VMA_USER_MAX`. -/
def InUser (addr len : Nat) : Prop := len = 0 ∨ kernelSpace ≤ addr ∧ addr + len ≤ vmaUserMax

instance (addr len : Nat) : Decidable (InUser addr len) := inferInstanceAs (Decidable (_ ∨ _))

theorem userPage_iff {vpn : Nat} : UserPage vpn ↔ 0x40000 ≤ vpn ∧ vpn < 0xFF400 := by
  have hShift : vpn <<< pageBits = vpn * 4096 := Nat.shiftLeft_eq vpn 12
  have hKernel : kernelSpace = 0x40000 * 4096 := rfl
  have hMax : vmaUserMax = 0xFF400 * 4096 := rfl
  rw [UserPage, hShift, hKernel, hMax]
  constructor <;> intro h <;> omega

theorem page_eq (a : Nat) : a >>> pageBits = a / 4096 := Nat.shiftRight_eq_div_pow a 12

/-- The bytes of user space lie in its pages. -/
theorem userPage_byte {a : Nat} (hFrom : kernelSpace ≤ a) (hTo : a < vmaUserMax) : UserPage (a >>> pageBits) := by
  have hFrom' : 0x40000000 ≤ a := hFrom
  have hTo' : a < 0xFF400000 := hTo
  rw [userPage_iff, page_eq]
  omega

theorem inUser_iff {addr len : Nat} :
    InUser addr len ↔ len = 0 ∨ 0x40000000 ≤ addr ∧ addr + len ≤ 0xFF400000 := Iff.rfl

theorem map_within {viraddr npages : Nat} {ret : Int} :
    (Access.map viraddr npages (pgUser ||| pgRw) ret).Within ↔
      InUser (viraddr / pageSize * pageSize) (npages * pageSize) := by
  have hBits : (pgUser ||| pgRw) &&& pgUser ≠ 0 := by decide
  have hFirst := page_eq viraddr
  have hRange : InUser (viraddr / pageSize * pageSize) (npages * pageSize) ↔
      npages * 4096 = 0 ∨ 0x40000000 ≤ viraddr / 4096 * 4096 ∧
        viraddr / 4096 * 4096 + npages * 4096 ≤ 0xFF400000 := Iff.rfl
  apply Iff.trans _ hRange.symm
  constructor
  · intro h
    by_cases hZero : npages = 0
    · exact Or.inl (by omega)
    · have hLow := userPage_iff.1 (h _ ⟨hBits, 0, by omega, rfl⟩)
      have hHigh := userPage_iff.1 (h _ ⟨hBits, npages - 1, by omega, rfl⟩)
      rw [hFirst] at hLow hHigh
      exact Or.inr (by omega)
  · rintro h vpn ⟨_, k, hk, rfl⟩
    rw [userPage_iff, hFirst]
    omega

theorem write_within {addr len : Nat} (hAddr : addr < 2 ^ 32) :
    (Access.write addr len).Within ↔ InUser addr len := by
  rw [inUser_iff]
  constructor
  · intro h
    have hByte : ∀ i < len, 0x40000 ≤ (addr + i) % 2 ^ 32 / 4096 ∧
        (addr + i) % 2 ^ 32 / 4096 < 0xFF400 := by
      intro i hi
      have hUser := userPage_iff.1 (h _ ⟨i, hi, rfl⟩)
      rwa [page_eq] at hUser
    by_cases hZero : len = 0
    · exact Or.inl hZero
    · have hFirst := hByte 0 (by omega)
      by_cases hLong : addr + len ≤ 0xFF400000
      · exact Or.inr (by omega)
      · have hLimit := hByte (0xFF400000 - addr) (by omega)
        omega
  · rintro h vpn ⟨i, hi, rfl⟩
    rw [userPage_iff, page_eq]
    omega

namespace Loader

variable {State : Type}

/-- The same, with a record of the accesses. -/
def logged (m : Loader State) : Loader (State × List Access) where
  getPages npages s :=
    let (t, addr) := m.getPages npages s.1
    ((t, s.2), addr)
  pageMap viraddr phyaddr npages bits s :=
    let (t, ret) := m.pageMap viraddr phyaddr npages bits s.1
    ((t, .map viraddr npages bits ret :: s.2), ret)
  write addr bytes s := (m.write addr bytes s.1, .write addr bytes.length :: s.2)
  vmaAdd start endAddr flags s :=
    let (t, ret) := m.vmaAdd start endAddr flags s.1
    ((t, s.2), ret)
  heapArea s :=
    let (t, found) := m.heapArea s.1
    ((t, s.2), found)
  setHeap addr s := (m.setHeap addr s.1, s.2)

/-- A kernel that maps whatever it is asked to. -/
def Serves (m : Loader State) : Prop :=
  (∀ viraddr phyaddr npages bits s, (m.pageMap viraddr phyaddr npages bits s).2 = 0) ∧
    ∀ s, (m.heapArea s).2 = true

/-- The program headers that the loop comes to. -/
def programHeaders (f : InitrdFile) (header : ElfHeader) :
    Nat → Nat → List (BitVec 8) → List ProgramHeader
  | 0, _, _ => []
  | left + 1, i, var =>
      let bytes := f.read (Word.add header.phOffset (i * header.phEntrySize % 2 ^ 32))
        sizeofProgramHeader
      if bytes = [] then programHeaders f header left (i + 1) var
      else
        let var := overlay bytes var
        ProgramHeader.ofBytes var :: programHeaders f header left (i + 1) var

/-- One round of the loop. -/
def loadHeader (m : Loader State) (f : InitrdFile) (entry : Nat) (h : ProgramHeader)
    (heap stack : Nat) (s : State) : State × Option (Nat × Nat) :=
  if h.type = elfPtLoad then
    if h.virtAddr = 0 then (s, some (heap, stack))
    else ((m.loadSegment f h heap s).1, some ((m.loadSegment f h heap s).2, stack))
  else if h.type = elfPtGnuStack then
    ((m.loadStack entry h s).1, (m.loadStack entry h s).2.map fun stack => (heap, stack))
  else (s, some (heap, stack))

def loadEach (m : Loader State) (f : InitrdFile) (entry : Nat) :
    List ProgramHeader → Nat → Nat → State → State × Option (Nat × Nat)
  | [], heap, stack, s => (s, some (heap, stack))
  | h :: rest, heap, stack, s =>
      match m.loadHeader f entry h heap stack s with
      | (s, none) => (s, none)
      | (s, some (heap, stack)) => loadEach m f entry rest heap stack s

theorem loadHeaders_eq (m : Loader State) (f : InitrdFile) (header : ElfHeader) (left i : Nat)
    (var : List (BitVec 8)) (heap stack : Nat) (s : State) :
    m.loadHeaders f header left i var heap stack s =
      m.loadEach f header.entry (programHeaders f header left i var) heap stack s := by
  induction left generalizing i var heap stack s with
  | zero => rfl
  | succ left ih =>
      rw [loadHeaders, programHeaders]
      dsimp only
      split
      · exact ih ..
      · rw [loadEach, loadHeader]
        split
        · split
          · exact ih ..
          · exact ih ..
        · split
          · cases hStack : (m.loadStack header.entry _ s) with
            | mk t found =>
                cases found with
                | none => rfl
                | some stack => exact ih ..
          · exact ih ..

/-- What one header leads to; `ret` is the answer of `page_map`. -/
def accesses (f : InitrdFile) (entry : Nat) (h : ProgramHeader) (ret : Int) : List Access :=
  if h.type = elfPtLoad then
    if h.virtAddr = 0 then []
    else
      [.map h.virtAddr (pageCount h.memSize) (pgUser ||| pgRw) ret,
        .write h.virtAddr (pageCount h.memSize * pageSize % 2 ^ 32),
        .write h.virtAddr (f.read h.offset h.fileSize).length]
  else if h.type = elfPtGnuStack then
    [.map (entry * 2 % 2 ^ 32) (pageCount defaultStackSize) (pgUser ||| pgRw) ret,
      .write (entry * 2 % 2 ^ 32) (pageCount defaultStackSize * pageSize)]
  else []

/-- The end of the heap behind this header. -/
def heapNext (h : ProgramHeader) (heap : Nat) : Nat :=
  if h.type = elfPtLoad ∧ h.virtAddr ≠ 0 then
    if heap < Word.add h.virtAddr h.memSize then Word.add h.virtAddr h.memSize else heap
  else heap

def stackNext (entry : Nat) (h : ProgramHeader) (stack : Nat) : Nat :=
  if h.type = elfPtGnuStack then entry * 2 % 2 ^ 32 else stack

def heapTop (hs : List ProgramHeader) (heap : Nat) : Nat :=
  hs.foldl (fun heap h => heapNext h heap) heap

def stackTop (entry : Nat) (hs : List ProgramHeader) (stack : Nat) : Nat :=
  hs.foldl (fun stack h => stackNext entry h stack) stack

theorem loadSegment_log (m : Loader State) (f : InitrdFile) (h : ProgramHeader) (heap : Nat)
    (s : State) (log : List Access) :
    ∃ t ret, m.logged.loadSegment f h heap (s, log) =
      ((t, .write h.virtAddr (f.read h.offset h.fileSize).length ::
        .write h.virtAddr (List.replicate (pageCount h.memSize * pageSize % 2 ^ 32) 0#8).length ::
        .map h.virtAddr (pageCount h.memSize) (pgUser ||| pgRw) ret :: log),
        if heap < Word.add h.virtAddr h.memSize then Word.add h.virtAddr h.memSize else heap) :=
  ⟨_, _, rfl⟩

/-- A stack that cannot be mapped is not written. -/
theorem loadStack_log (m : Loader State) (entry : Nat) (h : ProgramHeader) (s : State)
    (log : List Access) :
    ∃ t ret, (m.logged.loadStack entry h (s, log) =
        ((t, .write (entry * 2 % 2 ^ 32)
            (List.replicate (pageCount defaultStackSize * pageSize) 0#8).length ::
          .map (entry * 2 % 2 ^ 32) (pageCount defaultStackSize) (pgUser ||| pgRw) ret :: log),
          some (entry * 2 % 2 ^ 32))) ∨
      (¬ m.Serves ∧ m.logged.loadStack entry h (s, log) =
        ((t, .map (entry * 2 % 2 ^ 32) (pageCount defaultStackSize) (pgUser ||| pgRw) ret :: log),
          none)) := by
  by_cases hErr : (m.pageMap (entry * 2 % 2 ^ 32) (m.getPages (pageCount defaultStackSize) s).2
      (pageCount defaultStackSize) (pgUser ||| pgRw)
      (m.getPages (pageCount defaultStackSize) s).1).2 = 0
  · exact ⟨_, _, Or.inl (if_neg fun hNot => hNot hErr)⟩
  · exact ⟨_, _, Or.inr ⟨fun hServes => hErr (hServes.1 ..), if_pos hErr⟩⟩

/-- A stack that cannot be mapped ends the loop. -/
theorem loadHeader_log (m : Loader State) (f : InitrdFile) (entry : Nat) (h : ProgramHeader)
    (heap stack : Nat) (s : State) (log : List Access) :
    ∃ t ret, (m.logged.loadHeader f entry h heap stack (s, log) =
        ((t, (accesses f entry h ret).reverse ++ log),
          some (heapNext h heap, stackNext entry h stack))) ∨
      ∃ a ∈ accesses f entry h ret, ¬ m.Serves ∧
        m.logged.loadHeader f entry h heap stack (s, log) = ((t, a :: log), none) := by
  by_cases hLoad : h.type = elfPtLoad
  · have hStack : h.type ≠ elfPtGnuStack := by
      rw [hLoad]
      decide
    by_cases hAddr : h.virtAddr = 0
    · exists s, 0
      rw [loadHeader, accesses, heapNext, stackNext, if_pos hLoad, if_pos hAddr, if_pos hLoad,
        if_pos hAddr, if_neg fun hBoth => hBoth.2 hAddr, if_neg hStack]
      exact Or.inl rfl
    · obtain ⟨t, ret, hSegment⟩ := loadSegment_log m f h heap s log
      exists t, ret
      rw [loadHeader, accesses, heapNext, stackNext, if_pos hLoad, if_neg hAddr, if_pos hLoad,
        if_neg hAddr, if_pos ⟨hLoad, hAddr⟩, if_neg hStack, hSegment, List.length_replicate]
      exact Or.inl rfl
  · by_cases hStack : h.type = elfPtGnuStack
    · obtain ⟨t, ret, hMapped⟩ := loadStack_log m entry h s log
      exists t, ret
      rw [loadHeader, accesses, heapNext, stackNext, if_neg hLoad, if_pos hStack, if_neg hLoad,
        if_pos hStack, if_neg fun hBoth => hLoad hBoth.1, if_pos hStack]
      rcases hMapped with hMapped | ⟨hServes, hMapped⟩
      · rw [hMapped, List.length_replicate]
        exact Or.inl rfl
      · rw [hMapped]
        exact Or.inr ⟨_, List.mem_cons_self, hServes, rfl⟩
    · exists s, 0
      rw [loadHeader, accesses, heapNext, stackNext, if_neg hLoad, if_neg hStack, if_neg hLoad,
        if_neg hStack, if_neg fun hBoth => hLoad hBoth.1, if_neg hStack]
      exact Or.inl rfl

/-- The accesses of the whole loop are those of the headers. A kernel that serves the loader gets to
the last one. -/
theorem loadEach_log (m : Loader State) (f : InitrdFile) (entry : Nat) (hs : List ProgramHeader)
    (heap stack : Nat) (s : State) (log : List Access) :
    ∃ t made ends, m.logged.loadEach f entry hs heap stack (s, log) = ((t, made ++ log), ends) ∧
      (∀ a ∈ made, ∃ h ∈ hs, ∃ ret, a ∈ accesses f entry h ret) ∧
      (∀ end_ ∈ ends, end_ = (heapTop hs heap, stackTop entry hs stack)) ∧
      (m.Serves → ends.isSome ∧ ∀ h ∈ hs, ∃ ret, ∀ a ∈ accesses f entry h ret, a ∈ made) := by
  induction hs generalizing heap stack s log with
  | nil =>
      refine ⟨s, [], some (heap, stack), rfl, by simp, ?_, fun _ => ⟨rfl, by simp⟩⟩
      intro end_ hEnd
      exact (Option.some.inj hEnd).symm
  | cons h rest ih =>
      rw [loadEach]
      obtain ⟨t, ret, hRound | ⟨a, ha, hServes, hRound⟩⟩ :=
        loadHeader_log m f entry h heap stack s log
      · rw [hRound]
        obtain ⟨t', made, ends, hRest, hMade, hEnds, hAll⟩ := ih (heapNext h heap)
          (stackNext entry h stack) t ((accesses f entry h ret).reverse ++ log)
        refine ⟨t', made ++ (accesses f entry h ret).reverse, ends, ?_, ?_, hEnds, ?_⟩
        · rw [List.append_assoc]
          exact hRest
        · intro a ha
          rcases List.mem_append.1 ha with ha | ha
          · obtain ⟨h', hh', hRet⟩ := hMade a ha
            exact ⟨h', List.mem_cons_of_mem _ hh', hRet⟩
          · exact ⟨h, List.mem_cons_self, ret, List.mem_reverse.1 ha⟩
        · intro hServes
          refine ⟨(hAll hServes).1, ?_⟩
          intro h' hh'
          rcases List.mem_cons.1 hh' with rfl | hh'
          · refine ⟨ret, ?_⟩
            intro a ha
            exact List.mem_append_right _ (List.mem_reverse.2 ha)
          · obtain ⟨ret', hRet⟩ := (hAll hServes).2 h' hh'
            refine ⟨ret', ?_⟩
            intro a ha
            exact List.mem_append_left _ (hRet a ha)
      · rw [hRound]
        refine ⟨t, [a], none, rfl, ?_, by simp, fun hAll => absurd hAll hServes⟩
        intro b hb
        rw [List.mem_singleton.1 hb]
        exact ⟨h, List.mem_cons_self, ret, ha⟩

/-- A write between these addresses. -/
def WritesBetween (low high : Nat) (a : Access) : Prop :=
  ∃ addr len, a = .write addr len ∧ low ≤ addr ∧ addr + len ≤ high

theorem pushPointers_log (m : Loader State) (buffer : List (BitVec 8)) (base left addr idx : Nat)
    (s : State) (log : List Access) (hAddr : addr + 4 * left < 2 ^ 32) :
    ∃ t made idx', m.logged.pushPointers buffer base left addr idx (s, log) =
        ((t, made ++ log), idx') ∧ ∀ a ∈ made, WritesBetween addr (addr + 4 * left) a := by
  induction left generalizing addr idx s log with
  | zero => exact ⟨s, [], idx, rfl, by simp⟩
  | succ left ih =>
      have hNext : Word.add addr 4 = addr + 4 := Word.add_eq (by omega)
      obtain ⟨t, made, idx', hRest, hMade⟩ := ih (addr + 4) (nextString buffer idx)
        (m.write addr (word (Word.add base idx)) s)
        (.write addr (word (Word.add base idx)).length :: log) (by omega)
      refine ⟨t, made ++ [.write addr 4], idx', ?_, ?_⟩
      · rw [pushPointers, hNext, List.append_assoc]
        exact hRest
      · intro a ha
        rcases List.mem_append.1 ha with ha | ha
        · obtain ⟨addr', len, rfl, hLow, hHigh⟩ := hMade a ha
          exact ⟨addr', len, rfl, by omega, by omega⟩
        · exact ⟨addr, 4, List.mem_singleton.1 ha, le_rfl, by omega⟩

theorem pushPointers_suffix (m : Loader State) (buffer : List (BitVec 8))
    (base left addr idx : Nat) (s : State × List Access) :
    s.2 <:+ (m.logged.pushPointers buffer base left addr idx s).1.2 := by
  induction left generalizing addr idx s with
  | zero => exact List.suffix_rfl
  | succ left ih =>
      rw [pushPointers]
      have hRest := ih (Word.add addr 4) (nextString buffer idx)
        (m.logged.write addr (word (Word.add base idx)) s)
      exact (List.suffix_cons _ _).trans hRest

theorem pushArgs_suffix (m : Loader State) (args : LoadArgs) (behind : Nat → BitVec 8)
    (stack : Nat) (s : State × List Access) :
    s.2 <:+ (m.logged.pushArgs args behind stack s).1.2 := by
  have hWrite : ∀ addr bytes (s : State × List Access), s.2 <:+ (m.logged.write addr bytes s).2 :=
    fun _ _ _ => List.suffix_cons ..
  rw [pushArgs]
  apply ((hWrite ..).trans (hWrite ..)).trans
  apply (m.pushPointers_suffix ..).trans
  apply (m.pushPointers_suffix ..).trans
  apply ((hWrite ..).trans (hWrite ..)).trans
  exact (hWrite ..).trans (hWrite ..)

/-- The lowest word that is pushed is the number of arguments. -/
theorem pushArgs_log (m : Loader State) (args : LoadArgs) (behind : Nat → BitVec 8) (stack : Nat)
    (s : State) (log : List Access) (hEnvc : args.envc = 0) (hArgc : args.argc ≤ maxArgs)
    (hLow : 4 * args.argc ≤ stack + 12276) (hHigh : stack + defaultStackSize ≤ 2 ^ 32) :
    ∃ made, (m.logged.pushArgs args behind stack (s, log)).1.2 = made ++ log ∧
      (∀ a ∈ made, WritesBetween (stack + 12276 - 4 * args.argc) (stack + defaultStackSize) a) ∧
      .write (stack + 12276 - 4 * args.argc) 4 ∈ made := by
  have hArgc' : args.argc ≤ 4084 := hArgc
  have hHigh' : stack + 0x4000 ≤ 2 ^ 32 := hHigh
  have hZero : Word.add stack (defaultStackSize - 8) = stack + 16376 :=
    Word.add_eq (show stack + 16376 < 2 ^ 32 by omega)
  have hStrings : Word.add stack (defaultStackSize - 8 - maxArgs) = stack + 12292 :=
    Word.add_eq (show stack + 12292 < 2 ^ 32 by omega)
  obtain ⟨offset, hOffset⟩ : ∃ offset, offset =
    Word.sub (defaultStackSize - 8 - maxArgs) (args.argc * 4) := ⟨_, rfl⟩
  have hMod : (offset + 4 * args.argc) % 2 ^ 32 = 12292 ∧ offset < 2 ^ 32 := by
    have hValue : offset = (12292 + (2 ^ 32 - args.argc * 4 % 2 ^ 32)) % 2 ^ 32 := hOffset
    omega
  have hPointers : Word.add stack offset = stack + 12292 - 4 * args.argc := by
    rw [Word.add]
    omega
  obtain ⟨t, made, idx, hPush, hMade⟩ := m.pushPointers_log (bufferOf args behind) (stack + 12292)
    args.argc (stack + 12292 - 4 * args.argc) 0
    (m.write (stack + 12292) (bufferOf args behind) (m.write (stack + 16376) (List.replicate 4 0) s))
    (.write (stack + 12292) (bufferOf args behind).length ::
      .write (stack + 16376) (List.replicate 4 0#8).length :: log) (by omega)
  obtain ⟨env, hEnv⟩ : ∃ env, env = Word.sub offset ((0 + 1) * 4) := ⟨_, rfl⟩
  have hEnvMod : (env + 4) % 2 ^ 32 = offset ∧ env < 2 ^ 32 := by
    rw [hEnv, Word.sub]
    omega
  have hNull : Word.add stack (Word.add env (0 * 4)) = stack + 12288 - 4 * args.argc := by
    simp only [Word.add]
    omega
  have hEnvp : Word.add stack (Word.sub env 4) = stack + 12284 - 4 * args.argc := by
    simp only [Word.add, Word.sub]
    omega
  have hArgv : Word.add stack (Word.sub (Word.sub env 4) 4) = stack + 12280 - 4 * args.argc := by
    simp only [Word.add, Word.sub]
    omega
  have hCount : Word.add stack (Word.sub (Word.sub (Word.sub env 4) 4) 4) =
      stack + 12276 - 4 * args.argc := by
    simp only [Word.add, Word.sub]
    omega
  have hPush' : m.logged.pushPointers (bufferOf args behind) (stack + 12292) args.argc
      (stack + 12292 - 4 * args.argc) 0 (m.logged.write (stack + 12292) (bufferOf args behind)
        (m.logged.write (stack + 16376) (List.replicate 4 0) (s, log))) = _ := hPush
  rw [pushArgs]
  dsimp only
  rw [hEnvc, ← hOffset, ← hEnv, hZero, hStrings, hPointers, hPush', hNull, hEnvp, hArgv, hCount]
  have hBuffer : (bufferOf args behind).length = 4084 := by
    rw [bufferOf, List.length_map, List.length_range]
    rfl
  rw [hBuffer, List.length_replicate]
  refine ⟨[.write (stack + 12276 - 4 * args.argc) 4, .write (stack + 12280 - 4 * args.argc) 4,
    .write (stack + 12284 - 4 * args.argc) 4, .write (stack + 12288 - 4 * args.argc) 4] ++
      (made ++ [.write (stack + 12292) 4084, .write (stack + 16376) 4]), ?_, ?_, ?_⟩
  rotate_left
  · intro a ha
    simp only [List.mem_append, List.mem_cons, List.not_mem_nil, or_false] at ha
    have hTop : stack + defaultStackSize = stack + 16384 := rfl
    rw [hTop]
    rcases ha with (rfl | rfl | rfl | rfl) | ha | rfl | rfl
    · exact ⟨_, _, rfl, by omega, by omega⟩
    · exact ⟨_, _, rfl, by omega, by omega⟩
    · exact ⟨_, _, rfl, by omega, by omega⟩
    · exact ⟨_, _, rfl, by omega, by omega⟩
    · obtain ⟨addr, len, rfl, hFrom, hTo⟩ := hMade a ha
      exact ⟨_, _, rfl, by omega, by omega⟩
    · exact ⟨_, _, rfl, by omega, by omega⟩
    · exact ⟨_, _, rfl, by omega, by omega⟩
  · exact List.mem_append_left _ List.mem_cons_self
  · rw [List.append_assoc, List.append_assoc]
    rfl

/-- The ranges that this header names lie in user space. -/
def Harmless (f : InitrdFile) (entry : Nat) (h : ProgramHeader) : Prop :=
  (h.type = elfPtLoad ∧ h.virtAddr ≠ 0 →
    InUser (h.virtAddr / pageSize * pageSize) (pageCount h.memSize * pageSize) ∧
      InUser h.virtAddr (pageCount h.memSize * pageSize % 2 ^ 32) ∧
      InUser h.virtAddr (f.read h.offset h.fileSize).length) ∧
  (h.type = elfPtGnuStack →
    InUser (entry * 2 % 2 ^ 32 / pageSize * pageSize) (pageCount defaultStackSize * pageSize) ∧
      InUser (entry * 2 % 2 ^ 32) (pageCount defaultStackSize * pageSize))

instance (f : InitrdFile) (entry : Nat) (h : ProgramHeader) : Decidable (Harmless f entry h) :=
  inferInstanceAs (Decidable (_ ∧ _))

theorem accesses_within {f : InitrdFile} {entry : Nat} {h : ProgramHeader} (ret : Int)
    (hAddr : h.virtAddr < 2 ^ 32) :
    (∀ a ∈ accesses f entry h ret, a.Within) ↔ Harmless f entry h := by
  have hEntry : entry * 2 % 2 ^ 32 < 2 ^ 32 := Nat.mod_lt _ (by decide)
  rw [accesses, Harmless]
  by_cases hLoad : h.type = elfPtLoad
  · have hStack : h.type ≠ elfPtGnuStack := by
      rw [hLoad]
      decide
    by_cases hZero : h.virtAddr = 0
    · simp [hLoad, hZero]
    · rw [if_pos hLoad, if_neg hZero]
      simp only [List.forall_mem_cons, List.not_mem_nil, false_imp_iff, implies_true, and_true,
        map_within, write_within hAddr, hLoad, hZero, ne_eq, not_false_eq_true, true_imp_iff]
      simp
  · by_cases hStack : h.type = elfPtGnuStack
    · rw [if_neg hLoad, if_pos hStack]
      simp only [List.forall_mem_cons, List.not_mem_nil, false_imp_iff, implies_true, and_true,
        map_within, write_within hEntry, hStack, true_imp_iff]
      simp
    · simp [hLoad, hStack]

theorem field_lt (bytes : List (BitVec 8)) (offset n : Nat) : field bytes offset n < 256 ^ n := by
  have hFold : ∀ l : List (BitVec 8),
      l.foldr (fun byte rest => byte.toNat + 256 * rest) 0 < 256 ^ l.length := by
    intro l
    induction l with
    | nil => exact Nat.one_pos
    | cons byte l ih =>
        have hByte := byte.isLt
        rw [List.foldr_cons, List.length_cons, Nat.pow_succ]
        omega
  exact lt_of_lt_of_le (hFold _) (Nat.pow_le_pow_right (by decide) (List.length_take_le n _))

theorem programHeaders_addr {f : InitrdFile} {header : ElfHeader} {left i : Nat}
    {var : List (BitVec 8)} : ∀ h ∈ programHeaders f header left i var, h.virtAddr < 2 ^ 32 := by
  induction left generalizing i var with
  | zero =>
      intro h hh
      cases hh
  | succ left ih =>
      intro h hh
      rw [programHeaders] at hh
      dsimp only at hh
      split at hh
      · exact ih h hh
      · rcases List.mem_cons.1 hh with rfl | hh
        · exact field_lt ..
        · exact ih h hh

theorem stackTop_eq (entry : Nat) (hs : List ProgramHeader) (stack : Nat) :
    stackTop entry hs stack = stack ∨
      (∃ h ∈ hs, h.type = elfPtGnuStack) ∧ stackTop entry hs stack = entry * 2 % 2 ^ 32 := by
  induction hs generalizing stack with
  | nil => exact Or.inl rfl
  | cons h rest ih =>
      rw [stackTop, List.foldl_cons, ← stackTop]
      rcases ih (stackNext entry h stack) with hSame | ⟨⟨h', hh', hType⟩, hTop⟩
      · rw [hSame, stackNext]
        by_cases hType : h.type = elfPtGnuStack
        · rw [if_pos hType]
          exact Or.inr ⟨⟨h, List.mem_cons_self, hType⟩, rfl⟩
        · rw [if_neg hType]
          exact Or.inl rfl
      · exact Or.inr ⟨⟨h', List.mem_cons_of_mem _ hh', hType⟩, hTop⟩

theorem stackTop_inUser {f : InitrdFile} {entry : Nat} {hs : List ProgramHeader}
    (h : ∀ h ∈ hs, Harmless f entry h) (hStack : stackTop entry hs 0 ≠ 0) :
    kernelSpace ≤ stackTop entry hs 0 ∧ stackTop entry hs 0 + defaultStackSize ≤ vmaUserMax := by
  rcases stackTop_eq entry hs 0 with hSame | ⟨⟨h', hh', hType⟩, hTop⟩
  · exact absurd hSame hStack
  · rw [hTop]
    rcases ((h h' hh').2 hType).2 with hEmpty | hRange
    · exact absurd hEmpty (by decide)
    · exact hRange

/-- `load_task` maps and writes only user space, whatever it is answered. -/
def Confined (f : InitrdFile) (args : LoadArgs) (behind : Nat → BitVec 8)
    (header var : List (BitVec 8)) : Prop :=
  ∀ (State : Type) (m : Loader State) (s : State),
    ∀ a ∈ (m.logged.loadTask f args behind header var (s, [])).1.2, a.Within

/-- The headers name ranges of user space, and the arguments fit under the strings on the stack. -/
def Tame (f : InitrdFile) (args : LoadArgs) (header var : List (BitVec 8)) : Prop :=
  let header := ElfHeader.ofBytes (overlay (f.read 0 sizeofElfHeader) header)
  let hs := programHeaders f header header.phEntryCount 0 var
  header.Valid → (∀ h ∈ hs, Harmless f header.entry h) ∧
    (heapTop hs 0 ≠ 0 ∧ stackTop header.entry hs 0 ≠ 0 →
      kernelSpace + 4 * args.argc ≤ stackTop header.entry hs 0 + 12276)

section Logged

variable (m : Loader State) (f : InitrdFile) (args : LoadArgs) (behind : Nat → BitVec 8)
  (header var : List (BitVec 8)) (s : State)

/-- What `load_task` does with a valid header: the loop, and then the arguments. -/
theorem loadTask_log (hEnvc : args.envc = 0) (hArgc : args.argc ≤ maxArgs) {elf : ElfHeader}
    {hs : List ProgramHeader} {stack : Nat}
    (hElf : elf = ElfHeader.ofBytes (overlay (f.read 0 sizeofElfHeader) header))
    (hHeaders : hs = programHeaders f elf elf.phEntryCount 0 var)
    (hStack : stack = stackTop elf.entry hs 0) (hValid : elf.Valid) :
    ∃ made pushed, (m.logged.loadTask f args behind header var (s, [])).1.2 = pushed ++ made ∧
      (∀ a ∈ made, ∃ h ∈ hs, ∃ ret, a ∈ accesses f elf.entry h ret) ∧
      (m.Serves → ∀ h ∈ hs, ∃ ret, ∀ a ∈ accesses f elf.entry h ret, a ∈ made) ∧
      (stack = 0 → pushed = []) ∧
      (kernelSpace ≤ stack ∧ stack + defaultStackSize ≤ vmaUserMax →
        (∀ a ∈ pushed, heapTop hs 0 ≠ 0 ∧
          WritesBetween (stack + 12276 - 4 * args.argc) (stack + defaultStackSize) a) ∧
        (m.Serves → heapTop hs 0 ≠ 0 → .write (stack + 12276 - 4 * args.argc) 4 ∈ pushed)) := by
  obtain ⟨t, made, ends, hLoop, hMade, hEnds, hAll⟩ := m.loadEach_log f elf.entry hs 0 0 s []
  rw [List.append_nil, hHeaders, ← loadHeaders_eq] at hLoop
  rw [loadTask]
  dsimp only
  rw [← hElf, if_neg (not_not_intro hValid), hLoop]
  cases ends with
  | none =>
      refine ⟨made, [], rfl, hMade, fun hServes => (hAll hServes).2, fun _ => rfl,
        fun _ => ⟨by simp, ?_⟩⟩
      intro hServes
      exact absurd (hAll hServes).1 (by simp)
  | some end_ =>
      have hEnd := hEnds end_ rfl
      rw [hEnd]
      dsimp only
      rw [← hStack]
      by_cases hHeap : ¬ (m.logged.heapArea (t, made)).2 = true ∨ heapTop hs 0 = 0
      · rw [if_pos hHeap]
        refine ⟨made, [], rfl, hMade, fun hServes => (hAll hServes).2, fun _ => rfl,
        fun _ => ⟨by simp, ?_⟩⟩
        intro hServes hTop
        exact absurd hHeap (not_or.2 ⟨not_not_intro (hServes.2 t), hTop⟩)
      · rw [if_neg hHeap]
        by_cases hZero : stack = 0
        · rw [if_pos hZero]
          refine ⟨made, [], rfl, hMade, fun hServes => (hAll hServes).2, fun _ => rfl,
            fun hUser => ?_⟩
          rw [hZero] at hUser
          exact absurd hUser.1 (by decide)
        · rw [if_neg hZero]
          by_cases hUser : kernelSpace ≤ stack ∧ stack + defaultStackSize ≤ vmaUserMax
          · have hFits : 4 * args.argc ≤ stack + 12276 ∧ stack + defaultStackSize ≤ 2 ^ 32 := by
              have hArgc' : args.argc ≤ 4084 := hArgc
              have hLow : 0x40000000 ≤ stack := hUser.1
              exact ⟨by omega, hUser.2.trans (by decide)⟩
            obtain ⟨pushed, hPush, hPushed, hBottom⟩ := m.pushArgs_log args behind stack
              (m.setHeap (pageFloor (heapTop hs 0)) (m.heapArea t).1) made hEnvc hArgc hFits.1 hFits.2
            refine ⟨made, pushed, hPush, hMade, fun hServes => (hAll hServes).2,
              fun hNone => absurd hNone hZero, fun _ => ?_⟩
            exact ⟨fun a ha => ⟨(not_or.1 hHeap).2, hPushed a ha⟩, fun _ _ => hBottom⟩
          · obtain ⟨pushed, hPush⟩ := m.pushArgs_suffix args behind stack
              (m.logged.setHeap (pageFloor (heapTop hs 0)) (m.logged.heapArea (t, made)).1)
            exact ⟨made, pushed, hPush.symm, hMade, fun hServes => (hAll hServes).2,
              fun hNone => absurd hNone hZero, fun hNot => absurd hNot hUser⟩

theorem loadTask_rejects (hValid : ¬ (ElfHeader.ofBytes
    (overlay (f.read 0 sizeofElfHeader) header)).Valid) :
    m.loadTask f args behind header var s = (s, -einval) := by
  rw [loadTask]
  exact if_pos hValid

theorem Tame.within (hEnvc : args.envc = 0) (hArgc : args.argc ≤ maxArgs)
    (hTame : Tame f args header var) :
    ∀ a ∈ (m.logged.loadTask f args behind header var (s, [])).1.2, a.Within := by
  obtain ⟨elf, hElf⟩ : ∃ elf, elf = ElfHeader.ofBytes (overlay (f.read 0 sizeofElfHeader) header) :=
    ⟨_, rfl⟩
  by_cases hValid : elf.Valid
  · obtain ⟨made, pushed, hLog, hMade, _, hNone, hPushed⟩ :=
      m.loadTask_log f args behind header var s hEnvc hArgc hElf rfl rfl hValid
    rw [Tame, ← hElf] at hTame
    obtain ⟨hSegments, hArgs⟩ := hTame hValid
    intro a ha
    rw [hLog] at ha
    rcases List.mem_append.1 ha with ha | ha
    · by_cases hStack : stackTop elf.entry (programHeaders f elf elf.phEntryCount 0 var) 0 = 0
      · rw [hNone hStack] at ha
        cases ha
      · have hUser := stackTop_inUser hSegments hStack
        obtain ⟨hHeap, addr, len, rfl, hLow, hHigh⟩ := (hPushed hUser).1 a ha
        have hFits := hArgs ⟨hHeap, hStack⟩
        have hMax : vmaUserMax < 2 ^ 32 := by decide
        exact (write_within (by omega)).2 (Or.inr ⟨by omega, by omega⟩)
    · obtain ⟨h, hh, ret, ha⟩ := hMade a ha
      exact (accesses_within ret (programHeaders_addr h hh)).2 (hSegments h hh) a ha
  · rw [hElf] at hValid
    rw [loadTask_rejects _ _ _ _ _ _ _ hValid]
    simp

/-- A kernel that maps whatever it is asked to lets all of the accesses happen. -/
theorem Tame.of_within (hServes : m.Serves) (hEnvc : args.envc = 0) (hArgc : args.argc ≤ maxArgs)
    (hWithin : ∀ a ∈ (m.logged.loadTask f args behind header var (s, [])).1.2, a.Within) :
    Tame f args header var := by
  obtain ⟨elf, hElf⟩ : ∃ elf, elf = ElfHeader.ofBytes (overlay (f.read 0 sizeofElfHeader) header) :=
    ⟨_, rfl⟩
  rw [Tame, ← hElf]
  intro hValid
  generalize hHeaders : programHeaders f elf elf.phEntryCount 0 var = hs
  obtain ⟨made, pushed, hLog, _, hAll, _, hPushed⟩ :=
    m.loadTask_log f args behind header var s hEnvc hArgc hElf hHeaders.symm rfl hValid
  rw [hLog] at hWithin
  have hSegments : ∀ h ∈ hs, Harmless f elf.entry h := by
    intro h hh
    obtain ⟨ret, hRet⟩ := hAll hServes h hh
    rw [← hHeaders] at hh
    apply (accesses_within ret (programHeaders_addr h hh)).1
    intro a ha
    exact hWithin a (List.mem_append_right _ (hRet a ha))
  refine ⟨hSegments, ?_⟩
  rintro ⟨hHeap, hStack⟩
  have hUser := stackTop_inUser hSegments hStack
  have hBottom := hWithin _ (List.mem_append_left _ ((hPushed hUser).2 hServes hHeap))
  have hMax : vmaUserMax < 2 ^ 32 := by decide
  have hArgc' : args.argc ≤ 4084 := hArgc
  have hLow : 0x40000000 ≤ stackTop elf.entry hs 0 := hUser.1
  have hHigh : stackTop elf.entry hs 0 + 0x4000 ≤ 0xFF400000 := hUser.2
  rcases (write_within (by omega)).1 hBottom with hEmpty | ⟨hFrom, _⟩
  · exact absurd hEmpty (by decide)
  · have hFrom' : 0x40000000 ≤ stackTop elf.entry hs 0 + 12276 - 4 * args.argc := hFrom
    exact show 0x40000000 + 4 * args.argc ≤ _ by omega

end Logged

/-- The kernel whose state does not matter. -/
def constant : Loader Unit where
  getPages _ s := (s, 0)
  pageMap _ _ _ _ s := (s, 0)
  write _ _ s := s
  vmaAdd _ _ _ s := (s, 0)
  heapArea s := (s, true)
  setHeap _ s := s

/-- An executable with a single segment of one page, which starts with the file itself. -/
def oneSegment (virtAddr : List (BitVec 8)) : InitrdFile where
  length := 84
  byte i := ([0x7F, 0x45, 0x4C, 0x46, 1, 1, 1, 0, 0, 0, 0, 0, 0, 0, 0, 0, 2, 0, 3, 0, 1, 0, 0, 0,
    0, 0x10, 0, 0x50, 52, 0, 0, 0, 0, 0, 0, 0, 0, 0, 0, 0, 52, 0, 32, 0, 1, 0, 0, 0, 0, 0, 0, 0,
    1, 0, 0, 0, 0, 0, 0, 0] ++ virtAddr ++ [0, 0, 0, 0, 84, 0, 0, 0, 0, 0x10, 0, 0, 7, 0, 0, 0,
    0, 0x10, 0, 0]).getD i 0

/-- `load_task` stays within user space exactly for the executables whose program headers do. -/
theorem confined_iff (f : InitrdFile) (args : LoadArgs) (behind : Nat → BitVec 8)
    (header var : List (BitVec 8)) (hArgs : args.Packed) :
    Confined f args behind header var ↔ Tame f args header var := by
  constructor
  · intro h
    exact Tame.of_within constant f args behind header var () ⟨fun _ _ _ _ _ => rfl, fun _ => rfl⟩
      hArgs.envc hArgs.argc (h Unit constant ())
  · intro h State m s
    exact Tame.within m f args behind header var s hArgs.envc hArgs.argc h

/-- A segment at 0x50100000. -/
theorem confined_user : Confined (oneSegment [0, 0, 0x10, 0x50]) ⟨0, 1, 0, [0]⟩ 0 [] [] := by
  apply (confined_iff _ _ _ _ _ ⟨rfl, by decide⟩).2
  rw [Tame]
  decide

/-- A segment at 0x100000 replaces the kernel. -/
theorem confined_not : ¬ Confined (oneSegment [0, 0, 0x10, 0]) ⟨0, 1, 0, [0]⟩ 0 [] [] := by
  intro h
  have hTame := Tame.of_within constant _ _ _ _ _ () ⟨fun _ _ _ _ _ => rfl, fun _ => rfl⟩
    rfl (by decide) (h Unit constant ())
  rw [Tame] at hTame
  exact absurd hTame (by decide)

end Loader
end ArtOS

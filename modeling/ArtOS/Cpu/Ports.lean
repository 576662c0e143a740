import ArtOS.Cpu.Interrupts

/-! The task state segment of `gdt_install` and `set_kernel_stack`, and what the processor makes of it
when a task uses the instructions `in` and `out`. The kernel never writes a bitmap of ports. -/
namespace ArtOS

/-- `tss_t`, which is packed. -/
structure Tss where
  backlink : BitVec 16
  blh : BitVec 16
  esp0 : BitVec 32
  ss0 : BitVec 16
  ss0h : BitVec 16
  esp1 : BitVec 32
  ss1 : BitVec 16
  ss1h : BitVec 16
  esp2 : BitVec 32
  ss2 : BitVec 16
  ss2h : BitVec 16
  cr3 : BitVec 32
  eip : BitVec 32
  eflags : BitVec 32
  eax : BitVec 32
  ecx : BitVec 32
  edx : BitVec 32
  ebx : BitVec 32
  esp : BitVec 32
  ebp : BitVec 32
  esi : BitVec 32
  edi : BitVec 32
  es : BitVec 16
  esh : BitVec 16
  cs : BitVec 16
  csh : BitVec 16
  ss : BitVec 16
  ssh : BitVec 16
  ds : BitVec 16
  dsh : BitVec 16
  fs : BitVec 16
  fsh : BitVec 16
  gs : BitVec 16
  gsh : BitVec 16
  ldt : BitVec 16
  ldth : BitVec 16
  trace : BitVec 16
  bitmap : BitVec 16
  deriving DecidableEq, Repr

namespace Tss

/-- The segment as words in memory, the first one lowest. -/
def words (t : Tss) : List (BitVec 32) :=
  [t.blh ++ t.backlink, t.esp0, t.ss0h ++ t.ss0, t.esp1, t.ss1h ++ t.ss1, t.esp2, t.ss2h ++ t.ss2,
    t.cr3, t.eip, t.eflags, t.eax, t.ecx, t.edx, t.ebx, t.esp, t.ebp, t.esi, t.edi, t.esh ++ t.es,
    t.csh ++ t.cs, t.ssh ++ t.ss, t.dsh ++ t.ds, t.fsh ++ t.fs, t.gsh ++ t.gs, t.ldth ++ t.ldt,
    t.bitmap ++ t.trace]

/-- A bit of the segment, counted from its start. -/
def bit (t : Tss) (n : Nat) : Bool := (t.words.getD (n / 32) 0).getLsbD (n % 32)

def zero : Tss :=
  ⟨0, 0, 0, 0, 0, 0, 0, 0, 0, 0, 0, 0, 0, 0, 0, 0, 0, 0, 0, 0, 0, 0, 0, 0, 0, 0, 0, 0, 0, 0, 0, 0, 0,
    0, 0, 0, 0, 0⟩

/-- The segment that `gdt_install` leaves. -/
def install (bootStack : BitVec 32) : Tss :=
  { zero with
    eflags := 0x1202, ss0 := 0x10, esp0 := bootStack - 0x10, cs := 0x0b
    ss := 0x13, ds := 0x13, es := 0x13, fs := 0x13, gs := 0x13 }

/-- `set_kernel_stack`. -/
def setKernelStack (t : Tss) (stack : BitVec 32) : Tss :=
  { t with esp0 := stack + BitVec.ofNat 32 kernelStackSize - 16 }

end Tss

/-- The lowest ring that may use any port. -/
def iopl (eflags : BitVec 32) : BitVec 2 := eflags.extractLsb' 12 2

/-- What the CPU looks at before an access to `width` ports from `p` on. `memory` has the bits from
the start of the task state segment on. -/
def portOpen (memory : Nat → Bool) (limit bitmap : Nat) (cpl iopl : BitVec 2) (p width : Nat) : Bool :=
  cpl ≤ iopl ||
    decide (bitmap + p / 8 + 1 ≤ limit) && (List.range width).all fun i => !memory (8 * bitmap + p + i)

/-- The ports that other fields than `esp0` close by chance. -/
def closedPorts : List Nat :=
  [68, 289, 297, 300, 576, 577, 580, 608, 609, 611, 640, 641, 644, 672, 673, 676, 704, 705, 708, 736,
    737, 740]

/-- A port that the fields of the segment, taken for a bitmap, close. -/
def Closed (esp0 : BitVec 32) (p : Nat) : Prop :=
  p / 32 = 1 ∧ esp0.getLsbD (p % 32) ∨ p ∈ closedPorts

instance (esp0 : BitVec 32) (p : Nat) : Decidable (Closed esp0 p) := inferInstanceAs (Decidable (_ ∨ _))

namespace Tss

theorem install_words (bootStack esp0 : BitVec 32) :
    { install bootStack with esp0 := esp0 }.words = { install 0 with esp0 := 0 }.words.set 1 esp0 := rfl

theorem install_bit {n : Nat} (bootStack esp0 : BitVec 32) (hn : n < 8 * tssSize) :
    { install bootStack with esp0 := esp0 }.bit n ↔ Closed esp0 n := by
  have hOthers : ∀ n < 8 * tssSize, ({ install 0 with esp0 := 0 }.words.getD (n / 32) 0).getLsbD (n % 32) =
      decide (n ∈ closedPorts) := by decide +kernel
  have hBit : { install bootStack with esp0 := esp0 }.bit n =
      if n / 32 = 1 then esp0.getLsbD (n % 32) else decide (n ∈ closedPorts) := by
    rw [bit, install_words, List.getD_eq_getElem?_getD]
    split_ifs with h
    · rw [h]
      rfl
    · rw [List.getElem?_set_ne (Ne.symm h), ← List.getD_eq_getElem?_getD]
      exact hOthers n hn
  have hFar : ∀ p ∈ closedPorts, p / 32 ≠ 1 := by decide
  rw [hBit, Closed]
  split_ifs with h
  · exact ⟨fun hSet => Or.inl ⟨h, hSet⟩, fun hClosed => hClosed.elim And.right fun hMem => absurd h (hFar n hMem)⟩
  · rw [decide_eq_true_iff]
    exact (or_iff_right fun hFirst => h hFirst.1).symm

end Tss

namespace Machine

/-- The task state segment behind the calls of `set_kernel_stack`. -/
def tss (linked : Linked) (bootStack : BitVec 32) (m : Machine) : Tss :=
  match m.esp0 with
  | none => Tss.install bootStack
  | some top => { Tss.install bootStack with esp0 := linked.address top.1 top.2 }

variable {linked : Linked} {m : Machine} {addr base bootStack segment : BitVec 32}

/-- The array `stack` of `mm/memory.c`. -/
def Stacked (linked : Linked) (base : BitVec 32) : Prop :=
  ∀ row cell, linked.address (.kernel row) cell = base + BitVec.ofNat 32 (kernelStackSize * row + 4 * cell)

/-- The last cell of a stack that is used. -/
theorem address_bottom (hStacked : Stacked linked base) {t : TaskPtr} (ht : t ≠ 0) :
    linked.address (areaOf t) stackBottom = base + BitVec.ofNat 32 (kernelStackSize * t) - 16 := by
  have hRow : kernelStackSize * (t - 1 : Nat) + 4 * stackBottom + 16 = kernelStackSize * t := by
    have hPos : 0 < (t : Nat) := Nat.pos_of_ne_zero (Fin.val_ne_of_ne ht)
    have hSize : 4 * stackBottom + 16 = kernelStackSize := by decide
    rw [Nat.add_assoc, hSize, ← Nat.mul_succ, Nat.succ_eq_add_one, Nat.sub_add_cancel hPos]
  rw [areaOf, if_neg ht, hStacked, ← hRow, BitVec.ofNat_add _ 16, ← BitVec.add_assoc]
  exact (add_sub_cancel_right _ _).symm

/-- `set_kernel_stack` has been called with the stack of the current task. -/
theorem tss_eq_setKernelStack (h : Reachable linked m) (hTask : m.current ≠ 0) (hStacked : Stacked linked base) :
    m.tss linked bootStack = (Tss.install bootStack).setKernelStack (linked.address (areaOf m.current) 0) := by
  obtain ⟨q, hInv⟩ := reachable_inv h
  have hTop : linked.address (areaOf m.current) stackBottom =
      linked.address (areaOf m.current) 0 + BitVec.ofNat 32 kernelStackSize - 16 := by
    have hEnd : ∀ n, BitVec.ofNat 32 (n + 4 * stackBottom) =
        BitVec.ofNat 32 (n + 4 * 0) + BitVec.ofNat 32 kernelStackSize - 16 := fun n => by
      simp only [BitVec.ofNat_add, add_assoc, add_sub_assoc]
      rfl
    rw [areaOf, if_neg hTask, hStacked, hStacked, hEnd, add_sub_assoc, add_sub_assoc, add_assoc]
  rw [tss, hInv.esp0 hTask, Tss.setKernelStack, ← hTop]

/-- The ports of both interrupt controllers, the timer, the keyboard and the clock. -/
def insidePorts : List Nat := [0x20, 0x21, 0x40, 0x43, 0x60, 0x70, 0x71, 0xA0, 0xA1]

/-- The port of a register in the configuration space of a slot, by the second mechanism. -/
def pciIoConf (slot off : Nat) : Nat := 0xC000 ||| slot <<< 8 ||| off

/-- All accesses of the kernel to ports, with their width: those, the cursor on the screen, and the
configuration of the PCI bus. -/
inductive DevicePort : Nat → Nat → Prop where
  | inside {p : Nat} (h : p ∈ insidePorts) : DevicePort p 1
  | cursor {p : Nat} (h : p = 0x3D4 ∨ p = 0x3D5) : DevicePort p 1
  | pciConf {p : Nat} (h : p = 0xCF8 ∨ p = 0xCFC) : DevicePort p 4
  | pciIoConf {slot off : Nat} (hSlot : slot < 32) (hOff : off < 256) : DevicePort (pciIoConf slot off) 4

theorem insidePorts_lt : ∀ p ∈ insidePorts, p + 1 ≤ 8 * tssSize := by decide

theorem DevicePort.cases {p width : Nat} (h : DevicePort p width) :
    p + width ≤ 2 ^ 16 ∧ (p ∈ insidePorts ∧ width = 1 ∨ 8 * tssSize ≤ p) := by
  have hSize : 8 * tssSize = 832 := rfl
  cases h with
  | inside h =>
      have hLt := insidePorts_lt p h
      exact ⟨by omega, Or.inl ⟨h, rfl⟩⟩
  | cursor h => exact ⟨by omega, Or.inr (by omega)⟩
  | pciConf h => exact ⟨by omega, Or.inr (by omega)⟩
  | @pciIoConf slot off hSlot hOff =>
      have hPort : Machine.pciIoConf slot off = 0xC000 + (slot <<< 8 + off) := by
        rw [Machine.pciIoConf, Nat.or_assoc, ← Nat.shiftLeft_add_eq_or_of_lt hOff,
          show 0xC000 = 6 <<< 13 from rfl, ← Nat.shiftLeft_add_eq_or_of_lt]
        rw [Nat.shiftLeft_eq]
        omega
      rw [hPort, Nat.shiftLeft_eq]
      exact ⟨by omega, Or.inr (by omega)⟩

theorem inside_open {esp0 : BitVec 32} (hAligned : esp0.toNat % 16 = 0) {p : Nat} (hp : p ∈ insidePorts) :
    ¬ Closed esp0 p := by
  have hBits : ∀ i < 4, esp0.getLsbD i = false := by
    intro i hi
    have hZero : esp0.toNat % 2 ^ 4 = 0 := hAligned
    have hBit := Nat.testBit_mod_two_pow esp0.toNat 4 i
    rw [hZero, Nat.zero_testBit, decide_eq_true hi, Bool.true_and] at hBit
    exact hBit.symm
  have hPorts : ∀ p ∈ insidePorts, (p / 32 = 1 → p % 32 < 4) ∧ p ∉ closedPorts := by decide
  rintro (⟨hWord, hSet⟩ | hMem)
  · exact Bool.false_ne_true ((hBits _ ((hPorts p hp).1 hWord)).symm.trans hSet)
  · exact (hPorts p hp).2 hMem

/-- Nothing keeps a task from the ports but what the CPU takes for a bitmap: the fields of the task state
segment, and whatever lies behind it. Among the fields no bit is set for a port that the kernel uses. -/
theorem task_ports (h : Reachable linked m) (hUser : m.cpu.esp = .user addr)
    (hStacked : Stacked linked base) (hRing : iopl m.cpu.eflags < m.cpu.cs.setWidth 2)
    {memory : Nat → Bool} (hMemory : ∀ n < 8 * tssSize, memory n = (m.tss linked bootStack).bit n)
    {entry : GdtEntry} (hEntry : (gdtInstall segment)[5]? = some entry) :
    (∀ p width, p + width ≤ 2 ^ 16 →
      (portOpen memory (Segment.read entry.word).limit (m.tss linked bootStack).bitmap.toNat
          (m.cpu.cs.setWidth 2) (iopl m.cpu.eflags) p width ↔ ∀ i < width, memory (p + i) = false)) ∧
      (∀ p < 8 * tssSize,
        memory p ↔ Closed (base + BitVec.ofNat 32 (kernelStackSize * m.current) - 16) p) ∧
      (base.toNat % 16 = 0 → ∀ p width, DevicePort p width →
        (portOpen memory (Segment.read entry.word).limit (m.tss linked bootStack).bitmap.toNat
          (m.cpu.cs.setWidth 2) (iopl m.cpu.eflags) p width ↔
          p < 8 * tssSize ∨ ∀ i < width, memory (p + i) = false)) := by
  obtain ⟨q, hInv⟩ := reachable_inv h
  have hTask : m.current ≠ 0 := by
    have hFits := hInv.fits
    rw [Fits, hUser] at hFits
    exact hFits.1
  have hTss : m.tss linked bootStack = { Tss.install bootStack with
      esp0 := base + BitVec.ofNat 32 (kernelStackSize * m.current) - 16 } := by
    rw [tss, hInv.esp0 hTask, ← address_bottom hStacked hTask]
  have hLimit : (Segment.read entry.word).limit = 103 * 4096 + 4095 := by
    obtain rfl := Option.some.inj hEntry
    rw [Segment.read_configure]
    rfl
  have hAll : ∀ p width, p + width ≤ 2 ^ 16 →
      (portOpen memory (Segment.read entry.word).limit (m.tss linked bootStack).bitmap.toNat
          (m.cpu.cs.setWidth 2) (iopl m.cpu.eflags) p width ↔ ∀ i < width, memory (p + i) = false) := by
    intro p width hp
    have hBitmap : (m.tss linked bootStack).bitmap.toNat = 0 := by
      rw [hTss]
      rfl
    have hInside : p / 8 + 1 ≤ 103 * 4096 + 4095 := by omega
    rw [hLimit, hBitmap, portOpen, decide_eq_false (BitVec.not_le.mpr hRing), Bool.false_or,
      Nat.zero_add, decide_eq_true hInside, Bool.true_and, List.all_eq_true]
    refine forall_congr' fun i => ?_
    rw [List.mem_range, Nat.mul_zero, Nat.zero_add, Bool.not_eq_true']
  have hFields : ∀ p < 8 * tssSize,
      (memory p ↔ Closed (base + BitVec.ofNat 32 (kernelStackSize * m.current) - 16) p) := by
    intro p hp
    rw [hMemory p hp, hTss, Tss.install_bit _ _ hp]
  refine ⟨hAll, hFields, fun hAligned p width hp => ?_⟩
  obtain ⟨hWord, ⟨hIn, rfl⟩ | hBehind⟩ := hp.cases
  · have hLt := insidePorts_lt p hIn
    refine iff_of_true ((hAll p 1 hWord).mpr fun i hi => ?_) (Or.inl (by omega))
    obtain rfl := Nat.lt_one_iff.mp hi
    rw [Nat.add_zero, Bool.eq_false_iff, ne_eq, hFields p (by omega)]
    refine inside_open ?_ hIn
    have hSize : kernelStackSize = 16 * 512 := rfl
    have hBelow : (16 : BitVec 32).toNat = 16 := rfl
    rw [hSize, BitVec.toNat_sub, BitVec.toNat_add, BitVec.toNat_ofNat, hBelow]
    omega
  · rw [hAll p width hWord, or_iff_right (Nat.not_lt_of_le hBehind)]

def arrayLinked : Linked where
  address
    | .boot, cell => BitVec.ofNat 32 (4 * cell)
    | .kernel row, cell => 0x10000 + BitVec.ofNat 32 (kernelStackSize * row + 4 * cell)
  leaveKernelTask := 0x1000
  rollback := 0x2000

/-- The first task goes to ring 3, as `jump_to_user_code` does. -/
def userEvents : List Event :=
  exampleEvents.take 2 ++ [.compute { startCpu 1 0x3000 with cs := 0x1b, ss := 0x23, esp := .user 0x5000 } fun _ => 0]

/-- It may mask all interrupts, and move the cursor if there are zeros behind the segment. -/
theorem task_ports_example : ∃ m entry, exampleMachine.run arrayLinked userEvents = some m ∧
    (gdtInstall 0)[5]? = some entry ∧ ∀ p ∈ [0x21, 0xA1, 0x3D4],
      portOpen (m.tss arrayLinked 0).bit (Segment.read entry.word).limit
        (m.tss arrayLinked 0).bitmap.toNat 3 1 p 1 := by
  have hView : (exampleMachine.run arrayLinked userEvents).map (fun m => (m.cpu.esp, m.cpu.eflags, m.cpu.cs)) =
      some (.user 0x5000, 0x1202, 0x1b) := by decide
  obtain ⟨m, hm, hCpu⟩ := Option.map_eq_some_iff.mp hView
  obtain ⟨hEsp, hFlags, hCs⟩ : m.cpu.esp = .user 0x5000 ∧ m.cpu.eflags = 0x1202 ∧ m.cpu.cs = 0x1b := by
    simpa only [Prod.mk.injEq] using hCpu
  have hIopl : iopl m.cpu.eflags = 1 := hFlags ▸ rfl
  have hCpl : m.cpu.cs.setWidth 2 = 3 := hCs ▸ rfl
  have hRing : iopl m.cpu.eflags < m.cpu.cs.setWidth 2 := by
    rw [hIopl, hCpl]
    decide
  have hStacked : Stacked arrayLinked 0x10000 := fun _ _ => rfl
  have hOpen := (@task_ports arrayLinked m _ _ 0 0 (reachable_run exampleMachine_reachable hm) hEsp
    hStacked hRing _ (fun _ _ => rfl) _ rfl).2.2 rfl
  rw [hIopl, hCpl] at hOpen
  refine ⟨m, _, hm, rfl, fun p hp => ?_⟩
  rcases List.mem_cons.mp hp with rfl | hp
  · exact (hOpen _ 1 (.inside (by decide))).mpr (Or.inl (by decide))
  · rcases List.mem_cons.mp hp with rfl | hp
    · exact (hOpen _ 1 (.inside (by decide))).mpr (Or.inl (by decide))
    · obtain rfl := List.mem_singleton.mp hp
      refine (hOpen _ 1 (.cursor (Or.inl rfl))).mpr (Or.inr fun i hi => ?_)
      obtain rfl := Nat.lt_one_iff.mp hi
      have hLength : (m.tss arrayLinked 0).words.length ≤ (980 + 0) / 32 := by
        rw [show (m.tss arrayLinked 0).words.length = 26 from rfl]
        decide
      rw [Tss.bit, List.getD_eq_getElem?_getD, List.getElem?_eq_none hLength]
      rfl

end Machine
end ArtOS

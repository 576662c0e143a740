import ArtOS.Cpu.Descriptors
import ArtOS.Library.Stores
import ArtOS.Tasks.SavedContext
import Mathlib.Data.List.FinRange

/-! The way of an interrupt into the kernel: `gdt_install`, `idt_install`, `isrs_install` and
`irq_install`, the stubs of `asm/isrs.s`, `asm/apic.s` and `asm/usermodetask.s`, and the processor's
look at the two tables. -/
namespace ArtOS

/-- The entry points of the assembly code. -/
inductive Stub where
  | isr (i : Fin 32)
  | irq (i : Fin 24)
  | apicTimer
  | apicLint0
  | apicLint1
  | apicError
  | apicSvr
  | isrsyscall
  deriving DecidableEq, Repr

namespace IdtFlag
abbrev present : BitVec 8 := 0x80
abbrev ring0 : BitVec 8 := 0x00
abbrev ring3 : BitVec 8 := 0x60
abbrev bits32 : BitVec 8 := 0x08
abbrev inttrap : BitVec 8 := 0x06
abbrev trapgate : BitVec 8 := 0x07
end IdtFlag

namespace GdtFlag
abbrev dataseg : BitVec 8 := 0x02
abbrev codeseg : BitVec 8 := 0x0a
abbrev tss : BitVec 8 := 0x09
abbrev segment : BitVec 8 := 0x10
abbrev ring0 : BitVec 8 := 0x00
abbrev ring3 : BitVec 8 := 0x60
abbrev present : BitVec 8 := 0x80
abbrev gran4k : BitVec 8 := 0x80
abbrev bits32 : BitVec 8 := 0x40
end GdtFlag

/-- `sizeof(tss_t)`. -/
abbrev tssSize : Nat := 104

/-- The table of `gdt_install`. -/
def gdtInstall (taskStateSegment : BitVec 32) : List GdtEntry :=
  let gran := GdtFlag.bits32 ||| GdtFlag.gran4k
  let limit := 0xFFFFFFFF
  [configureGdtEntry 0 0 0 0,
    configureGdtEntry 0 limit
      (GdtFlag.ring0 ||| GdtFlag.segment ||| GdtFlag.codeseg ||| GdtFlag.present) gran,
    configureGdtEntry 0 limit
      (GdtFlag.ring0 ||| GdtFlag.segment ||| GdtFlag.dataseg ||| GdtFlag.present) gran,
    configureGdtEntry 0 0xFFFFFFFF
      (GdtFlag.ring3 ||| GdtFlag.segment ||| GdtFlag.codeseg ||| GdtFlag.present) gran,
    configureGdtEntry 0 limit
      (GdtFlag.ring3 ||| GdtFlag.segment ||| GdtFlag.dataseg ||| GdtFlag.present) gran,
    configureGdtEntry taskStateSegment (BitVec.ofNat 32 (tssSize - 1))
      (GdtFlag.present ||| GdtFlag.tss ||| GdtFlag.ring0) gran]

abbrev Idt := BitVec 8 → IdtEntry

namespace Stub

/-- The entry of the table that gets the stub. -/
def vector : Stub → BitVec 8
  | isr i => BitVec.ofNat 8 i
  | irq i => BitVec.ofNat 8 (32 + i)
  | apicTimer => 123
  | apicLint0 => 124
  | apicLint1 => 125
  | apicError => 126
  | apicSvr => 127
  | isrsyscall => 0x80

def flags : Stub → BitVec 8
  | isrsyscall => IdtFlag.present ||| IdtFlag.ring3 ||| IdtFlag.bits32 ||| IdtFlag.trapgate
  | _ => IdtFlag.present ||| IdtFlag.ring0 ||| IdtFlag.bits32 ||| IdtFlag.inttrap

/-- The exceptions whose error code the CPU pushes, for all that the stubs know. -/
def HasError : Stub → Prop
  | isr i => i ∈ [8, 10, 11, 12, 13, 14]
  | _ => False

instance : DecidablePred HasError
  | isr i => inferInstanceAs (Decidable (i ∈ [8, 10, 11, 12, 13, 14]))
  | irq _ | apicTimer | apicLint0 | apicLint1 | apicError | apicSvr | isrsyscall => isFalse id

/-- The operands of `push byte` in front of the jump to `common_stub`. -/
def pushes (s : Stub) : List (BitVec 8) := if s.HasError then [s.vector] else [0, s.vector]

end Stub

def idtInstall : List Stub := [.isrsyscall]

def isrsInstall : List Stub := (List.finRange 32).map .isr

def irqInstall : List Stub :=
  (List.finRange 24).map .irq ++ [.apicTimer, .apicLint0, .apicLint1, .apicError, .apicSvr]

/-- The entry points in the order in which `irq_init` installs them. -/
def irqInit : List Stub := idtInstall ++ isrsInstall ++ irqInstall

namespace Idt

/-- The table behind `irq_init`; `address` is the linker's. -/
def installed (address : Stub → BitVec 32) : Idt :=
  Stores.written
    (irqInit.map fun s => (s.vector, configureIdtEntry (address s) kernelCode s.flags))
    fun _ => ⟨0, 0, 0, 0, 0⟩

end Idt

/-- Why there is an interrupt: an instruction asks for it, or an instruction fails, or a device. -/
inductive Origin where
  | software
  | exception (error : Option (BitVec 32))
  | external
  deriving DecidableEq, Repr

namespace Origin

def error : Origin → Option (BitVec 32)
  | exception error => error
  | _ => none

/-- The bit of an error code that says that the program has not asked. -/
def ext : Origin → BitVec 32
  | software => 0
  | _ => 1

end Origin

/-- What the CPU goes on with. -/
structure Arrival where
  vector : BitVec 8
  handler : BitVec 32
  ring : BitVec 2
  error : Option (BitVec 32)
  keepsIf : Bool
  deriving DecidableEq, Repr

namespace Idt

/-- The error code that names an entry of the table. -/
def errorCode (origin : Origin) (v : BitVec 8) : BitVec 32 := v.setWidth 32 <<< 3 ||| 2 ||| origin.ext

/-- The gate of a vector, and the ring of its code segment. On the left, the exception there is in
its place. -/
def check (idt : Idt) (gdt : List GdtEntry) (origin : Origin) (cpl : BitVec 2) (v : BitVec 8) :
    (BitVec 8 × BitVec 32) ⊕ (Gate × BitVec 2) :=
  let gate := Gate.read (idt v).word
  if gate.type ∉ [0x05, 0x06, 0x07, 0x0E, 0x0F] then .inl (13, errorCode origin v)
  else if origin = .software ∧ gate.dpl < cpl then .inl (13, errorCode origin v)
  else if !gate.present then .inl (11, errorCode origin v)
  else
    match gdt[(gate.selector >>> 3).toNat]? with
    | none => .inl (13, gate.selector.setWidth 32 &&& 0xFFFC ||| origin.ext)
    | some entry =>
        let code := Segment.read entry.word
        if code.system ∨ ¬ code.type.getLsbD 3 ∨ cpl < code.dpl then
          .inl (13, gate.selector.setWidth 32 &&& 0xFFFC ||| origin.ext)
        else if !code.present then .inl (11, gate.selector.setWidth 32 &&& 0xFFFC ||| origin.ext)
        else .inr (gate, if code.type.getLsbD 2 then cpl else code.dpl)

/-- What the CPU does about an interrupt; `none` stands for the failures after a second failure. -/
def deliver (idt : Idt) (gdt : List GdtEntry) (origin : Origin) (cpl : BitVec 2) (v : BitVec 8) :
    Option Arrival :=
  match idt.check gdt origin cpl v with
  | .inr (gate, ring) => some ⟨v, gate.offset, ring, origin.error, gate.type.getLsbD 0⟩
  | .inl (fault, error) =>
      match idt.check gdt (.exception (some error)) cpl fault with
      | .inr (gate, ring) => some ⟨fault, gate.offset, ring, some error, gate.type.getLsbD 0⟩
      | .inl _ => none

end Idt

/-- The functions that get into `irq_routines`. -/
inductive Routine where
  | faultHandler
  | fpuHandler
  | pageFaultHandler
  | timerHandler
  | keyboardHandler
  | apicErrHandler
  deriving DecidableEq, Repr

abbrev maxHandlers : Nat := 256

abbrev Routines := Nat → Option Routine

namespace Routines

def irqInstallHandler (routines : Routines) (irq : Nat) (handler : Routine) : Routines × Int :=
  if maxHandlers ≤ irq then (routines, -einval)
  else (Function.update routines irq (some handler), 0)

def irqUninstallHandler (routines : Routines) (irq : Nat) : Routines × Int :=
  if maxHandlers ≤ irq then (routines, -einval)
  else (Function.update routines irq none, 0)

/-- The end of `isrs_install`. -/
def isrsInstall (routines : Routines) : Routines :=
  let routines := (List.range 32).foldl (fun r i => (r.irqInstallHandler i .faultHandler).1) routines
  let routines := (routines.irqUninstallHandler 7).1
  (routines.irqInstallHandler 7 .fpuHandler).1

def timerInit (routines : Routines) : Routines :=
  ((routines.irqInstallHandler 32 .timerHandler).1.irqInstallHandler 123 .timerHandler).1

def keyboardInstall (routines : Routines) : Routines :=
  (routines.irqInstallHandler 33 .keyboardHandler).1

def pageInit (routines : Routines) : Routines :=
  ((routines.irqUninstallHandler 14).1.irqInstallHandler 14 .pageFaultHandler).1

def apicInit (found : Bool) (routines : Routines) : Routines :=
  if found then (routines.irqInstallHandler 126 .apicErrHandler).1 else routines

/-- The calls of `ArtOS_init` and of `system_calibration`, in their order. -/
def booted (found : Bool) : Routines :=
  apicInit found (pageInit (timerInit (keyboardInstall (isrsInstall fun _ => none))))

/-- The look of `irq_handler` for a routine. -/
def find (routines : Routines) (intNo : BitVec 32) : Option Routine :=
  if intNo.toNat < maxHandlers then routines intNo.toNat else none

end Routines

namespace Stub

theorem mem_irqInit (s : Stub) : s ∈ irqInit := by
  cases s <;> simp [irqInit, idtInstall, isrsInstall, irqInstall]

theorem vectors_nodup : (irqInit.map vector).Nodup := by decide

theorem vector_injective : Function.Injective vector := fun s t h =>
  List.inj_on_of_nodup_map vectors_nodup s.mem_irqInit t.mem_irqInit h

theorem flags_eq (s : Stub) : s.flags = if s = isrsyscall then 0xEF else 0x8E := by
  cases s <;> rfl

end Stub

namespace Idt

variable {address : Stub → BitVec 32} {tss : BitVec 32} {origin : Origin} {cpl : BitVec 2} {v : BitVec 8}

theorem targets_nodup : (Stores.targets
    (irqInit.map fun s => (s.vector, configureIdtEntry (address s) kernelCode s.flags))).Nodup := by
  rw [Stores.targets, List.map_map]
  exact Stub.vectors_nodup

theorem installed_vector (address : Stub → BitVec 32) (s : Stub) :
    installed address s.vector = configureIdtEntry (address s) kernelCode s.flags :=
  Stores.written_of_nodup targets_nodup (List.mem_map.mpr ⟨s, s.mem_irqInit, rfl⟩)

theorem installed_of_none (h : ∀ s : Stub, s.vector ≠ v) : installed address v = ⟨0, 0, 0, 0, 0⟩ := by
  refine Stores.written_of_not_mem fun hMem => ?_
  rw [Stores.targets, List.map_map] at hMem
  obtain ⟨s, -, hs⟩ := List.mem_map.mp hMem
  exact h s hs

/-- The gates of `irq_init` as the CPU reads them. -/
theorem read_installed (address : Stub → BitVec 32) (s : Stub) :
    Gate.read (installed address s.vector).word =
      ⟨address s, kernelCode, if s = .isrsyscall then 0x0F else 0x0E,
        if s = .isrsyscall then 3 else 0, true⟩ := by
  rw [installed_vector, Gate.read_configure, Stub.flags_eq]
  by_cases h : s = .isrsyscall
  · simp only [if_pos h]
    rfl
  · simp only [if_neg h]
    rfl

/-- The kernel's code segment. -/
theorem read_kernelCode (tss : BitVec 32) : ∃ entry, (gdtInstall tss)[(kernelCode >>> 3).toNat]? = some entry ∧
    Segment.read entry.word = ⟨0, 0xFFFFF, 0x0A, false, 0, true, false, false, true, true⟩ := by
  refine ⟨_, rfl, ?_⟩
  rw [Segment.read_configure]
  rfl

/-- A gate can be entered unless a program of a lower ring asks for it. -/
theorem check_vector (s : Stub) :
    (installed address).check (gdtInstall tss) origin cpl s.vector =
      if origin = .software ∧ s ≠ .isrsyscall ∧ cpl ≠ 0 then .inl (13, errorCode origin s.vector)
      else .inr (⟨address s, kernelCode, if s = .isrsyscall then 0x0F else 0x0E,
        if s = .isrsyscall then 3 else 0, true⟩, 0) := by
  obtain ⟨entry, hEntry, hCode⟩ := read_kernelCode tss
  have hType : (if s = .isrsyscall then 0x0F else 0x0E : BitVec 5) ∈
      ([0x05, 0x06, 0x07, 0x0E, 0x0F] : List (BitVec 5)) := by
    split <;> decide
  have hLast : ∀ c : BitVec 2, ¬ 3 < c := by decide
  have hFirst : ∀ c : BitVec 2, ¬ c < 0 ∧ (0 < c ↔ c ≠ 0) := by decide
  have hRing : (origin = .software ∧ (if s = .isrsyscall then 3 else 0 : BitVec 2) < cpl) ↔
      (origin = .software ∧ s ≠ .isrsyscall ∧ cpl ≠ 0) := by
    by_cases h : s = .isrsyscall
    · rw [if_pos h]
      exact ⟨fun h' => absurd h'.2 (hLast cpl), fun h' => absurd h h'.2.1⟩
    · rw [if_neg h, (hFirst cpl).2]
      exact and_congr_right fun _ => (and_iff_right h).symm
  simp only [check, read_installed, hEntry, hCode]
  rw [if_neg (not_not.mpr hType)]
  simp only [hRing]
  refine if_congr Iff.rfl rfl ?_
  have hCodeRing : ¬ (false = true ∨ ¬ BitVec.getLsbD (0x0A : BitVec 4) 3 = true ∨ cpl < 0) := by
    exact fun h => h.elim (by decide) fun h => h.elim (by decide) (hFirst cpl).1
  rw [if_neg (by simp), if_neg hCodeRing, if_neg (by simp)]
  rfl

theorem check_of_none (h : ∀ s : Stub, s.vector ≠ v) :
    (installed address).check (gdtInstall tss) origin cpl v = .inl (13, errorCode origin v) := by
  rw [check, installed_of_none h]
  exact if_pos (by decide)

/-- A failure there is never refused. -/
theorem check_fault {error : BitVec 32} :
    (installed address).check (gdtInstall tss) (.exception (some error)) cpl 13 =
      .inr (⟨address (.isr 13), kernelCode, 0x0E, 0, true⟩, 0) :=
  (check_vector (.isr 13)).trans (if_neg fun h => Origin.noConfusion h.1)

/-- A program of a lower ring that asks for anything but a system call gets a general protection
fault. -/
theorem deliver_vector (s : Stub) : (installed address).deliver (gdtInstall tss) origin cpl s.vector =
    some (if origin = .software ∧ s ≠ .isrsyscall ∧ cpl ≠ 0 then
        ⟨13, address (.isr 13), 0, some (errorCode origin s.vector), false⟩
      else ⟨s.vector, address s, 0, origin.error, s = .isrsyscall⟩) := by
  rw [deliver, check_vector]
  split_ifs with hRefused hSyscall
  · simp only [check_fault]
    rfl
  · simp only [hSyscall]
    rfl
  · simp only [hSyscall]
    rfl

theorem deliver_of_none (h : ∀ s : Stub, s.vector ≠ v) :
    (installed address).deliver (gdtInstall tss) origin cpl v =
      some ⟨13, address (.isr 13), 0, some (errorCode origin v), false⟩ := by
  rw [deliver, check_of_none h]
  simp only [check_fault]
  rfl

end Idt

namespace Routines

variable {routines : Routines} {irq n k : Nat} {handler : Routine}

theorem install_apply (h : irq < maxHandlers) :
    (routines.irqInstallHandler irq handler).1 n = if n = irq then some handler else routines n := by
  rw [irqInstallHandler, if_neg (Nat.not_le.mpr h)]
  exact Function.update_apply ..

theorem uninstall_apply (h : irq < maxHandlers) :
    (routines.irqUninstallHandler irq).1 n = if n = irq then none else routines n := by
  rw [irqUninstallHandler, if_neg (Nat.not_le.mpr h)]
  exact Function.update_apply ..

theorem foldl_install (hk : k ≤ maxHandlers) :
    (List.range k).foldl (fun r i => (r.irqInstallHandler i handler).1) routines n =
      if n < k then some handler else routines n := by
  induction k with
  | zero => rfl
  | succ k ih =>
      rw [List.range_succ, List.foldl_concat, install_apply hk, ih (Nat.le_of_succ_le hk), ← ite_or]
      exact if_congr (by omega) rfl rfl

/-- The routine of every number, once the kernel is up. -/
theorem booted_eq (found : Bool) (n : Nat) : booted found n =
    if n = 7 then some .fpuHandler
    else if n = 14 then some .pageFaultHandler
    else if n < 32 then some .faultHandler
    else if n = 32 ∨ n = 123 then some .timerHandler
    else if n = 33 then some .keyboardHandler
    else if n = 126 ∧ found then some .apicErrHandler
    else none := by
  have hApic : booted found n = if n = 126 ∧ found then some .apicErrHandler
      else pageInit (timerInit (keyboardInstall (isrsInstall fun _ => none))) n := by
    rw [booted, apicInit]
    split
    · rename_i h
      rw [install_apply (by decide)]
      exact if_congr (and_iff_left h).symm rfl rfl
    · rename_i h
      exact (if_neg fun h' => h h'.2).symm
  rw [hApic]
  simp (disch := decide) only [pageInit, timerInit, keyboardInstall, isrsInstall, install_apply,
    uninstall_apply, foldl_install]
  split_ifs <;> first | rfl | omega

theorem find_word (routines : Routines) (v : BitVec 8) : routines.find (v.setWidth 32) = routines v.toNat := by
  have hv : (v.setWidth 32).toNat = v.toNat := by
    rw [BitVec.toNat_setWidth, Nat.mod_eq_of_lt (v.isLt.trans (by decide))]
  rw [find, hv, if_pos v.isLt]

end Routines

namespace Stub

/-- The stubs push bytes, which the CPU extends with the sign bit: no vector of theirs has it. -/
theorem pushes_word {s : Stub} (h : s ≠ isrsyscall) : s.pushes.map (·.signExtend 32) =
    if s.HasError then [s.vector.setWidth 32] else [0, s.vector.setWidth 32] := by
  have hSign : s.vector.signExtend 32 = s.vector.setWidth 32 := by
    cases s with
    | isr i => revert i; decide
    | irq i => revert i; decide
    | apicTimer | apicLint0 | apicLint1 | apicError | apicSvr => rfl
    | isrsyscall => exact absurd rfl h
  rw [pushes]
  split <;> simp [hSign]

end Stub

namespace Machine

open WordStack

variable {m : Machine} {linked : Linked} {area : StackArea} {addr : BitVec 32}

/-- The CPU has pushed an error code of which the stub does not know: the handler takes it for the
address at which the program was. -/
theorem commonStub_misread (linked : Linked) (hEsp : m.cpu.esp = .user addr)
    (hTop : m.esp0 = some (area, stackBottom)) (e intNo : BitVec 32) :
    ∃ s, m.commonStub linked [e, 0, intNo] = some (area, s) ∧
      ∀ cells, s.Kept cells → (frameAt ⟨cells, s.sp⟩).intNo = intNo ∧
        (frameAt ⟨cells, s.sp⟩).error = 0 ∧ (frameAt ⟨cells, s.sp⟩).eip = e ∧
        (frameAt ⟨cells, s.sp⟩).cs = m.cpu.eip := by
  have hBottom : 18 ≤ stackBottom := by decide
  obtain ⟨esp, hStub⟩ : ∃ esp, m.commonStub linked [e, 0, intNo] = some (area,
      (WordStack.mk (m.contents area) stackBottom).pushAll
        [word m.cpu.ss, addr, m.cpu.eflags, word m.cpu.cs, m.cpu.eip, e, 0, intNo, m.cpu.eax,
          m.cpu.ecx, m.cpu.edx, m.cpu.ebx, esp, m.cpu.ebp, m.cpu.esi, m.cpu.edi, word m.cpu.es,
          word m.cpu.ds]) := ⟨_, by rw [commonStub, trap, hEsp, hTop]; rfl⟩
  refine ⟨_, hStub, fun cells hKept => ?_⟩
  rw [pushAll_sp]
  exact ⟨hKept.read rfl hBottom (i := 10) rfl, hKept.read rfl hBottom (i := 11) rfl,
    hKept.read rfl hBottom (i := 12) rfl, hKept.read rfl hBottom (i := 13) rfl⟩

end Machine

namespace Stub

/-- The stack at the call of `irq_handler`, if the gate of the stub has been entered. -/
def enter (linked : Linked) (m : Machine) (error : Option (BitVec 32)) (s : Stub) :
    Option (StackArea × WordStack (BitVec 32)) :=
  m.commonStub linked (error.toList ++ s.pushes.map (·.signExtend 32))

variable {linked : Linked} {m : Machine} {s : Stub} {error : Option (BitVec 32)}

theorem enter_eq (linked : Linked) (m : Machine) (h : s ≠ isrsyscall)
    (hError : error.isSome ↔ s.HasError) :
    s.enter linked m error = m.commonStub linked [error.getD 0, s.vector.setWidth 32] := by
  rw [enter, pushes_word h]
  by_cases hHas : s.HasError
  · obtain ⟨e, rfl⟩ := Option.isSome_iff_exists.mp (hError.mpr hHas)
    rw [if_pos hHas]
    rfl
  · obtain rfl := Option.not_isSome_iff_eq_none.mp (mt hError.mp hHas)
    rw [if_neg hHas]
    rfl

end Stub

namespace Idt

open Machine

variable {linked : Linked} {m : Machine}

/-- The interrupt does not get to a stub of its own. -/
def Refused (origin : Origin) (cpl : BitVec 2) (v : BitVec 8) : Prop :=
  (∀ s : Stub, s.vector ≠ v) ∨ origin = .software ∧ cpl ≠ 0 ∧ v ≠ Stub.isrsyscall.vector

/-- What the CPU does about an interrupt: it runs a stub in ring 0, which is that of the vector if
there is one and the program may ask for it. -/
theorem deliver_spec (address : Stub → BitVec 32) (tss : BitVec 32) (origin : Origin)
    (cpl : BitVec 2) (v : BitVec 8) :
    ∃ s a, (installed address).deliver (gdtInstall tss) origin cpl v = some a ∧
      a.handler = address s ∧ a.ring = 0 ∧ (a.keepsIf ↔ s = .isrsyscall) ∧
      (Refused origin cpl v → s = .isr 13 ∧ a.error = some (errorCode origin v)) ∧
      (¬ Refused origin cpl v → s.vector = v ∧ a.error = origin.error) := by
  by_cases hStub : ∀ s : Stub, s.vector ≠ v
  · refine ⟨.isr 13, _, deliver_of_none hStub, rfl, rfl, ?_, fun _ => ⟨rfl, rfl⟩,
      fun h => absurd (Or.inl hStub) h⟩
    exact iff_of_false Bool.false_ne_true fun h => Stub.noConfusion h
  · obtain ⟨s, rfl⟩ := not_forall_not.mp hStub
    have hRefused : Refused origin cpl s.vector ↔ origin = .software ∧ s ≠ .isrsyscall ∧ cpl ≠ 0 := by
      rw [Refused, or_iff_right hStub, Stub.vector_injective.ne_iff, and_comm (a := cpl ≠ 0)]
    by_cases h : origin = .software ∧ s ≠ .isrsyscall ∧ cpl ≠ 0
    · refine ⟨.isr 13, _, (deliver_vector s).trans (congrArg some (if_pos h)), rfl, rfl, ?_,
        fun _ => ⟨rfl, rfl⟩, fun h' => absurd (hRefused.mpr h) h'⟩
      exact iff_of_false Bool.false_ne_true fun h => Stub.noConfusion h
    · refine ⟨s, _, (deliver_vector s).trans (congrArg some (if_neg h)), rfl, rfl, ?_,
        fun h' => absurd (hRefused.mp h') h, fun _ => ⟨rfl, rfl⟩⟩
      exact decide_eq_true_iff

/-- Whatever interrupts the kernel or a task, the CPU finds an entry point, and a program of a lower
ring that asks gets only to `isrsyscall` or to a failure. `irq_handler` gets the number and the
error code, and has a routine for each failure; afterwards the CPU goes on with what it has been
at. If there is an error code that the stub does not expect, the handler takes it for an address. -/
theorem interrupt_dispatched (h : Machine.Reachable linked m) (hRoom : Machine.Room m.cpu)
    (address : Stub → BitVec 32) (tss : BitVec 32) (found : Bool) (origin : Origin) (v : BitVec 8) :
    ∃ s a, (installed address).deliver (gdtInstall tss) origin (m.cpu.cs.setWidth 2) v = some a ∧
      a.handler = address s ∧ a.ring = 0 ∧ (a.keepsIf ↔ s = .isrsyscall) ∧
      (Refused origin (m.cpu.cs.setWidth 2) v → s = .isr 13 ∧ a.error = some (errorCode origin v)) ∧
      (¬ Refused origin (m.cpu.cs.setWidth 2) v → s.vector = v ∧ a.error = origin.error) ∧
      (s ≠ .isrsyscall → (a.error.isSome ↔ s.HasError) →
        ∃ stack, s.enter linked m a.error = some (areaOf m.current, stack) ∧
          ∀ cells, stack.Kept cells →
            (frameAt ⟨cells, stack.sp⟩).error = a.error.getD 0 ∧
            (frameAt ⟨cells, stack.sp⟩).intNo = s.vector.setWidth 32 ∧
            leave (areaOf m.current) kernelData ⟨cells, stack.sp⟩ = m.cpu) ∧
      (s.vector.toNat < 32 → ((Routines.booted found).find (s.vector.setWidth 32)).isSome) ∧
      ∀ e addr, s ≠ .isrsyscall → ¬ s.HasError → a.error = some e → m.cpu.esp = .user addr →
        ∃ stack, s.enter linked m a.error = some (areaOf m.current, stack) ∧
          ∀ cells, stack.Kept cells → (frameAt ⟨cells, stack.sp⟩).error = 0 ∧
            (frameAt ⟨cells, stack.sp⟩).eip = e := by
  obtain ⟨q, hInv⟩ := reachable_inv h
  obtain ⟨s, a, hDeliver, hHandler, hRing, hKeeps, hRefused, hOwn⟩ :=
    deliver_spec address tss origin (m.cpu.cs.setWidth 2) v
  refine ⟨s, a, hDeliver, hHandler, hRing, hKeeps, hRefused, hOwn, fun hStub hError => ?_,
    fun _ => ?_, fun e addr hStub hHas he hEsp => ?_⟩
  · obtain ⟨stack, hStack, -, -, hFrame⟩ := commonStub_spec linked hInv.fits hRoom hInv.esp0
      (a.error.getD 0) (s.vector.setWidth 32)
    exact ⟨stack, (Stub.enter_eq linked m hStub hError).trans hStack, hFrame⟩
  · rw [Routines.find_word, Routines.booted_eq]
    split_ifs <;> rfl
  · have hUser : m.current ≠ 0 := by
      have hFits := hInv.fits
      rw [Fits, hEsp] at hFits
      exact hFits.1
    obtain ⟨stack, hStack, hFrame⟩ :=
      commonStub_misread linked hEsp (hInv.esp0 hUser) e (s.vector.setWidth 32)
    refine ⟨stack, ?_, fun cells hKept => (hFrame cells hKept).2.imp_right And.left⟩
    rw [Stub.enter, Stub.pushes_word hStub, if_neg hHas, he]
    exact hStack

/-- A device asks the idle task for attention. -/
theorem interrupt_dispatched_example : ∃ (s : Stub) (a : Arrival),
    (installed fun _ => 0).deliver (gdtInstall 0) .external 0 33 = some a ∧ a.handler = 0 ∧
      s.vector = 33 ∧ a.error = none := by
  obtain ⟨s, a, hDeliver, hHandler, -, -, -, hOwn, -⟩ := interrupt_dispatched
    (@exampleMachine_reachable exampleLinked) (by decide) (fun _ => 0) 0 false .external 33
  have hOpen : ¬ Refused .external (exampleMachine.cpu.cs.setWidth 2) 33 := by
    rintro (h | h)
    · exact h (.irq 1) rfl
    · exact Origin.noConfusion h.1
  exact ⟨s, a, hDeliver, hHandler, hOwn hOpen⟩

end Idt
end ArtOS

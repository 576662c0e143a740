import ArtOS.Devices.ApicTable
import ArtOS.Devices.MpSearch
import ArtOS.Devices.Terminal

/-! The accesses of `apic_probe` and `apic_calibration` to their two arrays. An interrupt of the ISA bus is
not compared with 16, and `boot_processor` may still be behind the end of `apic_processors`. -/
namespace ArtOS

/-- What the processor and the APICs answer. -/
structure ApicHardware where
  hasApic : Bool
  hasX2apic : Bool
  apicVersion : Nat
  lvtEntries : Nat
  maxRedirectionEntry : Nat

namespace Apic

def enxio : Int := 6

/-- `LAPIC_ADDR`, two pages before `kernel_start`. -/
abbrev lapicAddr : Nat := 0xFE000

example : lapicAddr = kernelStart - 2 * pageSize := rfl

section Probe

variable (hw : ApicHardware) (mem : Nat → BitVec 8)

/-- The configuration table that the floating pointer structure leads to. -/
def mpConfig (apicMp : Nat) : Option Nat :=
  if apicMp = 0 then none
  else if features mem apicMp 0 ≠ 0 then none
  else
    let config := ByteMemory.load32 mem (apicMp + 4)
    if config = 0 ∨ strncmp mem (fun i => (ascii "PCMP").getD i 0) config 0 4 ≠ 0 then none else some config

/-- The label `out`. -/
def out (s : Apic) : Apic × Int := ({ s with lapic := 0, ncores := 1 }, -enxio)

/-- The address of the local APIC. -/
def findLapic (config : Option Nat) (s : Apic) : Nat :=
  match config with
  | some config => configLapic mem config
  | none => if hw.hasApic then 0xFEE00000 else s.lapic

/-- From the label `check_lapic` on. -/
def checkLapic (config : Option Nat) (s : Apic) : Apic × Int :=
  let s := { s with lapic := findLapic hw mem config s }
  if s.lapic = 0 then s.out
  else
    let s := if hw.hasX2apic then s else { s with lapic := lapicAddr }
    if hw.apicVersion >>> 4 = 0 then s.out
    else if hw.lvtEntries < 3 then s.out
    else (s, 0)

/-- `apic_probe` behind the two searches; `apicMp` is what they have found. -/
def apicProbe (apicMp : Nat) (s : Apic) : Apic × Int :=
  match mpConfig mem apicMp with
  | none => checkLapic hw mem none { s with ncores := 1 }
  | some config =>
      let x := passes mem config s
      if x.count > maxCores then checkLapic hw mem none { x.state with ncores := 1 }
      else checkLapic hw mem (some config) { x.state with ncores := x.count }

/-- The accesses of `ioapic_inton` and `ioapic_intoff`. -/
def ioapicAccesses (irq : Nat) : List ArrayAccess :=
  if irq > 24 then []
  else if irq < 16 then [.irqRedirect irq]
  else []

/-- The access to `apic_processors[boot_processor]->id`, and the call with it. -/
def routeAccesses (s : Apic) (irq : Nat) : List ArrayAccess :=
  .getProcessor s.bootProcessor (s.apicProcessors s.bootProcessor) :: ioapicAccesses (irq % 2 ^ 8)

def apicCalibration (s : Apic) : Apic × Int :=
  if s.lapic = 0 then (s, -enxio)
  else if s.ioapic ≠ 0 then
    let irqs := (List.range (hw.maxRedirectionEntry + 1)).filter (· ≠ 2)
    ({ s with accesses := s.accesses ++ irqs.flatMap s.routeAccesses ++ s.routeAccesses 2 }, 0)
  else (s, 0)

/-- The array has this index, and a processor that is read there has been recorded. -/
def InBounds : ArrayAccess → Prop
  | .setProcessor index => index < maxCores
  | .getProcessor index entry => index < maxCores ∧ entry ≠ none
  | .irqRedirect index => index < 16

/-- All accesses of the two functions are in bounds. -/
def AccessesInBounds (apicMp : Nat) : Prop :=
  ∀ x ∈ (apicCalibration hw (apicProbe hw mem apicMp initial).1).1.accesses, InBounds x

/-- The entries of the table, if there is one. -/
def tableEntries (apicMp : Nat) : List Nat := (mpConfig mem apicMp).elim [] (configEntries mem)

def UsableProcessor (addr : Nat) : Prop := entryType mem addr = 0 ∧ Usable mem addr

instance : DecidablePred (UsableProcessor mem) := fun _ => inferInstanceAs (Decidable (_ ∧ _))

def usableProcessors (apicMp : Nat) : List Nat := (tableEntries mem apicMp).filter (UsableProcessor mem)

/-- Where the local APIC is. A table with too many processors is not used for that. -/
def lapicBase (apicMp : Nat) : Nat :=
  match mpConfig mem apicMp with
  | none => if hw.hasApic then 0xFEE00000 else 0
  | some config =>
      if (usableProcessors mem apicMp).length > maxCores then if hw.hasApic then 0xFEE00000 else 0
      else configLapic mem config

/-- The probe succeeds. -/
def Enabled (apicMp : Nat) : Prop :=
  lapicBase hw mem apicMp ≠ 0 ∧ hw.apicVersion >>> 4 ≠ 0 ∧ 3 ≤ hw.lvtEntries

end Probe

variable {hw : ApicHardware} {mem : Nat → BitVec 8} {isaBus : Int} {x : Pass} {entries : List Nat}
variable {apicMp config a : Nat} {s : Apic}

/-- What holds between two entries: the processors up to `j` are recorded, and the boot processor is one of
them if it has been found. -/
structure Recorded (x : Pass) : Prop where
  few : x.j ≤ maxCores
  processors : ∀ i < x.j, x.state.apicProcessors i ≠ none
  boot : x.state.bootProcessor = maxCores ∨ x.state.bootProcessor < x.j

theorem recorded_initial : Recorded ⟨initial, 0, 0⟩ :=
  ⟨Nat.zero_le _, fun i hi => absurd hi (Nat.not_lt_zero i), Or.inl rfl⟩

/-- An interrupt entry that changes the redirection. -/
def RedirectsIsa (mem : Nat → BitVec 8) (isaBus : Int) (a : Nat) : Prop :=
  entryType mem a = 3 ∧ ((srcBus mem a).toNat : Int) = isaBus

/-- What the second pass does with an entry. -/
inductive EntryCase (mem : Nat → BitVec 8) (isaBus : Int) (a : Nat) (x : Pass) : Pass → Prop
  | recorded (hUsable : UsableProcessor mem a) (hj : x.j < maxCores) :
      EntryCase mem isaBus a x { recordProcessor mem a x with count := x.count + 1 }
  | surplus (hUsable : UsableProcessor mem a) (hj : ¬ x.j < maxCores) :
      EntryCase mem isaBus a x { x with count := x.count + 1 }
  | ioApic (hType : entryType mem a = 2) : EntryCase mem isaBus a x (ioApicEntry x)
  | redirected (hIsa : RedirectsIsa mem isaBus a) :
      EntryCase mem isaBus a x { x with
        state := { x.state with
          irqRedirect := Function.update x.state.irqRedirect (srcIrq mem a).toNat (destIntin mem a)
          accesses := x.state.accesses ++ [.irqRedirect (srcIrq mem a).toNat] } }
  | other (hUsable : ¬ UsableProcessor mem a) (hApic : entryType mem a ≠ 2) (hIsa : ¬ RedirectsIsa mem isaBus a) :
      EntryCase mem isaBus a x x

theorem entryCase (mem : Nat → BitVec 8) (isaBus : Int) (a : Nat) (x : Pass) :
    EntryCase mem isaBus a x (configEntry mem isaBus x a) := by
  rw [configEntry]
  by_cases hCpu : entryType mem a = 0
  · have hApic : entryType mem a ≠ 2 := by
      rw [hCpu]
      decide
    have hIrq : ¬ RedirectsIsa mem isaBus a := fun h => absurd (hCpu.symm.trans h.1) (by decide)
    rw [if_pos hCpu, processorEntry_eq]
    by_cases hUsable : Usable mem a
    · rw [if_pos hUsable]
      by_cases hj : x.j < maxCores
      · rw [if_pos hj]
        exact .recorded ⟨hCpu, hUsable⟩ hj
      · rw [if_neg hj]
        exact .surplus ⟨hCpu, hUsable⟩ hj
    · rw [if_neg hUsable]
      exact .other (fun h => hUsable h.2) hApic hIrq
  · have hUsable : ¬ UsableProcessor mem a := fun h => hCpu h.1
    rw [if_neg hCpu]
    by_cases hApic : entryType mem a = 2
    · rw [if_pos hApic]
      exact .ioApic hApic
    · rw [if_neg hApic]
      by_cases hIrq : entryType mem a = 3
      · rw [if_pos hIrq, ioIrqEntry]
        by_cases hBus : ((srcBus mem a).toNat : Int) = isaBus
        · rw [if_pos hBus]
          exact .redirected ⟨hIrq, hBus⟩
        · rw [if_neg hBus]
          exact .other hUsable hApic fun h => hBus h.2
      · rw [if_neg hIrq]
        exact .other hUsable hApic fun h => hIrq h.1

variable {y : Pass}

/-! An entry has only one type. -/

theorem UsableProcessor.ne_two (h : UsableProcessor mem a) : entryType mem a ≠ 2 := by
  rw [h.1]
  decide

theorem RedirectsIsa.ne_two (h : RedirectsIsa mem isaBus a) : entryType mem a ≠ 2 := by
  rw [h.1]
  decide

theorem UsableProcessor.not_redirects (h : UsableProcessor mem a) : ¬ RedirectsIsa mem isaBus a :=
  fun hIsa => absurd (h.1.symm.trans hIsa.1) (by decide)

theorem Recorded.next (h : Recorded x) (hCase : EntryCase mem isaBus a x y) : Recorded y := by
  cases hCase with
  | recorded hUsable hj =>
      refine ⟨hj, fun i hi => ?_, ?_⟩
      · show Function.update x.state.apicProcessors x.j (some a) i ≠ none
        have hNext : i < x.j + 1 := hi
        rw [Function.update_apply]
        split
        · simp
        · exact h.processors i (by omega)
      · show (if Boots mem a then x.j else x.state.bootProcessor) = maxCores ∨
          (if Boots mem a then x.j else x.state.bootProcessor) < x.j + 1
        split
        · exact Or.inr (Nat.lt_succ_self _)
        · exact h.boot.imp_right Nat.lt_succ_of_lt
  | surplus hUsable hj => exact ⟨h.few, h.processors, h.boot⟩
  | ioApic hType => exact ⟨h.few, h.processors, h.boot⟩
  | redirected hIsa => exact ⟨h.few, h.processors, h.boot⟩
  | other hUsable hApic hIsa => exact h

/-- The processors from `j` on that the pass still records, as far as this entry goes. -/
theorem boots_entry (hCase : EntryCase mem isaBus a x y) (later : List Nat) :
    (y.state.bootProcessor ≠ maxCores ∨ ∃ b ∈ (later.filter (UsableProcessor mem)).take (maxCores - y.j), Boots mem b) ↔
      x.state.bootProcessor ≠ maxCores ∨
        ∃ b ∈ ((a :: later).filter (UsableProcessor mem)).take (maxCores - x.j), Boots mem b := by
  have hNone : ¬ UsableProcessor mem a → (a :: later).filter (UsableProcessor mem) =
      later.filter (UsableProcessor mem) := fun hNot => List.filter_cons_of_neg (by simpa using hNot)
  have hSome : UsableProcessor mem a → (a :: later).filter (UsableProcessor mem) =
      a :: later.filter (UsableProcessor mem) := fun hUsable => List.filter_cons_of_pos (by simpa using hUsable)
  cases hCase with
  | recorded hUsable hj =>
      have hLeft : maxCores - x.j = maxCores - (x.j + 1) + 1 := by omega
      have hState : (recordProcessor mem a x).state.bootProcessor ≠ maxCores ↔
          Boots mem a ∨ x.state.bootProcessor ≠ maxCores := by
        show (if Boots mem a then x.j else x.state.bootProcessor) ≠ maxCores ↔ _
        by_cases hBoots : Boots mem a
        · rw [if_pos hBoots]
          exact iff_of_true (Nat.ne_of_lt hj) (Or.inl hBoots)
        · rw [if_neg hBoots, or_iff_right hBoots]
      rw [hSome hUsable, hLeft, List.take_succ_cons, List.exists_mem_cons_iff]
      show (recordProcessor mem a x).state.bootProcessor ≠ maxCores ∨
        (∃ b ∈ (later.filter (UsableProcessor mem)).take (maxCores - (x.j + 1)), Boots mem b) ↔ _
      rw [hState, or_assoc, or_left_comm]
  | surplus hUsable hj =>
      have hLeft : maxCores - x.j = 0 := by omega
      show x.state.bootProcessor ≠ maxCores ∨
        (∃ b ∈ (later.filter (UsableProcessor mem)).take (maxCores - x.j), Boots mem b) ↔ _
      rw [hLeft, List.take_zero, List.take_zero]
  | ioApic hType =>
      rw [hNone fun hUsable => hUsable.ne_two hType]
      exact Iff.rfl
  | redirected hIsa =>
      rw [hNone fun hUsable => hUsable.not_redirects hIsa]
  | other hUsable hApic hIsa => rw [hNone hUsable]

/-- Of the accesses of the pass only those of the interrupt entries may be out of bounds. -/
theorem accesses_entry (hCase : EntryCase mem isaBus a x y) :
    (∀ b ∈ y.state.accesses, InBounds b) ↔ (∀ b ∈ x.state.accesses, InBounds b) ∧
      (RedirectsIsa mem isaBus a → (srcIrq mem a).toNat < 16) := by
  have hOther : ¬ RedirectsIsa mem isaBus a → (RedirectsIsa mem isaBus a → (srcIrq mem a).toNat < 16) :=
    fun hNot h => absurd h hNot
  cases hCase with
  | recorded hUsable hj =>
      have hIn : InBounds (.setProcessor x.j) := hj
      show (∀ b ∈ x.state.accesses ++ [.setProcessor x.j], InBounds b) ↔ _
      rw [List.forall_mem_append, List.forall_mem_singleton, and_iff_left hIn, and_iff_left (hOther hUsable.not_redirects)]
  | surplus hUsable hj => exact (and_iff_left (hOther hUsable.not_redirects)).symm
  | ioApic hType => exact (and_iff_left (hOther fun hIsa => hIsa.ne_two hType)).symm
  | redirected hRedirects =>
      show (∀ b ∈ x.state.accesses ++ [.irqRedirect (srcIrq mem a).toNat], InBounds b) ↔ _
      rw [List.forall_mem_append, List.forall_mem_singleton, forall_prop_of_true hRedirects]
      exact Iff.rfl
  | other hUsable hApic hNot => exact (and_iff_left (hOther hNot)).symm

theorem ioapic_entry (hCase : EntryCase mem isaBus a x y) :
    y.state.ioapic ≠ 0 ↔ entryType mem a = 2 ∨ x.state.ioapic ≠ 0 := by
  cases hCase with
  | recorded hUsable hj => exact (or_iff_right hUsable.ne_two).symm
  | surplus hUsable hj => exact (or_iff_right hUsable.ne_two).symm
  | ioApic hType =>
      have hMapped : ioapicAddr ≠ 0 := by decide
      exact iff_of_true hMapped (Or.inl hType)
  | redirected hRedirects => exact (or_iff_right hRedirects.ne_two).symm
  | other hUsable hApic hNot => exact (or_iff_right hApic).symm

theorem count_entry (hCase : EntryCase mem isaBus a x y) :
    y.count = x.count + if UsableProcessor mem a then 1 else 0 := by
  cases hCase with
  | recorded hUsable hj => rw [if_pos hUsable]
  | surplus hUsable hj => rw [if_pos hUsable]
  | ioApic hType =>
      rw [if_neg fun hUsable => UsableProcessor.ne_two hUsable hType]
      rfl
  | redirected hRedirects =>
      rw [if_neg fun hUsable => UsableProcessor.not_redirects hUsable hRedirects]
      rfl
  | other hUsable hApic hNot => rw [if_neg hUsable, Nat.add_zero]

theorem lapic_entry (hCase : EntryCase mem isaBus a x y) : y.state.lapic = x.state.lapic := by
  cases hCase <;> rfl

section Foldl

variable (entries : List Nat)

theorem recorded_foldl (h : Recorded x) : Recorded (entries.foldl (configEntry mem isaBus) x) := by
  induction entries generalizing x with
  | nil => exact h
  | cons a entries ih => exact ih (h.next (entryCase mem isaBus a x))

theorem boots_foldl : (entries.foldl (configEntry mem isaBus) x).state.bootProcessor ≠ maxCores ↔
    x.state.bootProcessor ≠ maxCores ∨
      ∃ b ∈ (entries.filter (UsableProcessor mem)).take (maxCores - x.j), Boots mem b := by
  induction entries generalizing x with
  | nil => simp
  | cons a entries ih => rw [List.foldl_cons, ih, boots_entry (entryCase mem isaBus a x)]

theorem accesses_foldl : (∀ b ∈ (entries.foldl (configEntry mem isaBus) x).state.accesses, InBounds b) ↔
    (∀ b ∈ x.state.accesses, InBounds b) ∧
      ∀ a ∈ entries, RedirectsIsa mem isaBus a → (srcIrq mem a).toNat < 16 := by
  induction entries generalizing x with
  | nil => simp
  | cons a entries ih =>
      rw [List.foldl_cons, ih, accesses_entry (entryCase mem isaBus a x), List.forall_mem_cons, and_assoc]

theorem ioapic_foldl : (entries.foldl (configEntry mem isaBus) x).state.ioapic ≠ 0 ↔
    (∃ a ∈ entries, entryType mem a = 2) ∨ x.state.ioapic ≠ 0 := by
  induction entries generalizing x with
  | nil => simp
  | cons a entries ih =>
      rw [List.foldl_cons, ih, ioapic_entry (entryCase mem isaBus a x), List.exists_mem_cons_iff, or_assoc,
        or_left_comm]

theorem count_foldl : (entries.foldl (configEntry mem isaBus) x).count =
    x.count + (entries.filter (UsableProcessor mem)).length := by
  induction entries generalizing x with
  | nil => rfl
  | cons a entries ih =>
      rw [List.foldl_cons, ih, count_entry (entryCase mem isaBus a x), List.filter_cons]
      by_cases hUsable : UsableProcessor mem a
      · rw [if_pos hUsable, if_pos (decide_eq_true hUsable), List.length_cons]
        omega
      · rw [if_neg hUsable, if_neg (by simpa using hUsable), Nat.add_zero]

theorem lapic_foldl : (entries.foldl (configEntry mem isaBus) x).state.lapic = x.state.lapic := by
  induction entries generalizing x with
  | nil => rfl
  | cons a entries ih => rw [List.foldl_cons, ih, lapic_entry (entryCase mem isaBus a x)]

end Foldl

theorem passes_eq : passes mem config s = (configEntries mem config).foldl
    (configEntry mem (isaLoop mem (entryCount mem config) 0 (config + sizeofConfigTable) (-1))) ⟨s, 0, 0⟩ :=
  configLoop_eq

/-- The bus that the second pass looks for. -/
theorem redirectsIsa_iff :
    RedirectsIsa mem (isaLoop mem (entryCount mem config) 0 (config + sizeofConfigTable) (-1)) a ↔
      entryType mem a = 3 ∧ isaIndex mem (configEntries mem config) = some (srcBus mem a).toNat := by
  refine and_congr_right fun _ => ?_
  rw [isaLoop_eq, ← configEntries]
  cases isaIndex mem (configEntries mem config) with
  | some k =>
      dsimp only
      rw [Nat.zero_add, Option.some.injEq, Int.natCast_inj]
      exact eq_comm
  | none =>
      dsimp only
      exact iff_of_false (by omega) (by simp)

/-- What is known behind the passes, before the local APIC is looked for. -/
def probed (mem : Nat → BitVec 8) (apicMp : Nat) : Apic :=
  match mpConfig mem apicMp with
  | none => initial
  | some config => (passes mem config initial).state

theorem probed_boots : ((probed mem apicMp).bootProcessor < maxCores ∧
      (probed mem apicMp).apicProcessors (probed mem apicMp).bootProcessor ≠ none) ↔
    ∃ b ∈ (usableProcessors mem apicMp).take maxCores, Boots mem b := by
  rw [probed, usableProcessors, tableEntries]
  cases mpConfig mem apicMp with
  | none =>
      refine iff_of_false (fun h => absurd h.1 (Nat.lt_irrefl _)) ?_
      simp
  | some config =>
      have hRecorded : Recorded (passes mem config initial) := by
        rw [passes_eq]
        exact recorded_foldl _ recorded_initial
      have hBoots : (passes mem config initial).state.bootProcessor ≠ maxCores ↔
          ∃ b ∈ ((configEntries mem config).filter (UsableProcessor mem)).take maxCores, Boots mem b := by
        rw [passes_eq, boots_foldl]
        exact or_iff_right (not_not_intro rfl)
      have hFew := hRecorded.few
      refine Iff.trans ⟨fun h => Nat.ne_of_lt h.1, fun h => ?_⟩ hBoots
      have hLess := hRecorded.boot.resolve_left h
      exact ⟨Nat.lt_of_lt_of_le hLess hFew, hRecorded.processors _ hLess⟩

theorem inBounds_initial : ∀ b ∈ initial.accesses, InBounds b := fun _ hb => absurd hb List.not_mem_nil

theorem probed_accesses : (∀ b ∈ (probed mem apicMp).accesses, InBounds b) ↔
    ∀ a ∈ tableEntries mem apicMp, entryType mem a = 3 →
      isaIndex mem (tableEntries mem apicMp) = some (srcBus mem a).toNat → (srcIrq mem a).toNat < 16 := by
  rw [probed, tableEntries]
  cases mpConfig mem apicMp with
  | none => exact iff_of_true inBounds_initial fun a ha => absurd ha List.not_mem_nil
  | some config =>
      dsimp only [Option.elim_some]
      rw [passes_eq, accesses_foldl, and_iff_right inBounds_initial]
      refine forall₂_congr fun a _ => ?_
      rw [redirectsIsa_iff, and_imp]

theorem probed_ioapic : (probed mem apicMp).ioapic ≠ 0 ↔ ∃ a ∈ tableEntries mem apicMp, entryType mem a = 2 := by
  rw [probed, tableEntries]
  cases mpConfig mem apicMp with
  | none => exact iff_of_false (not_not_intro rfl) (by simp)
  | some config =>
      dsimp only [Option.elim_some]
      rw [passes_eq, ioapic_foldl]
      exact or_iff_left (not_not_intro rfl)

/-- The probe keeps what it has found about the table, and has the local APIC if it succeeds. -/
theorem checkLapic_eq (hw : ApicHardware) (mem : Nat → BitVec 8) (s : Apic) (c : Option Nat) : ∃ l n, (checkLapic hw mem c s).1 = { s with lapic := l, ncores := n } ∧
    (l ≠ 0 ↔ findLapic hw mem c s ≠ 0 ∧ hw.apicVersion >>> 4 ≠ 0 ∧ 3 ≤ hw.lvtEntries) := by
  have hMapped : lapicAddr ≠ 0 := by decide
  rw [checkLapic]
  dsimp only
  split
  next hNone => exact ⟨0, 1, rfl, iff_of_false (not_not_intro rfl) fun h => h.1 hNone⟩
  next hSome =>
    rw [and_iff_right hSome]
    split
    next hVersion => exact ⟨0, 1, by split <;> rfl, iff_of_false (not_not_intro rfl) fun h => h.1 hVersion⟩
    next hVersion =>
      split
      next hLvt =>
        exact ⟨0, 1, by split <;> rfl, iff_of_false (not_not_intro rfl) fun h => absurd h.2 (Nat.not_le_of_lt hLvt)⟩
      next hLvt =>
        have hRest : hw.apicVersion >>> 4 ≠ 0 ∧ 3 ≤ hw.lvtEntries := ⟨hVersion, Nat.le_of_not_lt hLvt⟩
        split
        · exact ⟨_, s.ncores, rfl, iff_of_true hSome hRest⟩
        · exact ⟨lapicAddr, s.ncores, rfl, iff_of_true hMapped hRest⟩

theorem apicProbe_eq (hw : ApicHardware) (mem : Nat → BitVec 8) (apicMp : Nat) : ∃ l n, (apicProbe hw mem apicMp initial).1 = { probed mem apicMp with lapic := l, ncores := n } ∧
    (l ≠ 0 ↔ Enabled hw mem apicMp) := by
  rw [apicProbe, probed, Enabled]
  cases hConfig : mpConfig mem apicMp with
  | none =>
      have hBase : lapicBase hw mem apicMp = if hw.hasApic then 0xFEE00000 else 0 := by
        rw [lapicBase, hConfig]
      obtain ⟨l, n, hState, hLapic⟩ := checkLapic_eq hw mem { initial with ncores := 1 } none
      rw [hBase]
      exact ⟨l, n, hState, hLapic⟩
  | some config =>
      have hUsable : usableProcessors mem apicMp = (configEntries mem config).filter (UsableProcessor mem) := by
        rw [usableProcessors, tableEntries, hConfig]
        rfl
      have hCount : (passes mem config initial).count = (usableProcessors mem apicMp).length := by
        rw [hUsable, passes_eq, count_foldl, Nat.zero_add]
      have hLapic : (passes mem config initial).state.lapic = 0 := by
        rw [passes_eq, lapic_foldl]
        rfl
      dsimp only
      rw [hCount]
      split
      next hMany =>
        have hBase : lapicBase hw mem apicMp = if hw.hasApic then 0xFEE00000 else 0 := by
          rw [lapicBase, hConfig]
          exact if_pos hMany
        obtain ⟨l, n, hState, hFound⟩ :=
          checkLapic_eq hw mem { (passes mem config initial).state with ncores := 1 } none
        refine ⟨l, n, hState, ?_⟩
        rw [hBase, hFound, findLapic, hLapic]
      next hFew =>
        have hBase : lapicBase hw mem apicMp = configLapic mem config := by
          rw [lapicBase, hConfig]
          exact if_neg hFew
        obtain ⟨l, n, hState, hFound⟩ := checkLapic_eq hw mem
          { (passes mem config initial).state with ncores := (usableProcessors mem apicMp).length } (some config)
        rw [hBase]
        exact ⟨l, n, hState, hFound⟩

theorem inBounds_ioapic (irq : Nat) : ∀ b ∈ ioapicAccesses irq, InBounds b := by
  rw [ioapicAccesses]
  split
  · simp
  · split
    next hIrq => exact List.forall_mem_singleton.mpr hIrq
    next => simp

theorem inBounds_route (irq : Nat) : (∀ b ∈ s.routeAccesses irq, InBounds b) ↔
    s.bootProcessor < maxCores ∧ s.apicProcessors s.bootProcessor ≠ none := by
  rw [routeAccesses, List.forall_mem_cons]
  exact and_iff_left (inBounds_ioapic _)

/-- All accesses of the calibration are in bounds if the processor is there to which it routes. -/
theorem inBounds_calibration : (∀ b ∈ (apicCalibration hw s).1.accesses, InBounds b) ↔
    (∀ b ∈ s.accesses, InBounds b) ∧ (s.lapic ≠ 0 → s.ioapic ≠ 0 →
      s.bootProcessor < maxCores ∧ s.apicProcessors s.bootProcessor ≠ none) := by
  rw [apicCalibration]
  split
  next hNone => exact (and_iff_left fun hSome => absurd hNone hSome).symm
  next hSome =>
    split
    next hApic =>
      dsimp only
      rw [List.forall_mem_append, List.forall_mem_append, inBounds_route, and_assoc]
      refine and_congr_right fun _ => ⟨fun h _ _ => h.2, fun h => ⟨?_, h hSome hApic⟩⟩
      intro b hb
      obtain ⟨irq, -, hRoute⟩ := List.mem_flatMap.mp hb
      exact (inBounds_route irq).mpr (h hSome hApic) b hRoute
    next hNoApic => exact (and_iff_left fun _ hApic => absurd hApic hNoApic).symm

theorem accessesInBounds_iff : AccessesInBounds hw mem apicMp ↔
    (∀ a ∈ tableEntries mem apicMp, entryType mem a = 3 →
      isaIndex mem (tableEntries mem apicMp) = some (srcBus mem a).toNat → (srcIrq mem a).toNat < 16) ∧
    (Enabled hw mem apicMp → (∃ a ∈ tableEntries mem apicMp, entryType mem a = 2) →
      ∃ a ∈ (usableProcessors mem apicMp).take maxCores, Boots mem a) := by
  obtain ⟨l, n, hState, hLapic⟩ := apicProbe_eq hw mem apicMp
  rw [AccessesInBounds, hState, inBounds_calibration]
  dsimp only
  rw [probed_accesses, probed_ioapic, probed_boots, hLapic]

/-- When the probe and the calibration keep to their arrays: the interrupts of the ISA bus are below 16, and
with both kinds of APICs one of the first processors is the one that the firmware has started. -/
theorem apic_accesses_iff (hw : ApicHardware) (mem : Nat → BitVec 8) (apicMp : Nat) :
    AccessesInBounds hw mem apicMp ↔
      (∀ a ∈ tableEntries mem apicMp, entryType mem a = 3 →
        isaIndex mem (tableEntries mem apicMp) = some (srcBus mem a).toNat → (srcIrq mem a).toNat < 16) ∧
      (Enabled hw mem apicMp → (∃ a ∈ tableEntries mem apicMp, entryType mem a = 2) →
        ∃ a ∈ (usableProcessors mem apicMp).take maxCores, Boots mem a) :=
  accessesInBounds_iff

/-- A floating pointer structure at 16 and a table at 32 with so many entries. -/
def mpMemory (count : BitVec 8) (entries : List (BitVec 8)) : Nat → BitVec 8 := fun addr =>
  (List.replicate 16 0 ++ [0x5f, 0x4d, 0x50, 0x5f, 32, 0, 0, 0, 1, 4, 0, 0, 0, 0, 0, 0] ++ ascii "PCMP" ++
    List.replicate 30 0 ++ [count, 0, 0, 0, 0xE0, 0xFE] ++ List.replicate 4 0 ++ entries).getD addr 0

/-- An ISA bus at the position 0, which has an interrupt 16; and an I/O APIC without a processor. -/
theorem not_apic_accesses :
    ¬ AccessesInBounds ⟨true, false, 0x14, 5, 23⟩
        (mpMemory 2 [1, 0, 0x49, 0x53, 0x41, 0x20, 0x20, 0x20, 3, 0, 0, 0, 0, 16, 0, 2]) 16 ∧
      ¬ AccessesInBounds ⟨true, false, 0x14, 5, 23⟩ (mpMemory 1 [2, 0, 0x11, 1, 0, 0, 0xC0, 0xFE]) 16 := by
  rw [accessesInBounds_iff, accessesInBounds_iff]
  constructor
  · intro h
    have hIrq := h.1 84 (by decide) (by decide) (by decide)
    exact absurd hIrq (by decide)
  · intro h
    obtain ⟨a, ha, -⟩ := h.2 ⟨by decide, by decide, by decide⟩ ⟨76, by decide, by decide⟩
    have hNone : usableProcessors (mpMemory 1 [2, 0, 0x11, 1, 0, 0, 0xC0, 0xFE]) 16 = [] := by decide
    rw [hNone] at ha
    exact absurd ha (List.not_mem_nil)

end Apic
end ArtOS

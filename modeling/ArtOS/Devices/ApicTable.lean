import ArtOS.Library.ByteMemory
import ArtOS.Memory.PageTable

/-! The two passes of `apic_probe` over the MP configuration table. The first one keeps the position of the
ISA bus in the table, where the interrupt entries name a bus by its identifier. -/
namespace ArtOS

open ByteMemory

abbrev maxCores : Nat := 4

/-- An access to one of the two arrays. A read of `apic_processors` comes with what is there. -/
inductive ArrayAccess where
  | setProcessor (index : Nat)
  | getProcessor (index : Nat) (entry : Option Nat)
  | irqRedirect (index : Nat)

/-- The variables of `apic.c`, with the accesses to the arrays. -/
structure Apic where
  apicProcessors : Nat → Option Nat
  bootProcessor : Nat
  lapic : Nat
  ioapic : Nat
  ncores : Nat
  irqRedirect : Nat → BitVec 8
  accesses : List ArrayAccess

namespace Apic

def initial : Apic where
  apicProcessors := fun _ => none
  bootProcessor := maxCores
  lapic := 0
  ioapic := 0
  ncores := 1
  irqRedirect := fun q => BitVec.ofNat 8 q
  accesses := []

/-- `IOAPIC_ADDR`, one page before `kernel_start`. -/
abbrev ioapicAddr : Nat := 0xFF000

example : ioapicAddr = kernelStart - 1 * pageSize := rfl

/-- `sizeof(apic_config_table_t)`. -/
abbrev sizeofConfigTable : Nat := 44

section Table

variable (mem : Nat → BitVec 8)

/-! The fields of a configuration table and of its entries. -/

def entryCount (config : Nat) : Nat := (mem (config + 34)).toNat + 2 ^ 8 * (mem (config + 35)).toNat

def configLapic (config : Nat) : Nat := load32 mem (config + 36)

def entryType (addr : Nat) : BitVec 8 := mem addr

def cpuFlags (addr : Nat) : BitVec 8 := mem (addr + 3)

def busId (addr : Nat) : BitVec 8 := mem (addr + 1)

def busName (addr i : Nat) : BitVec 8 := mem (addr + 2 + i)

def srcBus (addr : Nat) : BitVec 8 := mem (addr + 4)

def srcIrq (addr : Nat) : BitVec 8 := mem (addr + 5)

def destIntin (addr : Nat) : BitVec 8 := mem (addr + 7)

def NamedIsa (addr : Nat) : Prop := busName mem addr 0 = 0x49 ∧ busName mem addr 1 = 0x53 ∧ busName mem addr 2 = 0x41

instance (addr : Nat) : Decidable (NamedIsa mem addr) := inferInstanceAs (Decidable (_ ∧ _))

/-- The first pass; `left` entries are left. -/
def isaLoop : Nat → Nat → Nat → Int → Int
  | 0, _, _, isaBus => isaBus
  | left + 1, i, addr, isaBus =>
      if entryType mem addr = 0 then isaLoop left (i + 1) (addr + 20) isaBus
      else if entryType mem addr = 1 then
        isaLoop left (i + 1) (addr + 8) (if NamedIsa mem addr then i else isaBus)
      else isaLoop left (i + 1) (addr + 8) isaBus

/-- The second pass, with its local variables. -/
structure Pass where
  state : Apic
  j : Nat
  count : Nat

/-- A processor that is usable, and the one that the firmware has started. -/
def Usable (addr : Nat) : Prop := cpuFlags mem addr &&& 0x01 ≠ 0

def Boots (addr : Nat) : Prop := cpuFlags mem addr &&& 0x02 ≠ 0

instance : DecidablePred (Usable mem) := fun _ => inferInstanceAs (Decidable (_ ≠ _))

instance : DecidablePred (Boots mem) := fun _ => inferInstanceAs (Decidable (_ ≠ _))

def recordProcessor (addr : Nat) (x : Pass) : Pass :=
  { x with
    state := { x.state with
      apicProcessors := Function.update x.state.apicProcessors x.j (some addr)
      bootProcessor := if Boots mem addr then x.j else x.state.bootProcessor
      accesses := x.state.accesses ++ [.setProcessor x.j] }
    j := x.j + 1 }

def processorEntry (addr : Nat) (x : Pass) : Pass :=
  let x := if x.j < maxCores then if Usable mem addr then recordProcessor mem addr x else x else x
  if Usable mem addr then { x with count := x.count + 1 } else x

def ioApicEntry (x : Pass) : Pass := { x with state := { x.state with ioapic := ioapicAddr } }

def ioIrqEntry (isaBus : Int) (addr : Nat) (x : Pass) : Pass :=
  if ((srcBus mem addr).toNat : Int) = isaBus then
    { x with
      state := { x.state with
        irqRedirect := Function.update x.state.irqRedirect (srcIrq mem addr).toNat (destIntin mem addr)
        accesses := x.state.accesses ++ [.irqRedirect (srcIrq mem addr).toNat] } }
  else x

def configLoop (isaBus : Int) : Nat → Nat → Pass → Pass
  | 0, _, x => x
  | left + 1, addr, x =>
      if entryType mem addr = 0 then configLoop isaBus left (addr + 20) (processorEntry mem addr x)
      else if entryType mem addr = 2 then configLoop isaBus left (addr + 8) (ioApicEntry x)
      else if entryType mem addr = 3 then configLoop isaBus left (addr + 8) (ioIrqEntry mem isaBus addr x)
      else configLoop isaBus left (addr + 8) x

/-- Both passes over the table at `config`. -/
def passes (config : Nat) (s : Apic) : Pass :=
  let addr := config + sizeofConfigTable
  let isaBus := isaLoop mem (entryCount mem config) 0 addr (-1)
  configLoop mem isaBus (entryCount mem config) addr ⟨s, 0, 0⟩

/-- The addresses of so many entries, the first one at `addr`. -/
def entryAddrs : Nat → Nat → List Nat
  | 0, _ => []
  | n + 1, addr => addr :: entryAddrs n (addr + if entryType mem addr = 0 then 20 else 8)

/-- The entries of the table at `config`. -/
def configEntries (config : Nat) : List Nat := entryAddrs mem (entryCount mem config) (config + sizeofConfigTable)

def IsIsaBus (addr : Nat) : Prop := entryType mem addr = 1 ∧ NamedIsa mem addr

instance : DecidablePred (IsIsaBus mem) := fun _ => inferInstanceAs (Decidable (_ ∧ _))

/-- The position of the last ISA bus. -/
def isaIndex : List Nat → Option Nat
  | [] => none
  | a :: entries =>
      match isaIndex entries with
      | some k => some (k + 1)
      | none => if IsIsaBus mem a then some 0 else none

/-- An interrupt entry for this interrupt of this bus. -/
def Redirects (bus : Int) (q addr : Nat) : Prop :=
  entryType mem addr = 3 ∧ ((srcBus mem addr).toNat : Int) = bus ∧ (srcIrq mem addr).toNat = q

instance (bus : Int) (q : Nat) : DecidablePred (Redirects mem bus q) := fun _ =>
  inferInstanceAs (Decidable (_ ∧ _))

/-- The pin that the last entry for this interrupt of this bus gives. -/
def pinOf (entries : List Nat) (bus : Int) (q : Nat) : Option (BitVec 8) :=
  (entries.reverse.find? (Redirects mem bus q)).map (destIntin mem)

end Table

variable {mem : Nat → BitVec 8} {n i k a addr config : Nat} {isaBus : Int} {x : Pass} {entries : List Nat}

/-- What the loop does with one entry. -/
def configEntry (mem : Nat → BitVec 8) (isaBus : Int) (x : Pass) (addr : Nat) : Pass :=
  if entryType mem addr = 0 then processorEntry mem addr x
  else if entryType mem addr = 2 then ioApicEntry x
  else if entryType mem addr = 3 then ioIrqEntry mem isaBus addr x
  else x

/-- Both passes see the same entries. -/
theorem configLoop_eq : configLoop mem isaBus n addr x = (entryAddrs mem n addr).foldl (configEntry mem isaBus) x := by
  induction n generalizing addr x with
  | zero => rfl
  | succ n ih =>
      rw [configLoop, entryAddrs, List.foldl_cons, configEntry]
      by_cases hCpu : entryType mem addr = 0
      · rw [if_pos hCpu, if_pos hCpu, if_pos hCpu, ih]
      · rw [if_neg hCpu, if_neg hCpu, if_neg hCpu]
        split
        · exact ih
        · split
          · exact ih
          · exact ih

theorem isaLoop_eq : isaLoop mem n i addr isaBus =
    match isaIndex mem (entryAddrs mem n addr) with
    | some k => ((i + k : Nat) : Int)
    | none => isaBus := by
  induction n generalizing i addr isaBus with
  | zero => rfl
  | succ n ih =>
      rw [isaLoop, entryAddrs, isaIndex]
      by_cases hCpu : entryType mem addr = 0
      · have hNot : ¬ IsIsaBus mem addr := fun hIsa => absurd (hCpu.symm.trans hIsa.1) (by decide)
        rw [if_pos hCpu, if_pos hCpu, ih]
        cases isaIndex mem (entryAddrs mem n (addr + 20)) with
        | some k =>
            dsimp only
            congr 1
            omega
        | none => rw [if_neg hNot]
      · rw [if_neg hCpu, if_neg hCpu]
        by_cases hBus : entryType mem addr = 1
        · rw [if_pos hBus, ih]
          cases isaIndex mem (entryAddrs mem n (addr + 8)) with
          | some k =>
              dsimp only
              congr 1
              omega
          | none =>
              by_cases hName : NamedIsa mem addr
              · rw [if_pos hName, if_pos ⟨hBus, hName⟩]
                rfl
              · rw [if_neg hName, if_neg fun hIsa => hName hIsa.2]
        · rw [if_neg hBus, ih]
          cases isaIndex mem (entryAddrs mem n (addr + 8)) with
          | some k =>
              dsimp only
              congr 1
              omega
          | none => rw [if_neg fun hIsa => hBus hIsa.1]

theorem isaIndex_spec (h : isaIndex mem entries = some k) : ∃ a, entries[k]? = some a ∧ IsIsaBus mem a := by
  induction entries generalizing k with
  | nil => cases h
  | cons b entries ih =>
      rw [isaIndex] at h
      cases hRest : isaIndex mem entries with
      | some k' =>
          rw [hRest] at h
          obtain rfl := Option.some.inj h
          exact ih hRest
      | none =>
          rw [hRest] at h
          dsimp only at h
          split at h
          next hIsa =>
            cases h
            exact ⟨b, rfl, hIsa⟩
          next => cases h

/-- With only one ISA bus in the table, its position is the one that is found. -/
theorem isaIndex_unique (hBus : entries[k]? = some a) (hIsa : IsIsaBus mem a)
    (hOnly : ∀ k' a', entries[k']? = some a' → IsIsaBus mem a' → k' = k) : isaIndex mem entries = some k := by
  induction entries generalizing k with
  | nil => cases hBus
  | cons b entries ih =>
      cases k with
      | zero =>
          have hNone : isaIndex mem entries = none := by
            cases hRest : isaIndex mem entries with
            | none => rfl
            | some k' =>
                obtain ⟨a', ha', hIsa'⟩ := isaIndex_spec hRest
                exact absurd (hOnly (k' + 1) a' ha' hIsa') (Nat.succ_ne_zero k')
          obtain rfl := Option.some.inj hBus
          rw [isaIndex, hNone]
          exact if_pos hIsa
      | succ k =>
          have hRest := ih hBus fun k' a' ha' hIsa' => Nat.succ.inj (hOnly (k' + 1) a' ha' hIsa')
          rw [isaIndex, hRest]

theorem processorEntry_eq : processorEntry mem a x =
    if Usable mem a then
      { if x.j < maxCores then recordProcessor mem a x else x with count := x.count + 1 }
    else x := by
  rw [processorEntry]
  by_cases hUsable : Usable mem a
  · simp only [if_pos hUsable]
    split
    · rfl
    · rfl
  · simp only [if_neg hUsable, ite_self]

theorem irqRedirect_configEntry (q : Nat) : (configEntry mem isaBus x a).state.irqRedirect q =
    if Redirects mem isaBus q a then destIntin mem a else x.state.irqRedirect q := by
  rw [configEntry]
  by_cases hCpu : entryType mem a = 0
  · have hNot : ¬ Redirects mem isaBus q a := fun h => absurd (hCpu.symm.trans h.1) (by decide)
    rw [if_pos hCpu, if_neg hNot, processorEntry_eq]
    split
    · split
      · rfl
      · rfl
    · rfl
  · rw [if_neg hCpu]
    by_cases hApic : entryType mem a = 2
    · have hNot : ¬ Redirects mem isaBus q a := fun h => absurd (hApic.symm.trans h.1) (by decide)
      rw [if_pos hApic, if_neg hNot]
      rfl
    · rw [if_neg hApic]
      by_cases hIrq : entryType mem a = 3
      · rw [if_pos hIrq, ioIrqEntry]
        by_cases hBus : ((srcBus mem a).toNat : Int) = isaBus
        · rw [if_pos hBus]
          dsimp only
          rw [Function.update_apply]
          exact if_congr ⟨fun h => ⟨hIrq, hBus, h.symm⟩, fun h => h.2.2.symm⟩ rfl rfl
        · rw [if_neg hBus, if_neg fun h => hBus h.2.1]
      · rw [if_neg hIrq, if_neg fun h => hIrq h.1]

theorem irqRedirect_foldl (q : Nat) : (entries.foldl (configEntry mem isaBus) x).state.irqRedirect q =
    (pinOf mem entries isaBus q).getD (x.state.irqRedirect q) := by
  induction entries generalizing x with
  | nil => rfl
  | cons b entries ih =>
      rw [List.foldl_cons, ih, irqRedirect_configEntry, pinOf, pinOf, List.reverse_cons, List.find?_append]
      cases entries.reverse.find? (Redirects mem isaBus q) with
      | some b' => rfl
      | none =>
          rw [Option.none_or, List.find?_singleton]
          by_cases hHere : Redirects mem isaBus q b
          · rw [if_pos hHere, if_pos (decide_eq_true hHere)]
            rfl
          · rw [if_neg hHere, if_neg fun h => hHere (of_decide_eq_true h)]

theorem irqRedirect_passes (hBus : isaIndex mem (configEntries mem config) = some k) (q : Nat) :
    (passes mem config initial).state.irqRedirect q =
      (pinOf mem (configEntries mem config) k q).getD (BitVec.ofNat 8 q) := by
  have hLoop : isaLoop mem (entryCount mem config) 0 (config + sizeofConfigTable) (-1) = k := by
    rw [isaLoop_eq]
    rw [configEntries] at hBus
    rw [hBus]
    dsimp only
    rw [Nat.zero_add]
  rw [passes, hLoop, configLoop_eq, irqRedirect_foldl]
  rfl

/-- When the interrupts are redirected as the table says: the entries that name the position of the ISA bus
lead to the same pins as those that name its identifier. -/
theorem irq_redirect_iff (mem : Nat → BitVec 8) (config k a : Nat)
    (hBus : (configEntries mem config)[k]? = some a) (hIsa : IsIsaBus mem a)
    (hOnly : ∀ k' a', (configEntries mem config)[k']? = some a' → IsIsaBus mem a' → k' = k) :
    (∀ q < 16, (passes mem config initial).state.irqRedirect q =
        (pinOf mem (configEntries mem config) (busId mem a).toNat q).getD (BitVec.ofNat 8 q)) ↔
      ∀ q < 16, (pinOf mem (configEntries mem config) k q).getD (BitVec.ofNat 8 q) =
        (pinOf mem (configEntries mem config) (busId mem a).toNat q).getD (BitVec.ofNat 8 q) := by
  refine forall₂_congr fun q _ => ?_
  rw [irqRedirect_passes (isaIndex_unique hBus hIsa hOnly)]

/-- A table with the ISA bus, under this identifier, and an entry that leads its interrupt 0 to the pin 2. -/
def isaTable (id : BitVec 8) : Nat → BitVec 8 := fun addr =>
  (List.replicate 34 0 ++ [2, 0] ++ List.replicate 8 0 ++ [1, id, 0x49, 0x53, 0x41, 0x20, 0x20, 0x20] ++
    [3, 0, 0, 0, id, 0, 0, 2]).getD addr 0

theorem configEntries_isaTable (id : BitVec 8) : configEntries (isaTable id) 0 = [44, 52] := rfl

theorem isaTable_only (id : BitVec 8) (k' a' : Nat) (h : (configEntries (isaTable id) 0)[k']? = some a')
    (hIsa : IsIsaBus (isaTable id) a') : k' = 0 := by
  rw [configEntries_isaTable] at h
  match k' with
  | 0 => rfl
  | 1 =>
      obtain rfl := Option.some.inj h
      have hType : entryType (isaTable id) 52 = 3 := rfl
      exact absurd (hType.symm.trans hIsa.1) (by decide)

/-- The identifier is the position. -/
theorem irq_redirect_iff_first :
    (∀ q < 16, (passes (isaTable 0) 0 initial).state.irqRedirect q =
        (pinOf (isaTable 0) (configEntries (isaTable 0) 0) (busId (isaTable 0) 44).toNat q).getD (BitVec.ofNat 8 q)) ↔
      ∀ q < 16, (pinOf (isaTable 0) (configEntries (isaTable 0) 0) (0 : Nat) q).getD (BitVec.ofNat 8 q) =
        (pinOf (isaTable 0) (configEntries (isaTable 0) 0) (busId (isaTable 0) 44).toNat q).getD (BitVec.ofNat 8 q) :=
  irq_redirect_iff (isaTable 0) 0 0 44 rfl (by decide) (isaTable_only 0)

/-- With the identifier 5 the entry is not seen as one of the ISA bus. -/
theorem not_irq_redirect :
    IsIsaBus (isaTable 5) 44 ∧ (configEntries (isaTable 5) 0)[0]? = some 44 ∧
      (∀ k' a', (configEntries (isaTable 5) 0)[k']? = some a' → IsIsaBus (isaTable 5) a' → k' = 0) ∧
      (∀ b ∈ configEntries (isaTable 5) 0, entryType (isaTable 5) b = 3 → (srcIrq (isaTable 5) b).toNat < 16) ∧
      ¬ ∀ q < 16, (passes (isaTable 5) 0 initial).state.irqRedirect q =
        (pinOf (isaTable 5) (configEntries (isaTable 5) 0) (busId (isaTable 5) 44).toNat q).getD
          (BitVec.ofNat 8 q) := by
  refine ⟨by decide, rfl, isaTable_only 5, by decide, fun hAll => ?_⟩
  have hFirst := hAll 0 (by decide)
  exact absurd hFirst (by decide)

end Apic
end ArtOS

import Mathlib.Data.BitVec

/-! Segment and gate descriptors: how `cpu/gdt.c` and `cpu/idt.c` build them, and how the processor
reads the eight bytes of an entry. -/
namespace ArtOS

/-- `gdt_entry_t`, which is packed. -/
structure GdtEntry where
  limitLow : BitVec 16
  baseLow : BitVec 16
  baseMiddle : BitVec 8
  access : BitVec 8
  granularity : BitVec 8
  baseHigh : BitVec 8
  deriving DecidableEq, Repr

/-- `idt_entry_t`, which is packed. -/
structure IdtEntry where
  baseLo : BitVec 16
  sel : BitVec 16
  always0 : BitVec 8
  flags : BitVec 8
  baseHi : BitVec 16
  deriving DecidableEq, Repr

def configureGdtEntry (base limit : BitVec 32) (access gran : BitVec 8) : GdtEntry where
  baseLow := (base &&& 0xFFFF).setWidth 16
  baseMiddle := (base >>> 16 &&& 0xFF).setWidth 8
  baseHigh := (base >>> 24 &&& 0xFF).setWidth 8
  limitLow := (limit &&& 0xFFFF).setWidth 16
  granularity := (limit >>> 16 &&& 0x0F).setWidth 8 ||| (gran &&& 0xF0)
  access := access

def configureIdtEntry (base : BitVec 32) (sel : BitVec 16) (flags : BitVec 8) : IdtEntry where
  baseLo := (base &&& 0xFFFF).setWidth 16
  baseHi := (base >>> 16 &&& 0xFFFF).setWidth 16
  sel := sel
  always0 := 0
  flags := flags

namespace GdtEntry

/-- The entry as eight bytes in memory, the first one lowest. -/
def word (e : GdtEntry) : BitVec 64 :=
  e.baseHigh ++ e.granularity ++ e.access ++ e.baseMiddle ++ e.baseLow ++ e.limitLow

end GdtEntry

namespace IdtEntry

def word (e : IdtEntry) : BitVec 64 := e.baseHi ++ e.flags ++ e.always0 ++ e.sel ++ e.baseLo

end IdtEntry

/-- A descriptor of a segment as the processor reads it. -/
structure Segment where
  base : BitVec 32
  limitField : BitVec 20
  type : BitVec 4
  system : Bool
  dpl : BitVec 2
  present : Bool
  available : Bool
  long : Bool
  big : Bool
  pages : Bool
  deriving DecidableEq, Repr

namespace Segment

def read (w : BitVec 64) : Segment where
  base := w.extractLsb' 56 8 ++ (w.extractLsb' 32 8 ++ w.extractLsb' 16 16)
  limitField := w.extractLsb' 48 4 ++ w.extractLsb' 0 16
  type := w.extractLsb' 40 4
  system := !w.getLsbD 44
  dpl := w.extractLsb' 45 2
  present := w.getLsbD 47
  available := w.getLsbD 52
  long := w.getLsbD 53
  big := w.getLsbD 54
  pages := w.getLsbD 55

/-- The last offset that the segment has. -/
def limit (s : Segment) : Nat :=
  if s.pages then s.limitField.toNat * 4096 + 4095 else s.limitField.toNat

end Segment

/-- A gate as the processor reads it. -/
structure Gate where
  offset : BitVec 32
  selector : BitVec 16
  type : BitVec 5
  dpl : BitVec 2
  present : Bool
  deriving DecidableEq, Repr

def Gate.read (w : BitVec 64) : Gate where
  offset := w.extractLsb' 48 16 ++ w.extractLsb' 0 16
  selector := w.extractLsb' 16 16
  type := w.extractLsb' 40 5
  dpl := w.extractLsb' 45 2
  present := w.getLsbD 47

/-- A mask that keeps all the bits there is room for. -/
theorem extract_masked {n k : Nat} (x mask : BitVec 32) (hMask : ∀ i < n, mask.getLsbD i = true) :
    (x >>> k &&& mask).setWidth n = x.extractLsb' k n := by
  apply BitVec.eq_of_getLsbD_eq
  intro i hi
  simp [hMask i hi, hi]

theorem low_masked {n : Nat} (x mask : BitVec 32) (hMask : ∀ i < n, mask.getLsbD i = true) :
    (x &&& mask).setWidth n = x.extractLsb' 0 n := by
  simpa using extract_masked (k := 0) x mask hMask

/-- The granularity byte has the high part of the limit below the flags. -/
theorem granularity_eq (base limit : BitVec 32) (access gran : BitVec 8) :
    (configureGdtEntry base limit access gran).granularity = gran.extractLsb' 4 4 ++ limit.extractLsb' 16 4 := by
  apply BitVec.eq_of_getLsbD_eq
  intro i hi
  have hBits : ∀ j < 8, (0x0F : BitVec 32).getLsbD j = decide (j < 4) ∧
      (0xF0 : BitVec 8).getLsbD j = decide (4 ≤ j) := by decide
  obtain ⟨hLow, hHigh⟩ := hBits i hi
  simp only [configureGdtEntry, BitVec.getLsbD_or, BitVec.getLsbD_and, BitVec.getLsbD_setWidth,
    BitVec.getLsbD_ushiftRight, BitVec.getLsbD_append, BitVec.getLsbD_extractLsb']
  rw [hLow, hHigh]
  by_cases h : i < 4
  · simp [h, hi, show ¬ 4 ≤ i by omega]
  · simp [h, hi, show 4 ≤ i by omega, show i - 4 < 4 by omega, show 4 + (i - 4) = i by omega]

theorem configureGdtEntry_eq (base limit : BitVec 32) (access gran : BitVec 8) :
    configureGdtEntry base limit access gran =
      { limitLow := limit.extractLsb' 0 16
        baseLow := base.extractLsb' 0 16
        baseMiddle := base.extractLsb' 16 8
        access := access
        granularity := gran.extractLsb' 4 4 ++ limit.extractLsb' 16 4
        baseHigh := base.extractLsb' 24 8 } := by
  have hByte : ∀ i < 8, (0xFF : BitVec 32).getLsbD i = true := by decide
  have hWord : ∀ i < 16, (0xFFFF : BitVec 32).getLsbD i = true := by decide
  rw [← granularity_eq base limit access gran]
  simp only [configureGdtEntry, extract_masked _ _ hByte, low_masked _ _ hWord]

theorem configureIdtEntry_eq (base : BitVec 32) (sel : BitVec 16) (flags : BitVec 8) :
    configureIdtEntry base sel flags =
      ⟨base.extractLsb' 0 16, sel, 0, flags, base.extractLsb' 16 16⟩ := by
  have hWord : ∀ i < 16, (0xFFFF : BitVec 32).getLsbD i = true := by decide
  simp only [configureIdtEntry, extract_masked _ _ hWord, low_masked _ _ hWord]

theorem Segment.read_word (e : GdtEntry) :
    Segment.read e.word =
      { base := e.baseHigh ++ (e.baseMiddle ++ e.baseLow)
        limitField := e.granularity.extractLsb' 0 4 ++ e.limitLow
        type := e.access.extractLsb' 0 4
        system := !e.access.getLsbD 4
        dpl := e.access.extractLsb' 5 2
        present := e.access.getLsbD 7
        available := e.granularity.getLsbD 4
        long := e.granularity.getLsbD 5
        big := e.granularity.getLsbD 6
        pages := e.granularity.getLsbD 7 } := by
  simp only [Segment.read, GdtEntry.word, Segment.mk.injEq]
  simp (disch := decide) only [BitVec.extractLsb'_append_eq_of_le,
    BitVec.extractLsb'_append_eq_of_add_le, BitVec.getLsbD_append]
  simp

theorem Gate.read_word (e : IdtEntry) :
    Gate.read e.word = ⟨e.baseHi ++ e.baseLo, e.sel, e.flags.extractLsb' 0 5,
      e.flags.extractLsb' 5 2, e.flags.getLsbD 7⟩ := by
  simp only [Gate.read, IdtEntry.word, Gate.mk.injEq]
  simp (disch := decide) only [BitVec.extractLsb'_append_eq_of_le,
    BitVec.extractLsb'_append_eq_of_add_le, BitVec.getLsbD_append]
  simp

/-- Every base, and of a limit the twenty bits that there are, come back. -/
theorem Segment.read_configure (base limit : BitVec 32) (access gran : BitVec 8) :
    Segment.read (configureGdtEntry base limit access gran).word =
      { base := base
        limitField := limit.setWidth 20
        type := access.extractLsb' 0 4
        system := !access.getLsbD 4
        dpl := access.extractLsb' 5 2
        present := access.getLsbD 7
        available := gran.getLsbD 4
        long := gran.getLsbD 5
        big := gran.getLsbD 6
        pages := gran.getLsbD 7 } := by
  have hMiddle : base.extractLsb' 16 8 ++ base.extractLsb' 0 16 = base.extractLsb' 0 24 :=
    BitVec.extractLsb'_append_extractLsb'_eq_extractLsb' rfl
  have hBase : base.extractLsb' 24 8 ++ base.extractLsb' 0 24 = base :=
    calc _ = base.extractLsb' 0 32 := BitVec.extractLsb'_append_extractLsb'_eq_extractLsb' rfl
      _ = base := BitVec.extractLsb'_eq_self
  have hLimit : limit.extractLsb' 16 4 ++ limit.extractLsb' 0 16 = limit.setWidth 20 :=
    calc _ = limit.extractLsb' 0 20 := BitVec.extractLsb'_append_extractLsb'_eq_extractLsb' rfl
      _ = limit.setWidth 20 := (BitVec.setWidth_eq_extractLsb' (by decide)).symm
  simp only [configureGdtEntry_eq, read_word, hMiddle, hBase, mk.injEq, BitVec.extractLsb'_append_eq_right,
    hLimit, true_and, BitVec.getLsbD_append]
  simp

theorem Gate.read_configure (base : BitVec 32) (sel : BitVec 16) (flags : BitVec 8) :
    Gate.read (configureIdtEntry base sel flags).word =
      ⟨base, sel, flags.extractLsb' 0 5, flags.extractLsb' 5 2, flags.getLsbD 7⟩ := by
  have hBase : base.extractLsb' 16 16 ++ base.extractLsb' 0 16 = base :=
    calc _ = base.extractLsb' 0 32 := BitVec.extractLsb'_append_extractLsb'_eq_extractLsb' rfl
      _ = base := BitVec.extractLsb'_eq_self
  simp [configureIdtEntry_eq, read_word, hBase]

end ArtOS

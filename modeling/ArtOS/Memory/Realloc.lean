import ArtOS.Libc.Memmove
import ArtOS.Memory.DoubleFree

/-! `realloc` of `mm/malloc.c`. What `getsize` takes for the size of a block is the word of its prefix,
the magic number in its upper half. -/
namespace ArtOS

open ByteMemory

/-- The word in front of the block. -/
def getsize (h : Heap) : Option Nat → Nat
  | some ptr => load32 h.mem (Word.sub ptr sizeofPnode)
  | none => 2 ^ 32 - 1

section Env

variable {Env : Type}

/-- `memcpy`. Page 0 is not mapped, and a page fault of the kernel does not come back. -/
def memcpy (dst : Option Nat) (src size : Nat) (s : Mm Env) : Option (Mm Env) :=
  match dst with
  | some dst => some (s.mapHeap fun h => { h with mem := memcpyLoop dst src size h.mem })
  | none => if size = 0 then some s else none

/-- `realloc`, given `palloc`. -/
def realloc (palloc : Allocator Env) (ptr : Option Nat) (size : Nat) (s : Mm Env) :
    Option (Mm Env × Option Nat) :=
  let msize := getsize s.heap ptr
  if size ≤ msize then some (s, ptr)
  else
    (kmallocWith palloc size s).bind fun (s, newptr) =>
      (memcpy newptr (ptr.getD 0) msize s).bind fun s =>
        (kfree (ptr.getD 0) s).map fun s => (s, newptr)

/-- No list has a block for the request, and `palloc` refuses one. -/
def OutOfMemory (palloc : Allocator Env) (size : Nat) (s : Mm Env) : Prop :=
  ∃ e, pnodeExp (Word.add size sizeofPnode) = some e ∧ ¬ s.heap.Stocked e ∧
    palloc (1 <<< max e pnodeAlloc) s = some (s, none)

variable {palloc : Allocator Env} {size : Nat} {ptr : Option Nat} {s : Mm Env}

theorem realloc_same (h : size ≤ getsize s.heap ptr) : realloc palloc ptr size s = some (s, ptr) :=
  if_pos h

theorem outOfMemory_iff (hSize : size ≠ 0) :
    kmallocWith palloc size s = some (s, none) ↔ OutOfMemory palloc size s := by
  cases hExp : pnodeExp (Word.add size sizeofPnode) with
  | none =>
      have hNone : kmallocWith palloc size s = none := by
        rw [kmallocWith, if_neg hSize, hExp]
        rfl
      rw [hNone]
      refine iff_of_false (by simp) ?_
      rintro ⟨e, he, _⟩
      cases hExp.symm.trans he
  | some e =>
      obtain ⟨hMin, hMax, _⟩ := pnodeExp_spec hExp
      rw [kmallocWith_eq hSize hExp]
      by_cases hStock : s.heap.Stocked e
      · obtain ⟨n, p, hBelow, hHead, hTop⟩ := hStock.least
        rw [pnodeGet_stocked hBelow hHead hTop (by omega)]
        refine iff_of_false (fun h => ?_) ?_
        · cases congrArg Prod.snd (Option.some.inj h)
        · rintro ⟨e', he', hEmpty, _⟩
          obtain rfl := Option.some.inj (hExp.symm.trans he')
          exact hEmpty hStock
      · have hFuel : pnodeAlloc - e < pnodeMax + 1 :=
          Nat.lt_succ_of_le ((Nat.sub_le _ _).trans (by decide))
        rw [pnodeGet_empty hStock hMax hFuel, Option.map_map]
        constructor
        · intro h
          obtain ⟨⟨t, r⟩, hCall, hAnswer⟩ := Option.map_eq_some_iff.mp h
          cases r with
          | none =>
              cases hAnswer
              exact ⟨e, hExp, hStock, hCall⟩
          | some p => cases congrArg Prod.snd hAnswer
        · rintro ⟨e', he', _, hCall⟩
          obtain rfl := Option.some.inj (hExp.symm.trans he')
          rw [hCall]
          rfl

end Env

namespace HeapRun

variable {s t : HeapRun} {nested : HeapRun → HeapRun → Prop} {palloc : Allocator Ledger}
variable {pins : List (Nat × Nat)} {n m p : Nat} {r : Option Nat}

/-- What `realloc` may answer for the block `p` of `n` bytes and the new size `m`: `NULL`, the block
being in use as before, or a block in use that is large enough and begins with the same bytes. -/
inductive Reallocated (pins : List (Nat × Nat)) (n m p : Nat) (s t : HeapRun) : Option Nat → Prop where
  | refused (hSound : t.Pinned pins) (hLive : p ∈ t.env.live)
      (hSame : ∀ x ∈ block (p, s.heap.exponent p), t.heap.mem x = s.heap.mem x) :
      Reallocated pins n m p s t none
  | moved (q : Nat) (live : List Nat) (hLive : live = if q = p then t.env.live else q :: t.env.live.erase p)
      (hSound : Pinned pins { t with env := { t.env with live := live } }) (hMem : q ∈ live)
      (hSize : m + sizeofPnode ≤ 2 ^ t.heap.exponent q)
      (hSame : ∀ i < min n m, t.heap.mem (q + sizeofPnode + i) = s.heap.mem (p + sizeofPnode + i)) :
      Reallocated pins n m p s t (some (q + sizeofPnode))

/-- What `realloc` promises for `NULL`, or a block in use. -/
def Reallocates (pins : List (Nat × Nat)) (palloc : Allocator Ledger) (n m : Nat) (s : HeapRun) :
    Option Nat → Prop
  | none => realloc palloc none m s = kmallocWith palloc m s
  | some p => ∃ t r, realloc palloc (some (p + sizeofPnode)) m s = some (t, r) ∧
      Reallocated pins n m p s t r

/-- When it keeps the promise. -/
def Suffices (palloc : Allocator Ledger) (m : Nat) (s : HeapRun) : Option Nat → Prop
  | none => OutOfMemory palloc m s
  | some p => m + sizeofPnode ≤ 2 ^ s.heap.exponent p

theorem Pinned.exponent_live (h : s.Pinned pins) (hp : p ∈ s.env.live) : s.heap.exponent p ≤ 31 := by
  obtain ⟨_, hs⟩ := h
  exact Nat.le_of_lt_succ (hs.stamp p hp).2.1

/-- The supposed size of a block in use is larger than any block. -/
theorem Pinned.getsize_gt (h : s.Pinned pins) (hp : p ∈ s.env.live) :
    2 ^ 31 < getsize s.heap (some (p + sizeofPnode)) := by
  obtain ⟨free, hs⟩ := h
  obtain ⟨hMin, _, hMagic⟩ := hs.stamp p hp
  have hTop : p + 2 ^ s.heap.exponent p ≤ 2 ^ 32 :=
    (hs.fits (b := (p, s.heap.exponent p)) (by simp [Heap.liveBlocks, hp])).2
  have hEight : 8 ≤ 2 ^ s.heap.exponent p := Heap.eight_le_two_pow hMin
  have hWord : sizeofPnode = 4 := rfl
  have hSub : Word.sub (p + sizeofPnode) sizeofPnode = p := by
    rw [Word.sub_eq (by omega) (by omega)]
    omega
  have hHalf : load32 s.heap.mem p / 2 ^ 16 = pnodeMagic.toNat := load32_magic.trans (congrArg _ hMagic)
  have hValue : pnodeMagic.toNat = 0xBABE := rfl
  rw [getsize, hSub]
  omega

/-- No block can be larger than `2 ^ 31` bytes. -/
theorem Reallocated.small (h : Reallocated pins n m p s t r) (hr : r ≠ none) : m + sizeofPnode ≤ 2 ^ 31 := by
  cases h with
  | refused => exact absurd rfl hr
  | moved q live hLive hSound hMem hSize hSame =>
      exact hSize.trans (Nat.pow_le_pow_right (by decide) (hSound.exponent_live hMem))

/-- Where the answer comes from an allocation, it is not `NULL`. -/
theorem realloc_ne_none (hLarge : ¬ m ≤ getsize s.heap (some (p + sizeofPnode)))
    (hSize : getsize s.heap (some (p + sizeofPnode)) ≠ 0)
    (hCall : realloc palloc (some (p + sizeofPnode)) m s = some (t, r)) : r ≠ none := by
  rw [realloc] at hCall
  simp only [if_neg hLarge] at hCall
  obtain ⟨⟨u, newptr⟩, _, hCall⟩ := Option.bind_eq_some_iff.mp hCall
  obtain ⟨v, hCopy, hCall⟩ := Option.bind_eq_some_iff.mp hCall
  obtain ⟨w, _, hAnswer⟩ := Option.map_eq_some_iff.mp hCall
  cases hAnswer
  rintro rfl
  rw [memcpy, if_neg hSize] at hCopy
  cases hCopy

/-- The block that is returned is the old one. -/
theorem Reallocates.fits (h : s.Pinned pins) (hp : p ∈ s.env.live)
    (hKept : Reallocates pins palloc n m s (some p)) : m + sizeofPnode ≤ 2 ^ s.heap.exponent p := by
  obtain ⟨t, r, hCall, hResult⟩ := hKept
  have hGreat := h.getsize_gt hp
  by_cases hSmall : m ≤ getsize s.heap (some (p + sizeofPnode))
  · rw [realloc_same hSmall] at hCall
    cases hCall
    cases hResult with
    | moved q live hLive hSound hMem hSize hSame => exact hSize
  · have hTop := hResult.small (realloc_ne_none hSmall (by omega) hCall)
    omega

/-- `realloc` does what it promises exactly for a size that the old block has already, and for `NULL`
where an allocation would fail. -/
theorem reallocates_iff (hPos : 0 < m) (hSize : m < 2 ^ 32) (h : s.Pinned pins) {ptr : Option Nat}
    (hptr : ∀ p ∈ ptr, p ∈ s.env.live) : Reallocates pins palloc n m s ptr ↔ Suffices palloc m s ptr := by
  cases ptr with
  | none =>
      have hSame : realloc palloc none m s = some (s, none) := realloc_same (Nat.le_sub_one_of_lt hSize)
      show realloc palloc none m s = _ ↔ _
      rw [hSame, eq_comm]
      exact outOfMemory_iff hPos.ne'
  | some p =>
      have hp : p ∈ s.env.live := hptr p rfl
      refine ⟨Reallocates.fits h hp, fun hFits => ?_⟩
      have hTop : 2 ^ s.heap.exponent p ≤ 2 ^ 31 := Nat.pow_le_pow_right (by decide) (h.exponent_live hp)
      have hGreat := h.getsize_gt hp
      refine ⟨s, _, realloc_same ?_, .moved p s.env.live (if_pos rfl).symm h hp hFits fun _ _ => rfl⟩
      exact ((Nat.le_add_right _ _).trans (hFits.trans hTop)).trans hGreat.le

/-- `kmalloc(10)` on an unused heap. -/
theorem ten_bytes : ∃ t : HeapRun, Calls 1 unused t ∧ 0x100000 ∈ t.env.live ∧
    t.heap.exponent 0x100000 = 4 := by
  have hView : (kmallocWith (offer 0x100000) 10 unused).map (fun a =>
      ((record a.1 a.2).env.live, (record a.1 a.2).heap.exponent 0x100000)) = some ([0x100000], 4) := by
    decide
  obtain ⟨⟨u, r⟩, hCall, hFields⟩ := Option.map_eq_some_iff.mp hView
  obtain ⟨hLive, hExp⟩ := Prod.mk.inj hFields
  exact ⟨_, Relation.ReflTransGen.single (.kmalloc _ _ offer_lawful hCall),
    hLive ▸ List.mem_cons_self, hExp⟩

theorem reallocates_iff_example : ∃ t : HeapRun, Reallocates [] (offer 0x200000) 10 12 t (some 0x100000) := by
  obtain ⟨t, hCalls, hLive, hExp⟩ := ten_bytes
  refine ⟨t, (reallocates_iff (by decide) (by decide) (hCalls.pinned unused_initial.sound) ?_).mpr ?_⟩
  · rintro p ⟨⟩
    exact hLive
  · show 12 + sizeofPnode ≤ 2 ^ t.heap.exponent 0x100000
    rw [hExp]
    decide

/-- A block of 16 bytes is returned for 1000. -/
theorem realloc_keeps_small : ¬ ∀ (palloc : Allocator Ledger) (n m : Nat) (s t : HeapRun) (p : Nat),
    0 < m → m < 2 ^ 32 → s.Initial → Calls 1 s t → p ∈ t.env.live →
    Reallocates [] palloc n m t (some p) := by
  intro hAll
  obtain ⟨t, hCalls, hLive, hExp⟩ := ten_bytes
  have hFits := (hAll (offer 0x200000) 10 1000 _ t _ (by decide) (by decide) unused_initial hCalls
    hLive).fits (hCalls.pinned unused_initial.sound) hLive
  rw [hExp] at hFits
  exact absurd hFits (by decide)

end HeapRun
end ArtOS

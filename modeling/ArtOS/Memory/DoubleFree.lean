import ArtOS.Memory.HeapRun

/-! `kfree` of a block that is on a free list. The word that held the prefix now holds the link, and
the upper half of a link is smaller than the magic number while the heap lies below `KERNEL_SPACE`. -/
namespace ArtOS

open ByteMemory LinkedList

namespace HeapRun

/-- A step of a run that may also free what is not in use: a block that is on a free list, `NULL`, or an
address without the magic number in front of it. The heap lies below `KERNEL_SPACE`. -/
inductive LooseStep (nested : HeapRun → HeapRun → Prop) : HeapRun → HeapRun → Prop where
  | regular {s t : HeapRun} (hStep : Step nested s t)
      (hLow : ∀ r ∈ t.env.regions, r.1 + r.2 ≤ kernelSpace) : LooseStep nested s t
  | again {s t : HeapRun} (i a : Nat) (free : List Nat) (hi : i < pnodeLists)
      (hChain : Chain s.heap.next (s.heap.lists i) free) (ha : a ∈ free)
      (hCall : kfree (Word.add a sizeofPnode) s = some t) : LooseStep nested s t
  | stray {s t : HeapRun} (addr : Nat)
      (hBare : addr = 0 ∨ s.heap.magic (Word.sub addr sizeofPnode) ≠ pnodeMagic)
      (hCall : kfree addr s = some t) : LooseStep nested s t

/-- Such runs, in which `palloc` functions call each other to a depth of at most `n`. -/
def LooseCalls : Nat → HeapRun → HeapRun → Prop
  | 0 => Eq
  | n + 1 => Relation.ReflTransGen (LooseStep (LooseCalls n))

/-- A sound heap below `KERNEL_SPACE`. -/
structure Low (s : HeapRun) : Prop where
  sound : s.Pinned []
  below : ∀ r ∈ s.env.regions, r.1 + r.2 ≤ kernelSpace

variable {s t : HeapRun} {nested : HeapRun → HeapRun → Prop} {free : List Nat} {i a n : Nat}

/-- The magic number is the upper half of the first word. -/
theorem load32_magic : load32 s.heap.mem a / 2 ^ 16 = (s.heap.magic a).toNat := by
  have h₀ := (s.heap.mem a).isLt
  have h₁ := (s.heap.mem (a + 1)).isLt
  have hAppend : (s.heap.magic a).toNat =
      (s.heap.mem (a + 3)).toNat * 2 ^ 8 + (s.heap.mem (a + 2)).toNat := by
    rw [Heap.magic, BitVec.toNat_append, ← Nat.shiftLeft_add_eq_or_of_lt (s.heap.mem (a + 2)).isLt,
      Nat.shiftLeft_eq]
  rw [hAppend, load32]
  omega

/-- A link is `NULL` or the address of a free block. -/
theorem Low.link_lt (h : s.Low) (hi : i < pnodeLists) (hChain : Chain s.heap.next (s.heap.lists i) free)
    (ha : a ∈ free) : load32 s.heap.mem a < kernelSpace := by
  obtain ⟨blocks, hs⟩ := h.sound
  obtain rfl : free = blocks i := hChain.unique (hs.chain i hi)
  obtain ⟨before, rest, hSplit⟩ := List.append_of_mem ha
  rw [hSplit] at hChain
  obtain ⟨_, _, _, hRest⟩ := segment_append.mp hChain
  cases rest with
  | nil =>
      have hNull : s.heap.next a = none := hRest
      rw [Heap.next, ite_eq_left_iff] at hNull
      have hZero : load32 s.heap.mem a = 0 := by
        by_contra hne
        exact absurd (hNull hne) (by simp)
      rw [hZero]
      decide
  | cons q rest =>
      have hNext : s.heap.next a = some q := hRest.1
      have hLink : load32 s.heap.mem a = q := by
        rw [Heap.next] at hNext
        split at hNext
        · cases hNext
        · exact Option.some.inj hNext
      have hMem : q ∈ blocks i := by simp [hSplit]
      have hFree : (q, i + pnodeMin) ∈ freeBlocks blocks := Heap.mem_freeBlocks.mpr ⟨i, hi, hMem, rfl⟩
      have hInside : block (q, i + pnodeMin) ⊆ territory s.env.regions :=
        hs.exact.subset (List.mem_map_of_mem (by simp [hFree]))
      obtain ⟨r, hr, _, hLast⟩ := hInside ⟨le_rfl, Nat.lt_add_of_pos_right (Nat.two_pow_pos _)⟩
      rw [hLink]
      exact hLast.trans_le (h.below r hr)

/-- A second `kfree` of a block does nothing. -/
theorem Low.kfree_again (h : s.Low) (hi : i < pnodeLists)
    (hChain : Chain s.heap.next (s.heap.lists i) free) (ha : a ∈ free) :
    kfree (Word.add a sizeofPnode) s = some s := by
  obtain ⟨blocks, hs⟩ := h.sound
  have hMem : (a, i + pnodeMin) ∈ freeBlocks blocks :=
    Heap.mem_freeBlocks.mpr ⟨i, hi, hChain.unique (hs.chain i hi) ▸ ha, rfl⟩
  have hTop : a + 2 ^ (i + pnodeMin) ≤ 2 ^ 32 := (hs.fits (b := (a, i + pnodeMin)) (by simp [hMem])).2
  have hEight : 8 ≤ 2 ^ (i + pnodeMin) := Heap.eight_le_two_pow (Nat.le_add_left _ _)
  have hWord : sizeofPnode = 4 := rfl
  have hAdd : Word.add a sizeofPnode = a + 4 := Word.add_eq (by omega)
  have hSub : Word.sub (a + 4) sizeofPnode = a := by
    rw [Word.sub_eq (by omega) (by omega)]
    omega
  have hMagic : s.heap.magic a ≠ pnodeMagic := by
    intro hSame
    have hHalf : load32 s.heap.mem a / 2 ^ 16 = pnodeMagic.toNat := load32_magic.trans (congrArg _ hSame)
    have hLink := h.link_lt hi hChain ha
    have hValue : pnodeMagic.toNat = 0xBABE := rfl
    have hSpace : kernelSpace = 2 ^ 30 := rfl
    omega
  rw [kfree, hAdd, if_neg (by omega), hSub]
  exact if_pos hMagic

theorem kfree_stray {addr : Nat} (h : addr = 0 ∨ s.heap.magic (Word.sub addr sizeofPnode) ≠ pnodeMagic) :
    kfree addr s = some s := by
  rcases h with rfl | hMagic
  · exact if_pos rfl
  · rw [kfree]
    split
    · rfl
    · exact if_pos hMagic

/-- One step keeps the heap sound and low. -/
theorem Low.step (h : s.Low) (hNested : ∀ u, nested s u → u.Low) (hStep : LooseStep nested s t) : t.Low := by
  cases hStep with
  | regular hStep hLow => exact ⟨h.sound.step (fun u hu => (hNested u hu).sound) hStep, hLow⟩
  | again i a free hi hChain ha hCall =>
      obtain rfl := Option.some.inj ((h.kfree_again hi hChain ha).symm.trans hCall)
      exact h
  | stray addr hBare hCall =>
      obtain rfl := Option.some.inj ((kfree_stray hBare).symm.trans hCall)
      exact h

/-- Induction on the depth, and on the length of the run at each depth. -/
theorem LooseCalls.low (hCalls : LooseCalls n s t) (h : s.Low) : t.Low := by
  induction n generalizing s t with
  | zero => exact hCalls ▸ h
  | succ n ih =>
      induction hCalls with
      | refl => exact h
      | tail _ hStep hPrior => exact hPrior.step (fun _ hNested => ih hNested hPrior) hStep

theorem Initial.low (h : s.Initial) : s.Low := by
  refine ⟨h.sound, ?_⟩
  rw [h.2.2]
  exact fun _ hr => absurd hr List.not_mem_nil

/-- In every state of every run, a `kfree` of a block that is on a free list changes nothing. -/
theorem double_free_harmless (hStart : s.Initial) (hCalls : LooseCalls n s t) (hi : i < pnodeLists)
    (hChain : Chain t.heap.next (t.heap.lists i) free) (ha : a ∈ free) :
    kfree (Word.add a sizeofPnode) t = some t :=
  (hCalls.low hStart.low).kfree_again hi hChain ha

/-- `kmalloc(100)`, and `kfree` of its block twice. -/
theorem double_free_harmless_example : ∃ t : HeapRun, LooseCalls 1 unused t ∧
    t.heap.lists 4 = some 0x100000 ∧ kfree 0x100004 t = some t := by
  have hView : (kmallocWith (offer 0x100000) 100 unused).bind (fun a =>
      (kfree 0x100004 (record a.1 a.2)).map fun t => ((record a.1 a.2).env.live,
        [(record a.1 a.2).env.regions, t.env.regions],
        [t.heap.lists 4, t.heap.next 0x100000, t.heap.next 0x100080])) =
      some ([0x100000], [[(0x100000, 0x10000)], [(0x100000, 0x10000)]],
        [some 0x100000, some 0x100080, none]) := by decide
  obtain ⟨⟨u, r⟩, hMalloc, hView⟩ := Option.bind_eq_some_iff.mp hView
  obtain ⟨v, hFree, hFields⟩ := Option.map_eq_some_iff.mp hView
  simp only [Prod.mk.injEq, List.cons.injEq, and_true] at hFields
  obtain ⟨hLive, ⟨hRegions, hRegions'⟩, hHead, hNext, hLast⟩ := hFields
  have hLow : ∀ r ∈ [(0x100000, 0x10000)], r.1 + r.2 ≤ kernelSpace := by decide
  have hFirst : LooseStep Eq unused (record u r) :=
    .regular (.kmalloc _ _ offer_lawful hMalloc) (hRegions ▸ hLow)
  have hSecond : LooseStep Eq (record u r) { v with env := { v.env with live := v.env.live.erase 0x100000 } } :=
    .regular (.kfree 0x100000 (hLive ▸ List.mem_cons_self) hFree) (hRegions' ▸ hLow)
  have hCalls : LooseCalls 1 unused { v with env := { v.env with live := v.env.live.erase 0x100000 } } :=
    (Relation.ReflTransGen.single hFirst).tail hSecond
  have hChain : Chain v.heap.next (v.heap.lists 4) [0x100000, 0x100080] := ⟨hHead, hNext, hLast⟩
  exact ⟨_, hCalls, hHead,
    double_free_harmless unused_initial hCalls (by decide) hChain List.mem_cons_self⟩

end HeapRun
end ArtOS

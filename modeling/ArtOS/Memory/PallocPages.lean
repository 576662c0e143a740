import ArtOS.Memory.Palloc
import ArtOS.Memory.PageMapping
import ArtOS.Memory.VmaUndo

/-! `palloc` and `pfree` on the page frames and the page tables: a failure of `palloc` undoes
what was done, and `pfree` undoes a success. New page tables stay. -/
namespace ArtOS

open Intervals

namespace Frames

variable {s s' : Frames} {kernelEnd npages addr : Nat}

/-- A failure of `get_pages` takes at most a window at frame 0. -/
theorem getPages_failed (hPages : 1 ≤ npages)
    (h : s.getPages kernelEnd npages = some (s', 0)) (hZero : s.Marked 0) :
    ∀ f, s'.Marked f ↔ s.Marked f := by
  rcases getPages_cases h with ⟨_, hMarks, _⟩ | ⟨hFree, _⟩
  · exact hMarks
  · have hFirst : 0 ∈ framesOf (0, npages) := by
      rw [framesOf, Nat.zero_shiftRight, Finset.mem_Ico]
      omega
    exact absurd hZero (mem_freeFrames.mp (hFree hFirst)).2

/-- A successful call takes free frames, one after the other. -/
theorem getPages_done (h : s.getPages kernelEnd npages = some (s', addr)) (hAddr : addr ≠ 0) :
    framesOf (addr, npages) ⊆ s.freeFrames ∧
      (∀ j, s'.Marked j ↔ s.Marked j ∨ j ∈ framesOf (addr, npages)) ∧ Neutral s s' :=
  (getPages_cases h).resolve_left fun hZero => hAddr hZero.1

end Frames

namespace Paging

open Frames

variable {s s' b a : Paging} {p f v kernelEnd : Nat} {bits : BitVec 12} {new : List Nat}

/-- A call that may not come back, for `palloc`: no state is left then. -/
def answered {Out : Type} (out : Out) : Option (Paging × Out) → Option Paging × Out
  | some (s, out) => (some s, out)
  | none => (none, out)

/-- The page frames and the page tables in frame `cr3` as `palloc` uses them. -/
def phys (kernelEnd cr3 : Nat) (contents : Nat → Nat → Nat → Option Paging → Nat → BitVec 8) :
    Phys (Option Paging) where
  getPages npages env :=
    answered 0 (env.bind fun s => (s.frames.getPages kernelEnd npages).map fun (frames, phyaddr) =>
      ({ s with frames := frames }, phyaddr))
  putPages phyaddr npages env :=
    env.bind fun s => (s.frames.putPages phyaddr npages).map fun (frames, _) =>
      { s with frames := frames }
  pageMap viraddr phyaddr npages env :=
    answered 0 (env.bind (pageMap kernelEnd cr3 viraddr phyaddr npages (pgRw ||| pgGlobal)))
  contents := contents

section Phys

variable {contents : Nat → Nat → Nat → Option Paging → Nat → BitVec 8} {npages viraddr phyaddr : Nat}

theorem phys_getPages {frames : Frames}
    (h : b.frames.getPages kernelEnd npages = some (frames, phyaddr)) :
    (phys kernelEnd p contents).getPages npages (some b) =
      (some { b with frames := frames }, phyaddr) := by
  simp only [phys, Option.bind_some, h, Option.map_some, answered]

theorem phys_getPages_none (h : b.frames.getPages kernelEnd npages = none) :
    (phys kernelEnd p contents).getPages npages (some b) = (none, 0) := by
  simp only [phys, Option.bind_some, h, Option.map_none, answered]

theorem phys_pageMap {ret : Int}
    (h : b.pageMap kernelEnd p viraddr phyaddr npages (pgRw ||| pgGlobal) = some (a, ret)) :
    (phys kernelEnd p contents).pageMap viraddr phyaddr npages (some b) = (some a, ret) := by
  simp only [phys, Option.bind_some, h, answered]

theorem phys_pageMap_none
    (h : b.pageMap kernelEnd p viraddr phyaddr npages (pgRw ||| pgGlobal) = none) :
    (phys kernelEnd p contents).pageMap viraddr phyaddr npages (some b) = (none, 0) := by
  simp only [phys, Option.bind_some, h, answered]

end Phys

/-- A page map whose tables are frames in use. -/
structure InUse (s : Paging) (p : Nat) : Prop where
  level : s.TwoLevel p
  root : s.frames.Known p
  table : ∀ i < pageMapEntries - 1, (s.mem p i).Has pgPresent → s.frames.Known (s.mem p i).frame

/-- The frame of a table that has been entered. -/
def TableFrame (s s' : Paging) (p f : Nat) : Prop :=
  ∃ i < pageMapEntries - 2, ¬ (s.mem p i).Has pgPresent ∧ (s'.mem p i).Has pgPresent ∧
    (s'.mem p i).frame = f

/-- `get_pages` never answers with a frame of the page map. -/
theorem InUse.unused (h : s.InUse p) {frames : Frames} (hTaking : Holding.Taking s.frames frames)
    (n : Nat) : ∀ f ∈ frames.grants kernelEnd n, s.Unused p f := by
  intro f hf
  obtain ⟨hLt, hFree⟩ := grants_free n f hf
  refine ⟨fun he => hFree (hTaking f ?_), fun i hi hThere he => hFree (hTaking f ?_)⟩
  · exact he ▸ h.root (he ▸ hLt)
  · exact he ▸ h.table i hi hThere (he ▸ hLt)

/-- `page_map` after some frames have been taken. -/
theorem InUse.pageMap (h : s.InUse p) {frames : Frames} (hTaking : Holding.Taking s.frames frames)
    {viraddr phyaddr npages : Nat} {ret : Int} (hPages : 1 ≤ npages)
    (hRange : viraddr >>> pageBits + npages ≤ lowPages)
    (hCall : Paging.pageMap kernelEnd p viraddr phyaddr npages bits { s with frames := frames } =
      some (s', ret)) :
    ∃ new tables, MapDone bits p (viraddr >>> pageBits) (phyaddr >>> pageBits) npages
      { s with frames := frames } s' ret new tables := by
  have hLevel : TwoLevel { s with frames := frames } p :=
    ⟨⟨h.level.rooted.frame, h.level.rooted.present⟩, h.level.root_ne, h.level.apart⟩
  refine hLevel.pageMap hPages hRange (fun f hf => ?_) hCall
  obtain ⟨hRoot, hTable⟩ := h.unused hTaking _ f hf
  exact ⟨hRoot, hTable⟩

variable {vpn frame npages : Nat} {ret : Int} {tables : Paging}

theorem MapDone.entered_iff (h : MapDone bits p vpn frame npages s s' ret new tables) {i : Nat} :
    i ∈ new ↔ i < pageMapEntries - 2 ∧ ¬ (s.mem p i).Has pgPresent ∧ (s'.mem p i).Has pgPresent := by
  rw [h.root]
  constructor
  · intro hi
    exact ⟨h.low i hi, (h.enter.absent i hi).2, (h.enter.present hi).1⟩
  · rintro ⟨_, hAbsent, hThere⟩
    by_contra hi
    rw [h.enter.entry i hi] at hThere
    exact hAbsent hThere

theorem MapDone.tableFrame_iff (h : MapDone bits p vpn frame npages s s' ret new tables) :
    s.TableFrame s' p f ↔ ∃ i ∈ new, (tables.mem p i).frame = f := by
  rw [TableFrame, ← h.root]
  constructor
  · rintro ⟨i, hi, hAbsent, hThere, hFrame⟩
    exact ⟨i, h.entered_iff.mpr ⟨hi, hAbsent, hThere⟩, hFrame⟩
  · rintro ⟨i, hi, hFrame⟩
    obtain ⟨hLow, hAbsent, hThere⟩ := h.entered_iff.mp hi
    exact ⟨i, hLow, hAbsent, hThere, hFrame⟩

/-- The frames that are in use after `page_map`. -/
theorem MapDone.marks (h : MapDone bits p vpn frame npages s s' ret new tables)
    (hExact : ret = 0 ∨ s.frames.Marked 0) :
    (∀ f, s'.frames.Marked f ↔ s.frames.Marked f ∨ s.TableFrame s' p f) ∧ Neutral s.frames s'.frames := by
  have hFrames : s'.frames = tables.frames := by
    rcases h.result with ⟨_, hRewrites⟩ | ⟨_, rfl⟩
    · exact hRewrites.frames
    · rfl
  refine ⟨fun f => ?_, hFrames ▸ h.enter.neutral⟩
  rw [hFrames, h.marked hExact f, h.tableFrame_iff]

end Paging

/-! The address space of `palloc`. -/

section MapFrames

variable {Env : Type} {phys : Phys Env} {kmalloc' : Allocator Env} {s : Mm Env} {env env' : Env}
  {fuel npages size viraddr addr : Nat} {err : Int}

theorem mapFrames_null (h : phys.getPages npages s.env = (env, 0)) :
    mapFrames phys kmalloc' fuel npages size viraddr s =
      (vmaFree kmalloc' kfree fuel viraddr (Word.add viraddr size) { s with env := env }).map fun x =>
        (x.1, none) := by
  rw [mapFrames, h]
  rfl

theorem mapFrames_mapped (h : phys.getPages npages s.env = (env, addr)) (hAddr : addr ≠ 0)
    (hMap : phys.pageMap viraddr addr npages env = (env', err)) :
    mapFrames phys kmalloc' fuel npages size viraddr s =
      let t := { s with
        env := env', heap := mapped viraddr size (phys.contents viraddr addr npages env) s.heap }
      if err ≠ 0 then
        (vmaFree kmalloc' kfree fuel viraddr (Word.add viraddr size) t).map fun x =>
          ({ x.1 with env := phys.putPages addr npages x.1.env }, none)
      else some (t, some viraddr) := by
  rw [mapFrames, h]
  refine (if_neg hAddr).trans ?_
  rw [hMap]

end MapFrames

theorem and_pageMask {x : Nat} (h : x < 2 ^ 32) : x &&& pageMask = x / pageSize * pageSize := by
  have hMask : pageMask = (2 ^ 20 - 1) <<< pageBits := by decide
  have hShift : x &&& (2 ^ 20 - 1) <<< pageBits = (x >>> pageBits &&& (2 ^ 20 - 1)) <<< pageBits := by
    refine Nat.eq_of_testBit_eq fun i => ?_
    simp only [Nat.testBit_and, Nat.testBit_shiftLeft, Nat.testBit_shiftRight]
    by_cases hi : pageBits ≤ i
    · simp [hi]
    · simp [hi]
  rw [hMask, hShift, Nat.and_two_pow_sub_one_eq_mod, Nat.shiftRight_eq_div_pow, Nat.shiftLeft_eq,
    Nat.mod_eq_of_lt (Nat.div_lt_of_lt_mul (by rwa [← pow_add]))]
  rfl

/-- The number of pages that `palloc` and `pfree` compute. -/
theorem pageFloor_pages {sz : Nat} (hPos : 0 < sz) (hSmall : sz ≤ 2 ^ 31) :
    1 ≤ pageFloor sz >>> pageBits ∧ (pageFloor sz >>> pageBits) * pageSize ≤ 2 ^ 31 := by
  have hSum : Word.add sz (pageSize - 1) = sz + (pageSize - 1) :=
    Word.add_eq (lt_of_le_of_lt (Nat.add_le_add_right hSmall _) (by decide))
  have hShift : ((sz + (pageSize - 1)) / pageSize * pageSize) >>> pageBits =
      (sz + (pageSize - 1)) / pageSize := by
    rw [Nat.shiftRight_eq_div_pow]
    exact Nat.mul_div_cancel _ (by decide : 0 < pageSize)
  rw [pageFloor, hSum, and_pageMask (lt_of_le_of_lt (Nat.add_le_add_right hSmall _) (by decide)), hShift]
  show 1 ≤ (sz + 4095) / 4096 ∧ (sz + 4095) / 4096 * 4096 ≤ 2147483648
  omega

/-- A well-formed kernel list, the bounds of whose areas are pages, and a page map in use. -/
structure KernelMemory (p : Nat) (s : Mm (Option Paging)) (b : Paging) (l : List Entry) : Prop where
  spells : s.vmas.Spells .kernel l
  sorted : Sorted l
  below : ∀ e ∈ l, e.2.endAddr ≤ vmaKernMax
  aligned : ∀ e ∈ l, pageSize ∣ e.2.endAddr
  env : s.env = some b
  pages : b.InUse p

/-- `vma_alloc` has reserved `[r, r + size)` for `palloc`. -/
structure Room (size : Nat) (l : List Entry) (t : Mm (Option Paging)) (r : Nat) : Prop where
  aligned : pageSize ∣ r
  low : vmaKernMin ≤ r
  high : r + size < vmaKernMax
  fresh : ∀ addr, r ≤ addr → addr < r + size → assigns l addr = none
  reserved : ∃ left e right, Reserved vmaHeap size l t r left e right

section Palloc

variable {kmalloc : Allocator (Option Paging)} {kfree : Deallocator (Option Paging)}
variable {s t u : Mm (Option Paging)} {b a : Paging} {l : List Entry} {new : Option Nat}
variable {p kernelEnd sz size r fuel : Nat}
variable {contents : Nat → Nat → Nat → Option Paging → Nat → BitVec 8}

theorem KernelMemory.unwrapping (h : KernelMemory p s b l) (hSize : size ≤ 2 ^ 31) :
    Unwrapping .kernel l size := by
  have hMax : vmaKernMax + 2 ^ 31 < 2 ^ 32 := by decide
  have hMin : vmaKernMin + 2 ^ 31 < 2 ^ 32 := by decide
  refine ⟨h.below, ?_, fun e he => ?_⟩
  · show vmaKernMin + size < 2 ^ 32
    omega
  · have hBelow := h.below e he
    omega

/-- The first step of `palloc`. -/
theorem KernelMemory.reserve (h : KernelMemory p s b l) (hSize : size ≤ 2 ^ 31)
    (hNode : NodeAnswer kmalloc .kernel l s u new) (hEnv : u.env = s.env)
    (hRun : vmaAlloc kmalloc fuel size vmaHeap s = some (t, r)) :
    t.env = some b ∧ (r = 0 → t.vmas.Spells .kernel l) ∧ (r ≠ 0 → Room size l t r) := by
  have hSpace : Space.of vmaHeap = .kernel := by decide
  have hSpells := h.spells
  have hBounds := h.unwrapping hSize
  rw [← hSpace] at hSpells hBounds hNode
  refine ⟨?_, fun hr => ?_, fun hr => ?_⟩
  · refine (vmaAlloc_env (fun u' new' hCall => ?_) hRun).trans h.env
    cases hCall.symm.trans hNode.call
    exact hEnv
  · have hFit := (vmaAlloc_first_fit hSpells h.sorted hBounds fun _ => hNode).2 fuel _ hRun
    rw [← hSpace]
    exact hFit.same hr
  · obtain ⟨hAllocated, hReserved⟩ := vmaAlloc_reserved hSpells h.sorted hBounds hNode hRun hr
    refine ⟨?_, hAllocated.low, hAllocated.high, fun addr hLow hHigh => assigns_gap hAllocated.apart hLow hHigh,
      hReserved⟩
    obtain ⟨_, ⟨left, right, hSplit, hStart, _⟩, _⟩ := hAllocated.gap
    rw [hStart]
    cases hLast : left.getLast? with
    | none =>
        rw [hSpace]
        show pageSize ∣ vmaKernMin
        decide
    | some e =>
        exact h.aligned e (hSplit ▸ List.mem_append_left _ (List.mem_of_getLast? hLast))

theorem Room.congr (h : Room size l t r) (hVmas : s.vmas = t.vmas) : Room size l s r := by
  obtain ⟨left, e, right, hReserved⟩ := h.reserved
  exact ⟨h.aligned, h.low, h.high, h.fresh, left, e, right, hVmas ▸ hReserved.spells, hReserved.sorted,
    hReserved.low, hReserved.high, hReserved.map⟩

/-- `vma_free` undoes it. -/
theorem Room.undo (h : Room size l t r) (hPos : 0 < size) (hKfree : FreesOnly kfree) {ret : Int}
    (hRun : vmaFree kmalloc kfree fuel r (Word.add r size) s = some (u, ret))
    (hVmas : s.vmas = t.vmas) :
    u.env = s.env ∧ ∃ l', u.vmas.Spells .kernel l' ∧ Sorted l' ∧
      ∀ addr, assigns l' addr = assigns l addr := by
  have hSpace : Space.of vmaHeap = .kernel := by decide
  have hMax : vmaKernMax < 2 ^ 32 := by decide
  have hHigh := h.high
  obtain ⟨left, e, right, hReserved⟩ := h.reserved
  rw [Word.add_eq (by omega)] at hRun
  have hUndo := hReserved.free hPos (by rw [freeSpace, if_pos hHigh, hSpace]) h.fresh hVmas hKfree hRun
  rwa [hSpace] at hUndo

/-- A call of `palloc` has failed: the map of the addresses is as before, and so are the frames and
the translations but for new page tables. -/
structure Undone (p : Nat) (b a : Paging) (l : List Entry) (t : Mm (Option Paging)) : Prop where
  list : ∃ l', t.vmas.Spells .kernel l' ∧ Sorted l' ∧ ∀ addr, assigns l' addr = assigns l addr
  walk : ∀ v < Paging.allPages, ¬ b.Entered a p v → walk a.mem p v = walk b.mem p v
  marked : b.frames.Marked 0 →
    ∀ f, a.frames.Marked f ↔ b.frames.Marked f ∨ b.TableFrame a p f

/-- What a successful call of `palloc` has gone through. -/
structure PallocDone (kernelEnd p npages : Nat) (b a : Paging) (l : List Entry)
    (t : Mm (Option Paging)) (r addr : Nat) (frames : Frames) (entered : List Nat) (tables : Paging) :
    Prop where
  room : Room (npages * pageSize) l t r
  taken : b.frames.getPages kernelEnd npages = some (frames, addr)
  addr_ne : addr ≠ 0
  map : Paging.MapDone (pgRw ||| pgGlobal) p (r >>> pageBits) (addr >>> pageBits) npages
    { b with frames := frames } a 0 entered tables

theorem Paging.not_tableFrame_self {f : Nat} (h : a.mem = b.mem) : ¬ b.TableFrame a p f := by
  rintro ⟨i, _, hAbsent, hThere, _⟩
  rw [h] at hThere
  exact hAbsent hThere

/-- No frame has been taken, or frame 0. -/
theorem KernelMemory.undone_of_mem (ha : a.mem = b.mem)
    (hList : ∃ l', t.vmas.Spells .kernel l' ∧ Sorted l' ∧ ∀ addr, assigns l' addr = assigns l addr)
    (hMarked : b.frames.Marked 0 → ∀ f, a.frames.Marked f ↔ b.frames.Marked f) :
    Undone p b a l t := by
  refine ⟨hList, fun v _ _ => by rw [ha], fun hZero f => ?_⟩
  rw [hMarked hZero f]
  exact (or_iff_left (Paging.not_tableFrame_self ha)).symm

theorem Room.pages {npages : Nat} (h : Room (npages * pageSize) l t r) :
    r >>> pageBits + npages ≤ Paging.lowPages := by
  have hHigh : r + npages * 4096 < 1073741824 := h.high
  rw [Nat.shiftRight_eq_div_pow]
  show r / 4096 + npages ≤ 1046528
  omega

section Steps

open Frames

variable (h : KernelMemory p s b l) {npages : Nat} {addr : Nat} {frames : Frames}
include h

/-- The undoing of a call of `page_map` that has failed. -/
theorem KernelMemory.unmapped {ret back : Int} {m : Paging} {entered : List Nat} {tables : Paging}
    {frames' : Frames} (hPages : 1 ≤ npages)
    (hTaken : b.frames.getPages kernelEnd npages = some (frames, addr)) (hAddr : addr ≠ 0)
    (hRange : r >>> pageBits + npages ≤ Paging.lowPages)
    (hMap : Paging.MapDone (pgRw ||| pgGlobal) p (r >>> pageBits) (addr >>> pageBits) npages
      { b with frames := frames } m ret entered tables) (hRet : ret ≠ 0)
    (hPut : m.frames.putPages addr npages = some (frames', back))
    (hList : ∃ l', t.vmas.Spells .kernel l' ∧ Sorted l' ∧ ∀ addr, assigns l' addr = assigns l addr) :
    Undone p b { m with frames := frames' } l t := by
  obtain ⟨hFree, hMarks, _⟩ := getPages_done hTaken hAddr
  have hLevel : Paging.TwoLevel { b with frames := frames } p :=
    ⟨⟨h.pages.level.rooted.frame, h.pages.level.rooted.present⟩, h.pages.level.root_ne,
      h.pages.level.apart⟩
  refine ⟨hList, fun v hv hWindow => ?_, fun hZero f => ?_⟩
  · exact hMap.walk_other hLevel hRange hv (fun he => absurd he hRet) hWindow
  · have hZero' : frames.Marked 0 := (hMarks 0).mpr (Or.inl hZero)
    have hIn := (hMap.marks (Or.inr hZero')).1 f
    have hOut : m.frames.putPages addr npages = some (frames', back) → (frames'.Marked f ↔
        m.frames.Marked f ∧ (addr = 0 ∨ npages = 0 ∨ f ∉ framesOf (addr, npages))) := fun hPut =>
      (putPages_cases hPut).1 f
    have hTable : Paging.TableFrame { b with frames := frames } m p f → f ∉ framesOf (addr, npages) := by
      intro hTable hf
      obtain ⟨i, hi, hFrame⟩ := hMap.tableFrame_iff.mp hTable
      have hFresh := (hMap.enter.fresh i hi).2.2.2
      rw [hFrame] at hFresh
      exact hFresh ((hMarks f).mpr (Or.inr hf))
    have hOld : b.frames.Marked f → f ∉ framesOf (addr, npages) := fun hf hMem =>
      (mem_freeFrames.mp (hFree hMem)).2 hf
    have hPages' : npages ≠ 0 := by omega
    have hPut' := hOut hPut
    simp only [hAddr, hPages', false_or] at hPut'
    rw [hPut', hIn, hMarks]
    constructor
    · rintro ⟨(hf | hMem) | hNew, hNot⟩
      · exact Or.inl hf
      · exact absurd hMem hNot
      · exact Or.inr hNew
    · rintro (hf | hNew)
      · exact ⟨Or.inl (Or.inl hf), hOld hf⟩
      · exact ⟨Or.inr hNew, hTable hNew⟩

/-- All that `palloc` can do. -/
theorem KernelMemory.palloc_cases (hNode : NodeAnswer kmalloc .kernel l s u new) (hEnv : u.env = s.env)
    (hPos : 0 < sz) (hSmall : sz ≤ 2 ^ 31) {ret : Option Nat}
    (hRun : palloc (Paging.phys kernelEnd p contents) kmalloc fuel sz s = some (t, ret))
    (ha : t.env = some a) :
    (ret = none ∧ Undone p b a l t) ∨
      ∃ r addr frames entered tables, ret = some r ∧
        PallocDone kernelEnd p (pageFloor sz >>> pageBits) b a l t r addr frames entered tables := by
  obtain ⟨hPages, hSize⟩ := pageFloor_pages hPos hSmall
  rw [palloc] at hRun
  dsimp only at hRun
  generalize pageFloor sz >>> pageBits = npages at hRun hPages hSize ⊢
  have hMod : npages * pageSize % 2 ^ 32 = npages * pageSize :=
    Nat.mod_eq_of_lt (lt_of_le_of_lt hSize (by decide))
  have hSizePos : 0 < npages * pageSize := Nat.mul_pos hPages (by decide)
  rw [hMod] at hRun
  obtain ⟨⟨t₁, r⟩, hAlloc, hRest⟩ := Option.bind_eq_some_iff.mp hRun
  obtain ⟨hEnv₁, hNone, hRoom⟩ := h.reserve hSize hNode hEnv hAlloc
  dsimp only at hRest
  by_cases hr : r = 0
  · rw [if_pos hr] at hRest
    cases hRest
    obtain rfl := Option.some.inj (hEnv₁.symm.trans ha)
    exact Or.inl ⟨rfl, KernelMemory.undone_of_mem rfl ⟨l, hNone hr, h.sorted, fun _ => rfl⟩
      fun _ _ => Iff.rfl⟩
  · have hRoom := hRoom hr
    have hRange := hRoom.pages
    rw [if_neg hr] at hRest
    cases hGet : b.frames.getPages kernelEnd npages with
    | none =>
        have hPhys : (Paging.phys kernelEnd p contents).getPages npages (some b) = (none, 0) :=
          Paging.phys_getPages_none hGet
        rw [← hEnv₁] at hPhys
        rw [mapFrames_null hPhys] at hRest
        obtain ⟨⟨t₂, back⟩, hFree, hResult⟩ := Option.map_eq_some_iff.mp hRest
        cases hResult
        have hLost := (hRoom.undo hSizePos kfree_freesOnly hFree rfl).1
        cases hLost.symm.trans ha
    | some taken =>
        obtain ⟨frames, addr⟩ := taken
        have hPhys : (Paging.phys kernelEnd p contents).getPages npages (some b) =
          (some { b with frames := frames }, addr) := Paging.phys_getPages hGet
        rw [← hEnv₁] at hPhys
        by_cases hAddr : addr = 0
        · subst hAddr
          rw [mapFrames_null hPhys] at hRest
          obtain ⟨⟨t₂, back⟩, hFree, hResult⟩ := Option.map_eq_some_iff.mp hRest
          cases hResult
          obtain ⟨hEnv₂, hList⟩ := hRoom.undo hSizePos kfree_freesOnly hFree rfl
          obtain rfl := Option.some.inj (hEnv₂.symm.trans ha)
          exact Or.inl ⟨rfl, KernelMemory.undone_of_mem rfl hList fun hZero =>
            getPages_failed hPages hGet hZero⟩
        · obtain ⟨hFree, hMarks, _⟩ := getPages_done hGet hAddr
          have hTaking : Holding.Taking b.frames frames := fun f hf => (hMarks f).mpr (Or.inl hf)
          cases hMap : Paging.pageMap kernelEnd p r addr npages (pgRw ||| pgGlobal)
              { b with frames := frames } with
          | none =>
              rw [mapFrames_mapped hPhys hAddr (Paging.phys_pageMap_none hMap)] at hRest
              cases hRest
              cases ha
          | some outcome =>
              obtain ⟨m, err⟩ := outcome
              rw [mapFrames_mapped hPhys hAddr (Paging.phys_pageMap hMap)] at hRest
              obtain ⟨entered, tables, hDone⟩ := h.pages.pageMap hTaking hPages hRange hMap
              by_cases hErr : err = 0
              · subst hErr
                cases hRest
                obtain rfl := Option.some.inj ha
                exact Or.inr ⟨r, addr, frames, entered, tables, rfl, hRoom.congr rfl, hGet, hAddr, hDone⟩
              · dsimp only at hRest
                rw [if_pos hErr] at hRest
                obtain ⟨⟨t₂, back⟩, hFreed, hResult⟩ := Option.map_eq_some_iff.mp hRest
                cases hResult
                obtain ⟨hEnv₂, hList⟩ := hRoom.undo hSizePos kfree_freesOnly hFreed rfl
                rw [hEnv₂] at ha
                obtain ⟨⟨frames', count⟩, hPut, hResult⟩ := Option.map_eq_some_iff.mp ha
                cases hResult
                exact Or.inl ⟨rfl, h.unmapped hPages hGet hAddr hRange hDone hErr hPut hList⟩

/-- A call of `palloc` has returned `r`: `npages` pages are covered and mapped to frames that were
free, and but for new page tables this is all. -/
structure Given (p npages : Nat) (b a : Paging) (l : List Entry) (t : Mm (Option Paging)) (r : Nat) :
    Prop where
  aligned : pageSize ∣ r
  fresh : ∀ addr, r ≤ addr → addr < r + npages * pageSize → assigns l addr = none
  list : ∃ l', t.vmas.Spells .kernel l' ∧ Sorted l' ∧ ∀ addr, assigns l' addr =
    if r ≤ addr ∧ addr < r + npages * pageSize then some vmaHeap else assigns l addr
  frames : ∃ f₀, (∀ k < npages, f₀ + k < bitmapBits ∧ ¬ b.frames.Marked (f₀ + k)) ∧
    (∀ k < npages, walk a.mem p (r >>> pageBits + k) =
      some ⟨f₀ + k, pgRw ||| pgGlobal ||| pgPresent⟩) ∧
    ∀ f, a.frames.Marked f ↔
      b.frames.Marked f ∨ (f₀ ≤ f ∧ f < f₀ + npages) ∨ b.TableFrame a p f
  walk : ∀ v < Paging.allPages, (∀ k < npages, v ≠ r >>> pageBits + k) → ¬ b.Entered a p v →
    walk a.mem p v = walk b.mem p v

theorem KernelMemory.given {entered : List Nat} {tables : Paging}
    (hDone : PallocDone kernelEnd p npages b a l t r addr frames entered tables) :
    Given p npages b a l t r := by
  obtain ⟨hFree, hMarks, _⟩ := getPages_done hDone.taken hDone.addr_ne
  have hLevel : Paging.TwoLevel { b with frames := frames } p :=
    ⟨⟨h.pages.level.rooted.frame, h.pages.level.rooted.present⟩, h.pages.level.root_ne,
      h.pages.level.apart⟩
  obtain ⟨left, e, right, hReserved⟩ := hDone.room.reserved
  have hRewrites := (hDone.map.result.resolve_right fun hError => absurd hError.1 (by decide)).2
  refine ⟨hDone.room.aligned, hDone.room.fresh, ⟨_, hReserved.spells, hReserved.sorted, hReserved.map⟩,
    ⟨addr >>> pageBits, fun k hk => ?_, fun k hk => ?_, fun f => ?_⟩, fun v hv hOut hWindow => ?_⟩
  · exact mem_freeFrames.mp (hFree (Finset.mem_Ico.mpr ⟨Nat.le_add_right _ _, by
      exact Nat.add_lt_add_left hk _⟩))
  · rw [hRewrites.walk_page hk, if_pos PageEntry.has_page]
  · rw [(hDone.map.marks (Or.inl rfl)).1, hMarks, framesOf, Finset.mem_Ico, or_assoc]
    rfl
  · exact hDone.map.walk_other hLevel hDone.room.pages hv (fun _ => hOut) hWindow

/-- A failure of `palloc` leaves nothing behind but new page tables; after a success the pages are
mapped to frames that were free. -/
theorem palloc_outcome (hNode : NodeAnswer kmalloc .kernel l s u new) (hEnv : u.env = s.env)
    (hPos : 0 < sz) (hSmall : sz ≤ 2 ^ 31) {ret : Option Nat}
    (hRun : palloc (Paging.phys kernelEnd p contents) kmalloc fuel sz s = some (t, ret))
    (ha : t.env = some a) :
    (ret = none → Undone p b a l t) ∧
      ∀ r, ret = some r → Given p (pageFloor sz >>> pageBits) b a l t r := by
  rcases h.palloc_cases hNode hEnv hPos hSmall hRun ha with ⟨rfl, hUndone⟩ | hDone
  · exact ⟨fun _ => hUndone, fun r hr => absurd hr (Option.some_ne_none r).symm⟩
  · obtain ⟨r, addr, frames, entered, tables, rfl, hDone⟩ := hDone
    refine ⟨fun hr => absurd hr (Option.some_ne_none r), fun r' hr => ?_⟩
    obtain rfl := Option.some.inj hr
    exact h.given hDone

end Steps

end Palloc

/-- One user page, and three frames left. -/
def threeFrames : Paging :=
  { Paging.onePage with
    frames :=
      { bitmap := fun i => if i = 0x40 then 0xe9 else 0xff
        allocStart := 2 ^ 32 - 1
        allocated := bitmapBits - 3
        available := 3 } }

/-- One area of the heap, up to the last page of the second page table. -/
def pallocStart : Mm (Option Paging) where
  vmas :=
    { vmaList := some 1
      taskVmaList := none
      node := fun _ =>
        { start := vmaKernMin, endAddr := 0x7ff000, flags := vmaHeap, next := none, prev := none } }
  heap := { mem := fun _ => 0, lists := fun _ => none }
  env := some threeFrames

abbrev pallocArea : Entry := (1, { start := vmaKernMin, endAddr := 0x7ff000, flags := vmaHeap })

/-- No node is left. -/
abbrev noNode : Allocator (Option Paging) := fun _ s => some (s, none)

theorem pallocStart_spells : pallocStart.vmas.Spells .kernel [pallocArea] := ⟨rfl, rfl, rfl, rfl⟩

theorem pallocStart_memory : ∃ b, b.mem = Paging.onePage.mem ∧ b.frames.Marked 0 ∧
    KernelMemory 0x110 pallocStart b [pallocArea] := by
  refine ⟨threeFrames, rfl, ?_, pallocStart_spells, ordered_cons.mpr ⟨by decide, ordered_nil, by simp⟩, by decide,
    by decide, rfl, ?_, ?_, fun i hi hThere => ?_⟩
  · decide
  · obtain ⟨⟨hFrame, hPresent⟩, hRoot, hApart⟩ := Paging.onePage_twoLevel
    exact ⟨⟨hFrame, hPresent⟩, hRoot, hApart⟩
  · exact fun _ => by decide
  · obtain rfl : i = 0 := (Paging.onePage_dir hThere).resolve_right (by omega)
    exact fun _ => by decide

theorem noNode_answer : NodeAnswer noNode .kernel [pallocArea] pallocStart pallocStart none :=
  ⟨rfl, pallocStart_spells, fun p hp => absurd hp (Option.not_mem_none p)⟩

theorem palloc_outcome_example :
    ∃ b t a, palloc (Paging.phys 0x200000 0x110 fun _ _ _ _ _ => 0) noNode 3 0x1000 pallocStart =
        some (t, some 0x7ff000) ∧ t.env = some a ∧
      ((some 0x7ff000 = none → Undone 0x110 b a [pallocArea] t) ∧
        ∀ r, some 0x7ff000 = some r →
          Given 0x110 (pageFloor 0x1000 >>> pageBits) b a [pallocArea] t r) := by
  obtain ⟨b, _, _, hMemory⟩ := pallocStart_memory
  have hCall : ((palloc (Paging.phys 0x200000 0x110 fun _ _ _ _ _ => 0) noNode 3 0x1000
      pallocStart).map fun x => (x.2, x.1.env.isSome)) = some (some 0x7ff000, true) := by
    decide
  obtain ⟨⟨t, ret⟩, hRun, hSeen⟩ := Option.map_eq_some_iff.mp hCall
  obtain ⟨rfl, hEnv⟩ := Prod.mk.inj hSeen
  obtain ⟨a, ha⟩ := Option.isSome_iff_exists.mp hEnv
  exact ⟨b, t, a, hRun, ha, palloc_outcome hMemory noNode_answer rfl (by decide) (by decide) hRun ha⟩

/-- Two pages over the end of a table, and a frame for one table only: the table stays. -/
theorem palloc_failed_table :
    ¬ ∀ (kernelEnd p sz fuel : Nat) (s t u : Mm (Option Paging)) (b a : Paging) (l : List Entry)
      (kmalloc : Allocator (Option Paging)) (node : Option Nat), KernelMemory p s b l →
      b.frames.Marked 0 → NodeAnswer kmalloc .kernel l s u node → u.env = s.env → 0 < sz →
      sz ≤ 2 ^ 31 →
      palloc (Paging.phys kernelEnd p fun _ _ _ _ _ => 0) kmalloc fuel sz s = some (t, none) →
      t.env = some a → ∀ v < Paging.allPages, walk a.mem p v = walk b.mem p v := by
  intro hAll
  obtain ⟨b, hMem, hZero, hMemory⟩ := pallocStart_memory
  have hCall : ((palloc (Paging.phys 0x200000 0x110 fun _ _ _ _ _ => 0) noNode 3 0x2000
      pallocStart).map fun x => (x.2, x.1.env.map fun a => walk a.mem 0x110 0xffc01)) =
      some (none, some (some
        ⟨0x204, pgRw ||| pgGlobal ||| pgPresent ||| pgUser ||| pgRw⟩)) := by
    decide
  obtain ⟨⟨t, ret⟩, hRun, hSeen⟩ := Option.map_eq_some_iff.mp hCall
  obtain ⟨rfl, hEnv⟩ := Prod.mk.inj hSeen
  obtain ⟨a, ha, hAfter⟩ := Option.map_eq_some_iff.mp hEnv
  have hSame := hAll 0x200000 0x110 0x2000 3 pallocStart t pallocStart b a [pallocArea] noNode none
    hMemory hZero noNode_answer rfl (by decide) (by decide) hRun ha 0xffc01 (by decide)
  have hBefore : walk Paging.onePage.mem 0x110 0xffc01 = none := by decide
  rw [hAfter, hMem, hBefore] at hSame
  cases hSame

end ArtOS

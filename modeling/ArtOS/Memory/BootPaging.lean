import ArtOS.Memory.MemoryInit
import ArtOS.Memory.Palloc
import ArtOS.Memory.PageMapping

/-! The page tables of the kernel from `cpu_init` in `asm/prepcpu.s` to `page_init`, which runs while
the bitmap of the frames is still full: no table can be added to the one of the image. Physical
addresses are not those of whole frames here. -/
namespace ArtOS

/-- `VIDEO_MEM_ADDR` of `boot.s`. -/
abbrev videoMemAddr : Nat := 0xB8000

namespace Paging

/-- `boot_pgd` as it is in the image; `boot_pgt` is the next frame. -/
def bootPgd (pgd i : Nat) : PageEntry :=
  if i = 0 then ⟨pgd + 1, 0x107⟩ else if i = pageMapEntries - 1 then ⟨pgd, 0x303⟩ else PageEntry.zero

/-- One entry of `boot_pgt`. The index is that of a word in memory, whatever the address. -/
def cpuInitEntry (pgd addr : Nat) (bits : BitVec 12) (s : Paging) : Paging :=
  let vpn := addr >>> pageBits
  s.write (pgd + 1 + vpn / pageMapEntries) (vpn % pageMapEntries) ⟨vpn, bits⟩

/-- The loop over the kernel; `ecx` and `ebx` are words. -/
def cpuInitLoop (pgd ebx : Nat) : Nat → Nat → Paging → Option Paging
  | 0, _, _ => none
  | fuel + 1, ecx, s =>
      if ebx ≤ ecx then some s
      else cpuInitLoop pgd ebx fuel (Word.add ecx 0x1000) (s.cpuInitEntry pgd ecx 0x103)

def cpuInit (fuel kernelEnd pgd mbInfo : Nat) (s : Paging) : Option Paging :=
  cpuInitLoop pgd (Word.add kernelEnd 0x1000) fuel kernelStart
    ((s.cpuInitEntry pgd videoMemAddr 0x113).cpuInitEntry pgd mbInfo 0x101)

/-- `page_map` of an address that need not be that of a frame: what is left of it goes into the
flags of the pages. -/
def pageMapUnaligned (kernelEnd cr3 viraddr phyaddr npages : Nat) (bits : BitVec 12) (s : Paging) :
    Option (Paging × Int) :=
  let vpn := viraddr >>> pageBits
  let first := vpn / pageMapEntries
  let last := (vpn + npages - 1) / pageMapEntries
  (s.mapTables kernelEnd cr3 bits (last + 1 - first) first).bind fun (s, complete) =>
    if complete then
      (s.mapPages cr3 (BitVec.ofNat 12 phyaddr ||| bits) npages vpn (phyaddr >>> pageBits)).map fun s => (s, 0)
    else some (s, -enomem)

/-- The bytes of a page are read where the boot loader has put them. -/
def Identical (cr3 v : Nat) (s : Paging) : Prop := s.frameAt cr3 v = some v

instance (cr3 v : Nat) (s : Paging) : Decidable (s.Identical cr3 v) := inferInstanceAs (Decidable (_ = _))

/-- And so is a word, which may lie in two pages. -/
def InPlace (cr3 addr : Nat) (s : Paging) : Prop :=
  s.Identical cr3 (addr >>> pageBits) ∧ s.Identical cr3 ((addr + 3) >>> pageBits)

instance (cr3 addr : Nat) (s : Paging) : Decidable (s.InPlace cr3 addr) :=
  inferInstanceAs (Decidable (_ ∧ _))

/-! The offsets of `flags`, `mods_count` and `mods_addr` in `multiboot_info_t`. -/

abbrev offFlags : Nat := 0
abbrev offModsCount : Nat := 20
abbrev offModsAddr : Nat := 24

/-- One round of the loop over the modules. -/
def mapModule (kernelEnd cr3 modsAddr : Nat) (s : Paging) (m : MultibootModule × Nat) : Option Paging :=
  let record := modsAddr + m.2 * sizeofMultibootModule
  if s.InPlace cr3 record ∧ s.InPlace cr3 (record + 4) then
    let npages := pageFloor (Word.sub m.1.modEnd m.1.modStart) >>> pageBits
    (s.pageMapUnaligned kernelEnd cr3 m.1.modStart m.1.modStart npages pgGlobal).map Prod.fst
  else none

/-- `page_init`, which returns 0 in any case. It has no result where it reads behind the pages that are
mapped. What it maps itself leaves the fields of `mb_info` where they are. -/
def pageInit (kernelEnd cr3 : Nat) (info : MultibootInfo) (s : Paging) : Option Paging :=
  if info.address = 0 then some s
  else if ¬ s.InPlace cr3 (info.address + offFlags) then none
  else if info.flags &&& multibootInfoMods ≠ 0 then
    if s.InPlace cr3 (info.address + offModsCount) ∧ s.InPlace cr3 (info.address + offModsAddr) then
      let npages := pageFloor (info.modules.length * sizeofMultibootModule) >>> pageBits
      (s.pageMapUnaligned kernelEnd cr3 info.modsAddr info.modsAddr npages pgGlobal).bind fun (s, _) =>
        info.modules.zipIdx.foldlM (mapModule kernelEnd cr3 info.modsAddr) s
    else none
  else some s

theorem pageMapUnaligned_eq {kernelEnd cr3 viraddr phyaddr npages : Nat} {bits : BitVec 12} {s : Paging}
    (h : pageSize ∣ phyaddr) :
    s.pageMapUnaligned kernelEnd cr3 viraddr phyaddr npages bits =
      s.pageMap kernelEnd cr3 viraddr phyaddr npages bits := by
  have hLow : BitVec.ofNat 12 phyaddr = 0#12 := BitVec.eq_of_toNat_eq (Nat.mod_eq_zero_of_dvd h)
  rw [pageMapUnaligned, hLow, BitVec.zero_or]
  rfl

/-- The image as it is loaded; nothing is counted as available yet. -/
structure BootImage (s : Paging) (pgd : Nat) : Prop where
  root : ∀ i < pageMapEntries, s.mem pgd i = bootPgd pgd i
  table : ∀ j < pageMapEntries, s.mem (pgd + 1) j = PageEntry.zero
  full : s.frames.available = 0

/-- One table, which maps pages to themselves. -/
structure LowMap (s : Paging) (pgd : Nat) : Prop where
  root : ∀ i < pageMapEntries, s.mem pgd i = bootPgd pgd i
  identity : ∀ j < pageMapEntries, (s.mem (pgd + 1) j).Has pgPresent → (s.mem (pgd + 1) j).frame = j
  full : s.frames.available = 0

/-- Entries of the table are set, and nothing else. -/
structure EntriesSet (pgd first n : Nat) (flags : BitVec 12) (s s' : Paging) : Prop where
  page : ∀ j, s'.mem (pgd + 1) j = if first ≤ j ∧ j < first + n then ⟨j, flags⟩ else s.mem (pgd + 1) j
  other : ∀ f, f ≠ pgd + 1 → s'.mem f = s.mem f
  frames : s'.frames = s.frames

variable {s s' s₁ : Paging} {pgd kernelEnd first n i j v addr : Nat} {bits flags : BitVec 12}

theorem BootImage.lowMap (h : s.BootImage pgd) : s.LowMap pgd where
  root := h.root
  identity := fun j hj hPresent => absurd (h.table j hj ▸ hPresent) PageEntry.not_has_zero
  full := h.full

namespace LowMap

theorem dir_zero (h : s.LowMap pgd) : s.mem pgd 0 = ⟨pgd + 1, 0x107⟩ := h.root 0 (by decide)

theorem dir_self (h : s.LowMap pgd) : s.mem pgd (pageMapEntries - 1) = ⟨pgd, 0x303⟩ :=
  h.root (pageMapEntries - 1) (by decide)

theorem dir_absent (h : s.LowMap pgd) (hi : i ≠ 0) (hLess : i < pageMapEntries - 1) :
    s.mem pgd i = PageEntry.zero := by
  rw [h.root i (by omega), bootPgd, if_neg hi, if_neg (by omega)]

theorem rooted (h : s.LowMap pgd) : s.Rooted pgd := by
  refine ⟨?_, ?_⟩ <;> rw [h.dir_self]
  exact (by decide : (0x303 : BitVec 12) &&& pgPresent ≠ 0)

theorem eq_zero (h : s.LowMap pgd) (hi : i < pageMapEntries - 1) (hPresent : (s.mem pgd i).Has pgPresent) :
    i = 0 := by
  by_contra hne
  rw [h.dir_absent hne hi] at hPresent
  exact PageEntry.not_has_zero hPresent

theorem twoLevel (h : s.LowMap pgd) : s.TwoLevel pgd where
  rooted := h.rooted
  root_ne := fun i hi hPresent => by
    rw [h.eq_zero hi hPresent, h.dir_zero]
    exact Nat.succ_ne_self pgd
  apart := fun i hi k hk hne hPresent hPresent' =>
    absurd ((h.eq_zero hi hPresent).trans (h.eq_zero hk hPresent').symm) hne

theorem present_zero (h : s.LowMap pgd) : (s.mem pgd 0).Has pgPresent := by
  rw [h.dir_zero]
  exact (by decide : (0x107 : BitVec 12) &&& pgPresent ≠ 0)

theorem walk_low (h : s.LowMap pgd) (hv : v < pageMapEntries) :
    walk s.mem pgd v =
      if (s.mem (pgd + 1) v).Has pgPresent then some (s.mem (pgd + 1) v) else none := by
  rw [walk, Nat.div_eq_of_lt hv, Nat.mod_eq_of_lt hv]
  simp only [h.present_zero, true_and]
  rw [h.dir_zero]

theorem walk_high (h : s.LowMap pgd) (hFirst : pageMapEntries ≤ v) (hv : v < allPages)
    (hLast : v / pageMapEntries ≠ pageMapEntries - 1) : walk s.mem pgd v = none := by
  have hDir := dir_lt hv
  have hPos : 1 ≤ v / pageMapEntries := (Nat.one_le_div_iff (by decide)).mpr hFirst
  apply walk_absent
  rw [h.dir_absent (by omega) (by omega)]
  exact PageEntry.not_has_zero

theorem setEntry (h : s.LowMap pgd) (hj : j < pageMapEntries) {e : PageEntry} :
    s.setEntry pgd (self 0) j e = some (s.write (pgd + 1) j e) := by
  have hPresent := h.present_zero
  have hSet := h.rooted.setEntry_table (i := 0) (j := j) (e := e) (by decide) hj hPresent
  rwa [Nat.zero_shiftLeft, Nat.zero_add, h.dir_zero] at hSet

theorem fill (h : s.LowMap pgd) (hFill : EntriesSet pgd first n flags s s') : s'.LowMap pgd where
  root := fun i hi => by
    rw [hFill.other pgd (Nat.succ_ne_self pgd).symm]
    exact h.root i hi
  identity := fun j hj hPresent => by
    rw [hFill.page] at hPresent ⊢
    split at hPresent
    next hIn => rw [if_pos hIn]
    next hOut =>
      rw [if_neg hOut]
      exact h.identity j hj hPresent
  full := by rw [hFill.frames, h.full]

end LowMap

theorem EntriesSet.refl (pgd first : Nat) (flags : BitVec 12) (s : Paging) : EntriesSet pgd first 0 flags s s where
  page := fun j => (if_neg (by omega)).symm
  other := fun _ _ => rfl
  frames := rfl

theorem entriesSet_write (s : Paging) (pgd j : Nat) (flags : BitVec 12) :
    EntriesSet pgd j 1 flags s (s.write (pgd + 1) j ⟨j, flags⟩) where
  page := fun k => by
    by_cases hk : k = j
    · rw [hk, mem_write, if_pos (by omega)]
    · rw [mem_write_of_index hk, if_neg (by omega)]
  other := fun f hf => mem_write_of_frame hf
  frames := rfl

theorem EntriesSet.cons (h : EntriesSet pgd first 1 flags s s₁) (h' : EntriesSet pgd (first + 1) n flags s₁ s') :
    EntriesSet pgd first (n + 1) flags s s' where
  page := fun j => by
    rw [h'.page, h.page]
    split_ifs <;> first | rfl | omega
  other := fun f hf => (h'.other f hf).trans (h.other f hf)
  frames := h'.frames.trans h.frames

namespace LowMap

/-- Pages below 4 MiB are mapped to themselves. -/
theorem mapPages (h : s.LowMap pgd) (flags : BitVec 12) (hRange : first + n ≤ pageMapEntries) :
    ∃ s', s.mapPages pgd flags n first first = some s' ∧
      EntriesSet pgd first n (flags ||| pgPresent) s s' := by
  induction n generalizing first s with
  | zero => exact ⟨s, rfl, EntriesSet.refl pgd first _ s⟩
  | succ n ih =>
      have hFirst := entriesSet_write s pgd first (flags ||| pgPresent)
      obtain ⟨s', hRest, hSet⟩ := ih (h.fill hFirst) (show first + 1 + n ≤ pageMapEntries by omega)
      refine ⟨s', ?_, hFirst.cons hSet⟩
      rw [Paging.mapPages, h.setEntry (by omega), Option.bind_some]
      exact hRest

/-- There is a table for the first 4 MiB, and no frame for a second one. -/
theorem mapTables (h : s.LowMap pgd) (hRange : i + n ≤ pageMapEntries - 2) :
    s.mapTables kernelEnd pgd bits n i = some (s, decide (n = 0 ∨ i + n ≤ 1)) := by
  induction n generalizing i with
  | zero => rw [Paging.mapTables, decide_eq_true (Or.inl rfl)]
  | succ n ih =>
      rw [Paging.mapTables, h.rooted.entry_dir (by omega), Option.bind_some]
      by_cases hZero : i = 0
      · subst hZero
        rw [if_pos h.present_zero, ih (by omega)]
        refine congrArg (fun b => some (s, b)) (decide_eq_decide.mpr ?_)
        omega
      · have hAbsent : ¬ (s.mem pgd i).Has pgPresent := fun hPresent =>
          hZero (h.eq_zero (by omega) hPresent)
        have hNone : s.frames.getPages kernelEnd 1 = some (s.frames, 0) := by
          rw [Frames.getPages, if_neg Nat.one_ne_zero, if_pos (by rw [h.full]; exact Nat.one_pos)]
        rw [if_neg hAbsent, hNone, Option.bind_some]
        dsimp only
        rw [if_pos rfl, decide_eq_false (by omega)]

theorem pageMap (h : s.LowMap pgd) (kernelEnd : Nat) (bits : BitVec 12) (hSome : 0 < addr >>> pageBits + n)
    (hRange : addr >>> pageBits + n ≤ lowPages) :
    ∃ s' ret, s.pageMapUnaligned kernelEnd pgd addr addr n bits = some (s', ret) ∧
      (addr >>> pageBits + n ≤ pageMapEntries ∧
          EntriesSet pgd (addr >>> pageBits) n (BitVec.ofNat 12 addr ||| bits ||| pgPresent) s s' ∨
        pageMapEntries < addr >>> pageBits + n ∧ s' = s) := by
  have hEntries : pageMapEntries = 1024 := rfl
  have hLow : lowPages = 1022 * 1024 := rfl
  rw [pageMapUnaligned]
  dsimp only
  generalize addr >>> pageBits = vpn at hSome hRange ⊢
  have hLast : vpn / pageMapEntries + ((vpn + n - 1) / pageMapEntries + 1 - vpn / pageMapEntries) ≤
      pageMapEntries - 2 := by
    rw [hEntries]
    omega
  rw [h.mapTables hLast, Option.bind_some]
  dsimp only
  by_cases hFits : vpn + n ≤ pageMapEntries
  · obtain ⟨s', hPages, hSet⟩ := h.mapPages (BitVec.ofNat 12 addr ||| bits) hFits
    have hTable : (vpn + n - 1) / pageMapEntries + 1 - vpn / pageMapEntries = 0 ∨
        vpn / pageMapEntries + ((vpn + n - 1) / pageMapEntries + 1 - vpn / pageMapEntries) ≤ 1 := by
      rw [hEntries] at hFits ⊢
      omega
    refine ⟨s', 0, ?_, Or.inl ⟨hFits, hSet⟩⟩
    rw [decide_eq_true hTable, if_pos rfl, hPages, Option.map_some]
  · by_cases hTable : (vpn + n - 1) / pageMapEntries + 1 - vpn / pageMapEntries = 0 ∨
        vpn / pageMapEntries + ((vpn + n - 1) / pageMapEntries + 1 - vpn / pageMapEntries) ≤ 1
    · have hNone : n = 0 := by
        rw [hEntries] at hFits hTable
        omega
      refine ⟨s, 0, ?_, Or.inr ⟨Nat.lt_of_not_le hFits, rfl⟩⟩
      rw [decide_eq_true hTable, if_pos rfl, hNone, Paging.mapPages, Option.map_some]
    · refine ⟨s, -enomem, ?_, Or.inr ⟨Nat.lt_of_not_le hFits, rfl⟩⟩
      rw [decide_eq_false hTable, if_neg Bool.false_ne_true]

end LowMap

theorem cpuInitEntry_eq (h : addr >>> pageBits < pageMapEntries) :
    s.cpuInitEntry pgd addr bits = s.write (pgd + 1) (addr >>> pageBits) ⟨addr >>> pageBits, bits⟩ := by
  rw [cpuInitEntry, Nat.div_eq_of_lt h, Nat.mod_eq_of_lt h, Nat.add_zero]

theorem cpuInitEntry_set (s : Paging) (pgd : Nat) (bits : BitVec 12) (h : addr >>> pageBits < pageMapEntries) :
    EntriesSet pgd (addr >>> pageBits) 1 bits s (s.cpuInitEntry pgd addr bits) := by
  rw [cpuInitEntry_eq h]
  exact entriesSet_write s pgd _ bits

/-- The loop over the kernel, before it reaches the end of the table. -/
theorem cpuInitLoop_eq {fuel ebx : Nat} (h : s.LowMap pgd) (hEnd : ebx ≤ pageMapEntries * pageSize)
    (hFuel : pageMapEntries < first + fuel) (hFirst : first ≤ pageMapEntries) :
    ∃ s', cpuInitLoop pgd ebx fuel (first * pageSize) s = some s' ∧
      EntriesSet pgd first ((ebx + (pageSize - 1)) / pageSize - first) 0x103 s s' := by
  have hPage : pageSize = 4096 := rfl
  have hEntries : pageMapEntries = 1024 := rfl
  induction fuel generalizing first s with
  | zero => omega
  | succ fuel ih =>
      rw [cpuInitLoop]
      by_cases hStop : ebx ≤ first * pageSize
      · have hNone : (ebx + (pageSize - 1)) / pageSize - first = 0 := by
          rw [hPage] at hStop ⊢
          omega
        exact ⟨s, if_pos hStop, hNone ▸ EntriesSet.refl pgd first 0x103 s⟩
      · have hLess : first < pageMapEntries := by
          rw [hPage] at hStop hEnd
          omega
        have hMore : (ebx + (pageSize - 1)) / pageSize - first =
            (ebx + (pageSize - 1)) / pageSize - (first + 1) + 1 := by
          rw [hPage] at hStop ⊢
          omega
        have hIndex : (first * pageSize) >>> pageBits = first := by
          rw [Nat.shiftRight_eq_div_pow]
          exact Nat.mul_div_cancel first (by decide : 0 < pageSize)
        have hSet : EntriesSet pgd first 1 0x103 s (s.cpuInitEntry pgd (first * pageSize) 0x103) := by
          have hEntry := cpuInitEntry_set s pgd 0x103 (show (first * pageSize) >>> pageBits < pageMapEntries by
            rwa [hIndex])
          rwa [hIndex] at hEntry
        obtain ⟨s', hRest, hSets⟩ := ih (h.fill hSet)
          (show pageMapEntries < first + 1 + fuel by omega) (by omega)
        have hNext : Word.add (first * pageSize) 0x1000 = (first + 1) * pageSize := by
          rw [Word.add_eq] <;> rw [hPage] <;> omega
        refine ⟨s', ?_, hMore ▸ hSet.cons hSets⟩
        rw [if_neg hStop, hNext]
        exact hRest

/-- The pages that `cpu_init` maps: the screen, `mb_info`, and the kernel with the page behind it. -/
def BootPage (kernelEnd mbInfo v : Nat) : Prop :=
  v = videoMemAddr >>> pageBits ∨ v = mbInfo >>> pageBits ∨
    kernelStart >>> pageBits ≤ v ∧ v * pageSize < kernelEnd + pageSize

instance (kernelEnd mbInfo v : Nat) : Decidable (BootPage kernelEnd mbInfo v) :=
  inferInstanceAs (Decidable (_ ∨ _))

/-- The pages in reach of the table. -/
def PresentAt (s : Paging) (pgd v : Nat) : Prop := (s.mem (pgd + 1) v).Has pgPresent

theorem cpuInit_spec {fuel mbInfo : Nat} (h : s.BootImage pgd) (hFuel : pageMapEntries < fuel)
    (hKernel : kernelEnd + pageSize ≤ pageMapEntries * pageSize) (hInfo : mbInfo < pageMapEntries * pageSize) :
    ∃ s', cpuInit fuel kernelEnd pgd mbInfo s = some s' ∧ s'.LowMap pgd ∧
      (∀ v < pageMapEntries, s'.PresentAt pgd v ↔ BootPage kernelEnd mbInfo v) ∧
      (∀ v < pageMapEntries, ¬ (s'.mem (pgd + 1) v).Has pgUser) ∧
      ∀ f, f ≠ pgd + 1 → s'.mem f = s.mem f := by
  have hPage : pageSize = 4096 := rfl
  have hEntries : pageMapEntries = 1024 := rfl
  have hInfoPage : mbInfo >>> pageBits < pageMapEntries := by
    rw [Nat.shiftRight_eq_div_pow]
    exact Nat.div_lt_of_lt_mul (by rwa [Nat.mul_comm])
  have hVideo := cpuInitEntry_set s pgd 0x113 (show videoMemAddr >>> pageBits < pageMapEntries by decide)
  have hMbInfo := cpuInitEntry_set (s.cpuInitEntry pgd videoMemAddr 0x113) pgd 0x101 hInfoPage
  have hLow := (h.lowMap.fill hVideo).fill hMbInfo
  obtain ⟨s', hLoop, hSet⟩ := cpuInitLoop_eq hLow hKernel (show pageMapEntries < 0x100 + fuel by omega) (by decide)
  have hWord : Word.add kernelEnd 0x1000 = kernelEnd + pageSize :=
    Word.add_eq (lt_of_le_of_lt hKernel (by decide))
  have hRange : ∀ v, (0x100 ≤ v ∧ v < 0x100 + ((kernelEnd + pageSize + (pageSize - 1)) / pageSize - 0x100)) ↔
      kernelStart >>> pageBits ≤ v ∧ v * pageSize < kernelEnd + pageSize := by
    intro v
    rw [show kernelStart >>> pageBits = 0x100 by decide, hPage]
    omega
  have hSecond : ∀ v, (mbInfo >>> pageBits ≤ v ∧ v < mbInfo >>> pageBits + 1) ↔ v = mbInfo >>> pageBits := by
    omega
  have hFirst : ∀ v, (videoMemAddr >>> pageBits ≤ v ∧ v < videoMemAddr >>> pageBits + 1) ↔
      v = videoMemAddr >>> pageBits := by
    omega
  have hEntry : ∀ v < pageMapEntries, s'.mem (pgd + 1) v =
      if kernelStart >>> pageBits ≤ v ∧ v * pageSize < kernelEnd + pageSize then ⟨v, 0x103⟩
      else if v = mbInfo >>> pageBits then ⟨v, 0x101⟩
      else if v = videoMemAddr >>> pageBits then ⟨v, 0x113⟩
      else PageEntry.zero := by
    intro v hv
    rw [hSet.page, hMbInfo.page, hVideo.page, h.table v hv]
    simp only [hRange, hSecond, hFirst]
  refine ⟨s', ?_, hLow.fill hSet, fun v hv => ?_, fun v hv => ?_, fun f hf => ?_⟩
  · rw [cpuInit, hWord]
    exact hLoop
  · rw [PresentAt, hEntry v hv, BootPage]
    split_ifs with hKernelPage hInfoPage hVideoPage
    · exact iff_of_true (by decide : (0x103 : BitVec 12) &&& pgPresent ≠ 0) (Or.inr (Or.inr hKernelPage))
    · exact iff_of_true (by decide : (0x101 : BitVec 12) &&& pgPresent ≠ 0) (Or.inr (Or.inl hInfoPage))
    · exact iff_of_true (by decide : (0x113 : BitVec 12) &&& pgPresent ≠ 0) (Or.inl hVideoPage)
    · exact iff_of_false PageEntry.not_has_zero fun hBoot =>
        hBoot.elim hVideoPage fun hRest => hRest.elim hInfoPage hKernelPage
  · rw [hEntry v hv]
    split_ifs
    · exact (by decide : ¬ (0x103 : BitVec 12) &&& pgUser ≠ 0)
    · exact (by decide : ¬ (0x101 : BitVec 12) &&& pgUser ≠ 0)
    · exact (by decide : ¬ (0x113 : BitVec 12) &&& pgUser ≠ 0)
    · exact PageEntry.not_has_zero
  · rw [hSet.other f hf, hMbInfo.other f hf, hVideo.other f hf]

/-- A range of memory that `page_init` maps: where it starts, and of how many pages. -/
structure Area where
  addr : Nat
  npages : Nat
  deriving DecidableEq, Repr

namespace Area

/-- The page is one of those that get mapped: of an area beyond the first 4 MiB it is none. -/
def Covers (a : Area) (v : Nat) : Prop :=
  a.addr >>> pageBits + a.npages ≤ pageMapEntries ∧
    a.addr >>> pageBits ≤ v ∧ v < a.addr >>> pageBits + a.npages

/-- The area has a page and lies below the self-references. -/
def Proper (a : Area) : Prop :=
  0 < a.addr >>> pageBits + a.npages ∧ a.addr >>> pageBits + a.npages ≤ lowPages

instance (a : Area) (v : Nat) : Decidable (a.Covers v) := inferInstanceAs (Decidable (_ ∧ _))

instance (a : Area) : Decidable a.Proper := inferInstanceAs (Decidable (_ ∧ _))

/-- What is left of the address has the bit of `PG_USER`. -/
def User (a : Area) : Prop := BitVec.ofNat 12 a.addr &&& pgUser ≠ 0

end Area

def listArea (info : MultibootInfo) : Area :=
  ⟨info.modsAddr, pageFloor (info.modules.length * sizeofMultibootModule) >>> pageBits⟩

def moduleArea (m : MultibootModule) : Area :=
  ⟨m.modStart, pageFloor (Word.sub m.modEnd m.modStart) >>> pageBits⟩

def areas (info : MultibootInfo) : List Area :=
  if info.address ≠ 0 ∧ info.flags &&& multibootInfoMods ≠ 0 then
    listArea info :: info.modules.map moduleArea
  else []

/-- These areas have been mapped, as far as they can be. -/
structure Grown (pgd : Nat) (areas : List Area) (s s' : Paging) : Prop where
  low : s'.LowMap pgd
  mapped : ∀ v < pageMapEntries, s'.PresentAt pgd v ↔ s.PresentAt pgd v ∨ ∃ a ∈ areas, a.Covers v
  user : ∀ v < pageMapEntries, (s'.mem (pgd + 1) v).Has pgUser →
    (s.mem (pgd + 1) v).Has pgUser ∨ ∃ a ∈ areas, a.Covers v ∧ a.User
  other : ∀ f, f ≠ pgd + 1 → s'.mem f = s.mem f

variable {a : Area} {as bs : List Area}

theorem Grown.refl (h : s.LowMap pgd) : Grown pgd [] s s where
  low := h
  mapped := fun _ _ => by simp
  user := fun _ _ hUser => Or.inl hUser
  other := fun _ _ => rfl

theorem Grown.cons (h : Grown pgd [a] s s₁) (h' : Grown pgd as s₁ s') : Grown pgd (a :: as) s s' where
  low := h'.low
  mapped := fun v hv => by
    rw [h'.mapped v hv, h.mapped v hv]
    simp only [List.mem_singleton, exists_eq_left, List.exists_mem_cons_iff, or_assoc]
  user := fun v hv hUser => by
    rw [List.exists_mem_cons_iff, ← or_assoc]
    rcases h'.user v hv hUser with hUser | hRest
    · refine Or.inl ((h.user v hv hUser).imp_right ?_)
      rintro ⟨b, hb, hCovers⟩
      exact List.mem_singleton.mp hb ▸ hCovers
    · exact Or.inr hRest
  other := fun f hf => (h'.other f hf).trans (h.other f hf)

theorem LowMap.grow (h : s.LowMap pgd) (kernelEnd : Nat) (ha : a.Proper) :
    ∃ s' ret, s.pageMapUnaligned kernelEnd pgd a.addr a.addr a.npages pgGlobal = some (s', ret) ∧
      Grown pgd [a] s s' := by
  obtain ⟨s', ret, hCall, hResult⟩ := h.pageMap kernelEnd pgGlobal ha.1 ha.2
  refine ⟨s', ret, hCall, ?_⟩
  rcases hResult with ⟨hFits, hSet⟩ | ⟨hBeyond, rfl⟩
  · refine ⟨h.fill hSet, fun v hv => ?_, fun v hv hUser => ?_, hSet.other⟩
    · rw [PresentAt, hSet.page]
      simp only [List.mem_singleton, exists_eq_left]
      split
      next hIn => exact iff_of_true PageEntry.has_page (Or.inr ⟨hFits, hIn⟩)
      next hOut => exact (or_iff_left fun hCovers => hOut hCovers.2).symm
    · rw [hSet.page] at hUser
      simp only [List.mem_singleton, exists_eq_left]
      split at hUser
      next hIn =>
        have hBits : (BitVec.ofNat 12 a.addr ||| pgGlobal ||| pgPresent) &&& pgUser ≠ 0 := hUser
        rw [PageEntry.or_and_ne_zero, PageEntry.or_and_ne_zero] at hBits
        refine Or.inr ⟨⟨hFits, hIn⟩, (hBits.resolve_right (by decide)).resolve_right (by decide)⟩
      next hOut => exact Or.inl hUser
  · have hNone : ∀ v, ¬ a.Covers v := fun v hCovers => absurd hCovers.1 (Nat.not_le_of_lt hBeyond)
    refine ⟨h, fun v _ => ?_, fun v _ hUser => Or.inl hUser, fun _ _ => rfl⟩
    simp [hNone]

/-- The word lies in pages that are mapped to themselves. -/
structure Readable (s : Paging) (pgd addr : Nat) : Prop where
  reach : (addr + 3) >>> pageBits < pageMapEntries
  first : s.PresentAt pgd (addr >>> pageBits)
  last : s.PresentAt pgd ((addr + 3) >>> pageBits)

theorem Readable.reach_first (h : s.Readable pgd addr) : addr >>> pageBits < pageMapEntries := by
  have hReach := h.reach
  rw [Nat.shiftRight_eq_div_pow] at hReach ⊢
  exact lt_of_le_of_lt (Nat.div_le_div_right (Nat.le_add_right addr 3)) hReach

theorem LowMap.identical (h : s.LowMap pgd) (hv : v < pageMapEntries) (hPresent : s.PresentAt pgd v) :
    s.Identical pgd v := by
  rw [PresentAt] at hPresent
  rw [Identical, frameAt, h.walk_low hv, if_pos hPresent, Option.map_some, h.identity _ hv hPresent]

theorem LowMap.inPlace (h : s.LowMap pgd) (hAddr : s.Readable pgd addr) : s.InPlace pgd addr :=
  ⟨h.identical hAddr.reach_first hAddr.first, h.identical hAddr.reach hAddr.last⟩

/-- The loop over the modules. -/
theorem Grown.modules {modsAddr : Nat} {ms : List (MultibootModule × Nat)} (h : s.LowMap pgd)
    (hProper : ∀ m ∈ ms, (moduleArea m.1).Proper)
    (hLoop : ms.foldlM (mapModule kernelEnd pgd modsAddr) s = some s') :
    Grown pgd (ms.map fun m => moduleArea m.1) s s' := by
  induction ms generalizing s with
  | nil => exact Option.some.inj hLoop ▸ Grown.refl h
  | cons m ms ih =>
      rw [List.foldlM_cons] at hLoop
      obtain ⟨s₁, hFirst, hRest⟩ := Option.bind_eq_some_iff.mp hLoop
      obtain ⟨s₂, ret, hCall, hGrown⟩ := h.grow kernelEnd (hProper m List.mem_cons_self)
      rw [mapModule] at hFirst
      dsimp only at hFirst
      split at hFirst
      · obtain ⟨r, hr, hResult⟩ := Option.map_eq_some_iff.mp hFirst
        obtain rfl : s₂ = s₁ := (congrArg Prod.fst (Option.some.inj (hCall.symm.trans hr))).trans hResult
        exact hGrown.cons (ih hGrown.low (fun m hm => hProper m (List.mem_cons_of_mem _ hm)) hRest)
      · cases hFirst

/-- The words of the list can be read. -/
def ListReadable (s : Paging) (pgd modsAddr : Nat) (ms : List (MultibootModule × Nat)) : Prop :=
  ∀ m ∈ ms, s.Readable pgd (modsAddr + m.2 * sizeofMultibootModule) ∧
    s.Readable pgd (modsAddr + m.2 * sizeofMultibootModule + 4)

theorem Grown.readable (h : Grown pgd as s s') (hAddr : s.Readable pgd addr) : s'.Readable pgd addr :=
  ⟨hAddr.reach, (h.mapped _ hAddr.reach_first).mpr (Or.inl hAddr.first),
    (h.mapped _ hAddr.reach).mpr (Or.inl hAddr.last)⟩

theorem LowMap.modules {modsAddr : Nat} {ms : List (MultibootModule × Nat)} (h : s.LowMap pgd)
    (kernelEnd : Nat)
    (hProper : ∀ m ∈ ms, (moduleArea m.1).Proper) (hList : s.ListReadable pgd modsAddr ms) :
    ∃ s', ms.foldlM (mapModule kernelEnd pgd modsAddr) s = some s' := by
  induction ms generalizing s with
  | nil => exact ⟨s, rfl⟩
  | cons m ms ih =>
      obtain ⟨s₁, ret, hCall, hGrown⟩ := h.grow kernelEnd (hProper m List.mem_cons_self)
      have hKept : s₁.ListReadable pgd modsAddr ms := fun m hm =>
        (hList m (List.mem_cons_of_mem _ hm)).imp hGrown.readable hGrown.readable
      obtain ⟨s', hRest⟩ := ih hGrown.low (fun m hm => hProper m (List.mem_cons_of_mem _ hm)) hKept
      obtain ⟨hFirst, hSecond⟩ := hList m List.mem_cons_self
      have hThere := And.intro (h.inPlace hFirst) (h.inPlace hSecond)
      refine ⟨s', ?_⟩
      rw [List.foldlM_cons, mapModule]
      dsimp only
      rw [if_pos hThere]
      have hMapped : s.pageMapUnaligned kernelEnd pgd m.1.modStart m.1.modStart
          (pageFloor (Word.sub m.1.modEnd m.1.modStart) >>> pageBits) pgGlobal = some (s₁, ret) := hCall
      rw [hMapped]
      exact hRest

/-- `page_init` from any state with one table. -/
theorem LowMap.pageInit {info : MultibootInfo} (h : s.LowMap pgd) (hProper : ∀ a ∈ areas info, a.Proper)
    (hInit : s.pageInit kernelEnd pgd info = some s') : Grown pgd (areas info) s s' := by
  have hNothing (hNone : areas info = []) (hSame : some s = some s') : Grown pgd (areas info) s s' := by
    rw [hNone]
    exact Option.some.inj hSame ▸ Grown.refl h
  rw [Paging.pageInit] at hInit
  split at hInit
  next hNull => exact hNothing (if_neg fun hBoth => hBoth.1 hNull) hInit
  next hThere =>
    split at hInit
    · cases hInit
    · split at hInit
      next hMods =>
        split at hInit
        next =>
          rw [areas, if_pos ⟨hThere, hMods⟩] at hProper ⊢
          obtain ⟨s₁, ret, hCall, hGrown⟩ := h.grow kernelEnd (hProper _ List.mem_cons_self)
          obtain ⟨r, hr, hLoop⟩ := Option.bind_eq_some_iff.mp hInit
          obtain rfl : (s₁, ret) = r := Option.some.inj (hCall.symm.trans hr)
          have hModules := Grown.modules hGrown.low (fun m hm => ?_) hLoop
          · refine hGrown.cons ?_
            rwa [← Function.comp_def moduleArea, ← List.map_map, List.zipIdx_map_fst] at hModules
          · refine hProper _ (List.mem_cons_of_mem _ (List.mem_map_of_mem ?_))
            exact List.fst_mem_of_mem_zipIdx hm
        next => cases hInit
      next hMods => exact hNothing (if_neg fun hBoth => hMods hBoth.2) hInit

/-- The pages for the list hold all of it, and lie in reach. -/
def ListFits (info : MultibootInfo) : Prop :=
  info.modsAddr % pageSize + info.modules.length * sizeofMultibootModule ≤
      (listArea info).npages * pageSize ∧
    info.modsAddr >>> pageBits + (listArea info).npages ≤ pageMapEntries

theorem Grown.list_readable {info : MultibootInfo} (h : Grown pgd [listArea info] s s') (off : Nat)
    (hFits : ListFits info) (hOff : off + 3 < info.modules.length * sizeofMultibootModule) :
    s'.Readable pgd (info.modsAddr + off) := by
  have hPage : pageSize = 4096 := rfl
  have hCovers : ∀ i < 4, (listArea info).Covers ((info.modsAddr + off + i) >>> pageBits) := by
    intro i hi
    obtain ⟨hWhole, hReach⟩ := hFits
    refine ⟨hReach, ?_⟩
    rw [show (listArea info).addr = info.modsAddr from rfl]
    generalize (listArea info).npages = npages at hWhole hReach ⊢
    have hBits : 2 ^ pageBits = 4096 := rfl
    rw [Nat.shiftRight_eq_div_pow, Nat.shiftRight_eq_div_pow, hBits]
    rw [hPage] at hWhole
    omega
  have hLess : ∀ i < 4, (info.modsAddr + off + i) >>> pageBits < pageMapEntries := fun i hi =>
    Nat.lt_of_lt_of_le (hCovers i hi).2.2 (hCovers i hi).1
  have hMapped : ∀ i < 4, s'.PresentAt pgd ((info.modsAddr + off + i) >>> pageBits) := fun i hi =>
    (h.mapped _ (hLess i hi)).mpr (Or.inr ⟨_, List.mem_singleton_self _, hCovers i hi⟩)
  exact ⟨hLess 3 (by decide), hMapped 0 (by decide), hMapped 3 (by decide)⟩

/-- What `page_init` reads of `mb_info` lies in pages that `cpu_init` maps. -/
def InfoFits (kernelEnd : Nat) (info : MultibootInfo) : Prop :=
  ∀ i < offModsAddr + 4, BootPage kernelEnd info.address ((info.address + i) >>> pageBits)

instance (kernelEnd : Nat) (info : MultibootInfo) : Decidable (InfoFits kernelEnd info) :=
  inferInstanceAs (Decidable (∀ _ < _, _))

/-- The fields of `mb_info` can be read. -/
structure InfoReadable (s : Paging) (pgd : Nat) (info : MultibootInfo) : Prop where
  flags : s.Readable pgd (info.address + offFlags)
  modsCount : s.Readable pgd (info.address + offModsCount)
  modsAddr : s.Readable pgd (info.address + offModsAddr)

theorem LowMap.pageInit_exists {info : MultibootInfo} (h : s.LowMap pgd)
    (hProper : ∀ a ∈ areas info, a.Proper) (hFits : ListFits info) (hRead : s.InfoReadable pgd info) :
    ∃ s', s.pageInit kernelEnd pgd info = some s' := by
  rw [Paging.pageInit]
  by_cases hNull : info.address = 0
  · rw [if_pos hNull]
    exact ⟨s, rfl⟩
  rw [if_neg hNull, if_neg (not_not.mpr (h.inPlace hRead.flags))]
  by_cases hMods : info.flags &&& multibootInfoMods ≠ 0
  · rw [areas, if_pos ⟨hNull, hMods⟩] at hProper
    rw [if_pos hMods, if_pos ⟨h.inPlace hRead.modsCount, h.inPlace hRead.modsAddr⟩]
    obtain ⟨s₁, ret, hCall, hGrown⟩ := h.grow kernelEnd (hProper _ List.mem_cons_self)
    have hModules : ∀ m ∈ info.modules.zipIdx, (moduleArea m.1).Proper := fun m hm =>
      hProper _ (List.mem_cons_of_mem _ (List.mem_map_of_mem (List.fst_mem_of_mem_zipIdx hm)))
    have hList : s₁.ListReadable pgd info.modsAddr info.modules.zipIdx := by
      intro m hm
      have hIndex : m.2 < info.modules.length := by simpa using List.snd_lt_of_mem_zipIdx hm
      have hSize : sizeofMultibootModule = 16 := rfl
      have hRecord := Nat.mul_le_mul_right sizeofMultibootModule (Nat.succ_le_of_lt hIndex)
      rw [Nat.succ_mul] at hRecord
      have hFirst := hGrown.list_readable (m.2 * sizeofMultibootModule) hFits (by omega)
      have hSecond := hGrown.list_readable (m.2 * sizeofMultibootModule + 4) hFits (by omega)
      rw [← Nat.add_assoc] at hSecond
      exact ⟨hFirst, hSecond⟩
    obtain ⟨s', hLoop⟩ := hGrown.low.modules kernelEnd hModules hList
    refine ⟨s', ?_⟩
    have hMapped : s.pageMapUnaligned kernelEnd pgd info.modsAddr info.modsAddr
        (pageFloor (info.modules.length * sizeofMultibootModule) >>> pageBits) pgGlobal = some (s₁, ret) := hCall
    dsimp only
    rw [hMapped]
    exact hLoop
  · rw [if_neg hMods]
    exact ⟨s, rfl⟩

theorem lt_of_bootPage {mbInfo : Nat} (hKernel : kernelEnd + pageSize ≤ pageMapEntries * pageSize)
    (hInfo : mbInfo < pageMapEntries * pageSize) (h : BootPage kernelEnd mbInfo v) : v < pageMapEntries := by
  have hPage : pageSize = 4096 := rfl
  rcases h with rfl | rfl | ⟨-, hEnd⟩
  · decide
  · rw [Nat.shiftRight_eq_div_pow]
    exact Nat.div_lt_of_lt_mul (by rwa [Nat.mul_comm])
  · exact Nat.lt_of_mul_lt_mul_right (Nat.lt_of_lt_of_le hEnd hKernel)

theorem InfoFits.readable {info : MultibootInfo} (h : InfoFits kernelEnd info)
    (hKernel : kernelEnd + pageSize ≤ pageMapEntries * pageSize)
    (hInfo : info.address < pageMapEntries * pageSize)
    (hMapped : ∀ v < pageMapEntries, s.PresentAt pgd v ↔ BootPage kernelEnd info.address v) :
    s.InfoReadable pgd info := by
  have hByte : ∀ i < offModsAddr + 4, (info.address + i) >>> pageBits < pageMapEntries := fun i hi =>
    lt_of_bootPage hKernel hInfo (h i hi)
  have hWord (off : Nat) (hOff : off ≤ offModsAddr) : s.Readable pgd (info.address + off) :=
    ⟨hByte (off + 3) (by omega), (hMapped _ (hByte off (by omega))).mpr (h off (by omega)),
      (hMapped _ (hByte (off + 3) (by omega))).mpr (h (off + 3) (by omega))⟩
  exact ⟨hWord _ (by decide), hWord _ (by decide), hWord _ le_rfl⟩

/-- From the image on, pages translate to themselves only: those of `cpu_init`, of the list of modules
and of the modules, but of no area that reaches beyond the first 4 MiB. `page_init` returns 0 all the
same. Only the low bits of an address can open a page to user tasks. -/
theorem boot_identity {info : MultibootInfo} {fuel : Nat} (hImage : s.BootImage pgd)
    (hFuel : pageMapEntries < fuel)
    (hKernel : kernelEnd + pageSize ≤ pageMapEntries * pageSize)
    (hInfo : info.address < pageMapEntries * pageSize) (hProper : ∀ a ∈ areas info, a.Proper) :
    ∃ s₁, cpuInit fuel kernelEnd pgd info.address s = some s₁ ∧
      (ListFits info → InfoFits kernelEnd info → ∃ s', s₁.pageInit kernelEnd pgd info = some s') ∧
      ∀ s', s₁.pageInit kernelEnd pgd info = some s' →
        s'.TwoLevel pgd ∧ (∀ f, f ≠ pgd + 1 → s'.mem f = s.mem f) ∧
          ∀ v < allPages, v / pageMapEntries ≠ pageMapEntries - 1 →
            ((walk s'.mem pgd v).isSome ↔
              BootPage kernelEnd info.address v ∨ ∃ a ∈ areas info, a.Covers v) ∧
            ∀ e, walk s'.mem pgd v = some e →
              e.frame = v ∧ (e.Has pgUser → ∃ a ∈ areas info, a.Covers v ∧ a.User) := by
  obtain ⟨s₁, hInit, hLow, hMapped, hUser, hOther⟩ :=
    cpuInit_spec hImage hFuel hKernel hInfo
  refine ⟨s₁, hInit, fun hList hFits => ?_, fun s' hCall => ?_⟩
  · exact hLow.pageInit_exists hProper hList (hFits.readable hKernel hInfo hMapped)
  have hGrown := hLow.pageInit hProper hCall
  refine ⟨hGrown.low.twoLevel, fun f hf => (hGrown.other f hf).trans (hOther f hf), fun v hv hLast => ?_⟩
  rcases Nat.lt_or_ge v pageMapEntries with hLess | hMore
  · have hEntry := hGrown.mapped v hLess
    rw [hMapped v hLess] at hEntry
    rw [hGrown.low.walk_low hLess]
    by_cases hPresent : (s'.mem (pgd + 1) v).Has pgPresent
    · rw [if_pos hPresent]
      refine ⟨iff_of_true rfl (hEntry.mp hPresent), fun e he => ?_⟩
      obtain rfl := Option.some.inj he
      exact ⟨hGrown.low.identity v hLess hPresent, fun hBit =>
        (hGrown.user v hLess hBit).resolve_left (hUser v hLess)⟩
    · rw [if_neg hPresent]
      exact ⟨iff_of_false Bool.false_ne_true (mt hEntry.mpr hPresent), fun e he =>
        absurd he (Option.some_ne_none e).symm⟩
  · rw [hGrown.low.walk_high hMore hv hLast]
    refine ⟨iff_of_false Bool.false_ne_true ?_, fun e he => absurd he (Option.some_ne_none e).symm⟩
    rintro (hBoot | ⟨a, -, hCovers⟩)
    · exact absurd (lt_of_bootPage hKernel hInfo hBoot) (Nat.not_lt_of_le hMore)
    · exact absurd (Nat.lt_of_lt_of_le hCovers.2.2 hCovers.1) (Nat.not_lt_of_le hMore)

/-- A list of two modules: the second one lies behind the first 4 MiB. -/
def twoModules : MultibootInfo :=
  ⟨0x9500, multibootInfoMods, 0, 0, [], 0x9104, [⟨0x1A1000, 0x1B2345⟩, ⟨0x500000, 0x501000⟩]⟩

def bootExample : Paging :=
  ⟨fun f i => if f = 0x150 then bootPgd 0x150 i else PageEntry.zero, PageTotals.static.toFrames, 0⟩

theorem boot_identity_example :
    ∃ s₁ s', cpuInit 1025 0x1A0000 0x150 0x9500 bootExample = some s₁ ∧
      s₁.pageInit 0x1A0000 0x150 twoModules = some s' ∧ (walk s'.mem 0x150 0x1B2).isSome ∧
        ¬ (walk s'.mem 0x150 0x500).isSome := by
  have hImage : bootExample.BootImage 0x150 := by
    refine ⟨fun i _ => ?_, fun j _ => ?_, rfl⟩
    · show (if 0x150 = 0x150 then bootPgd 0x150 i else PageEntry.zero) = _
      rw [if_pos rfl]
    · show (if 0x150 + 1 = 0x150 then bootPgd 0x150 j else PageEntry.zero) = _
      rw [if_neg (by decide)]
  have hAreas : areas twoModules = [⟨0x9104, 1⟩, ⟨0x1A1000, 18⟩, ⟨0x500000, 1⟩] := by decide
  have hProper : ∀ a ∈ areas twoModules, a.Proper := by
    rw [hAreas]
    decide
  obtain ⟨s₁, hInit, hTotal, hAll⟩ := boot_identity hImage (by decide : pageMapEntries < 1025)
    (by decide : 0x1A0000 + pageSize ≤ pageMapEntries * pageSize) (by decide) hProper
  obtain ⟨s', hCall⟩ := hTotal ⟨by decide, by decide⟩ (by decide)
  obtain ⟨-, -, hPages⟩ := hAll s' hCall
  refine ⟨s₁, s', hInit, hCall, ?_, ?_⟩
  · rw [(hPages 0x1B2 (by decide) (by decide)).1, hAreas]
    decide
  · rw [(hPages 0x500 (by decide) (by decide)).1, hAreas]
    decide

end Paging
end ArtOS

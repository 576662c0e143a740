import ArtOS.Tasks.LoaderAreas
import ArtOS.Tasks.UserPages

/-! The image that `load_task` leaves in user space. Every header maps pages of its own over what is
there, and clears as many bytes from its address on: for an address inside of a page that is not the
same. The stack may be anywhere below the page tables. -/
namespace ArtOS

open Paging

/-- The memory while `load_task` runs, or how that has ended: at a page that is not present, where the
page fault handler halts, or for want of page frames. -/
inductive TaskMemory where
  | running (s : Paging)
  | fault
  | starved

/-- The areas of user space are refused, for `load_task` asks for areas of the kernel. -/
theorem vmaAdd_refuses {Env : Type} (kmalloc : Allocator Env) (fuel start endAddr : Nat) (h : ProgramHeader)
    (s : Mm Env) (hStart : kernelSpace ≤ start) :
    vmaAdd kmalloc fuel start endAddr h.vmaFlags s = some (s, -einval) := by
  have hMax : vmaKernMax = kernelSpace := rfl
  rw [vmaAdd, h.vmaFlags_kernel]
  dsimp only
  by_cases hOrder : endAddr ≤ start
  · rw [if_pos hOrder]
  · rw [if_neg hOrder, if_neg (by simp), if_pos ⟨rfl, by omega⟩]

/-- `load_task` over the page tables. `vma_add` refuses (`vmaAdd_refuses`), and the task gets its heap
descriptor, if it does, from pages of the kernel. -/
def imageLoader (kernelEnd p : Nat) (found : Bool) : Loader TaskMemory where
  getPages npages
    | .running s =>
        match s.frames.getPages kernelEnd npages with
        | none => (.starved, 0)
        | some (frames, addr) =>
            if npages ≠ 0 ∧ addr = 0 then (.starved, 0) else (.running { s with frames := frames }, addr)
    | m => (m, 0)
  pageMap viraddr phyaddr npages bits
    | .running s =>
        match s.pageMap kernelEnd p viraddr phyaddr npages bits with
        | none => (.fault, -enomem)
        | some (s, ret) => if ret = 0 then (.running s, 0) else (.starved, ret)
    | m => (m, -enomem)
  write addr bytes
    | .running s =>
        match s.writeBytes p addr bytes with
        | none => .fault
        | some s => .running s
    | m => m
  vmaAdd _ _ _ m := (m, -einval)
  heapArea m := (m, found)
  setHeap _ m := m

namespace ProgramHeader

/-- Where a header maps and clears pages. -/
def start (entry : Nat) (h : ProgramHeader) : Nat :=
  if h.type = elfPtGnuStack then entry * 2 % 2 ^ 32 else h.virtAddr

/-- How many. -/
def npages (h : ProgramHeader) : Nat :=
  if h.type = elfPtLoad then if h.virtAddr = 0 then 0 else pageCount h.memSize
  else if h.type = elfPtGnuStack then pageCount defaultStackSize else 0

def Maps (entry : Nat) (h : ProgramHeader) (v : Nat) : Prop :=
  h.start entry >>> pageBits ≤ v ∧ v < h.start entry >>> pageBits + h.npages

def Clears (entry : Nat) (h : ProgramHeader) (a : Nat) : Prop :=
  h.start entry ≤ a ∧ a < h.start entry + h.npages * pageSize

/-- The bytes of a segment, and those that come from the file. -/
def Holds (h : ProgramHeader) (a : Nat) : Prop :=
  h.type = elfPtLoad ∧ h.virtAddr ≤ a ∧ a < h.virtAddr + h.memSize

def Copies (h : ProgramHeader) (a : Nat) : Prop :=
  h.type = elfPtLoad ∧ h.virtAddr ≤ a ∧ a < h.virtAddr + h.fileSize

instance (entry : Nat) (h : ProgramHeader) : DecidablePred (h.Maps entry) := fun _ =>
  inferInstanceAs (Decidable (_ ∧ _))

instance (entry : Nat) (h : ProgramHeader) : DecidablePred (h.Clears entry) := fun _ =>
  inferInstanceAs (Decidable (_ ∧ _))

instance (h : ProgramHeader) : DecidablePred h.Copies := fun _ => inferInstanceAs (Decidable (_ ∧ _))

/-- Byte `i` of a segment. -/
def content (f : InitrdFile) (h : ProgramHeader) (i : Nat) : BitVec 8 :=
  if i < h.fileSize then f.byte (h.offset + i) else 0

/-- A segment of an executable in order. -/
structure WellFormed (f : InitrdFile) (h : ProgramHeader) : Prop where
  low : kernelSpace ≤ h.virtAddr
  high : h.virtAddr + h.memSize ≤ vmaUserMax
  sizes : h.fileSize ≤ h.memSize
  inFile : h.offset + h.fileSize ≤ f.length

/-- The pages of a stack end below the tables. -/
def BelowTables (entry : Nat) (h : ProgramHeader) : Prop :=
  h.type = elfPtGnuStack → entry * 2 % 2 ^ 32 + defaultStackSize ≤ treePages * pageSize

/-- The bytes behind the last page that a header maps, if it has to clear some, lie in a page that is
mapped already. -/
def Reaches (entry : Nat) (mapped : Nat → Prop) (h : ProgramHeader) : Prop :=
  h.npages = 0 ∨ h.start entry % pageSize = 0 ∨ mapped (h.start entry >>> pageBits + h.npages)

/-- The byte `b` at `a` is there after these headers, too: only a zero may be cleared, or get lost with
its page if it is cleared later on. -/
def Survives (entry : Nat) (b : BitVec 8) (a : Nat) : List ProgramHeader → Prop
  | [] => True
  | g :: rest =>
      (g.Clears entry a ∨ g.Maps entry (a >>> pageBits) → b = 0) ∧
        (g.Maps entry (a >>> pageBits) → ∃ l ∈ g :: rest, l.Clears entry a) ∧ Survives entry b a rest

/-- Every header finds what it has to clear mapped. -/
def AllReach (entry : Nat) : (Nat → Prop) → List ProgramHeader → Prop
  | _, [] => True
  | mapped, h :: rest => h.Reaches entry mapped ∧ AllReach entry (fun v => mapped v ∨ h.Maps entry v) rest

/-- No segment is damaged by a header behind it. -/
def AllSurvive (f : InitrdFile) (entry : Nat) : List ProgramHeader → Prop
  | [] => True
  | h :: rest =>
      (h.type = elfPtLoad → ∀ i < h.memSize, Survives entry (h.content f i) (h.virtAddr + i) rest) ∧
        AllSurvive f entry rest

end ProgramHeader

namespace Loader

/-- The first half of both cases of `load_task`. -/
def mapRegion {State : Type} (m : Loader State) (addr npages : Nat) (s : State) : State × Int :=
  m.pageMap addr (m.getPages npages s).2 npages (pgUser ||| pgRw) (m.getPages npages s).1

end Loader

variable {kernelEnd p addr n entry heap stack : Nat} {found : Bool} {s t u : Paging} {bytes : List (BitVec 8)}
variable {f : InitrdFile} {h : ProgramHeader} {hs : List ProgramHeader}

/-- No page frames. -/
theorem mapRegion_starved (hGet : ∀ frames phyaddr,
    s.frames.getPages kernelEnd n = some (frames, phyaddr) → n ≠ 0 ∧ phyaddr = 0) :
    (imageLoader kernelEnd p found).mapRegion addr n (.running s) = (.starved, -enomem) := by
  have hCall : (imageLoader kernelEnd p found).getPages n (.running s) = (.starved, 0) := by
    cases hNow : s.frames.getPages kernelEnd n with
    | none => simp only [imageLoader, hNow]
    | some answer =>
        simp only [imageLoader, hNow]
        exact if_pos (hGet _ _ hNow)
  rw [Loader.mapRegion, hCall]
  rfl

theorem mapRegion_mapped {frames : Frames} {phyaddr : Nat} {ret : Int}
    (hGet : s.frames.getPages kernelEnd n = some (frames, phyaddr)) (hAddr : n ≠ 0 → phyaddr ≠ 0)
    (hMapped : Paging.pageMap kernelEnd p addr phyaddr n (pgUser ||| pgRw) { s with frames := frames } =
      some (t, ret)) : (imageLoader kernelEnd p found).mapRegion addr n (.running s) =
        if ret = 0 then (.running t, 0) else (.starved, ret) := by
  have hCall : (imageLoader kernelEnd p found).getPages n (.running s) =
      (.running { s with frames := frames }, phyaddr) := by
    simp only [imageLoader, hGet]
    exact if_neg fun hNone => hAddr hNone.1 hNone.2
  rw [Loader.mapRegion, hCall]
  simp only [imageLoader, hMapped]

/-- Pages are mapped, unless there are no page frames for them. What the free frames hold does not
matter. -/
theorem mapRegion_cases (kernelEnd : Nat) (found : Bool) (hMap : s.UserMap p) (hAgree : s.Agree p t)
    (hLow : addr >>> pageBits + n ≤ treePages) :
    (∃ ret, (imageLoader kernelEnd p found).mapRegion addr n (.running s) = (.starved, ret) ∧
      (imageLoader kernelEnd p found).mapRegion addr n (.running t) = (.starved, ret) ∧ ret ≠ 0) ∨
    ∃ s' t', (imageLoader kernelEnd p found).mapRegion addr n (.running s) = (.running s', 0) ∧
      (imageLoader kernelEnd p found).mapRegion addr n (.running t) = (.running t', 0) ∧
      MapsFree p (addr >>> pageBits) n s s' ∧ s'.Agree p t' := by
  by_cases hGet : ∃ frames phyaddr, s.frames.getPages kernelEnd n = some (frames, phyaddr) ∧
      (n ≠ 0 → phyaddr ≠ 0)
  · obtain ⟨frames, phyaddr, hGet, hAddr⟩ := hGet
    have hGet' : t.frames.getPages kernelEnd n = some (frames, phyaddr) := hAgree.frames.symm ▸ hGet
    have hTaken := (hMap.getPages hGet hAddr).1
    have hTakenAgree : Agree p { s with frames := frames } { t with frames := frames } :=
      ⟨rfl, hAgree.usage, hAgree.root, hAgree.table⟩
    obtain ⟨s', t', ret, hMapped, hMapped', hAgree'⟩ := hTakenAgree.pageMap kernelEnd phyaddr
      (pgUser ||| pgRw) hTaken.tables hLow
    rw [mapRegion_mapped hGet hAddr hMapped, mapRegion_mapped hGet' hAddr hMapped']
    by_cases hRet : ret = 0
    · rw [if_pos hRet, if_pos hRet]
      exact Or.inr ⟨s', t', rfl, rfl, hMap.mapFree hGet hAddr hLow (hRet ▸ hMapped), hAgree'⟩
    · rw [if_neg hRet, if_neg hRet]
      exact Or.inl ⟨ret, rfl, rfl, hRet⟩
  · have hNone : ∀ frames phyaddr, s.frames.getPages kernelEnd n = some (frames, phyaddr) →
        n ≠ 0 ∧ phyaddr = 0 := by
      intro frames phyaddr hNow
      by_contra hGood
      exact hGet ⟨frames, phyaddr, hNow, fun hn hZero => hGood ⟨hn, hZero⟩⟩
    rw [mapRegion_starved hNone, mapRegion_starved (hAgree.frames.symm ▸ hNone)]
    exact Or.inl ⟨-enomem, rfl, rfl, by decide⟩

theorem byteAt_isSome {a : Nat} : (s.byteAt p a).isSome = (walk s.mem p (a >>> pageBits)).isSome := by
  rw [byteAt, frameAt, Option.isSome_map, Option.isSome_map]

/-- Pages have been mapped and cleared. -/
structure Cleared (p addr n : Nat) (s t : Paging) : Prop where
  map : t.UserMap p
  mapped : ∀ v < treePages, ((walk t.mem p v).isSome ↔
    (walk s.mem p v).isSome ∨ addr >>> pageBits ≤ v ∧ v < addr >>> pageBits + n)
  noTable : ∀ v < treePages, s.NoTable p v ∨ addr >>> pageBits ≤ v ∧ v < addr >>> pageBits + n → t.NoTable p v
  covered : ∀ a, addr ≤ a → a < addr + n * pageSize → (walk t.mem p (a >>> pageBits)).isSome
  free : ∀ x, s.FreeBytes x → t.FreeBytes x
  byte : ∀ a, UserPage (a >>> pageBits) →
    if addr ≤ a ∧ a < addr + n * pageSize then t.byteAt p a = some 0
    else if addr >>> pageBits ≤ a >>> pageBits ∧ a >>> pageBits < addr >>> pageBits + n then
      ∃ b, t.byteAt p a = some b ∧ ∀ x, s.FreeBytes x → b = x
    else t.byteAt p a = s.byteAt p a

/-- What lies below the tables. -/
theorem page_tree {a : Nat} (ha : a < treePages * pageSize) : a >>> pageBits < treePages := by
  rw [Nat.shiftRight_eq_div_pow]
  exact Nat.div_lt_of_lt_mul (ha.trans_eq (Nat.mul_comm ..))

theorem region_tree (hEnd : addr + n * pageSize ≤ treePages * pageSize) : addr >>> pageBits + n ≤ treePages := by
  have hSize : pageSize = 4096 := rfl
  rw [hSize] at hEnd
  rw [page_eq]
  omega

/-- What has to be cleared lies in the pages that are mapped, but for the rest of an address. -/
theorem page_of_clear {a : Nat} (hFrom : addr ≤ a) (hTo : a < addr + n * pageSize) :
    (addr >>> pageBits ≤ a >>> pageBits ∧ a >>> pageBits < addr >>> pageBits + n) ∨
      (n ≠ 0 ∧ addr % pageSize ≠ 0 ∧ a >>> pageBits = addr >>> pageBits + n) := by
  have hSize : pageSize = 4096 := rfl
  rw [hSize] at hTo ⊢
  rw [page_eq, page_eq]
  omega

section Clear

variable (hEnd : addr + n * pageSize ≤ treePages * pageSize) (hMapped : MapsFree p (addr >>> pageBits) n s t)
include hEnd hMapped

/-- Of what has to be cleared, only the page behind the new ones can be missing. -/
theorem Paging.MapsFree.clear_mapped {a : Nat} (hFrom : addr ≤ a) (hTo : a < addr + n * pageSize) :
    (walk t.mem p (a >>> pageBits)).isSome ↔
      (n = 0 ∨ addr % pageSize = 0 ∨ (walk s.mem p (addr >>> pageBits + n)).isSome) ∨
        a >>> pageBits < addr >>> pageBits + n := by
  rw [hMapped.mapped _ (page_tree (hTo.trans_le hEnd))]
  rcases page_of_clear hFrom hTo with hInside | ⟨hn, hRest, hLast⟩
  · exact iff_of_true (Or.inr hInside) (Or.inr hInside.2)
  · rw [hLast]
    constructor
    · rintro (hOld | ⟨_, hLess⟩)
      · exact Or.inl (Or.inr (Or.inr hOld))
      · exact absurd hLess (Nat.lt_irrefl _)
    · rintro ((hZero | hAligned | hOld) | hLess)
      · exact absurd hZero hn
      · exact absurd hAligned hRest
      · exact Or.inl hOld
      · exact absurd hLess (Nat.lt_irrefl _)

/-- If nothing is missing, the page behind the new ones is there or not needed. -/
theorem Paging.MapsFree.reaches
    (hCovered : ∀ a, addr ≤ a → a < addr + n * pageSize → (walk t.mem p (a >>> pageBits)).isSome) :
    n = 0 ∨ addr % pageSize = 0 ∨ (walk s.mem p (addr >>> pageBits + n)).isSome := by
  have hSize : pageSize = 4096 := rfl
  by_cases hn : n = 0
  · exact Or.inl hn
  · by_cases hAligned : addr % pageSize = 0
    · exact Or.inr (Or.inl hAligned)
    · have hLast : (addr >>> pageBits + n) * pageSize - addr < n * pageSize ∧
          addr ≤ (addr >>> pageBits + n) * pageSize := by
        rw [hSize] at hAligned ⊢
        rw [page_eq]
        omega
      have hTo : (addr >>> pageBits + n) * pageSize < addr + n * pageSize := by omega
      have hPage := hCovered _ hLast.2 hTo
      have hBack : ((addr >>> pageBits + n) * pageSize) >>> pageBits = addr >>> pageBits + n := by
        rw [Nat.shiftRight_eq_div_pow]
        exact Nat.mul_div_cancel _ (by decide)
      rw [hMapped.clear_mapped hEnd hLast.2 hTo, hBack] at hPage
      exact hPage.resolve_right (Nat.lt_irrefl _)

/-- No table is cleared if none is behind the page behind the new ones. -/
theorem Paging.MapsFree.clear_spares
    (hRest : n = 0 ∨ addr % pageSize = 0 ∨ s.NoTable p (addr >>> pageBits + n)) : t.Spares p addr (n * pageSize) := by
  intro a hFrom hTo
  apply hMapped.noTable _ (page_tree (hTo.trans_le hEnd))
  rcases page_of_clear hFrom hTo with hInside | ⟨hn, hUnaligned, hLast⟩
  · exact Or.inr hInside
  · rw [hLast]
    exact Or.inl ((hRest.resolve_left hn).resolve_left hUnaligned)

/-- The zeros have been written. -/
theorem Paging.MapsFree.cleared (hWrites : Writes p addr (List.replicate (n * pageSize) 0) t u)
    (hCovered : ∀ a, addr ≤ a → a < addr + n * pageSize → (walk t.mem p (a >>> pageBits)).isSome) :
    Cleared p addr n s u := by
  have hLength : (List.replicate (n * pageSize) (0 : BitVec 8)).length = n * pageSize := List.length_replicate
  refine ⟨hWrites.agree.userMap hMapped.map, ?_, ?_, ?_, ?_, ?_⟩
  · intro v hv
    rw [hWrites.agree.walk_tree hv]
    exact hMapped.mapped v hv
  · intro v hv hOr
    exact hWrites.agree.noTable (hMapped.noTable v hv hOr)
  · intro a hFrom hTo
    rw [hWrites.agree.walk_tree (page_tree (hTo.trans_le hEnd))]
    exact hCovered a hFrom hTo
  · intro x hx g hg off
    rw [hWrites.agree.frames] at hg
    rw [byteIn, hWrites.free g hg]
    exact hMapped.free x hx g hg off
  · intro a ha
    rw [hWrites.byte a ha, hLength]
    split
    next hClear =>
      obtain ⟨b, hb⟩ := Option.isSome_iff_exists.1 (byteAt_isSome.trans (hCovered a hClear.1 hClear.2))
      have hZero : ∀ c : BitVec 8, ((List.replicate (n * pageSize) 0).getD (a - addr) c) = 0 := by
        intro c
        rw [List.getD_replicate]
        omega
      rw [hb, Option.map_some, hZero]
    · split
      next hInside => exact hMapped.inside a hInside.1 hInside.2
      next hOutside => exact hMapped.outside a ha hOutside

theorem clearRegion_cases (kernelEnd : Nat) (found : Bool)
    (hRest : n = 0 ∨ addr % pageSize = 0 ∨ s.NoTable p (addr >>> pageBits + n)) :
    ((imageLoader kernelEnd p found).write addr (List.replicate (n * pageSize) 0) (.running t) = .fault ∧
      ¬ (n = 0 ∨ addr % pageSize = 0 ∨ (walk s.mem p (addr >>> pageBits + n)).isSome)) ∨
    ∃ u, (imageLoader kernelEnd p found).write addr (List.replicate (n * pageSize) 0) (.running t) = .running u ∧
      Cleared p addr n s u ∧ (n = 0 ∨ addr % pageSize = 0 ∨ (walk s.mem p (addr >>> pageBits + n)).isSome) := by
  have hLength : (List.replicate (n * pageSize) (0 : BitVec 8)).length = n * pageSize := List.length_replicate
  have hSpares : t.Spares p addr (List.replicate (n * pageSize) (0 : BitVec 8)).length :=
    hLength.symm ▸ hMapped.clear_spares hEnd hRest
  rcases hMapped.map.writeBytes hSpares with ⟨u, hWrite, hWrites, hCovered⟩ | ⟨hWrite, a, hFrom, hTo, hAbsent⟩
  · rw [hLength] at hCovered
    exact Or.inr ⟨u, by simp only [imageLoader, hWrite], hMapped.cleared hEnd hWrites hCovered,
      hMapped.reaches hEnd hCovered⟩
  · refine Or.inl ⟨by simp only [imageLoader, hWrite], ?_⟩
    rw [hLength] at hTo
    intro hReaches
    have hPage := (hMapped.clear_mapped hEnd hFrom hTo).2 (Or.inl hReaches)
    rw [hAbsent] at hPage
    cases hPage

end Clear

/-- What a header makes of the page map and the bytes of user space. -/
structure Effect (f : InitrdFile) (entry p : Nat) (h : ProgramHeader) (s t : Paging) : Prop where
  map : t.UserMap p
  mapped : ∀ v < treePages, ((walk t.mem p v).isSome ↔ (walk s.mem p v).isSome ∨ h.Maps entry v)
  noTable : ∀ v < treePages, s.NoTable p v ∨ h.Maps entry v → t.NoTable p v
  covered : ∀ a, h.Clears entry a → (walk t.mem p (a >>> pageBits)).isSome
  free : ∀ x, s.FreeBytes x → t.FreeBytes x
  byte : ∀ a, UserPage (a >>> pageBits) →
    if h.Copies a then t.byteAt p a = some (h.content f (a - h.virtAddr))
    else if h.Clears entry a then t.byteAt p a = some 0
    else if h.Maps entry (a >>> pageBits) then ∃ b, t.byteAt p a = some b ∧ ∀ x, s.FreeBytes x → b = x
    else t.byteAt p a = s.byteAt p a

/-- The part of the file that belongs to a segment. -/
theorem ProgramHeader.WellFormed.read (hForm : h.WellFormed f) (hLength : f.length < 2 ^ 32) :
    f.read h.offset h.fileSize = (List.range h.fileSize).map fun i => f.byte (h.offset + i) := by
  have hFile := hForm.inFile
  have hSum : Word.add h.offset h.fileSize = h.offset + h.fileSize := Word.add_eq (by omega)
  rw [InitrdFile.read]
  by_cases hEnd : f.length ≤ h.offset
  · have hNone : h.fileSize = 0 := by omega
    rw [if_pos hEnd, hNone]
    rfl
  · rw [if_neg hEnd, hSum]
    by_cases hLast : f.length ≤ h.offset + h.fileSize
    · have hRest : f.length - h.offset = h.fileSize := by omega
      rw [if_pos hLast, hRest]
    · rw [if_neg hLast]

theorem ProgramHeader.WellFormed.copies_inUser (hForm : h.WellFormed f) (hLength : f.length < 2 ^ 32) :
    InUser h.virtAddr (f.read h.offset h.fileSize).length := by
  rw [hForm.read hLength, List.length_map, List.length_range]
  exact Or.inr ⟨hForm.low, (Nat.add_le_add_left hForm.sizes _).trans hForm.high⟩

theorem pageCount_covers (size : Nat) : size ≤ pageCount size * pageSize := by
  have hSize : pageSize = 4096 := rfl
  rw [pageCount, hSize]
  split
  next hRest => omega
  next hNone => omega

theorem ProgramHeader.WellFormed.region (entry : Nat) (hForm : h.WellFormed f) (hLoad : h.type = elfPtLoad) :
    h.start entry = h.virtAddr ∧ h.npages = pageCount h.memSize := by
  have hLow : 0x40000000 ≤ h.virtAddr := hForm.low
  have hStack : h.type ≠ elfPtGnuStack := by
    rw [hLoad]
    decide
  rw [ProgramHeader.start, ProgramHeader.npages, if_neg hStack, if_pos hLoad, if_neg (by omega)]
  exact ⟨rfl, rfl⟩

/-- The file's part of a segment is written into pages that are there. -/
theorem Cleared.copy_effect (kernelEnd entry : Nat) (found : Bool)
    (hClear : Cleared p h.virtAddr (pageCount h.memSize) s u) (hForm : h.WellFormed f)
    (hEnd : h.virtAddr + pageCount h.memSize * pageSize ≤ treePages * pageSize)
    (hLength : f.length < 2 ^ 32) (hLoad : h.type = elfPtLoad) :
    ∃ t, (imageLoader kernelEnd p found).write h.virtAddr (f.read h.offset h.fileSize) (.running u) = .running t ∧
      Effect f entry p h s t := by
  obtain ⟨hStart, hPages⟩ := hForm.region entry hLoad
  have hRead := hForm.read hLength
  have hBytes : (f.read h.offset h.fileSize).length = h.fileSize := by
    rw [hRead, List.length_map, List.length_range]
  have hCovers := pageCount_covers h.memSize
  have hSizes := hForm.sizes
  rcases hClear.map.writeBytes (hClear.map.spares (hForm.copies_inUser hLength)) with
    ⟨t, hWrite, hWrites, _⟩ | ⟨_, a, hFrom, hTo, hAbsent⟩
  · have hMaps : ∀ v, h.Maps entry v ↔ h.virtAddr >>> pageBits ≤ v ∧
        v < h.virtAddr >>> pageBits + pageCount h.memSize := by
      intro v
      rw [ProgramHeader.Maps, hStart, hPages]
    have hClears : ∀ a, h.Clears entry a ↔ h.virtAddr ≤ a ∧
        a < h.virtAddr + pageCount h.memSize * pageSize := by
      intro a
      rw [ProgramHeader.Clears, hStart, hPages]
    refine ⟨t, by simp only [imageLoader, hWrite], hWrites.agree.userMap hClear.map, ?_, ?_, ?_, ?_, ?_⟩
    · intro v hv
      rw [hWrites.agree.walk_tree hv, hMaps]
      exact hClear.mapped v hv
    · intro v hv hOr
      rw [hMaps] at hOr
      exact hWrites.agree.noTable (hClear.noTable v hv hOr)
    · intro a ha
      obtain ⟨hFrom, hTo⟩ := (hClears a).1 ha
      rw [hWrites.agree.walk_tree (page_tree (hTo.trans_le hEnd))]
      exact hClear.covered a hFrom hTo
    · intro x hx g hg off
      rw [hWrites.agree.frames] at hg
      rw [byteIn, hWrites.free g hg]
      exact hClear.free x hx g hg off
    · intro a ha
      have hByte := hClear.byte a ha
      rw [hWrites.byte a ha, hBytes]
      by_cases hCopy : h.virtAddr ≤ a ∧ a < h.virtAddr + h.fileSize
      · have hCopies : h.Copies a := ⟨hLoad, hCopy⟩
        have hData : (f.read h.offset h.fileSize).getD (a - h.virtAddr) 0 = h.content f (a - h.virtAddr) := by
          have hLess : a - h.virtAddr < h.fileSize := by omega
          rw [hRead, ProgramHeader.content, if_pos hLess, List.getD_eq_getElem?_getD, List.getElem?_map,
            List.getElem?_range hLess]
          rfl
        rw [if_pos (by omega)] at hByte
        rw [if_pos hCopies, if_pos hCopy, hByte, Option.map_some, hData]
      · rw [if_neg fun hCopies : h.Copies a => hCopy hCopies.2, if_neg hCopy]
        simp only [hClears, hMaps]
        exact hByte
  · rw [hBytes] at hTo
    have hPage := hClear.covered a hFrom (by omega)
    rw [hAbsent] at hPage
    cases hPage

theorem Cleared.stack_effect (hClear : Cleared p (h.start entry) h.npages s t) (hStack : h.type = elfPtGnuStack) :
    Effect f entry p h s t := by
  have hLoad : h.type ≠ elfPtLoad := by
    rw [hStack]
    decide
  refine ⟨hClear.map, hClear.mapped, hClear.noTable, fun a ha => hClear.covered a ha.1 ha.2, hClear.free, ?_⟩
  intro a ha
  rw [if_neg fun hCopies : h.Copies a => hLoad hCopies.1]
  exact hClear.byte a ha

/-- A header of another kind. -/
theorem Effect.none (hMap : s.UserMap p) (hLoad : h.type ≠ elfPtLoad) (hStack : h.type ≠ elfPtGnuStack) :
    Effect f entry p h s s := by
  have hPages : h.npages = 0 := by rw [ProgramHeader.npages, if_neg hLoad, if_neg hStack]
  have hMaps : ∀ v, ¬ h.Maps entry v := by
    rintro v ⟨hFrom, hTo⟩
    omega
  have hClears : ∀ a, ¬ h.Clears entry a := by
    rintro a ⟨hFrom, hTo⟩
    rw [hPages] at hTo
    omega
  refine ⟨hMap, fun v _ => (or_iff_left (hMaps v)).symm, fun v _ hOr => hOr.resolve_right (hMaps v),
    fun a ha => absurd ha (hClears a), fun _ hx => hx, ?_⟩
  intro a _
  rw [if_neg fun hCopies : h.Copies a => hLoad hCopies.1, if_neg (hClears a), if_neg (hMaps _)]

/-- The pages that are mapped. -/
def Paging.Mapped (p : Nat) (s : Paging) (v : Nat) : Prop := (walk s.mem p v).isSome

/-- What a header maps and clears ends below the tables. -/
theorem clears_tree (hForm : h.type = elfPtLoad → h.WellFormed f) (hBelow : h.BelowTables entry)
    (hKind : h.type = elfPtLoad ∨ h.type = elfPtGnuStack) :
    h.start entry + h.npages * pageSize ≤ treePages * pageSize := by
  by_cases hLoad : h.type = elfPtLoad
  · obtain ⟨hStart, hPages⟩ := (hForm hLoad).region entry hLoad
    have hHigh : h.virtAddr + h.memSize ≤ 0xFF400000 := (hForm hLoad).high
    have hCount : pageCount h.memSize * 4096 ≤ h.memSize + 4095 := by
      have hSize : pageSize = 4096 := rfl
      rw [pageCount, hSize]
      split
      next hRest => omega
      next hNone => omega
    have hTree : treePages * pageSize = 0xFFC00000 := by decide
    rw [hStart, hPages, hTree]
    exact show h.virtAddr + pageCount h.memSize * 4096 ≤ 0xFFC00000 by omega
  · have hStack := hKind.resolve_left hLoad
    have hStart : h.start entry = entry * 2 % 2 ^ 32 := if_pos hStack
    have hPages : h.npages * pageSize = defaultStackSize := by
      rw [ProgramHeader.npages, if_neg hLoad, if_pos hStack]
      decide
    rw [hStart, hPages]
    exact hBelow hStack

/-- A segment is mapped, cleared and filled. -/
theorem loadHeader_load (kernelEnd p heap stack : Nat) (found : Bool) (m : TaskMemory) (hForm : h.WellFormed f)
    (hEnd : h.start entry + h.npages * pageSize ≤ treePages * pageSize) (hLoad : h.type = elfPtLoad) :
    (imageLoader kernelEnd p found).loadHeader f entry h heap stack m =
      ((imageLoader kernelEnd p found).write h.virtAddr (f.read h.offset h.fileSize)
        ((imageLoader kernelEnd p found).write (h.start entry) (List.replicate (h.npages * pageSize) 0)
          ((imageLoader kernelEnd p found).mapRegion (h.start entry) h.npages m).1),
        some (Loader.heapNext h heap, Loader.stackNext entry h stack)) := by
  have hLow : 0x40000000 ≤ h.virtAddr := hForm.low
  have hStack : h.type ≠ elfPtGnuStack := by
    rw [hLoad]
    decide
  have hSmall : h.npages * pageSize % 2 ^ 32 = h.npages * pageSize := by
    refine Nat.mod_eq_of_lt ((Nat.le_add_left _ _).trans_lt (hEnd.trans_lt ?_))
    decide
  obtain ⟨hStart, hPages⟩ := hForm.region entry hLoad
  rw [Loader.loadHeader, if_pos hLoad, if_neg (by omega), Loader.heapNext, Loader.stackNext,
    if_pos ⟨hLoad, by omega⟩, if_neg hStack, ← hSmall, hStart, hPages]
  rfl

/-- The stack is mapped and cleared. -/
theorem loadHeader_stack (kernelEnd p heap stack : Nat) (found : Bool) (m : TaskMemory)
    (hStack : h.type = elfPtGnuStack) :
    (imageLoader kernelEnd p found).loadHeader f entry h heap stack m =
      if ((imageLoader kernelEnd p found).mapRegion (h.start entry) h.npages m).2 ≠ 0 then
        (((imageLoader kernelEnd p found).mapRegion (h.start entry) h.npages m).1, none)
      else
        ((imageLoader kernelEnd p found).write (h.start entry) (List.replicate (h.npages * pageSize) 0)
          ((imageLoader kernelEnd p found).mapRegion (h.start entry) h.npages m).1,
          some (Loader.heapNext h heap, Loader.stackNext entry h stack)) := by
  have hLoad : h.type ≠ elfPtLoad := by
    rw [hStack]
    decide
  have hHeap : Loader.heapNext h heap = heap := if_neg fun hBoth => hLoad hBoth.1
  have hTop : Loader.stackNext entry h stack = entry * 2 % 2 ^ 32 := if_pos hStack
  have hStart : h.start entry = entry * 2 % 2 ^ 32 := if_pos hStack
  have hPages : h.npages = pageCount defaultStackSize := (if_neg hLoad).trans (if_pos hStack)
  have hCall : (imageLoader kernelEnd p found).loadStack entry h m =
      if ((imageLoader kernelEnd p found).mapRegion (entry * 2 % 2 ^ 32) (pageCount defaultStackSize) m).2 ≠ 0 then
        (((imageLoader kernelEnd p found).mapRegion (entry * 2 % 2 ^ 32) (pageCount defaultStackSize) m).1, none)
      else
        ((imageLoader kernelEnd p found).write (entry * 2 % 2 ^ 32)
          (List.replicate (pageCount defaultStackSize * pageSize) 0)
          ((imageLoader kernelEnd p found).mapRegion (entry * 2 % 2 ^ 32) (pageCount defaultStackSize) m).1,
          some (entry * 2 % 2 ^ 32)) := rfl
  rw [Loader.loadHeader, if_neg hLoad, if_pos hStack, hHeap, hTop, hStart, hPages, hCall]
  split
  · rfl
  · rfl

/-- Of the other headers none is of interest. -/
theorem loadHeader_other (kernelEnd p heap stack : Nat) (found : Bool) (m : TaskMemory)
    (hLoad : h.type ≠ elfPtLoad) (hStack : h.type ≠ elfPtGnuStack) :
    (imageLoader kernelEnd p found).loadHeader f entry h heap stack m =
      (m, some (Loader.heapNext h heap, Loader.stackNext entry h stack)) := by
  rw [Loader.loadHeader, if_neg hLoad, if_neg hStack, Loader.heapNext, Loader.stackNext,
    if_neg fun hBoth => hLoad hBoth.1, if_neg hStack]

/-- One round of the loop. -/
theorem loadHeader_cases (kernelEnd heap stack : Nat) (found : Bool) (hMap : s.UserMap p)
    (hForm : h.type = elfPtLoad → h.WellFormed f) (hLength : f.length < 2 ^ 32) (hBelow : h.BelowTables entry)
    (hSpares : h.Reaches entry (s.NoTable p)) :
    ((imageLoader kernelEnd p found).loadHeader f entry h heap stack (.running s)).1 = .starved ∨
    (((imageLoader kernelEnd p found).loadHeader f entry h heap stack (.running s)).1 = .fault ∧
      ¬ h.Reaches entry (s.Mapped p)) ∨
    ∃ t, (imageLoader kernelEnd p found).loadHeader f entry h heap stack (.running s) =
        (.running t, some (Loader.heapNext h heap, Loader.stackNext entry h stack)) ∧
      Effect f entry p h s t ∧ h.Reaches entry (s.Mapped p) := by
  by_cases hLoad : h.type = elfPtLoad
  · have hEnd := clears_tree hForm hBelow (Or.inl hLoad)
    have hRange := region_tree hEnd
    obtain ⟨hStart, hPages⟩ := (hForm hLoad).region entry hLoad
    rw [loadHeader_load kernelEnd p heap stack found _ (hForm hLoad) hEnd hLoad]
    rcases mapRegion_cases kernelEnd found hMap (Agree.refl p s) hRange with
      ⟨ret, hStarved, _⟩ | ⟨t, _, hRunning, _, hMapped, _⟩
    · rw [hStarved]
      exact Or.inl rfl
    · rw [hRunning]
      dsimp only
      rcases clearRegion_cases hEnd hMapped kernelEnd found hSpares with
        ⟨hFault, hReaches⟩ | ⟨u, hCleared, hClear, hReaches⟩
      · rw [hFault]
        exact Or.inr (Or.inl ⟨rfl, hReaches⟩)
      · rw [hStart, hPages] at hClear hEnd
        obtain ⟨w, hCopy, hEffect⟩ := hClear.copy_effect kernelEnd entry found (hForm hLoad) hEnd hLength hLoad
        rw [hCleared, hCopy]
        exact Or.inr (Or.inr ⟨w, rfl, hEffect, hReaches⟩)
  · by_cases hStack : h.type = elfPtGnuStack
    · have hEnd := clears_tree hForm hBelow (Or.inr hStack)
      have hRange := region_tree hEnd
      rw [loadHeader_stack kernelEnd p heap stack found _ hStack]
      rcases mapRegion_cases kernelEnd found hMap (Agree.refl p s) hRange with
        ⟨ret, hStarved, _, hRet⟩ | ⟨t, _, hRunning, _, hMapped, _⟩
      · rw [hStarved, if_pos hRet]
        exact Or.inl rfl
      · rw [hRunning, if_neg fun hRet => hRet rfl]
        dsimp only
        rcases clearRegion_cases hEnd hMapped kernelEnd found hSpares with
          ⟨hFault, hReaches⟩ | ⟨u, hCleared, hClear, hReaches⟩
        · rw [hFault]
          exact Or.inr (Or.inl ⟨rfl, hReaches⟩)
        · rw [hCleared]
          exact Or.inr (Or.inr ⟨u, rfl, hClear.stack_effect hStack, hReaches⟩)
    · have hPages : h.npages = 0 := by rw [ProgramHeader.npages, if_neg hLoad, if_neg hStack]
      rw [loadHeader_other kernelEnd p heap stack found _ hLoad hStack]
      exact Or.inr (Or.inr ⟨s, rfl, Effect.none hMap hLoad hStack, Or.inl hPages⟩)

/-- After a fault nothing happens any more, and nothing is of interest when the page frames are used up. -/
theorem imageLoader_keeps (kernelEnd p : Nat) (found : Bool) {m : TaskMemory} (hEnd : ∀ s, m ≠ .running s) :
    (imageLoader kernelEnd p found).Keeps (· = m) := by
  cases m with
  | running s => exact absurd rfl (hEnd s)
  | fault =>
      refine ⟨?_, ?_, ?_, ?_, ?_, ?_⟩
      · rintro _ _ rfl
        rfl
      · rintro _ _ _ _ _ rfl
        rfl
      · rintro _ _ _ rfl
        rfl
      · rintro _ _ _ _ rfl
        rfl
      · rintro _ rfl
        rfl
      · rintro _ _ rfl
        rfl
  | starved =>
      refine ⟨?_, ?_, ?_, ?_, ?_, ?_⟩
      · rintro _ _ rfl
        rfl
      · rintro _ _ _ _ _ rfl
        rfl
      · rintro _ _ _ rfl
        rfl
      · rintro _ _ _ _ rfl
        rfl
      · rintro _ rfl
        rfl
      · rintro _ _ rfl
        rfl

/-- What the headers make of the memory, one after the other. -/
def Effects (f : InitrdFile) (entry p : Nat) : List ProgramHeader → Paging → Paging → Prop
  | [], s, t => t = s
  | h :: rest, s, t => ∃ u, Effect f entry p h s u ∧ Effects f entry p rest u t

/-- The page behind the pages of a header lies below the tables, too, if there is something to clear. -/
theorem tree_behind (hForm : h.type = elfPtLoad → h.WellFormed f) (hBelow : h.BelowTables entry)
    (hPages : h.npages ≠ 0) (hRest : h.start entry % pageSize ≠ 0) :
    h.start entry >>> pageBits + h.npages < treePages := by
  have hKind : h.type = elfPtLoad ∨ h.type = elfPtGnuStack := by
    by_contra hNone
    rw [not_or] at hNone
    exact hPages (by rw [ProgramHeader.npages, if_neg hNone.1, if_neg hNone.2])
  have hEnd := clears_tree hForm hBelow hKind
  have hSize : pageSize = 4096 := rfl
  rw [hSize] at hEnd hRest
  rw [page_eq]
  omega

theorem reaches_mono {mapped mapped' : Nat → Prop} (hForm : h.type = elfPtLoad → h.WellFormed f)
    (hBelow : h.BelowTables entry) (hMore : ∀ v < treePages, mapped v → mapped' v)
    (hReaches : h.Reaches entry mapped) : h.Reaches entry mapped' := by
  by_cases hPages : h.npages = 0
  · exact Or.inl hPages
  · by_cases hRest : h.start entry % pageSize = 0
    · exact Or.inr (Or.inl hRest)
    · have hBehind := (hReaches.resolve_left hPages).resolve_left hRest
      exact Or.inr (Or.inr (hMore _ (tree_behind hForm hBelow hPages hRest) hBehind))

theorem allReach_mono {mapped mapped' : Nat → Prop} (hForm : ∀ h ∈ hs, h.type = elfPtLoad → h.WellFormed f)
    (hBelow : ∀ h ∈ hs, h.BelowTables entry) (hMore : ∀ v < treePages, mapped v → mapped' v)
    (hReach : ProgramHeader.AllReach entry mapped hs) : ProgramHeader.AllReach entry mapped' hs := by
  induction hs generalizing mapped mapped' with
  | nil => trivial
  | cons h rest ih =>
      obtain ⟨hFirst, hRest⟩ := List.forall_mem_cons.1 hForm
      obtain ⟨hFirst', hRest'⟩ := List.forall_mem_cons.1 hBelow
      obtain ⟨hReaches, hLater⟩ := hReach
      refine ⟨reaches_mono hFirst hFirst' hMore hReaches, ih hRest hRest' ?_ hLater⟩
      exact fun v hv hOr => hOr.imp_left (hMore v hv)

theorem allReach_congr {mapped mapped' : Nat → Prop} (hForm : ∀ h ∈ hs, h.type = elfPtLoad → h.WellFormed f)
    (hBelow : ∀ h ∈ hs, h.BelowTables entry) (hSame : ∀ v < treePages, (mapped v ↔ mapped' v)) :
    ProgramHeader.AllReach entry mapped hs ↔ ProgramHeader.AllReach entry mapped' hs :=
  ⟨allReach_mono hForm hBelow fun v hv => (hSame v hv).1, allReach_mono hForm hBelow fun v hv => (hSame v hv).2⟩

/-- The whole loop. -/
theorem loadEach_cases (kernelEnd heap stack : Nat) (found : Bool) (hMap : s.UserMap p) (hLength : f.length < 2 ^ 32)
    (hForm : ∀ h ∈ hs, h.type = elfPtLoad → h.WellFormed f) (hBelow : ∀ h ∈ hs, h.BelowTables entry)
    (hSpares : ProgramHeader.AllReach entry (s.NoTable p) hs) :
    ((imageLoader kernelEnd p found).loadEach f entry hs heap stack (.running s)).1 = .starved ∨
    (((imageLoader kernelEnd p found).loadEach f entry hs heap stack (.running s)).1 = .fault ∧
      ¬ ProgramHeader.AllReach entry (s.Mapped p) hs) ∨
    ∃ t, (imageLoader kernelEnd p found).loadEach f entry hs heap stack (.running s) =
        (.running t, some (Loader.heapTop hs heap, Loader.stackTop entry hs stack)) ∧
      Effects f entry p hs s t ∧ ProgramHeader.AllReach entry (s.Mapped p) hs := by
  induction hs generalizing heap stack s with
  | nil => exact Or.inr (Or.inr ⟨s, rfl, rfl, trivial⟩)
  | cons h rest ih =>
      obtain ⟨hFirst, hRest⟩ := List.forall_mem_cons.1 hForm
      obtain ⟨hFirst', hRest'⟩ := List.forall_mem_cons.1 hBelow
      obtain ⟨hSpare, hSpares'⟩ := hSpares
      have hKept : ∀ m, (∀ s, m ≠ .running s) →
          ((imageLoader kernelEnd p found).loadHeader f entry h heap stack (.running s)).1 = m →
          ((imageLoader kernelEnd p found).loadEach f entry (h :: rest) heap stack (.running s)).1 = m := by
        intro m hEnd hRound
        rw [Loader.loadEach]
        split
        next hStop =>
          rw [hStop] at hRound
          exact hRound
        next hGo =>
          rw [hGo] at hRound
          exact (imageLoader_keeps _ _ _ hEnd).loadEach f entry rest _ _ hRound
      rcases loadHeader_cases kernelEnd heap stack found hMap hFirst
        hLength hFirst' hSpare with hStarved | ⟨hFault, hReaches⟩ | ⟨u, hRound, hEffect, hReaches⟩
      · exact Or.inl (hKept _ (fun s hs => by cases hs) hStarved)
      · exact Or.inr (Or.inl ⟨hKept _ (fun s hs => by cases hs) hFault, fun hAll => hReaches hAll.1⟩)
      · have hLoop : (imageLoader kernelEnd p found).loadEach f entry (h :: rest) heap stack (.running s) =
            (imageLoader kernelEnd p found).loadEach f entry rest (Loader.heapNext h heap)
              (Loader.stackNext entry h stack) (.running u) := by
          rw [Loader.loadEach, hRound]
        have hSame : ProgramHeader.AllReach entry (u.Mapped p) rest ↔
            ProgramHeader.AllReach entry (fun v => s.Mapped p v ∨ h.Maps entry v) rest :=
          allReach_congr hRest hRest' hEffect.mapped
        rw [hLoop]
        rcases ih (Loader.heapNext h heap) (Loader.stackNext entry h stack) hEffect.map hRest hRest'
          (allReach_mono hRest hRest' hEffect.noTable hSpares') with
          hStarved | ⟨hFault, hNot⟩ | ⟨t, hDone, hEffects, hAll⟩
        · exact Or.inl hStarved
        · exact Or.inr (Or.inl ⟨hFault, fun hAll => hNot (hSame.2 hAll.2)⟩)
        · exact Or.inr (Or.inr ⟨t, hDone, ⟨u, hEffect, hEffects⟩, hReaches, hSame.1 hAll⟩)

section Bytes

variable {a : Nat} {b x : BitVec 8} (hPage : UserPage (a >>> pageBits)) (hNone : ∀ g ∈ hs, ¬ g.Copies a)
include hPage hNone

/-- A byte that is there, or a zero that is still to be cleared, is there in the end. -/
theorem Effects.survives (hEffects : Effects f entry p hs s t) (hSurvives : ProgramHeader.Survives entry b a hs)
    (hByte : s.byteAt p a = some b ∨ b = 0 ∧ ∃ l ∈ hs, l.Clears entry a) : t.byteAt p a = some b := by
  induction hs generalizing s with
  | nil =>
      obtain rfl : t = s := hEffects
      exact hByte.resolve_right fun hPending => by
        obtain ⟨l, hl, _⟩ := hPending.2
        cases hl
  | cons g rest ih =>
      obtain ⟨u, hEffect, hRest⟩ := hEffects
      obtain ⟨hTouched, hMapped, hLater⟩ := hSurvives
      have hStep := hEffect.byte a hPage
      rw [if_neg (hNone g List.mem_cons_self)] at hStep
      apply ih (fun l hl => hNone l (List.mem_cons_of_mem _ hl)) hRest hLater
      by_cases hClears : g.Clears entry a
      · rw [if_pos hClears] at hStep
        rw [hTouched (Or.inl hClears)]
        exact Or.inl hStep
      · rw [if_neg hClears] at hStep
        have hTail : ∀ l ∈ g :: rest, l.Clears entry a → l ∈ rest := by
          intro l hl hCleared
          rcases List.mem_cons.1 hl with rfl | hl
          · exact absurd hCleared hClears
          · exact hl
        by_cases hMaps : g.Maps entry (a >>> pageBits)
        · obtain ⟨l, hl, hCleared⟩ := hMapped hMaps
          exact Or.inr ⟨hTouched (Or.inr hMaps), l, hTail l hl hCleared, hCleared⟩
        · rw [if_neg hMaps] at hStep
          rcases hByte with hThere | ⟨hZero, l, hl, hCleared⟩
          · exact Or.inl (hStep.trans hThere)
          · exact Or.inr ⟨hZero, l, hTail l hl hCleared, hCleared⟩

/-- What has once been cleared or lost is a zero or what the free frames hold. -/
theorem Effects.stays_lost (hEffects : Effects f entry p hs s t) (hFree : s.FreeBytes x)
    (hByte : s.byteAt p a = some 0 ∨ s.byteAt p a = some x) :
    t.byteAt p a = some 0 ∨ t.byteAt p a = some x := by
  induction hs generalizing s with
  | nil =>
      obtain rfl : t = s := hEffects
      exact hByte
  | cons g rest ih =>
      obtain ⟨u, hEffect, hRest⟩ := hEffects
      have hStep := hEffect.byte a hPage
      rw [if_neg (hNone g List.mem_cons_self)] at hStep
      apply ih (fun l hl => hNone l (List.mem_cons_of_mem _ hl)) hRest (hEffect.free x hFree)
      by_cases hClears : g.Clears entry a
      · rw [if_pos hClears] at hStep
        exact Or.inl hStep
      · rw [if_neg hClears] at hStep
        by_cases hMaps : g.Maps entry (a >>> pageBits)
        · rw [if_pos hMaps] at hStep
          obtain ⟨c, hc, hFilled⟩ := hStep
          exact Or.inr (hFilled x hFree ▸ hc)
        · rw [if_neg hMaps] at hStep
          rw [hStep]
          exact hByte

/-- What is not cleared any more stays lost. -/
theorem Effects.stays_free (hEffects : Effects f entry p hs s t) (hFree : s.FreeBytes x)
    (hClear : ∀ g ∈ hs, ¬ g.Clears entry a) (hByte : s.byteAt p a = some x) : t.byteAt p a = some x := by
  induction hs generalizing s with
  | nil =>
      obtain rfl : t = s := hEffects
      exact hByte
  | cons g rest ih =>
      obtain ⟨u, hEffect, hRest⟩ := hEffects
      have hStep := hEffect.byte a hPage
      rw [if_neg (hNone g List.mem_cons_self), if_neg (hClear g List.mem_cons_self)] at hStep
      apply ih (fun l hl => hNone l (List.mem_cons_of_mem _ hl)) hRest (hEffect.free x hFree)
        (fun l hl => hClear l (List.mem_cons_of_mem _ hl))
      by_cases hMaps : g.Maps entry (a >>> pageBits)
      · rw [if_pos hMaps] at hStep
        obtain ⟨c, hc, hFilled⟩ := hStep
        exact hFilled x hFree ▸ hc
      · rw [if_neg hMaps] at hStep
        exact hStep.trans hByte

/-- Whatever the free frames hold, only what survives is there in the end. -/
theorem Effects.of_byte (hEffects : Effects f entry p hs s t) (hFree : s.FreeBytes x) (hOther : x ≠ b)
    (hByte : t.byteAt p a = some b) : ProgramHeader.Survives entry b a hs := by
  induction hs generalizing s with
  | nil => trivial
  | cons g rest ih =>
      obtain ⟨u, hEffect, hRest⟩ := hEffects
      have hStep := hEffect.byte a hPage
      have hNext : ∀ l ∈ rest, ¬ l.Copies a := fun l hl => hNone l (List.mem_cons_of_mem _ hl)
      have hFree' := hEffect.free x hFree
      rw [if_neg (hNone g List.mem_cons_self)] at hStep
      have hLost : g.Clears entry a ∨ g.Maps entry (a >>> pageBits) → u.byteAt p a = some 0 ∨
          u.byteAt p a = some x := by
        intro hTouched
        by_cases hClears : g.Clears entry a
        · rw [if_pos hClears] at hStep
          exact Or.inl hStep
        · rw [if_neg hClears, if_pos (hTouched.resolve_left hClears)] at hStep
          obtain ⟨c, hc, hFilled⟩ := hStep
          exact Or.inr (hFilled x hFree ▸ hc)
      refine ⟨?_, ?_, ih hNext hRest hFree'⟩
      · intro hTouched
        rcases hRest.stays_lost hPage hNext hFree' (hLost hTouched) with hZero | hGarbage
        · exact Option.some.inj (hByte.symm.trans hZero)
        · exact absurd (Option.some.inj (hGarbage.symm.trans hByte)) hOther
      · intro hMaps
        by_contra hNever
        have hClear : ∀ l ∈ g :: rest, ¬ l.Clears entry a := fun l hl hCleared => hNever ⟨l, hl, hCleared⟩
        rw [if_neg (hClear g List.mem_cons_self), if_pos hMaps] at hStep
        obtain ⟨c, hc, hFilled⟩ := hStep
        rw [hFilled x hFree] at hc
        have hLast := hRest.stays_free hPage hNext hFree' (fun l hl => hClear l (List.mem_cons_of_mem _ hl)) hc
        exact hOther (Option.some.inj (hLast.symm.trans hByte))

end Bytes

/-- An executable in order: its segments lie in user space, none over another. -/
structure Executable (f : InitrdFile) (hs : List ProgramHeader) : Prop where
  length : f.length < 2 ^ 32
  segment : ∀ h ∈ hs, h.type = elfPtLoad → h.WellFormed f
  apart : hs.Pairwise fun g h => ∀ a, ¬ (g.Holds a ∧ h.Holds a)

/-- Every segment has its bytes. -/
def HasBytes (f : InitrdFile) (p : Nat) (hs : List ProgramHeader) (t : Paging) : Prop :=
  ∀ h ∈ hs, h.type = elfPtLoad → ∀ i < h.memSize, t.byteAt p (h.virtAddr + i) = some (h.content f i)

theorem Executable.tail {rest : List ProgramHeader} (hExec : Executable f (h :: rest)) : Executable f rest :=
  ⟨hExec.length, fun g hg => hExec.segment g (List.mem_cons_of_mem _ hg), hExec.apart.of_cons⟩

theorem ProgramHeader.WellFormed.userPage (hForm : h.WellFormed f) {i : Nat} (hi : i < h.memSize) :
    UserPage ((h.virtAddr + i) >>> pageBits) :=
  userPage_byte (hForm.low.trans (Nat.le_add_right _ _)) ((Nat.add_lt_add_left hi _).trans_le hForm.high)

section Image

variable {rest : List ProgramHeader} {i : Nat} (hExec : Executable f (h :: rest)) (hLoad : h.type = elfPtLoad)
include hExec hLoad

/-- No other segment has bytes there. -/
theorem Executable.not_copies (hi : i < h.memSize) : ∀ g ∈ rest, ¬ g.Copies (h.virtAddr + i) := by
  intro g hg hCopies
  have hHolds : h.Holds (h.virtAddr + i) := ⟨hLoad, Nat.le_add_right _ _, Nat.add_lt_add_left hi _⟩
  have hSizes := (hExec.segment g (List.mem_cons_of_mem _ hg) hCopies.1).sizes
  obtain ⟨hType, hFrom, hTo⟩ := hCopies
  exact List.rel_of_pairwise_cons hExec.apart hg _ ⟨hHolds, hType, hFrom, by omega⟩

/-- A segment has its bytes when its own header has been processed. -/
theorem Effect.content (hEffect : Effect f entry p h s t) (hi : i < h.memSize) :
    t.byteAt p (h.virtAddr + i) = some (h.content f i) := by
  have hForm := hExec.segment h List.mem_cons_self hLoad
  obtain ⟨hStart, hPages⟩ := hForm.region entry hLoad
  have hCovers := pageCount_covers h.memSize
  have hStep := hEffect.byte _ (hForm.userPage hi)
  by_cases hCopy : h.Copies (h.virtAddr + i)
  · rwa [if_pos hCopy, Nat.add_sub_cancel_left] at hStep
  · have hClears : h.Clears entry (h.virtAddr + i) := by
      rw [ProgramHeader.Clears, hStart, hPages]
      omega
    have hBehind : ¬ i < h.fileSize := fun hLess =>
      hCopy ⟨hLoad, Nat.le_add_right _ _, Nat.add_lt_add_left hLess _⟩
    rw [if_neg hCopy, if_pos hClears] at hStep
    rw [ProgramHeader.content, if_neg hBehind]
    exact hStep

end Image

theorem Effects.hasBytes (hExec : Executable f hs) (hEffects : Effects f entry p hs s t)
    (hSurvive : ProgramHeader.AllSurvive f entry hs) : HasBytes f p hs t := by
  induction hs generalizing s with
  | nil =>
      intro h hh
      cases hh
  | cons g rest ih =>
      obtain ⟨u, hEffect, hRest⟩ := hEffects
      obtain ⟨hFirst, hLater⟩ := hSurvive
      intro h hh hLoad i hi
      rcases List.mem_cons.1 hh with rfl | hh
      · apply hRest.survives ((hExec.segment h List.mem_cons_self hLoad).userPage hi) (hExec.not_copies hLoad hi) (hFirst hLoad i hi)
        exact Or.inl (hEffect.content hExec hLoad hi)
      · exact ih hExec.tail hRest hLater h hh hLoad i hi

/-- If the segments have their bytes whatever the free frames hold, they survive. -/
theorem Effects.of_hasBytes (hExec : Executable f hs)
    (hAll : ∀ x, ∃ s t, s.FreeBytes x ∧ Effects f entry p hs s t ∧ HasBytes f p hs t) :
    ProgramHeader.AllSurvive f entry hs := by
  induction hs with
  | nil => trivial
  | cons h rest ih =>
      refine ⟨?_, ?_⟩
      · intro hLoad i hi
        obtain ⟨s, t, hFree, ⟨u, hEffect, hRest⟩, hBytes⟩ := hAll (h.content f i + 1)
        have hOther : h.content f i + 1 ≠ h.content f i := by
          intro hSame
          have hOne : (1 : BitVec 8) = 0 := add_eq_left.1 hSame
          exact absurd hOne (by decide)
        exact hRest.of_byte ((hExec.segment h List.mem_cons_self hLoad).userPage hi) (hExec.not_copies hLoad hi) (hEffect.free _ hFree) hOther
          (hBytes h List.mem_cons_self hLoad i hi)
      · apply ih hExec.tail
        intro x
        obtain ⟨s, t, hFree, ⟨u, hEffect, hRest⟩, hBytes⟩ := hAll x
        exact ⟨u, t, hEffect.free x hFree, hRest, fun g hg => hBytes g (List.mem_cons_of_mem _ hg)⟩

end ArtOS

import ArtOS.Memory.FramePool
import ArtOS.Memory.PageTable

/-! `memory_init` of `mm/memory.c`: the frames of available memory become free,
and those of the kernel and of what the boot loader left are taken again.
`page_init` gets no frame, since no frame is free yet. Of `vma_init` only the
calls of the allocator matter. -/
namespace ArtOS

abbrev multibootInfoMem : BitVec 32 := 1#32 <<< 0
abbrev multibootInfoMods : BitVec 32 := 1#32 <<< 3
abbrev multibootInfoMemMap : BitVec 32 := 1#32 <<< 6
abbrev multibootMemoryAvailable : Nat := 1

/-- `sizeof(multiboot_info_t)`. -/
abbrev sizeofMultibootInfo : Nat := 88
/-- `sizeof(multiboot_module_t)`. -/
abbrev sizeofMultibootModule : Nat := 16

/-- An entry of the memory map; `addr` and `len` have 64 bits. -/
structure MmapEntry where
  addr : Nat
  len : Nat
  type : Nat
  deriving DecidableEq, Repr

structure MultibootModule where
  modStart : Nat
  modEnd : Nat
  deriving DecidableEq, Repr

/-- What `mb_info` points to, with the entries of the memory map and of the list of modules. -/
structure MultibootInfo where
  address : Nat
  flags : BitVec 32
  memLower : Nat
  memUpper : Nat
  mmap : List MmapEntry
  modsAddr : Nat
  modules : List MultibootModule

/-- A call of the frame allocator; `put_pages` gives back a block in hand. -/
inductive FrameCall where
  | get (npages : Nat)
  | put (block : Nat × Nat)
  deriving DecidableEq, Repr

/-- The calls that `vma_init` makes through `kmalloc`, and its result. -/
structure VmaInit where
  calls : List FrameCall
  ret : Int

namespace Frames.Holding

def call (kernelEnd : Nat) (r : Holding) : FrameCall → Option Holding
  | .get npages => (getPages kernelEnd npages r.frames).map fun (frames, addr) =>
      ⟨frames, if addr = 0 then r.live else (addr, npages) :: r.live⟩
  | .put block =>
      if block ∈ r.live then
        (putPages block.1 block.2 r.frames).map fun (frames, _) => ⟨frames, r.live.erase block⟩
      else none

def perform (kernelEnd : Nat) (calls : List FrameCall) (r : Holding) : Option Holding :=
  calls.foldlM (call kernelEnd) r

end Frames.Holding

/-- The frame allocator with `total_pages`. -/
structure PageTotals extends Frames where
  total : Nat

namespace PageTotals

/-- The static data before `memory_init`. -/
def static : PageTotals where
  bitmap _ := 0
  allocStart := 2 ^ 32 - 1
  allocated := 0
  available := 0
  total := 0

/-- `page_set_mark`, and one page more is allocated. -/
def useFrame (i : Nat) (s : PageTotals) : Option PageTotals :=
  (s.pageSetMark i).map fun frames =>
    { s with
      bitmap := frames.bitmap
      allocated := Word.add s.allocated 1
      available := Word.sub s.available 1 }

/-- A loop that marks the pages of a range; it cannot run longer than the bitmap is. -/
def useRange (stop : Nat) : Nat → Nat → PageTotals → Option PageTotals
  | 0, _, _ => none
  | fuel + 1, addr, s =>
      if addr < stop then
        (s.useFrame (addr >>> pageBits)).bind (useRange stop fuel (Word.add addr pageSize))
      else some s

/-- The body of the loop over available memory. -/
def freeFrame (i : Nat) (s : PageTotals) : Option PageTotals :=
  (s.pageMarked i).bind fun marked =>
    if marked then
      (s.pageClearMark i).map fun frames =>
        { s with
          bitmap := frames.bitmap
          available := Word.add s.available 1
          total := Word.add s.total 1 }
    else some s

def freeRange (stop : Nat) : Nat → Nat → PageTotals → Option PageTotals
  | 0, _, _ => none
  | fuel + 1, addr, s =>
      if addr < stop ∧ addr < bitmapBits * pageSize then
        (s.freeFrame (addr >>> pageBits)).bind (freeRange stop fuel (Word.add addr pageSize))
      else some s

/-- One entry of the memory map: `addr` and `end_addr` are `size_t` values. -/
def freeEntry (s : PageTotals) (e : MmapEntry) : Option PageTotals :=
  if e.type = multibootMemoryAvailable then
    freeRange ((e.addr % 2 ^ 32 + e.len) % 2 ^ 32) (bitmapBits + 1) (e.addr % 2 ^ 32) s
  else some s

/-- `for (page=0; page<left; page++) page_clear_mark(first+page)`. -/
def clearFrames (first : Nat) : Nat → PageTotals → Option PageTotals
  | 0, s => some s
  | left + 1, s =>
      (clearFrames first left s).bind fun s =>
        (s.pageClearMark (left + first)).map fun frames => { s with bitmap := frames.bitmap }

/-- The branch for `mem_lower` and `mem_upper`. -/
def freeLowerUpper (memLower memUpper : Nat) (s : PageTotals) : Option PageTotals :=
  let pagesLower := memLower >>> 2
  let pagesUpper := min (memUpper >>> 2) (bitmapBits - 256)
  (clearFrames 0 pagesLower s).bind fun s =>
    (clearFrames 256 pagesUpper s).map fun s =>
      { s with
        available := Word.add s.available (pagesLower + pagesUpper)
        total := Word.add s.total (pagesLower + pagesUpper) }

/-- Without any information on the memory the system halts. -/
def freeMemory (info : MultibootInfo) (s : PageTotals) : Option PageTotals :=
  if info.flags &&& multibootInfoMemMap ≠ 0 then info.mmap.foldlM freeEntry s
  else if info.flags &&& multibootInfoMem ≠ 0 then freeLowerUpper info.memLower info.memUpper s
  else none

def useModules (info : MultibootInfo) (s : PageTotals) : Option PageTotals :=
  if info.flags &&& multibootInfoMods ≠ 0 then
    info.modules.foldlM (fun s m => useRange m.modEnd (bitmapBits + 1) m.modStart s) s
  else some s

def useModuleList (info : MultibootInfo) (s : PageTotals) : Option PageTotals :=
  if info.flags &&& multibootInfoMods ≠ 0 then
    useRange (Word.add info.modsAddr (info.modules.length * sizeofMultibootModule))
      (bitmapBits + 1) info.modsAddr s
  else some s

/-- What is done for `mb_info` before the kernel itself is marked. -/
def useInfo (info : MultibootInfo) (s : PageTotals) : Option PageTotals :=
  (freeMemory info s).bind fun s =>
    (s.useFrame (info.address >>> pageBits)).bind fun s =>
      (useModuleList info s).bind (useModules info)

def useKernel (kernelEnd : Nat) (s : PageTotals) : Option PageTotals :=
  useRange kernelEnd (bitmapBits + 1) kernelStart s

/-- Up to the call of `vma_init`. -/
def beforeVmaInit (kernelEnd : Nat) (info : MultibootInfo) (s : PageTotals) : Option PageTotals :=
  (useInfo info { s with bitmap := fun _ => 0xff }).bind (useKernel kernelEnd)

/-- What `vma_init` does to the frames. -/
def runVmaInit (kernelEnd : Nat) (vmaInit : VmaInit) (s : PageTotals) : Option PageTotals :=
  (Frames.Holding.perform kernelEnd vmaInit.calls ⟨s.toFrames, []⟩).map fun r =>
    { s with toFrames := r.frames }

def memoryInit (kernelEnd : Nat) (info : MultibootInfo) (vmaInit : VmaInit) (s : PageTotals) :
    Option (PageTotals × Int) :=
  (beforeVmaInit kernelEnd info s).bind fun s =>
    (runVmaInit kernelEnd vmaInit s).bind fun s =>
      if vmaInit.ret ≠ 0 then some (s, vmaInit.ret)
      else (useModules info s).map fun s => (s, vmaInit.ret)

end PageTotals
end ArtOS

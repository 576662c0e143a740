import ArtOS.Memory.Frames
import ArtOS.Tasks.Types

/-! The page tables of `mm/page.c`. Physical memory is a sequence of frames of
1024 words, each split into the number of a frame and twelve flag bits. All
tables are reached through the two self-references, as the MMU sees them; an
access to a page that is not present has no result. The TLB and the locks are
left out, and physical addresses are those of whole frames. -/
namespace ArtOS

abbrev pageMapBits : Nat := 10
abbrev pageMapEntries : Nat := 1 <<< pageMapBits

abbrev pgPresent : BitVec 12 := 1#12 <<< 0
abbrev pgRw : BitVec 12 := 1#12 <<< 1
abbrev pgUser : BitVec 12 := 1#12 <<< 2
abbrev pgPcd : BitVec 12 := 1#12 <<< 4
abbrev pgGlobal : BitVec 12 := 1#12 <<< 8
abbrev pgSelf : BitVec 12 := 1#12 <<< 9

/-- `kernel_start` of `link32.ld`. -/
abbrev kernelStart : Nat := 0x100000

/-- `PAGE_TMP`: the page in front of the kernel. -/
abbrev pageTmp : Nat := kernelStart - pageSize

structure PageEntry where
  frame : Nat
  flags : BitVec 12
  deriving DecidableEq, Repr

namespace PageEntry

/-- `entry & bits`. -/
def Has (e : PageEntry) (bits : BitVec 12) : Prop := e.flags &&& bits ≠ 0

instance (e : PageEntry) (bits : BitVec 12) : Decidable (e.Has bits) :=
  inferInstanceAs (Decidable (_ ≠ _))

def zero : PageEntry := ⟨0, 0⟩

end PageEntry

/-- Physical memory, the frame allocator, and the counter `user_usage` of the task whose page
map is worked on. -/
structure Paging where
  mem : Nat → Nat → PageEntry
  frames : Frames
  usage : Nat

/-- The translation of a page by the MMU: two tables, the first one in frame `cr3`. -/
def walk (mem : Nat → Nat → PageEntry) (cr3 vpn : Nat) : Option PageEntry :=
  let dir := mem cr3 (vpn / pageMapEntries)
  let entry := mem dir.frame (vpn % pageMapEntries)
  if dir.Has pgPresent ∧ entry.Has pgPresent then some entry else none

namespace Paging

/-- The frame behind a page. -/
def frameAt (s : Paging) (cr3 vpn : Nat) : Option Nat := (walk s.mem cr3 vpn).map PageEntry.frame

def setFrame (s : Paging) (frame : Nat) (words : Nat → PageEntry) : Paging :=
  { s with mem := Function.update s.mem frame words }

def write (s : Paging) (frame index : Nat) (e : PageEntry) : Paging :=
  s.setFrame frame (Function.update (s.mem frame) index e)

/-- The first page of `self[lvl]`. -/
def self (lvl : Nat) : Nat := if lvl = 0 then 0xFFC00000 >>> pageBits else 0xFFFFF000 >>> pageBits

/-- The first page of `other[lvl]`. -/
def other (lvl : Nat) : Nat := if lvl = 0 then 0xFF800000 >>> pageBits else 0xFFFFE000 >>> pageBits

/-- Read `ref[vpn]` of an array of words that starts at the page `ref`. -/
def entry (cr3 ref vpn : Nat) (s : Paging) : Option PageEntry :=
  (s.frameAt cr3 (ref + vpn / pageMapEntries)).map fun frame => s.mem frame (vpn % pageMapEntries)

/-- Write `ref[vpn]`. -/
def setEntry (cr3 ref vpn : Nat) (e : PageEntry) (s : Paging) : Option Paging :=
  (s.frameAt cr3 (ref + vpn / pageMapEntries)).map fun frame =>
    s.write frame (vpn % pageMapEntries) e

/-- `memset(page, 0, PAGE_SIZE)`. -/
def clearPage (cr3 vpn : Nat) (s : Paging) : Option Paging :=
  (s.frameAt cr3 vpn).map fun frame => s.setFrame frame fun _ => PageEntry.zero

/-- `memcpy(dest, src, PAGE_SIZE)`. -/
def copyPage (cr3 dest src : Nat) (s : Paging) : Option Paging :=
  (s.frameAt cr3 dest).bind fun target =>
    (s.frameAt cr3 src).map fun source => s.setFrame target (s.mem source)

def virtToPhys (cr3 addr : Nat) (s : Paging) : Option Nat :=
  (s.entry cr3 (self 0) (addr >>> pageBits)).map fun e => e.frame <<< pageBits + addr % pageSize

/-- The first round of `page_map`: the tables that are missing. -/
def mapTables (kernelEnd cr3 : Nat) (bits : BitVec 12) : Nat → Nat → Paging → Option (Paging × Bool)
  | 0, _, s => some (s, true)
  | left + 1, vpn, s =>
      (s.entry cr3 (self 1) vpn).bind fun e =>
        if e.Has pgPresent then mapTables kernelEnd cr3 bits left (vpn + 1) s
        else
          (s.frames.getPages kernelEnd 1).bind fun (frames, phyaddr) =>
            if phyaddr = 0 then some ({ s with frames := frames }, false)
            else
              let usage := if bits &&& pgUser ≠ 0 then incr32 s.usage else s.usage
              let table := ⟨phyaddr >>> pageBits, bits ||| pgPresent ||| pgUser ||| pgRw⟩
              (setEntry cr3 (self 1) vpn table { s with frames := frames, usage := usage }).bind
                fun s => (s.clearPage cr3 (self 0 + vpn)).bind
                  (mapTables kernelEnd cr3 bits left (vpn + 1))

/-- The second round of `page_map`: the entries of the pages. -/
def mapPages (cr3 : Nat) (bits : BitVec 12) : Nat → Nat → Nat → Paging → Option Paging
  | 0, _, _, s => some s
  | left + 1, vpn, frame, s =>
      (s.setEntry cr3 (self 0) vpn ⟨frame, bits ||| pgPresent⟩).bind
        (mapPages cr3 bits left (vpn + 1) (frame + 1))

def pageMap (kernelEnd cr3 viraddr phyaddr npages : Nat) (bits : BitVec 12) (s : Paging) :
    Option (Paging × Int) :=
  let vpn := viraddr >>> pageBits
  let first := vpn / pageMapEntries
  let last := (vpn + npages - 1) / pageMapEntries
  (s.mapTables kernelEnd cr3 bits (last + 1 - first) first).bind fun (s, complete) =>
    if complete then (s.mapPages cr3 bits npages vpn (phyaddr >>> pageBits)).map fun s => (s, 0)
    else some (s, -enomem)

def unmapPages (cr3 : Nat) : Nat → Nat → Paging → Option Paging
  | 0, _, s => some s
  | left + 1, vpn, s =>
      (s.setEntry cr3 (self 0) vpn PageEntry.zero).bind (unmapPages cr3 left (vpn + 1))

def pageUnmap (cr3 viraddr npages : Nat) (s : Paging) : Option (Paging × Int) :=
  (s.unmapPages cr3 npages (viraddr >>> pageBits)).map fun s => (s, 0)

/-- One round of the loop in `page_map_drop`; `deeper` is the recursive call. -/
def dropEntry (cr3 lvl : Nat) (deeper : Nat → Paging → Option Paging) (s : Paging) (vpn : Nat) :
    Option Paging :=
  (s.entry cr3 (self lvl) vpn).bind fun e =>
    if e.Has pgPresent ∧ e.Has pgUser then
      (deeper (vpn <<< pageMapBits) s).bind fun s =>
        (s.frames.putPages (e.frame <<< pageBits) 1).map fun (frames, _) =>
          { s with frames := frames, usage := decr32 s.usage }
    else some s

def dropTraverse (cr3 : Nat) : Nat → Nat → Paging → Option Paging
  | 0, vpn, s =>
      (List.range' vpn pageMapEntries).foldlM (dropEntry cr3 0 fun _ s => some s) s
  | lvl + 1, vpn, s =>
      (List.range' vpn pageMapEntries).foldlM (dropEntry cr3 (lvl + 1) (dropTraverse cr3 lvl)) s

def pageMapDrop (cr3 : Nat) (s : Paging) : Option (Paging × Int) :=
  (s.dropTraverse cr3 1 0).map fun s => (s, 0)

/-- What the loop in `page_map_copy` does after it has entered a new frame on the last level. -/
def copyLeaf (kernelEnd cr3 vpn phyaddr : Nat) (s : Paging) : Option Paging :=
  (s.pageMap kernelEnd cr3 pageTmp phyaddr 1 pgRw).bind fun (s, _) =>
    s.copyPage cr3 (pageTmp >>> pageBits) vpn

/-- One round of the loop in `page_map_copy`. -/
def copyEntry (kernelEnd cr3 lvl : Nat) (deeper : Nat → Nat → Paging → Option Paging) (vpn : Nat)
    (s : Paging) : Option (Paging × Int) :=
  (s.entry cr3 (self lvl) vpn).bind fun e =>
    if e.Has pgPresent then
      if e.Has pgUser then
        (s.frames.getPages kernelEnd 1).bind fun (frames, phyaddr) =>
          if phyaddr = 0 then some ({ s with frames := frames }, -enomem)
          else
            (setEntry cr3 (other lvl) vpn ⟨phyaddr >>> pageBits, e.flags⟩
              { s with frames := frames, usage := incr32 s.usage }).bind fun s =>
                (deeper vpn phyaddr s).map fun s => (s, 0)
      else if e.Has pgSelf then
        (s.setEntry cr3 (other lvl) vpn PageEntry.zero).map fun s => (s, 0)
      else (s.setEntry cr3 (other lvl) vpn e).map fun s => (s, 0)
    else (s.setEntry cr3 (other lvl) vpn PageEntry.zero).map fun s => (s, 0)

/-- The loop itself, which an error ends. -/
def copyLoop (round : Nat → Paging → Option (Paging × Int)) :
    Nat → Nat → Paging → Option (Paging × Int)
  | 0, _, s => some (s, 0)
  | left + 1, vpn, s =>
      (round vpn s).bind fun (s, ret) =>
        if ret = 0 then copyLoop round left (vpn + 1) s else some (s, ret)

/-- The result of a recursive call is not looked at. -/
def copyTraverse (kernelEnd cr3 : Nat) : Nat → Nat → Paging → Option (Paging × Int)
  | 0, vpn, s =>
      copyLoop (copyEntry kernelEnd cr3 0 (copyLeaf kernelEnd cr3)) pageMapEntries vpn s
  | lvl + 1, vpn, s =>
      copyLoop (copyEntry kernelEnd cr3 (lvl + 1) fun vpn _ s =>
        (copyTraverse kernelEnd cr3 lvl (vpn <<< pageMapBits) s).map Prod.fst) pageMapEntries vpn s

/-- `dest` is the frame of the page map of the new task. -/
def pageMapCopy (kernelEnd cr3 dest : Nat) (s : Paging) : Option (Paging × Int) :=
  let reference : PageEntry := ⟨dest, pgPresent ||| pgSelf ||| pgRw⟩
  (s.setEntry cr3 (self 1) (pageMapEntries - 2) reference).bind fun s =>
    (s.copyTraverse kernelEnd cr3 1 0).bind fun (s, ret) =>
      (s.setEntry cr3 (other 1) (pageMapEntries - 1) reference).bind fun s =>
        (s.setEntry cr3 (self 1) (pageMapEntries - 2) PageEntry.zero).map fun s => (s, ret)

/-- `page_fault_handler` with what `task->heap` points to; whether it returns. -/
def pageFaultHandler (kernelEnd cr3 viraddr : Nat) (heap : Option (Nat × Nat)) (s : Paging) :
    Option (Paging × Bool) :=
  if ∃ area ∈ heap, area.1 ≤ viraddr ∧ viraddr < area.2 then
    let page := viraddr >>> pageBits <<< pageBits
    (s.frames.getPages kernelEnd 1).bind fun (frames, phyaddr) =>
      let s := { s with frames := frames }
      if phyaddr = 0 then some (s, false)
      else
        (s.pageMap kernelEnd cr3 page phyaddr 1 (pgUser ||| pgRw)).bind fun (s, ret) =>
          if ret ≠ 0 then
            (s.frames.putPages phyaddr 1).map fun (frames, _) => ({ s with frames := frames }, false)
          else (s.clearPage cr3 (page >>> pageBits)).map fun s => (s, true)
  else some (s, false)

end Paging
end ArtOS

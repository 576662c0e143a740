import ArtOS.Config
import ArtOS.Library.Word

/-! The page-frame allocator of `mm/memory.c`. A call that would read or write
outside `bitmap`, divide by zero or loop for ever has no result. -/
namespace ArtOS

abbrev bitmapBits : Nat := bitmapSize * 8

/-- The static data of the allocator; the two counters are the bit patterns of
`atomic_int32_t` values. -/
structure Frames where
  bitmap : Nat → BitVec 8
  allocStart : Nat
  allocated : Nat
  available : Nat

namespace Frames

def bitMask (mod : Nat) : BitVec 8 := 1#8 <<< mod

def pageMarked (s : Frames) (i : Nat) : Option Bool :=
  if i >>> 3 < bitmapSize then some (s.bitmap (i >>> 3) &&& bitMask (i &&& 7) ≠ 0) else none

def pageSetMark (s : Frames) (i : Nat) : Option Frames :=
  if i >>> 3 < bitmapSize then
    some { s with
      bitmap := Function.update s.bitmap (i >>> 3) (s.bitmap (i >>> 3) ||| bitMask (i &&& 7)) }
  else none

def pageClearMark (s : Frames) (i : Nat) : Option Frames :=
  if i / 8 < bitmapSize then
    some { s with
      bitmap := Function.update s.bitmap (i / 8) (s.bitmap (i / 8) &&& ~~~bitMask (i % 8)) }
  else none

/-- `BITMAP_SIZE*8 - npages`. -/
def windows (npages : Nat) : Nat := Word.sub bitmapBits npages

/-- `(off+alloc_start) % (BITMAP_SIZE*8 - npages)`. -/
def windowStart (s : Frames) (npages off : Nat) : Option Nat :=
  if windows npages = 0 then none else some (Word.add off s.allocStart % windows npages)

/-- The test loop: the value of `cnt` at the first marked frame, or at the end. -/
def testWindow (s : Frames) (base : Nat) : Nat → Nat → Option Nat
  | 0, cnt => some cnt
  | left + 1, cnt =>
      (s.pageMarked (base + cnt)).bind fun marked =>
        if marked then some cnt else s.testWindow base left (cnt + 1)

/-- The marking loop of `get_pages`. -/
def markRange (base : Nat) : Nat → Nat → Frames → Option Frames
  | 0, _, s => some s
  | left + 1, cnt, s => (s.pageSetMark (base + cnt)).bind (markRange base left (cnt + 1))

/-- The search loop of `get_pages`, cut off after `fuel` rounds: the frame at
which a free window starts, if there is one. -/
def search (s : Frames) (npages : Nat) : Nat → Nat → Option (Option Nat)
  | 0, _ => none
  | fuel + 1, off =>
      if off ≤ windows npages then
        (s.windowStart npages off).bind fun base =>
          (s.testWindow base npages 0).bind fun cnt =>
            if cnt = npages then some (some base)
            else s.search npages fuel (Word.add off (cnt + 1))
      else some none

def getPages (kernelEnd npages : Nat) (s : Frames) : Option (Frames × Nat) :=
  if npages = 0 then some (s, 0)
  else if s.available < npages then some (s, 0)
  else
    let s :=
      if s.allocStart = 2 ^ 32 - 1 then { s with allocStart := kernelEnd >>> pageBits } else s
    (s.search npages (windows npages + 1) 1).bind fun found =>
      match found with
      | none => some (s, 0)
      | some off =>
          (markRange off npages 0 { s with allocStart := Word.add off npages }).map fun s =>
            ({ s with
                allocated := Word.add s.allocated npages
                available := Word.sub s.available npages }, Word.shl off pageBits)

/-- The loop of `put_pages`, with the number of frames that were marked. -/
def clearRange (base : Nat) : Nat → Nat → Frames × Nat → Option (Frames × Nat)
  | 0, _, result => some result
  | left + 1, i, (s, ret) =>
      (s.pageMarked (base + i)).bind fun marked =>
        if marked then
          (s.pageClearMark (base + i)).bind fun s => clearRange base left (i + 1) (s, ret + 1)
        else clearRange base left (i + 1) (s, ret)

def putPages (phyaddr npages : Nat) (s : Frames) : Option (Frames × Int) :=
  if phyaddr = 0 then some (s, -einval)
  else if npages = 0 then some (s, -einval)
  else
    (clearRange (phyaddr >>> pageBits) npages 0 (s, 0)).map fun (s, ret) =>
      ({ s with
          allocated := Word.sub s.allocated ret
          available := Word.add s.available ret }, ret)

/-- Frame `i` is in use. -/
def Marked (s : Frames) (i : Nat) : Prop := (s.bitmap (i / 8)).getLsbD (i % 8) = true

instance (s : Frames) (i : Nat) : Decidable (s.Marked i) := inferInstanceAs (Decidable (_ = _))

end Frames
end ArtOS

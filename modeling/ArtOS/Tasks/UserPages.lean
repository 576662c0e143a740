import ArtOS.Library.ByteMemory
import ArtOS.Memory.PallocPages
import ArtOS.Tasks.LoaderAccess

/-! The pages of user space with their bytes. A write goes through the MMU to the page frames, and never
to a table, as long as no table is behind the pages that are written. -/
namespace ArtOS

namespace PageEntry

/-- The word of a page table, byte by byte. -/
def byte (e : PageEntry) (k : Nat) : BitVec 8 := ByteMemory.byte (e.frame * pageSize + e.flags.toNat) k

def ofBytes (f : Nat → BitVec 8) : PageEntry :=
  let v := ByteMemory.load32 f 0
  ⟨v / pageSize, BitVec.ofNat 12 v⟩

theorem byte_ofBytes {f : Nat → BitVec 8} {k : Nat} (hk : k < 4) : (ofBytes f).byte k = f k := by
  have hWord : ByteMemory.load32 f 0 / pageSize * pageSize + (BitVec.ofNat 12 (ByteMemory.load32 f 0)).toNat =
      ByteMemory.load32 f 0 := by
    rw [BitVec.toNat_ofNat]
    exact Nat.div_add_mod' _ _
  apply BitVec.eq_of_toNat_eq
  rw [byte, ofBytes, hWord, ByteMemory.byte, BitVec.toNat_ofNat, Nat.shiftRight_eq_div_pow,
    ByteMemory.load32, Nat.zero_add, Nat.zero_add, Nat.zero_add]
  have h₀ := (f 0).isLt
  have h₁ := (f 1).isLt
  have h₂ := (f 2).isLt
  have h₃ := (f 3).isLt
  obtain rfl | rfl | rfl | rfl : k = 0 ∨ k = 1 ∨ k = 2 ∨ k = 3 := by omega
  · omega
  · omega
  · omega
  · omega

end PageEntry

namespace Frames

/-- A request for less than all frames is answered. -/
theorem getPages_ends {npages : Nat} (kernelEnd : Nat) (s : Frames) (h : npages < bitmapBits) :
    ∃ s' addr, getPages kernelEnd npages s = some (s', addr) := by
  rw [getPages]
  split
  · exact ⟨_, _, rfl⟩
  · split
    · exact ⟨_, _, rfl⟩
    · dsimp only
      generalize (if s.allocStart = 2 ^ 32 - 1 then
        { s with allocStart := kernelEnd >>> pageBits } else s) = s₁
      obtain ⟨found, hSearch, hFound⟩ := search_spec s₁ (windows npages + 1) 1 h (by omega) (by omega)
      rw [hSearch, Option.bind_some]
      cases found with
      | none => exact ⟨_, _, rfl⟩
      | some base =>
          obtain ⟨s₂, hMark, _⟩ := markRange_spec { s₁ with allocStart := Word.add base npages } base npages 0
            (hFound base rfl).1
          dsimp only
          rw [hMark]
          exact ⟨_, _, rfl⟩

end Frames

namespace Paging

open Frames

/-- A byte of a page frame. -/
def byteIn (s : Paging) (f off : Nat) : BitVec 8 := (s.mem f (off / 4)).byte (off % 4)

/-- The byte at an address. -/
def byteAt (p addr : Nat) (s : Paging) : Option (BitVec 8) :=
  (s.frameAt p (addr >>> pageBits)).map fun f => s.byteIn f (addr % pageSize)

/-- The words of a page after these bytes have been written. -/
def patch (addr : Nat) (bytes : List (BitVec 8)) (vpn : Nat) (words : Nat → PageEntry) : Nat → PageEntry :=
  fun j => PageEntry.ofBytes fun k =>
    let a := vpn * pageSize + 4 * j + k
    if addr ≤ a ∧ a < addr + bytes.length then bytes.getD (a - addr) 0 else (words j).byte k

def writePages (p addr : Nat) (bytes : List (BitVec 8)) : Nat → Nat → Paging → Option Paging
  | 0, _, s => some s
  | left + 1, vpn, s =>
      (s.frameAt p (vpn % allPages)).bind fun f =>
        writePages p addr bytes left (vpn + 1) (s.setFrame f (patch addr bytes vpn (s.mem f)))

/-- `memset` and `memcpy`: they come to the pages one after the other. -/
def writeBytes (p addr : Nat) (bytes : List (BitVec 8)) (s : Paging) : Option Paging :=
  if bytes.isEmpty then some s
  else
    let first := addr >>> pageBits
    let last := (addr + bytes.length - 1) >>> pageBits
    s.writePages p addr bytes (last + 1 - first) first

/-- The page map of a task: its tables are in use, and those of user space are open to the user; no page
is behind a free frame, and the page frames in user space hold no table and are behind one page only. -/
structure UserMap (s : Paging) (p : Nat) : Prop where
  tables : s.InUse p
  access : ∀ v, UserPage v → (s.mem p (v / pageMapEntries)).Has pgPresent →
    (s.mem p (v / pageMapEntries)).Has pgUser
  known : ∀ v e, v < treePages → walk s.mem p v = some e → s.frames.Known e.frame
  page : ∀ v e, UserPage v → walk s.mem p v = some e → e.Has pgUser ∧ s.Unused p e.frame
  apart : ∀ v w e e', v < treePages → UserPage w → walk s.mem p v = some e → walk s.mem p w = some e' →
    e.frame = e'.frame → v = w

/-- A page that can be written without damage to the page map: it is none of the tables, and none is
behind it. -/
def NoTable (p : Nat) (s : Paging) (v : Nat) : Prop :=
  v < treePages ∧ ∀ e, walk s.mem p v = some e → s.Unused p e.frame

/-- A range of such pages. -/
def Spares (p addr len : Nat) (s : Paging) : Prop :=
  ∀ a, addr ≤ a → a < addr + len → s.NoTable p (a >>> pageBits)

/-- Everything but what the free frames hold. -/
structure SameUse (s t : Paging) : Prop where
  frames : t.frames = s.frames
  usage : t.usage = s.usage
  mem : ∀ f, s.frames.Known f → t.mem f = s.mem f

/-- The same page map with the same page frames free. -/
structure Agree (p : Nat) (s t : Paging) : Prop where
  frames : t.frames = s.frames
  usage : t.usage = s.usage
  root : t.mem p = s.mem p
  table : ∀ i < pageMapEntries - 1, (s.mem p i).Has pgPresent →
    t.mem (s.mem p i).frame = s.mem (s.mem p i).frame

/-- All bytes of the free frames are `x`. -/
def FreeBytes (x : BitVec 8) (s : Paging) : Prop := ∀ f, ¬ s.frames.Known f → ∀ off, s.byteIn f off = x

variable {s t u : Paging} {p f v w addr kernelEnd : Nat} {e : PageEntry} {words : Nat → PageEntry}
variable {bytes : List (BitVec 8)} {bits : BitVec 12}

theorem userPage_tree (h : UserPage v) : v < treePages := by
  have hHigh := (userPage_iff.1 h).2
  show v < 1047552
  omega

theorem byteIn_patch (off : Nat) : (s.setFrame f (patch addr bytes v words)).byteIn f off =
    if addr ≤ v * pageSize + off ∧ v * pageSize + off < addr + bytes.length then
      bytes.getD (v * pageSize + off - addr) 0
    else (words (off / 4)).byte (off % 4) := by
  have hSplit : v * pageSize + 4 * (off / 4) + off % 4 = v * pageSize + off := by
    rw [Nat.add_assoc, Nat.div_add_mod]
  rw [byteIn, mem_setFrame, patch, PageEntry.byte_ofBytes (Nat.mod_lt _ (by decide))]
  dsimp only
  rw [hSplit]

theorem byteIn_setFrame_of_ne {g off : Nat} (h : g ≠ f) : (s.setFrame f words).byteIn g off = s.byteIn g off := by
  rw [byteIn, byteIn, mem_setFrame_of_ne h]

/-- The translation depends on the root and its tables only. -/
theorem Agree.walk_eq (h : s.Agree p t) (hv : v / pageMapEntries < pageMapEntries - 1) :
    walk t.mem p v = walk s.mem p v := by
  by_cases hThere : (s.mem p (v / pageMapEntries)).Has pgPresent
  · rw [walk, walk, h.root, h.table _ hv hThere]
  · rw [walk_absent hThere, walk_absent (by rwa [h.root])]

theorem Agree.walk_tree (h : s.Agree p t) (hv : v < treePages) : walk t.mem p v = walk s.mem p v :=
  h.walk_eq (table_of_tree hv)

theorem Agree.refl (p : Nat) (s : Paging) : s.Agree p s := ⟨rfl, rfl, rfl, fun _ _ _ => rfl⟩

/-- What holds no table can be written. -/
theorem Unused.agree (h : s.Unused p f) : s.Agree p (s.setFrame f words) where
  frames := rfl
  usage := rfl
  root := mem_setFrame_of_ne h.root.symm
  table i hi hThere := mem_setFrame_of_ne (h.table i hi hThere)

theorem Agree.inUse (h : s.Agree p t) (hs : s.InUse p) : t.InUse p := by
  obtain ⟨⟨⟨hFrame, hPresent⟩, hRoot, hApart⟩, hKnown, hTable⟩ := hs
  refine ⟨⟨⟨?_, ?_⟩, ?_, ?_⟩, ?_, ?_⟩
  · rw [h.root]
    exact hFrame
  · rw [h.root]
    exact hPresent
  · rw [h.root]
    exact hRoot
  · rw [h.root]
    exact hApart
  · rw [h.frames]
    exact hKnown
  · rw [h.root, h.frames]
    exact hTable

theorem Agree.unused (h : s.Agree p t) (hs : s.Unused p f) : t.Unused p f := by
  obtain ⟨hRoot, hTable⟩ := hs
  refine ⟨hRoot, ?_⟩
  rw [h.root]
  exact hTable

theorem Agree.userMap (h : s.Agree p t) (hs : s.UserMap p) : t.UserMap p := by
  refine ⟨h.inUse hs.tables, ?_, ?_, ?_, ?_⟩
  · rw [h.root]
    exact hs.access
  · intro v e hv he
    rw [h.walk_tree hv] at he
    exact h.frames.symm ▸ hs.known v e hv he
  · intro v e hv he
    rw [h.walk_tree (userPage_tree hv)] at he
    obtain ⟨hUser, hUnused⟩ := hs.page v e hv he
    exact ⟨hUser, h.unused hUnused⟩
  · intro v w e e' hv hw he he'
    rw [h.walk_tree hv] at he
    rw [h.walk_tree (userPage_tree hw)] at he'
    exact hs.apart v w e e' hv hw he he'

theorem Agree.noTable (h : s.Agree p t) (hs : s.NoTable p v) : t.NoTable p v := by
  obtain ⟨hLow, hUnused⟩ := hs
  refine ⟨hLow, ?_⟩
  intro e he
  rw [h.walk_tree hLow] at he
  exact h.unused (hUnused e he)

theorem UserMap.noTable (h : s.UserMap p) (hv : UserPage v) : s.NoTable p v :=
  ⟨userPage_tree hv, fun e he => (h.page v e hv he).2⟩

/-- User space can be written. -/
theorem UserMap.spares {len : Nat} (h : s.UserMap p) (hUser : InUser addr len) : s.Spares p addr len := by
  intro a hFrom hTo
  have hIn : kernelSpace ≤ addr ∧ addr + len ≤ vmaUserMax := hUser.resolve_left (by omega)
  exact h.noTable (userPage_byte (hIn.1.trans hFrom) (hTo.trans_le hIn.2))

theorem frameAt_eq_some : s.frameAt p v = some f ↔ ∃ e, walk s.mem p v = some e ∧ e.frame = f := by
  rw [frameAt, Option.map_eq_some_iff]

/-- What a write to the pages from `first` on has done. -/
structure Wrote (p addr : Nat) (bytes : List (BitVec 8)) (first n : Nat) (s t : Paging) : Prop where
  agree : s.Agree p t
  free : ∀ f, ¬ s.frames.Known f → t.mem f = s.mem f
  byte : ∀ a, UserPage (a >>> pageBits) → t.byteAt p a =
    if (first ≤ a >>> pageBits ∧ a >>> pageBits < first + n) ∧ addr ≤ a ∧ a < addr + bytes.length then
      (s.byteAt p a).map fun _ => bytes.getD (a - addr) 0
    else s.byteAt p a

theorem Agree.trans (h : s.Agree p t) (h' : t.Agree p u) : s.Agree p u where
  frames := h'.frames.trans h.frames
  usage := h'.usage.trans h.usage
  root := h'.root.trans h.root
  table i hi hThere := by
    have hTable := h'.table i hi (by rwa [h.root])
    rw [h.root] at hTable
    exact hTable.trans (h.table i hi hThere)

/-- One page is written. -/
theorem UserMap.write_page (addr : Nat) (bytes : List (BitVec 8)) (h : s.UserMap p) (hv : s.NoTable p v)
    (hf : s.frameAt p v = some f) :
    Wrote p addr bytes v 1 s (s.setFrame f (patch addr bytes v (s.mem f))) := by
  obtain ⟨e, he, rfl⟩ := frameAt_eq_some.1 hf
  obtain ⟨hLow, hUnused⟩ := hv
  have hKnown := h.known v e hLow he
  have hAgree : s.Agree p (s.setFrame e.frame (patch addr bytes v (s.mem e.frame))) := (hUnused e he).agree
  refine ⟨hAgree, ?_, ?_⟩
  · intro g hg
    exact mem_setFrame_of_ne fun hSame => hg (hSame ▸ hKnown)
  · intro a ha
    rw [byteAt, byteAt, frameAt, frameAt, hAgree.walk_tree (userPage_tree ha)]
    by_cases hPage : a >>> pageBits = v
    · have hSplit : v * pageSize + a % pageSize = a := by
        rw [← hPage, Nat.shiftRight_eq_div_pow]
        exact Nat.div_add_mod' a pageSize
      have hRange : v ≤ v ∧ v < v + 1 := ⟨le_rfl, Nat.lt_succ_self v⟩
      rw [hPage, he, Option.map_some, Option.map_some, byteIn_patch, hSplit]
      simp only [hRange, true_and]
      split
      · rfl
      · rfl
    · rw [if_neg (by omega)]
      cases hOther : walk s.mem p (a >>> pageBits) with
      | none => simp only [Option.map_none]
      | some e' =>
          have hne : e'.frame ≠ e.frame := fun hSame =>
            hPage (h.apart _ _ _ _ hLow ha he hOther hSame.symm).symm
          simp only [Option.map_some]
          rw [byteIn_setFrame_of_ne hne]

/-- One page after another. -/
theorem Wrote.cons {n : Nat} (h : Wrote p addr bytes v 1 s t) (h' : Wrote p addr bytes (v + 1) n t u) :
    Wrote p addr bytes v (n + 1) s u := by
  refine ⟨h.agree.trans h'.agree, ?_, ?_⟩
  · intro f hf
    exact (h'.free f (h.agree.frames.symm ▸ hf)).trans (h.free f hf)
  · intro a ha
    rw [h'.byte a ha, h.byte a ha]
    by_cases hBytes : addr ≤ a ∧ a < addr + bytes.length
    · by_cases hFirst : a >>> pageBits = v
      · rw [if_neg (by omega), if_pos (by omega), if_pos (by omega)]
      · by_cases hRest : v + 1 ≤ a >>> pageBits ∧ a >>> pageBits < v + 1 + n
        · rw [if_pos ⟨hRest, hBytes⟩, if_neg (by omega), if_pos (by omega)]
        · rw [if_neg fun hAll => hRest hAll.1, if_neg (by omega), if_neg (by omega)]
    · rw [if_neg fun hAll => hBytes hAll.2, if_neg fun hAll => hBytes hAll.2,
        if_neg fun hAll => hBytes hAll.2]

/-- A write comes to its end if all of the pages are there. -/
theorem UserMap.writePages (addr : Nat) (bytes : List (BitVec 8)) (h : s.UserMap p) {left : Nat}
    (hSpares : ∀ k < left, s.NoTable p (v + k)) :
    (∃ t, s.writePages p addr bytes left v = some t ∧ Wrote p addr bytes v left s t ∧
      ∀ k < left, (walk s.mem p (v + k)).isSome) ∨
    s.writePages p addr bytes left v = none ∧ ∃ k < left, walk s.mem p (v + k) = none := by
  induction left generalizing s v with
  | zero =>
      refine Or.inl ⟨s, rfl, ⟨Agree.refl p s, fun _ _ => rfl, ?_⟩, fun k hk => absurd hk (Nat.not_lt_zero k)⟩
      intro a _
      rw [if_neg (by omega)]
  | succ left ih =>
      have hFirst : s.NoTable p v := hSpares 0 (Nat.zero_lt_succ left)
      have hMod : v % allPages = v := Nat.mod_eq_of_lt (hFirst.1.trans (by decide))
      rw [Paging.writePages, hMod]
      cases hWalk : walk s.mem p v with
      | none =>
          have hFrame : s.frameAt p v = none := by rw [frameAt, hWalk, Option.map_none]
          rw [hFrame]
          exact Or.inr ⟨rfl, 0, Nat.zero_lt_succ left, hWalk⟩
      | some e =>
          have hFrame : s.frameAt p v = some e.frame := by rw [frameAt, hWalk, Option.map_some]
          have hWrote := h.write_page addr bytes hFirst hFrame
          have hSame : ∀ k < left, walk (s.setFrame e.frame (patch addr bytes v (s.mem e.frame))).mem p
              (v + 1 + k) = walk s.mem p (v + (k + 1)) := by
            intro k hk
            rw [Nat.add_assoc, Nat.add_comm 1]
            exact hWrote.agree.walk_tree (hSpares (k + 1) (Nat.succ_lt_succ hk)).1
          rw [hFrame, Option.bind_some]
          rcases ih (hWrote.agree.userMap h) (v := v + 1)
            (fun k hk => by
              rw [Nat.add_assoc, Nat.add_comm 1]
              exact hWrote.agree.noTable (hSpares (k + 1) (Nat.succ_lt_succ hk))) with ⟨t, hRest, hDone, hThere⟩ | ⟨hRest, k, hk, hAbsent⟩
          · refine Or.inl ⟨t, hRest, hWrote.cons hDone, ?_⟩
            intro k hk
            cases k with
            | zero => exact Option.isSome_iff_exists.2 ⟨e, hWalk⟩
            | succ k =>
                have hPage := hThere k (Nat.lt_of_succ_lt_succ hk)
                rwa [hSame k (Nat.lt_of_succ_lt_succ hk)] at hPage
          · rw [hSame k hk] at hAbsent
            exact Or.inr ⟨hRest, k + 1, Nat.succ_lt_succ hk, hAbsent⟩

/-- What a write has done to user space. -/
structure Writes (p addr : Nat) (bytes : List (BitVec 8)) (s t : Paging) : Prop where
  agree : s.Agree p t
  free : ∀ f, ¬ s.frames.Known f → t.mem f = s.mem f
  byte : ∀ a, UserPage (a >>> pageBits) → t.byteAt p a =
    if addr ≤ a ∧ a < addr + bytes.length then (s.byteAt p a).map fun _ => bytes.getD (a - addr) 0
    else s.byteAt p a

theorem UserMap.writeBytes (h : s.UserMap p) (hSpares : s.Spares p addr bytes.length) :
    (∃ t, s.writeBytes p addr bytes = some t ∧ Writes p addr bytes s t ∧
      ∀ a, addr ≤ a → a < addr + bytes.length → (walk s.mem p (a >>> pageBits)).isSome) ∨
    s.writeBytes p addr bytes = none ∧
      ∃ a, addr ≤ a ∧ a < addr + bytes.length ∧ walk s.mem p (a >>> pageBits) = none := by
  by_cases hEmpty : bytes.isEmpty
  · have hNil : bytes.length = 0 := List.length_eq_zero_iff.2 (List.isEmpty_iff.1 hEmpty)
    rw [Paging.writeBytes, if_pos hEmpty]
    refine Or.inl ⟨s, rfl, ⟨Agree.refl p s, fun _ _ => rfl, ?_⟩, fun a _ _ => by omega⟩
    intro a _
    rw [if_neg (by omega)]
  · have hLength : bytes.length ≠ 0 := fun hNil => hEmpty (List.isEmpty_iff.2 (List.length_eq_zero_iff.1 hNil))
    rw [Paging.writeBytes, if_neg hEmpty]
    dsimp only
    have hPages : ∀ k < (addr + bytes.length - 1) >>> pageBits + 1 - addr >>> pageBits,
        s.NoTable p (addr >>> pageBits + k) := by
      intro k hk
      rw [page_eq, page_eq] at hk
      obtain ⟨a, hFrom, hTo, hPage⟩ : ∃ a, addr ≤ a ∧ a < addr + bytes.length ∧
          a >>> pageBits = addr >>> pageBits + k := by
        refine ⟨max addr ((addr >>> pageBits + k) * 4096), le_max_left .., ?_, ?_⟩
        · rw [page_eq]
          omega
        · rw [page_eq, page_eq]
          omega
      exact hPage ▸ hSpares a hFrom hTo
    rcases h.writePages addr bytes hPages with ⟨t, hDone, hWrote, hThere⟩ | ⟨hFault, k, hk, hAbsent⟩
    · refine Or.inl ⟨t, hDone, ⟨hWrote.agree, hWrote.free, ?_⟩, ?_⟩
      · intro a ha
        rw [hWrote.byte a ha]
        by_cases hBytes : addr ≤ a ∧ a < addr + bytes.length
        · have hPage : addr >>> pageBits ≤ a >>> pageBits ∧ a >>> pageBits <
              addr >>> pageBits + ((addr + bytes.length - 1) >>> pageBits + 1 - addr >>> pageBits) := by
            rw [page_eq, page_eq, page_eq]
            omega
          rw [if_pos ⟨hPage, hBytes⟩, if_pos hBytes]
        · rw [if_neg fun hAll => hBytes hAll.2, if_neg hBytes]
      · intro a hFrom hTo
        have hPage := hThere (a >>> pageBits - addr >>> pageBits) (by rw [page_eq, page_eq, page_eq]; omega)
        rwa [Nat.add_sub_cancel' (by rw [page_eq, page_eq]; omega)] at hPage
    · refine Or.inr ⟨hFault, ?_⟩
      by_cases hZero : k = 0
      · refine ⟨addr, le_rfl, by omega, ?_⟩
        rwa [hZero, Nat.add_zero] at hAbsent
      · rw [page_eq, page_eq] at hk
        refine ⟨(addr >>> pageBits + k) * 4096, ?_, ?_, ?_⟩
        · rw [page_eq]
          omega
        · rw [page_eq]
          omega
        · rwa [page_eq, Nat.mul_div_cancel _ (by decide)]

theorem Agree.symm (h : s.Agree p t) : t.Agree p s where
  frames := h.frames.symm
  usage := h.usage.symm
  root := h.root.symm
  table i hi hThere := by
    rw [h.root] at hThere ⊢
    exact (h.table i hi hThere).symm

/-- The same write in two memories that agree on the page map. -/
theorem Agree.writeBytes (h : s.Agree p t) (hs : s.UserMap p) (hSpares : s.Spares p addr bytes.length) :
    (∃ s' t', s.writeBytes p addr bytes = some s' ∧ t.writeBytes p addr bytes = some t' ∧ s'.UserMap p ∧
      s'.Agree p t') ∨
    s.writeBytes p addr bytes = none ∧ t.writeBytes p addr bytes = none := by
  have hWalk : ∀ a, addr ≤ a → a < addr + bytes.length →
      walk t.mem p (a >>> pageBits) = walk s.mem p (a >>> pageBits) :=
    fun a hFrom hTo => h.walk_tree (hSpares a hFrom hTo).1
  have hSpares' : t.Spares p addr bytes.length := fun a hFrom hTo => h.noTable (hSpares a hFrom hTo)
  rcases hs.writeBytes hSpares with ⟨s', hDone, hWrites, hThere⟩ | ⟨hFault, a, hFrom, hTo, hAbsent⟩
  · rcases (h.userMap hs).writeBytes hSpares' with ⟨t', hDone', hWrites', _⟩ | ⟨_, a, hFrom, hTo, hAbsent⟩
    · exact Or.inl ⟨s', t', hDone, hDone', hWrites.agree.userMap hs,
        hWrites.agree.symm.trans (h.trans hWrites'.agree)⟩
    · have hPage := hThere a hFrom hTo
      rw [← hWalk a hFrom hTo, hAbsent] at hPage
      cases hPage
  · rcases (h.userMap hs).writeBytes hSpares' with ⟨_, _, _, hThere'⟩ | ⟨hFault', _⟩
    · have hPage := hThere' a hFrom hTo
      rw [hWalk a hFrom hTo, hAbsent] at hPage
      cases hPage
    · exact Or.inr ⟨hFault, hFault'⟩

/-- A new table is entered and cleared. -/
theorem Rooted.enter_eq {i : Nat} (h : s.Rooted p) (hi : i < pageMapEntries - 1) (he : e.Has pgPresent) :
    (s.setEntry p (self 1) i e).bind (clearPage p (self 0 + i)) =
      some ((s.write p i e).setFrame e.frame fun _ => PageEntry.zero) := by
  have hNew : (s.write p i e).mem p i = e := mem_write
  have hFound := (h.write (f := p) (e := e) (by omega : i ≠ _)).frameAt_self
    (by omega : i < pageMapEntries) (by rwa [hNew])
  rw [hNew] at hFound
  rw [h.setEntry_dir (by omega), Option.bind_some, clearPage, hFound, Option.map_some]

theorem Agree.enter (h : s.Agree p t) (i : Nat) (frames : Frames) (usage : Nat) :
    ((write { s with frames := frames, usage := usage } p i e).setFrame e.frame fun _ => PageEntry.zero).Agree p
      ((write { t with frames := frames, usage := usage } p i e).setFrame e.frame fun _ => PageEntry.zero) := by
  have hMem : ∀ (r : Paging) g,
      ((write { r with frames := frames, usage := usage } p i e).setFrame e.frame fun _ => PageEntry.zero).mem g =
        if g = e.frame then fun _ => PageEntry.zero
        else if g = p then Function.update (r.mem p) i e else r.mem g := by
    intro r g
    split
    next hg => rw [hg, mem_setFrame]
    next hg =>
      rw [mem_setFrame_of_ne hg]
      split
      next hp => rw [hp, write, mem_setFrame]
      next hp => rw [mem_write_of_frame hp]
  refine ⟨rfl, rfl, ?_, ?_⟩
  · rw [hMem, hMem, h.root]
  · intro k hk hThere
    generalize hFrame : (((write { s with frames := frames, usage := usage } p i e).setFrame e.frame fun _ =>
      PageEntry.zero).mem p k).frame = g
    rw [hMem, hMem]
    by_cases hClear : g = e.frame
    · rw [if_pos hClear, if_pos hClear]
    · rw [if_neg hClear, if_neg hClear, h.root]
      by_cases hRoot : g = p
      · rw [if_pos hRoot, if_pos hRoot]
      · rw [if_neg hRoot, if_neg hRoot]
        rw [hMem] at hThere hFrame
        by_cases hp : p = e.frame
        · rw [if_pos hp] at hThere
          exact absurd hThere PageEntry.not_has_zero
        · rw [if_neg hp, if_pos rfl] at hThere hFrame
          by_cases hki : k = i
          · rw [hki, Function.update_self] at hFrame
            exact absurd hFrame.symm hClear
          · rw [Function.update_of_ne hki] at hThere hFrame
            rw [← hFrame]
            exact h.table k hk hThere

/-- New tables are in use. -/
theorem InUse.extends {new : List Nat} (h : s.InUse p) (hLevel : t.TwoLevel p) (hNew : Extends bits p s t new) :
    t.InUse p := by
  refine ⟨hLevel, fun hp => hNew.taking _ (h.root hp), ?_⟩
  intro i hi hThere hLt
  by_cases hi' : i ∈ new
  · exact hNew.taken i hi'
  · rw [hNew.entry i hi'] at hThere hLt ⊢
    exact hNew.taking _ (h.table i hi hThere hLt)

/-- The tables come from the same page frames in both memories. -/
theorem Agree.mapTables (kernelEnd : Nat) (bits : BitVec 12) (h : s.Agree p t) (hs : s.InUse p) {left vpn : Nat}
    (hRange : vpn + left ≤ pageMapEntries - 1) :
    ∃ s' t' complete, s.mapTables kernelEnd p bits left vpn = some (s', complete) ∧
      t.mapTables kernelEnd p bits left vpn = some (t', complete) ∧ s'.Agree p t' := by
  induction left generalizing s t vpn with
  | zero => exact ⟨s, t, true, rfl, rfl, h⟩
  | succ left ih =>
      have ht := h.inUse hs
      rw [Paging.mapTables, Paging.mapTables, hs.level.rooted.entry_dir (by omega),
        ht.level.rooted.entry_dir (by omega), h.root, Option.bind_some, Option.bind_some, h.frames, h.usage]
      by_cases hThere : (s.mem p vpn).Has pgPresent
      · rw [if_pos hThere, if_pos hThere]
        exact ih h hs (by omega)
      · rw [if_neg hThere, if_neg hThere]
        obtain ⟨frames, addr, hCall⟩ := getPages_ends kernelEnd s.frames (show 1 < bitmapBits by decide)
        rw [hCall, Option.bind_some, Option.bind_some]
        dsimp only
        by_cases hAddr : addr = 0
        · rw [if_pos hAddr, if_pos hAddr]
          exact ⟨_, _, false, rfl, rfl, rfl, rfl, h.root, h.table⟩
        · rw [if_neg hAddr, if_neg hAddr]
          obtain ⟨hLt, hFree, hMarks, _⟩ := getPages_one hCall hAddr
          have hUnused : s.Unused p (addr >>> pageBits) := by
            refine ⟨fun he => hFree (he ▸ hs.root (he ▸ hLt)), ?_⟩
            intro i hi hi' he
            exact hFree (he ▸ hs.table i hi hi' (he ▸ hLt))
          have hPresent := (PageEntry.has_table (addr >>> pageBits) bits).1
          obtain ⟨s₁, hEnter, hFrames₁, hLevel₁, hExtends₁⟩ := hs.level.enter (i := vpn) bits (by omega) hThere
            hCall hAddr hUnused
          have hRooted : ∀ (r : Paging) (usage : Nat), r.Rooted p →
              Rooted { r with frames := frames, usage := usage } p := fun r usage hr => ⟨hr.frame, hr.present⟩
          rw [← Option.bind_assoc, ← Option.bind_assoc, hEnter,
            (hRooted t _ ht.level.rooted).enter_eq (by omega) hPresent, Option.bind_some, Option.bind_some]
          rw [(hRooted s _ hs.level.rooted).enter_eq (by omega) hPresent] at hEnter
          obtain rfl := Option.some.inj hEnter
          exact ih (h.enter vpn frames _) (hs.extends hLevel₁ hExtends₁) (by omega)

theorem Agree.mapPages (bits : BitVec 12) (frame : Nat) (h : s.Agree p t) (hs : s.TwoLevel p) {left : Nat} (hRange : v + left ≤ treePages)
    (hTables : ∀ k < left, (s.mem p ((v + k) / pageMapEntries)).Has pgPresent) :
    ∃ s' t', s.mapPages p bits left v frame = some s' ∧ t.mapPages p bits left v frame = some t' ∧
      s'.Agree p t' := by
  induction left generalizing s t v frame with
  | zero => exact ⟨s, t, rfl, rfl, h⟩
  | succ left ih =>
      have hTree : v < treePages := by omega
      have hThere : (s.mem p (v / pageMapEntries)).Has pgPresent := hTables 0 (Nat.zero_lt_succ left)
      have hTable := table_of_tree hTree
      have hDir : v / pageMapEntries < pageMapEntries := by omega
      have hRooted : t.Rooted p := ⟨by rw [h.root]; exact hs.rooted.frame, by rw [h.root]; exact hs.rooted.present⟩
      have hSet := hs.rooted.setEntry_leaf (e := ⟨frame, bits ||| pgPresent⟩) hDir hThere
      obtain ⟨hLevel, hWrites⟩ := hs.write_page hTree hSet
      rw [Paging.mapPages, Paging.mapPages, hSet, hRooted.setEntry_leaf hDir (by rwa [h.root]), h.root,
        Option.bind_some, Option.bind_some]
      generalize hg : (s.mem p (v / pageMapEntries)).frame = g
      have hgTable : t.mem g = s.mem g := hg ▸ h.table _ (by omega) hThere
      have hgRoot : g ≠ p := hg ▸ hs.root_ne _ (by omega) hThere
      rw [hg] at hLevel hWrites
      apply ih (frame + 1) _ hLevel (by omega)
      · intro k hk
        rw [hWrites.root, Nat.add_assoc, Nat.add_comm 1]
        exact hTables (k + 1) (Nat.succ_lt_succ hk)
      · refine ⟨h.frames, h.usage, ?_, ?_⟩
        · rw [mem_write_of_frame hgRoot.symm, mem_write_of_frame hgRoot.symm, h.root]
        · intro i hi hi'
          rw [mem_write_of_frame hgRoot.symm] at hi' ⊢
          by_cases hSame : (s.mem p i).frame = g
          · rw [hSame, write, write, mem_setFrame, mem_setFrame, hgTable]
          · rw [mem_write_of_frame hSame, mem_write_of_frame hSame]
            exact h.table i hi hi'

theorem InUse.unused_grants (h : s.InUse p) (n : Nat) :
    ∀ f ∈ s.frames.grants kernelEnd n, s.Unused p f := h.unused (fun _ hf => hf) n

/-- What `page_map` does depends on the page map and the frames in use only. -/
theorem Agree.pageMap (kernelEnd phyaddr : Nat) (bits : BitVec 12) (h : s.Agree p t) (hs : s.InUse p)
    {viraddr npages : Nat}
    (hRange : viraddr >>> pageBits + npages ≤ treePages) :
    ∃ s' t' ret, s.pageMap kernelEnd p viraddr phyaddr npages bits = some (s', ret) ∧
      t.pageMap kernelEnd p viraddr phyaddr npages bits = some (t', ret) ∧ s'.Agree p t' := by
  rw [Paging.pageMap, Paging.pageMap]
  dsimp only
  generalize viraddr >>> pageBits = v at hRange ⊢
  have hTables : v / pageMapEntries + ((v + npages - 1) / pageMapEntries + 1 - v / pageMapEntries) ≤
      pageMapEntries - 1 := by
    have hEntries : pageMapEntries = 1024 := rfl
    have hTree : treePages = 1047552 := by decide
    rw [hEntries]
    omega
  obtain ⟨s₁, t₁, complete, hFirst, hFirst', hAgree⟩ := h.mapTables kernelEnd bits hs hTables
  rw [hFirst, hFirst', Option.bind_some, Option.bind_some]
  dsimp only
  obtain ⟨new, hDone⟩ := hs.level.mapTables hTables (hs.unused_grants _) hFirst
  cases complete with
  | false => exact ⟨s₁, t₁, -enomem, rfl, rfl, hAgree⟩
  | true =>
      obtain ⟨s₂, t₂, hSecond, hSecond', hAgree'⟩ := hAgree.mapPages bits (phyaddr >>> pageBits)
        hDone.level hRange fun k hk => by
          have hOrder : v / pageMapEntries ≤ (v + k) / pageMapEntries := Nat.div_le_div_right (by omega)
          have hLast : (v + k) / pageMapEntries ≤ (v + npages - 1) / pageMapEntries :=
            Nat.div_le_div_right (by omega)
          exact hDone.all rfl _ hOrder (by omega)
      rw [if_pos rfl, if_pos rfl, hSecond, hSecond']
      exact ⟨s₂, t₂, 0, rfl, rfl, hAgree'⟩

/-- Pages have got these frames. -/
structure MapsNew (p first n frame : Nat) (s t : Paging) : Prop where
  map : t.UserMap p
  grows : ∀ f, s.frames.Known f → t.frames.Known f
  inside : ∀ k < n, walk t.mem p (first + k) = some ⟨frame + k, pgUser ||| pgRw ||| pgPresent⟩
  outside : ∀ v < treePages, ¬ (first ≤ v ∧ v < first + n) → walk t.mem p v = walk s.mem p v
  unused : ∀ g, s.Unused p g → s.frames.Known g → t.Unused p g
  mem : ∀ g, s.Unused p g → s.frames.Known g ∨ ¬ t.frames.Known g → t.mem g = s.mem g

/-- A frame that can be put behind a page: it is taken, but not in use yet. -/
structure Taken (s : Paging) (p f : Nat) : Prop where
  known : s.frames.Known f
  unused : s.Unused p f
  apart : ∀ v e, v < treePages → walk s.mem p v = some e → e.frame ≠ f

theorem Extends.userAccess {new : List Nat} (hNew : Extends (pgUser ||| pgRw) p s t new) (h : s.UserMap p)
    (hRoot : u.mem p = t.mem p) (hv : UserPage v) (hThere : (u.mem p (v / pageMapEntries)).Has pgPresent) :
    (u.mem p (v / pageMapEntries)).Has pgUser := by
  rw [hRoot] at hThere ⊢
  by_cases hi : v / pageMapEntries ∈ new
  · exact (hNew.present hi).2
  · rw [hNew.entry _ hi] at hThere ⊢
    exact h.access v hv hThere

/-- A frame that was known before is no new table. -/
theorem Extends.unused_known {new : List Nat} (hNew : Extends bits p s t new) (hUnused : s.Unused p f)
    (hKnown : s.frames.Known f ∨ ¬ t.frames.Known f) : t.Unused p f ∧ ∀ i ∈ new, (t.mem p i).frame ≠ f := by
  have hApart : ∀ i ∈ new, (t.mem p i).frame ≠ f := by
    rintro i hi rfl
    obtain ⟨_, hLt, _, hFree⟩ := hNew.fresh i hi
    rcases hKnown with hKnown | hFree'
    · exact hFree (hKnown hLt)
    · exact hFree' fun _ => hNew.taken i hi
  refine ⟨⟨hUnused.root, ?_⟩, hApart⟩
  intro i hi hThere
  by_cases hi' : i ∈ new
  · exact hApart i hi'
  · rw [hNew.entry i hi'] at hThere ⊢
    exact hUnused.table i hi hThere

/-- Frames that were taken, but not in use, have been put behind pages. -/
theorem UserMap.remapped {first n frame : Nat} (h : s.UserMap p) (hInUse : t.InUse p)
    (hAccess : ∀ v, UserPage v → (t.mem p (v / pageMapEntries)).Has pgPresent →
      (t.mem p (v / pageMapEntries)).Has pgUser)
    (hGrows : ∀ f, s.frames.Known f → t.frames.Known f)
    (hUnused : ∀ g, s.Unused p g → s.frames.Known g → t.Unused p g)
    (hFrames : ∀ k < n, s.Taken p (frame + k))
    (hInside : ∀ k < n, walk t.mem p (first + k) = some ⟨frame + k, pgUser ||| pgRw ||| pgPresent⟩)
    (hOutside : ∀ v < treePages, ¬ (first ≤ v ∧ v < first + n) → walk t.mem p v = walk s.mem p v) :
    t.UserMap p := by
  refine ⟨hInUse, hAccess, ?_, ?_, ?_⟩
  · intro v e hv he
    by_cases hIn : first ≤ v ∧ v < first + n
    · obtain ⟨k, rfl⟩ := Nat.exists_eq_add_of_le hIn.1
      rw [hInside k (by omega)] at he
      obtain rfl := Option.some.inj he
      exact hGrows _ (hFrames k (by omega)).known
    · rw [hOutside v hv hIn] at he
      exact hGrows _ (h.known v e hv he)
  · intro v e hv he
    by_cases hIn : first ≤ v ∧ v < first + n
    · obtain ⟨k, rfl⟩ := Nat.exists_eq_add_of_le hIn.1
      rw [hInside k (by omega)] at he
      obtain rfl := Option.some.inj he
      have hTaken := hFrames k (by omega)
      have hFlag : (pgUser ||| pgRw ||| pgPresent) &&& pgUser ≠ 0 := by decide
      exact ⟨hFlag, hUnused _ hTaken.unused hTaken.known⟩
    · rw [hOutside v (userPage_tree hv) hIn] at he
      obtain ⟨hUserFlag, hOld⟩ := h.page v e hv he
      exact ⟨hUserFlag, hUnused _ hOld (h.known v e (userPage_tree hv) he)⟩
  · intro v w e e' hv hw he he' hSame
    by_cases hIn : first ≤ v ∧ v < first + n
    · obtain ⟨k, rfl⟩ := Nat.exists_eq_add_of_le hIn.1
      rw [hInside k (by omega)] at he
      obtain rfl := Option.some.inj he
      by_cases hIn' : first ≤ w ∧ w < first + n
      · obtain ⟨l, rfl⟩ := Nat.exists_eq_add_of_le hIn'.1
        rw [hInside l (by omega)] at he'
        obtain rfl := Option.some.inj he'
        exact congrArg (first + ·) (Nat.add_left_cancel hSame)
      · rw [hOutside w (userPage_tree hw) hIn'] at he'
        exact absurd hSame.symm ((hFrames k (by omega)).apart w e' (userPage_tree hw) he')
    · rw [hOutside v hv hIn] at he
      by_cases hIn' : first ≤ w ∧ w < first + n
      · obtain ⟨l, rfl⟩ := Nat.exists_eq_add_of_le hIn'.1
        rw [hInside l (by omega)] at he'
        obtain rfl := Option.some.inj he'
        exact absurd hSame ((hFrames l (by omega)).apart v e hv he)
      · rw [hOutside w (userPage_tree hw) hIn'] at he'
        exact h.apart v w e e' hv hw he he' hSame

theorem UserMap.pageMap (h : s.UserMap p) {viraddr phyaddr npages : Nat}
    (hRange : viraddr >>> pageBits + npages ≤ treePages)
    (hFrames : ∀ k < npages, s.Taken p (phyaddr >>> pageBits + k))
    (hCall : s.pageMap kernelEnd p viraddr phyaddr npages (pgUser ||| pgRw) = some (t, 0)) :
    MapsNew p (viraddr >>> pageBits) npages (phyaddr >>> pageBits) s t := by
  rw [Paging.pageMap] at hCall
  dsimp only at hCall
  generalize viraddr >>> pageBits = first at hRange hCall ⊢
  generalize phyaddr >>> pageBits = frame at hFrames hCall ⊢
  obtain ⟨⟨s₁, complete⟩, hTables, hRest⟩ := Option.bind_eq_some_iff.1 hCall
  have hEntries : pageMapEntries = 1024 := rfl
  have hTreePages : treePages = 1047552 := by decide
  obtain ⟨new, hDone⟩ := h.tables.level.mapTables (by rw [hEntries]; omega) (h.tables.unused_grants _) hTables
  dsimp only at hRest
  cases complete with
  | false => exact absurd (Prod.mk.inj (Option.some.inj hRest)).2 (by decide)
  | true =>
      rw [if_pos rfl] at hRest
      obtain ⟨s₂, hPages, hResult⟩ := Option.map_eq_some_iff.1 hRest
      obtain ⟨rfl, _⟩ := Prod.mk.inj hResult
      have hNew := hDone.tables
      obtain ⟨hLevel, hRewrites⟩ := hDone.level.mapPages hRange hPages
      have hInUse₁ := h.tables.extends hDone.level hNew
      have hInside : ∀ k < npages, walk s₂.mem p (first + k) =
          some ⟨frame + k, pgUser ||| pgRw ||| pgPresent⟩ := by
        intro k hk
        rw [hRewrites.walk_page hk, if_pos PageEntry.has_page]
      have hOutside : ∀ v < treePages, ¬ (first ≤ v ∧ v < first + npages) →
          walk s₂.mem p v = walk s.mem p v := by
        intro v hv hOut
        have hAll : v < allPages := hv.trans (by decide)
        rw [hRewrites.walk_other hDone.level hRange hAll fun k hk he => hOut (by omega)]
        apply hNew.walk_other h.tables.level hAll
        intro i _ he
        have hSelf : self 0 = 0xFFC00 := by decide
        omega
      have hGrows : ∀ f, s.frames.Known f → s₂.frames.Known f := by
        intro f hf hLt
        rw [hRewrites.frames]
        exact hNew.taking f (hf hLt)
      have hUnused : ∀ g, s.Unused p g → s.frames.Known g ∨ ¬ s₂.frames.Known g → s₂.Unused p g := by
        intro g hg hKnown
        rw [hRewrites.frames] at hKnown
        obtain ⟨hRoot, hTable⟩ := (hNew.unused_known hg hKnown).1
        refine ⟨hRoot, ?_⟩
        rw [hRewrites.root]
        exact hTable
      have hInUse : s₂.InUse p := by
        refine ⟨hLevel, hRewrites.frames ▸ hInUse₁.root, ?_⟩
        rw [hRewrites.root, hRewrites.frames]
        exact hInUse₁.table
      refine ⟨h.remapped hInUse (fun v hv => hNew.userAccess h hRewrites.root hv) hGrows
        (fun g hg hKnown => hUnused g hg (Or.inl hKnown)) hFrames hInside hOutside, hGrows, hInside, hOutside,
        fun g hg hKnown => hUnused g hg (Or.inl hKnown), ?_⟩
      · intro g hg hKnown
        rw [hRewrites.frames] at hKnown
        obtain ⟨hOld, hApart⟩ := hNew.unused_known hg hKnown
        rw [← hNew.other g hg.root hApart]
        funext j
        apply hRewrites.other
        intro k hk hFrame
        have hTable := table_of_tree (by omega : first + k < treePages)
        exact absurd hFrame (hOld.table _ hTable (hRewrites.table k hk))

/-- What `get_pages` hands out. -/
theorem UserMap.getPages (h : s.UserMap p) {frames : Frames} {npages : Nat}
    (hCall : s.frames.getPages kernelEnd npages = some (frames, addr)) (hAddr : npages ≠ 0 → addr ≠ 0) :
    UserMap { s with frames := frames } p ∧ (∀ f, s.frames.Known f → frames.Known f) ∧
      ∀ k < npages, Taken { s with frames := frames } p (addr >>> pageBits + k) ∧
        ¬ s.frames.Known (addr >>> pageBits + k) := by
  have hTaking : (∀ f, s.frames.Marked f → frames.Marked f) ∧ ∀ k < npages,
      frames.Marked (addr >>> pageBits + k) ∧ ¬ s.frames.Known (addr >>> pageBits + k) := by
    by_cases hZero : npages = 0
    · rw [hZero, Frames.getPages, if_pos rfl] at hCall
      obtain ⟨rfl, _⟩ := Prod.mk.inj (Option.some.inj hCall)
      exact ⟨fun _ hf => hf, fun k hk => by omega⟩
    · obtain ⟨hFree, hMarks, _⟩ := getPages_done hCall (hAddr hZero)
      refine ⟨fun f hf => (hMarks f).2 (Or.inl hf), ?_⟩
      intro k hk
      have hIn : addr >>> pageBits + k ∈ framesOf (addr, npages) :=
        Finset.mem_Ico.2 ⟨Nat.le_add_right _ _, Nat.add_lt_add_left hk _⟩
      obtain ⟨hLt, hNot⟩ := mem_freeFrames.1 (hFree hIn)
      exact ⟨(hMarks _).2 (Or.inr hIn), fun hKnown => hNot (hKnown hLt)⟩
  have hGrows : ∀ f, s.frames.Known f → frames.Known f := fun f hf hLt => hTaking.1 f (hf hLt)
  refine ⟨⟨⟨⟨⟨h.tables.level.rooted.frame, h.tables.level.rooted.present⟩, h.tables.level.root_ne,
    h.tables.level.apart⟩, hGrows _ h.tables.root, fun i hi hi' => hGrows _ (h.tables.table i hi hi')⟩,
    h.access, fun v e hv he => hGrows _ (h.known v e hv he), ?_, h.apart⟩, hGrows, ?_⟩
  · intro v e hv he
    obtain ⟨hUserFlag, hRoot, hTable⟩ := h.page v e hv he
    exact ⟨hUserFlag, hRoot, hTable⟩
  · intro k hk
    obtain ⟨hMarked, hFree⟩ := hTaking.2 k hk
    refine ⟨⟨fun _ => hMarked, ⟨?_, ?_⟩, ?_⟩, hFree⟩
    · rintro hRoot
      exact hFree (hRoot ▸ h.tables.root)
    · intro i hi hThere hSame
      exact hFree (hSame ▸ h.tables.table i hi hThere)
    · intro v e hv he hSame
      exact hFree (hSame ▸ h.known v e hv he)

/-- A frame that is free holds no table. -/
theorem InUse.unused_free (h : s.InUse p) (hf : ¬ s.frames.Known f) : s.Unused p f := by
  refine ⟨fun hRoot => hf (hRoot ▸ h.root), ?_⟩
  intro i hi hThere hSame
  exact hf (hSame ▸ h.table i hi hThere)

/-- Pages have got frames that were free. -/
structure MapsFree (p first n : Nat) (s t : Paging) : Prop where
  map : t.UserMap p
  mapped : ∀ v < treePages, ((walk t.mem p v).isSome ↔ (walk s.mem p v).isSome ∨ first ≤ v ∧ v < first + n)
  noTable : ∀ v < treePages, s.NoTable p v ∨ first ≤ v ∧ v < first + n → t.NoTable p v
  free : ∀ x, s.FreeBytes x → t.FreeBytes x
  inside : ∀ a, first ≤ a >>> pageBits → a >>> pageBits < first + n →
    ∃ b, t.byteAt p a = some b ∧ ∀ x, s.FreeBytes x → b = x
  outside : ∀ a, UserPage (a >>> pageBits) → ¬ (first ≤ a >>> pageBits ∧ a >>> pageBits < first + n) →
    t.byteAt p a = s.byteAt p a

theorem UserMap.mapFree (h : s.UserMap p) {frames : Frames} {viraddr phyaddr npages : Nat}
    (hGet : s.frames.getPages kernelEnd npages = some (frames, phyaddr)) (hAddr : npages ≠ 0 → phyaddr ≠ 0)
    (hRange : viraddr >>> pageBits + npages ≤ treePages)
    (hCall : Paging.pageMap kernelEnd p viraddr phyaddr npages (pgUser ||| pgRw) { s with frames := frames } =
      some (t, 0)) : MapsFree p (viraddr >>> pageBits) npages s t := by
  obtain ⟨hMap, hGrows, hTaken⟩ := h.getPages hGet hAddr
  have hMaps := hMap.pageMap hRange (fun k hk => (hTaken k hk).1) hCall
  generalize viraddr >>> pageBits = first at hMaps ⊢
  refine ⟨hMaps.map, ?_, ?_, ?_, ?_, ?_⟩
  · intro v hv
    by_cases hIn : first ≤ v ∧ v < first + npages
    · obtain ⟨k, rfl⟩ := Nat.exists_eq_add_of_le hIn.1
      rw [hMaps.inside k (by omega)]
      exact iff_of_true rfl (Or.inr hIn)
    · rw [hMaps.outside v hv hIn]
      exact (or_iff_left hIn).symm
  · intro v hv hOr
    refine ⟨hv, ?_⟩
    intro e he
    by_cases hIn : first ≤ v ∧ v < first + npages
    · obtain ⟨k, rfl⟩ := Nat.exists_eq_add_of_le hIn.1
      obtain ⟨hTakenK, _⟩ := hTaken k (by omega)
      rw [hMaps.inside k (by omega)] at he
      obtain rfl := Option.some.inj he
      exact hMaps.unused _ hTakenK.unused hTakenK.known
    · rw [hMaps.outside v hv hIn] at he
      obtain ⟨hRoot, hTable⟩ := (hOr.resolve_right hIn).2 e he
      exact hMaps.unused _ ⟨hRoot, hTable⟩ (hMap.known v e hv he)
  · intro x hx f hf off
    have hFree : ¬ s.frames.Known f := fun hKnown => hf (hMaps.grows f (hGrows f hKnown))
    obtain ⟨hRoot, hTable⟩ := h.tables.unused_free hFree
    rw [byteIn, hMaps.mem f ⟨hRoot, hTable⟩ (Or.inr hf)]
    exact hx f hFree off
  · intro a hFrom hTo
    obtain ⟨k, hk⟩ := Nat.exists_eq_add_of_le hFrom
    obtain ⟨hTakenK, hFree⟩ := hTaken k (by omega)
    rw [byteAt, frameAt, hk, hMaps.inside k (by omega)]
    refine ⟨t.byteIn (phyaddr >>> pageBits + k) (a % pageSize), rfl, ?_⟩
    intro x hx
    rw [byteIn, hMaps.mem _ hTakenK.unused (Or.inl hTakenK.known)]
    exact hx _ hFree _
  · intro a ha hOut
    rw [byteAt, byteAt, frameAt, frameAt, hMaps.outside _ (userPage_tree ha) hOut]
    cases hWalk : walk s.mem p (a >>> pageBits) with
    | none => simp only [Option.map_none]
    | some e =>
        obtain ⟨_, hRoot, hTable⟩ := h.page _ e ha hWalk
        have hKnown := h.known _ e (userPage_tree ha) hWalk
        simp only [Option.map_some, byteIn]
        rw [hMaps.mem e.frame ⟨hRoot, hTable⟩ (Or.inl (hGrows _ hKnown))]

end Paging
end ArtOS

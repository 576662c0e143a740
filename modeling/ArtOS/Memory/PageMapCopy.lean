import Mathlib.Logic.Function.Iterate
import ArtOS.Memory.PageMaps

/-! What `page_map_copy` makes of a page map, as long as the allocator has
enough frames: every table and every frame of user space is replaced by a new
one, and the other entries are taken over. -/
namespace ArtOS

/-- The next `n` calls of `get_pages(1)` all get a frame. -/
inductive Frames.Supply (kernelEnd : Nat) : Nat → Frames → Prop
  | zero (s : Frames) : Supply kernelEnd 0 s
  | next {n : Nat} {s s' : Frames} {addr : Nat} (hCall : s.getPages kernelEnd 1 = some (s', addr))
      (hAddr : addr ≠ 0) (hRest : s'.Supply kernelEnd n) : Supply kernelEnd (n + 1) s

theorem Frames.Supply.mono {kernelEnd m n : Nat} {s : Frames} (h : s.Supply kernelEnd n)
    (hLe : m ≤ n) : s.Supply kernelEnd m := by
  induction h generalizing m with
  | zero s =>
      obtain rfl : m = 0 := by omega
      exact Supply.zero s
  | @next n s s' addr hCall hAddr hRest ih =>
      cases m with
      | zero => exact Supply.zero s
      | succ m => exact Supply.next hCall hAddr (ih (by omega))

theorem Frames.Holding.Sound.supply {used : Finset Nat} {held : List (Nat × Nat)} {s : Frames}
    {kernelEnd n : Nat} (h : Holding.Sound used ⟨s, held⟩) (hSupply : s.Supply kernelEnd (1 + n)) :
    ∃ s' addr, s.getPages kernelEnd 1 = some (s', addr) ∧ addr ≠ 0 ∧ s'.Supply kernelEnd n ∧
      Holding.Sound used ⟨s', held⟩ ∧ Holding.Taking s s' ∧ addr >>> pageBits ≠ 0 ∧
      ¬ s.Marked (addr >>> pageBits) ∧ Holding.Owned ⟨s', held⟩ (addr >>> pageBits) := by
  rw [Nat.add_comm] at hSupply
  cases hSupply with
  | @next _ _ s' addr hCall hAddr hRest =>
      obtain ⟨s₁, addr₁, hCall₁, hPool, hTaking, hNew⟩ := h.take kernelEnd
      obtain ⟨rfl, rfl⟩ := Prod.mk.inj (Option.some.inj (hCall.symm.trans hCall₁))
      exact ⟨s', addr, hCall, hAddr, hRest, hPool, hTaking, hNew hAddr⟩

namespace PageEntry

variable {e : PageEntry}

/-- Present, and accessible from user space. -/
def IsUser (e : PageEntry) : Prop := e.Has pgPresent ∧ e.Has pgUser

instance (e : PageEntry) : Decidable e.IsUser := inferInstanceAs (Decidable (_ ∧ _))

/-- The flags of a self-reference. -/
theorem has_reference {f : Nat} :
    Has ⟨f, pgPresent ||| pgSelf ||| pgRw⟩ pgPresent ∧
      ¬ Has ⟨f, pgPresent ||| pgSelf ||| pgRw⟩ pgUser ∧
      Has ⟨f, pgPresent ||| pgSelf ||| pgRw⟩ pgSelf := by
  show (pgPresent ||| pgSelf ||| pgRw) &&& pgPresent ≠ 0 ∧
    ¬ ((pgPresent ||| pgSelf ||| pgRw) &&& pgUser ≠ 0) ∧
    (pgPresent ||| pgSelf ||| pgRw) &&& pgSelf ≠ 0
  decide

/-- The flags of the entry for `PAGE_TMP`. -/
theorem has_tmp (h : e.flags = pgRw ||| pgPresent) : e.Has pgPresent ∧ ¬ e.Has pgUser := by
  rw [Has, Has, h]
  decide

end PageEntry

namespace Paging

open Frames

/-- A purpose of a frame: the root table, a page table, or a page of user space. -/
inductive Slot
  | root
  | table (i : Nat)
  | page (i j : Nat)

/-- The map `p` uses the frame `f` for this purpose. -/
def Uses (mem : Nat → Nat → PageEntry) (p : Nat) : Slot → Nat → Prop
  | .root, f => f = p
  | .table i, f => (i < pageMapEntries - 2 ∧ (mem p i).Has pgPresent) ∧ (mem p i).frame = f
  | .page i j, f => (i < pageMapEntries - 2 ∧ (mem p i).Has pgPresent) ∧ j < pageMapEntries ∧
      (mem (mem p i).frame j).IsUser ∧ (mem (mem p i).frame j).frame = f

/-- The slots that a walk over the map has passed when it comes to this entry. -/
def Slot.Before (i j : Nat) : Slot → Prop
  | .root => False
  | .table k => k < i
  | .page k l => k < i ∨ k = i ∧ l < j

/-- How many of the next `left` entries are copied. -/
def userCount (words : Nat → PageEntry) : Nat → Nat → Nat
  | 0, _ => 0
  | left + 1, j => (if (words j).IsUser then 1 else 0) + userCount words left (j + 1)

/-- How many frames the copy of the next `left` tables takes. -/
def tableCount (s : Paging) (p : Nat) : Nat → Nat → Nat
  | 0, _ => 0
  | left + 1, i =>
      (if (s.mem p i).IsUser then 1 + userCount (s.mem (s.mem p i).frame) pageMapEntries 0 else 0) +
        tableCount s p left (i + 1)

/-- How many frames `create_task` takes for a copy of this page map. -/
def copyCount (s : Paging) (p : Nat) : Nat := 1 + s.tableCount p pageMapEntries 0

/-- The word of a new table that is made from the word `e` of an old one. -/
inductive Image (r : Holding) (e : PageEntry) : PageEntry → Prop
  | dropped (h : ¬ e.Has pgPresent ∨ ¬ e.Has pgUser ∧ e.Has pgSelf) : Image r e PageEntry.zero
  | shared (hPresent : e.Has pgPresent) (hUser : ¬ e.Has pgUser) (hSelf : ¬ e.Has pgSelf) :
      Image r e e
  | fresh {f : Nat} (h : e.IsUser) (hOwned : r.Owned f) : Image r e ⟨f, e.flags⟩

variable {used : Finset Nat} {held : List (Nat × Nat)} {b s s' : Paging} {roots : Set Nat}
  {p d f g i j : Nat} {e : PageEntry} {words : Nat → PageEntry} {kernelEnd : Nat}
  {Leaf : Holding → PageEntry → Prop}

/-- Some page of this map is accessible from user space. -/
def UserLeaf (s : Paging) (p : Nat) : Prop :=
  ∃ i < pageMapEntries - 2, (s.mem p i).Has pgPresent ∧
    ∃ j < pageMapEntries, (s.mem (s.mem p i).frame j).IsUser

/-- The only word of an old page table that a copy changes: it maps `PAGE_TMP`. -/
structure Shifted (b : Paging) (p f j : Nat) (e : PageEntry) : Prop where
  leaf : b.UserLeaf p
  table : f = (b.mem p 0).frame
  index : j = pageTmp >>> pageBits
  flags : e.flags = pgRw ||| pgPresent

/-- `PAGE_TMP` is no page of user space. -/
def TmpKernel (b : Paging) (p : Nat) : Prop :=
  ¬ (b.mem (b.mem p 0).frame (pageTmp >>> pageBits)).IsUser

/-- The state in the course of a copy of the map `p` to `d`, seen from its start `b`. -/
structure Copying (used : Finset Nat) (held : List (Nat × Nat)) (b s : Paging) (p d : Nat) : Prop where
  pool : Holding.Sound used ⟨s.frames, held⟩
  taking : Holding.Taking b.frames s.frames
  dest : Holding.Owned ⟨s.frames, held⟩ d
  opened : s.mem p (pageMapEntries - 2) = ⟨d, pgPresent ||| pgSelf ||| pgRw⟩
  old : ∀ f, b.frames.Marked f → ∀ j, (f = p → j ≠ pageMapEntries - 2) →
    s.mem f j = b.mem f j ∨ b.Shifted p f j (s.mem f j)

/-- A frame that the copy has taken. -/
structure Fresh (held : List (Nat × Nat)) (b s : Paging) (d f : Nat) : Prop where
  ne_zero : f ≠ 0
  free : ¬ b.frames.Marked f
  ne_dest : f ≠ d
  owned : Holding.Owned ⟨s.frames, held⟩ f

/-- The first `n` words of the table `f` are copied from the table `t`. -/
def TableCopied (held : List (Nat × Nat)) (b s : Paging) (p t f n : Nat) : Prop :=
  ∀ j < n, ∃ e, (e = b.mem t j ∨ b.Shifted p t j e) ∧ Image ⟨s.frames, held⟩ e (s.mem f j)

/-- The first `n` tables of the map `p` are copied to `d`. -/
def RootCopied (held : List (Nat × Nat)) (b s : Paging) (p d n : Nat) : Prop :=
  ∀ i < n, i < pageMapEntries - 2 →
    (¬ (b.mem p i).Has pgPresent → ¬ (s.mem d i).Has pgPresent) ∧
    ((b.mem p i).Has pgPresent → (s.mem d i).flags = (b.mem p i).flags ∧
      Fresh held b s d (s.mem d i).frame ∧
      TableCopied held b s p (b.mem p i).frame (s.mem d i).frame pageMapEntries)

/-- Between the two states only the words of `f` and of the table for `PAGE_TMP` change among the
frames that were in use. -/
structure Within (b s s' : Paging) (p f : Nat) : Prop where
  taking : Holding.Taking s.frames s'.frames
  mem : ∀ g, s.frames.Marked g → g ≠ f → g ≠ (b.mem p 0).frame → s'.mem g = s.mem g

theorem Within.trans {s₁ : Paging} (h : b.Within s s₁ p f) (h' : b.Within s₁ s' p f) :
    b.Within s s' p f :=
  ⟨fun g hg => h'.taking g (h.taking g hg), fun g hg hf hTable =>
    (h'.mem g (h.taking g hg) hf hTable).trans (h.mem g hg hf hTable)⟩

theorem Image.grow {r r' : Holding} {e' : PageEntry} (h : Image r e e') (hGrows : Holding.Grows r r') :
    Image r' e e' := by
  cases h with
  | dropped h => exact Image.dropped h
  | shared hPresent hUser hSelf => exact Image.shared hPresent hUser hSelf
  | fresh h hOwned => exact Image.fresh h (hGrows _ hOwned)

theorem uses_unique {mem : Nat → Nat → PageEntry} {x : Slot} (h : Uses mem p x f)
    (h' : Uses mem p x g) : f = g := by
  cases x with
  | root => exact Eq.trans h (Eq.symm h')
  | table i => exact h.2.symm.trans h'.2
  | page i j => exact h.2.2.2.symm.trans h'.2.2.2

/-- The user pages of a table that is copied have new frames, each its own. -/
def NewWords (m : Frames) (words : Nat → PageEntry) (n : Nat) : Prop :=
  ∀ j < n, (words j).IsUser →
    ¬ m.Marked (words j).frame ∧ ∀ k < j, (words k).IsUser → (words k).frame ≠ (words j).frame

/-- The first `n` tables of a map that is copied, and their pages, have new frames, each its own. -/
structure NewSlots (m : Frames) (s : Paging) (d n : Nat) : Prop where
  free : ∀ x f, x.Before n 0 → Uses s.mem d x f → ¬ m.Marked f
  unique : ∀ x y f, x.Before n 0 → y.Before n 0 → Uses s.mem d x f → Uses s.mem d y f → x = y

theorem NewWords.ne {m : Frames} {n k : Nat} (h : NewWords m words n) (hj : j < n) (hk : k < n)
    (hUser : (words j).IsUser) (hUser' : (words k).IsUser) (hSame : (words j).frame = (words k).frame) :
    j = k := by
  rcases Nat.lt_trichotomy j k with hLess | he | hLess
  · exact absurd hSame ((h k hk hUser').2 j hLess hUser)
  · exact he
  · exact absurd hSame.symm ((h j hj hUser).2 k hLess hUser')

/-- A word without a table joins them. -/
theorem NewSlots.skip {m : Frames} {n : Nat} (h : NewSlots m s d n)
    (hOld : ∀ x g, x.Before n 0 → Uses s'.mem d x g → Uses s.mem d x g)
    (hNone : ¬ (n < pageMapEntries - 2 ∧ (s'.mem d n).Has pgPresent)) : NewSlots m s' d (n + 1) := by
  have hBefore : ∀ x g, x.Before (n + 1) 0 → Uses s'.mem d x g → x.Before n 0 := by
    intro x g hx hUses
    cases x with
    | root => exact hx
    | table k => exact Nat.lt_of_le_of_ne (Nat.le_of_lt_succ hx) fun he => hNone (he ▸ hUses.1)
    | page k l =>
        refine Or.inl (Nat.lt_of_le_of_ne ?_ fun he => hNone (he ▸ hUses.1))
        rcases hx with hLess | ⟨_, hLess⟩
        · exact Nat.le_of_lt_succ hLess
        · exact absurd hLess (Nat.not_lt_zero l)
  constructor
  · intro x f hx hUses
    have hx' := hBefore x f hx hUses
    exact h.free x f hx' (hOld x f hx' hUses)
  · intro x y f hx hy hUses hUses'
    have hx' := hBefore x f hx hUses
    have hy' := hBefore y f hy hUses'
    exact h.unique x y f hx' hy' (hOld x f hx' hUses) (hOld y f hy' hUses')

/-- A new table joins them, with its pages. -/
theorem NewSlots.extend {m frames : Frames} {n : Nat} (h : NewSlots m s d n)
    (hBefore : Holding.Taking m s.frames) (hTaking : Holding.Taking s.frames frames)
    (hOld : ∀ x g, x.Before n 0 → Uses s'.mem d x g → Uses s.mem d x g)
    (hMarked : ∀ x g, x.Before n 0 → Uses s.mem d x g → s.frames.Marked g)
    (hDir : (s'.mem d n).frame = f) (hFree : ¬ s.frames.Marked f) (hf : frames.Marked f)
    (hWords : NewWords frames (s'.mem f) pageMapEntries) : NewSlots m s' d (n + 1) := by
  have hCases : ∀ x g, x.Before (n + 1) 0 → Uses s'.mem d x g →
      x.Before n 0 ∨ x = .table n ∧ g = f ∨ ∃ j < pageMapEntries, x = .page n j ∧
        (s'.mem f j).IsUser ∧ (s'.mem f j).frame = g := by
    intro x g hx hUses
    cases x with
    | root => exact Or.inl hx
    | table k =>
        rcases Nat.lt_succ_iff_lt_or_eq.mp hx with hLess | rfl
        · exact Or.inl hLess
        · exact Or.inr (Or.inl ⟨rfl, hUses.2.symm.trans hDir⟩)
    | page k l =>
        have hLess : k < n + 1 := hx.resolve_right fun hBoth => absurd hBoth.2 (Nat.not_lt_zero l)
        rcases Nat.lt_succ_iff_lt_or_eq.mp hLess with hLess | rfl
        · exact Or.inl (Or.inl hLess)
        · obtain ⟨_, hl, hWord⟩ := hUses
          rw [hDir] at hWord
          exact Or.inr (Or.inr ⟨l, hl, rfl, hWord⟩)
  have hSeen : ∀ x g, x.Before n 0 → Uses s'.mem d x g → s.frames.Marked g := fun x g hx hUses =>
    hMarked x g hx (hOld x g hx hUses)
  constructor
  · intro x g hx hUses
    rcases hCases x g hx hUses with hx' | ⟨_, rfl⟩ | ⟨j, hj, _, hUser, rfl⟩
    · exact h.free x g hx' (hOld x g hx' hUses)
    · exact fun hg => hFree (hBefore _ hg)
    · exact fun hg => (hWords j hj hUser).1 (hTaking _ (hBefore _ hg))
  · intro x y g hx hy hUses hUses'
    rcases hCases x g hx hUses with hx' | ⟨rfl, hgf⟩ | ⟨j, hj, rfl, hUser, hgj⟩
    · rcases hCases y g hy hUses' with hy' | ⟨_, hgf⟩ | ⟨k, hk, _, hUser', hgk⟩
      · exact h.unique x y g hx' hy' (hOld x g hx' hUses) (hOld y g hy' hUses')
      · exact absurd (hSeen x g hx' hUses) (hgf ▸ hFree)
      · exact absurd (hTaking g (hSeen x g hx' hUses)) (hgk ▸ (hWords k hk hUser').1)
    · rcases hCases y g hy hUses' with hy' | ⟨rfl, _⟩ | ⟨k, hk, _, hUser', hgk⟩
      · exact absurd (hSeen y g hy' hUses') (hgf ▸ hFree)
      · rfl
      · exact absurd (hgf ▸ hf : frames.Marked g) (hgk ▸ (hWords k hk hUser').1)
    · rcases hCases y g hy hUses' with hy' | ⟨_, hgf⟩ | ⟨k, hk, rfl, hUser', hgk⟩
      · exact absurd (hTaking g (hSeen y g hy' hUses')) (hgj ▸ (hWords j hj hUser).1)
      · exact absurd (hgf ▸ hf : frames.Marked g) (hgj ▸ (hWords j hj hUser).1)
      · rw [hWords.ne hj hk hUser hUser' (hgj.trans hgk.symm)]

theorem Image.owned {r : Holding} {e' : PageEntry} (h : Image r e e') (hUser : e'.IsUser) :
    r.Owned e'.frame := by
  cases h with
  | dropped => exact absurd hUser.1 PageEntry.not_has_zero
  | shared _ hNot => exact absurd hUser.2 hNot
  | fresh _ hOwned => exact hOwned

theorem TableCopied.keep {t n : Nat} (h : TableCopied held b s p t f n)
    (hTaking : Holding.Taking s.frames s'.frames) (hMem : s'.mem f = s.mem f) :
    TableCopied held b s' p t f n := by
  intro j hj
  obtain ⟨e, he, hImage⟩ := h j hj
  rw [hMem]
  exact ⟨e, he, hImage.grow hTaking.grows⟩

theorem Fresh.keep (h : Fresh held b s d f) (hTaking : Holding.Taking s.frames s'.frames) :
    Fresh held b s' d f :=
  ⟨h.ne_zero, h.free, h.ne_dest, hTaking.grows f h.owned⟩

/-- Tables that are copied stay as they are while another table is made. -/
theorem RootCopied.keep {n : Nat} (h : RootCopied held b s p d n)
    (hTaking : Holding.Taking s.frames s'.frames)
    (hDest : ∀ k < n, k < pageMapEntries - 2 → s'.mem d k = s.mem d k)
    (hMem : ∀ g, Fresh held b s d g → s'.mem g = s.mem g) : RootCopied held b s' p d n := by
  intro i hi hLow
  obtain ⟨hAbsent, hThere⟩ := h i hi hLow
  rw [hDest i hi hLow]
  refine ⟨hAbsent, fun hPresent => ?_⟩
  obtain ⟨hFlags, hFresh, hTable⟩ := hThere hPresent
  exact ⟨hFlags, hFresh.keep hTaking, hTable.keep hTaking (hMem _ hFresh)⟩

theorem frameAt_other (hFrame : s.mem p (pageMapEntries - 2) = ⟨d, pgPresent ||| pgSelf ||| pgRw⟩)
    (hi : i < pageMapEntries) (hPresent : (s.mem d i).Has pgPresent) :
    s.frameAt p (other 0 + i) = some (s.mem d i).frame := by
  have hDir : (s.mem p (pageMapEntries - 2)).Has pgPresent := by
    rw [hFrame]
    exact PageEntry.has_reference.1
  have hEntry : (s.mem (s.mem p (pageMapEntries - 2)).frame i).Has pgPresent := by
    rw [hFrame]
    exact hPresent
  have hWalk := frameAt_eq hDir hi hEntry
  rw [hFrame] at hWalk
  exact hWalk

theorem Rooted.frameAt_other_dir (h : s.Rooted p)
    (hFrame : s.mem p (pageMapEntries - 2) = ⟨d, pgPresent ||| pgSelf ||| pgRw⟩) :
    s.frameAt p (other 1) = some d := by
  have hDir : (s.mem p (pageMapEntries - 2)).Has pgPresent := by
    rw [hFrame]
    exact PageEntry.has_reference.1
  have hWalk := h.frameAt_self (by decide : pageMapEntries - 2 < pageMapEntries) hDir
  rw [hFrame] at hWalk
  exact hWalk

section Copy

variable (hBase : b.Maps Leaf used held roots) (hp : p ∈ roots)
include hBase hp

theorem Copying.root_word (h : Copying used held b s p d) (hj : j ≠ pageMapEntries - 2) :
    s.mem p j = b.mem p j := by
  rcases h.old p (hBase.root p hp).owned.marked j (fun _ => hj) with hSame | hShifted
  · exact hSame
  · have hLow := hBase.table p hp 0 (by decide) (hBase.root p hp).low
    exact absurd hp (hShifted.table ▸ hLow.2.1)

theorem Copying.rooted (h : Copying used held b s p d) : s.Rooted p := by
  have hLast := h.root_word hBase hp (by decide : pageMapEntries - 1 ≠ pageMapEntries - 2)
  obtain ⟨hFrame, hPresent⟩ := (hBase.root p hp).rooted
  exact ⟨hLast ▸ hFrame, hLast ▸ hPresent⟩

/-- A word of an old table as the copy finds it. -/
theorem Copying.table_word (h : Copying used held b s p d) (hi : i < pageMapEntries - 2)
    (hPresent : (b.mem p i).Has pgPresent) (j : Nat) :
    s.mem (b.mem p i).frame j = b.mem (b.mem p i).frame j ∨
      b.Shifted p (b.mem p i).frame j (s.mem (b.mem p i).frame j) := by
  obtain ⟨_, hApart, hTable⟩ := hBase.table p hp i hi hPresent
  exact h.old _ hTable.owned.marked j fun he => absurd hp (he ▸ hApart)

/-- A frame that was not in use at the start may change. -/
theorem Copying.keep (h : Copying used held b s p d)
    (hPool : Holding.Sound used ⟨s'.frames, held⟩) (hTaking : Holding.Taking s.frames s'.frames)
    (hMem : ∀ f, b.frames.Marked f → s'.mem f = s.mem f) : Copying used held b s' p d := by
  refine ⟨hPool, fun g hg => hTaking g (h.taking g hg), hTaking.grows d h.dest, ?_, ?_⟩
  · rw [hMem p (hBase.root p hp).owned.marked]
    exact h.opened
  · intro f hf j hj
    rw [hMem f hf]
    exact h.old f hf j hj

/-- The entry for `PAGE_TMP` changes in the course of a copy of a user page. -/
theorem Copying.shift (h : Copying used held b s p d) (hLeaf : b.UserLeaf p)
    (he : e.flags = pgRw ||| pgPresent) :
    Copying used held b (s.write (b.mem p 0).frame (pageTmp >>> pageBits) e) p d := by
  obtain ⟨_, hApart, _⟩ := hBase.table p hp 0 (by decide) (hBase.root p hp).low
  refine ⟨h.pool, h.taking, h.dest, ?_, fun f hf j hj => ?_⟩
  · rw [mem_write_of_frame (ne_of_mem_of_not_mem hp hApart)]
    exact h.opened
  · by_cases hIndex : j = pageTmp >>> pageBits
    · by_cases hFrame : f = (b.mem p 0).frame
      · rw [hFrame, hIndex, mem_write]
        exact Or.inr ⟨hLeaf, rfl, rfl, he⟩
      · rw [mem_write_of_frame hFrame]
        exact h.old f hf j hj
    · rw [mem_write_of_index hIndex]
      exact h.old f hf j hj

end Copy

/-- The state in which `PAGE_TMP` is mapped to a frame. -/
def mapTmp (s : Paging) (p phyaddr : Nat) : Paging :=
  s.write (s.mem p 0).frame (pageTmp >>> pageBits) ⟨phyaddr >>> pageBits, pgRw ||| pgPresent⟩

/-- `page_map` of one page whose table is there. -/
theorem Rooted.pageMap_one (h : s.Rooted p) {viraddr : Nat} (phyaddr : Nat) (bits : BitVec 12)
    (hLow : viraddr >>> pageBits < lowPages)
    (hTable : (s.mem p (viraddr >>> pageBits / pageMapEntries)).Has pgPresent) :
    s.pageMap kernelEnd p viraddr phyaddr 1 bits =
      some (s.write (s.mem p (viraddr >>> pageBits / pageMapEntries)).frame
        (viraddr >>> pageBits % pageMapEntries) ⟨phyaddr >>> pageBits, bits ||| pgPresent⟩, 0) := by
  rw [pageMap]
  dsimp only
  generalize viraddr >>> pageBits = vpn at hLow hTable ⊢
  have hDir := table_of_low hLow
  have hOne : vpn / pageMapEntries + 1 - vpn / pageMapEntries = 1 := by omega
  rw [Nat.add_sub_cancel, hOne, mapTables, h.entry_dir (by omega), Option.bind_some, if_pos hTable,
    mapTables, Option.bind_some]
  dsimp only
  rw [if_pos rfl, mapPages, h.setEntry_page hLow hTable, Option.bind_some, mapPages, Option.map_some]

theorem Rooted.pageMap_tmp (h : s.Rooted p) (hLow : (s.mem p 0).Has pgPresent) (phyaddr : Nat) :
    s.pageMap kernelEnd p pageTmp phyaddr 1 pgRw = some (s.mapTmp p phyaddr, 0) :=
  h.pageMap_one phyaddr pgRw (by decide) hLow

/-- A page is copied through `PAGE_TMP`. -/
theorem Rooted.copyLeaf (h : s.Rooted p) (hLow : (s.mem p 0).Has pgPresent)
    (hApart : (s.mem p 0).frame ≠ p) (hj : j < pageMapEntries) (hTable : (s.mem p i).Has pgPresent)
    (hPresent : (s.mem (s.mem p i).frame j).Has pgPresent) (phyaddr : Nat) :
    s.copyLeaf kernelEnd p (i <<< pageMapBits + j) phyaddr =
      some ((s.mapTmp p phyaddr).setFrame (phyaddr >>> pageBits)
        ((s.mapTmp p phyaddr).mem ((s.mapTmp p phyaddr).mem (s.mem p i).frame j).frame)) := by
  have hEntry : PageEntry.Has ⟨phyaddr >>> pageBits, pgRw ||| pgPresent⟩ pgPresent :=
    PageEntry.has_page
  have hRoot : (s.mapTmp p phyaddr).mem p = s.mem p := mem_write_of_frame hApart.symm
  have hWalk : walk (s.mapTmp p phyaddr).mem p (pageTmp >>> pageBits) =
      some ⟨phyaddr >>> pageBits, pgRw ||| pgPresent⟩ := by
    have hDir : (pageTmp >>> pageBits) / pageMapEntries = 0 := by decide
    have hIndex : (pageTmp >>> pageBits) % pageMapEntries = pageTmp >>> pageBits := by decide
    rw [walk, hDir, hIndex, hRoot, mapTmp, mem_write, if_pos ⟨hLow, hEntry⟩]
  have hThere : ((s.mapTmp p phyaddr).mem (s.mem p i).frame j).Has pgPresent := by
    by_cases hIndex : j = pageTmp >>> pageBits
    · by_cases hFrame : (s.mem p i).frame = (s.mem p 0).frame
      · rw [mapTmp, hFrame, hIndex, mem_write]
        exact hEntry
      · rw [mapTmp, mem_write_of_frame hFrame]
        exact hPresent
    · rw [mapTmp, mem_write_of_index hIndex]
      exact hPresent
  have hSource : (s.mapTmp p phyaddr).frameAt p (i <<< pageMapBits + j) =
      some ((s.mapTmp p phyaddr).mem (s.mem p i).frame j).frame := by
    rw [← hRoot] at hTable hThere ⊢
    exact frameAt_eq hTable hj hThere
  rw [Paging.copyLeaf, h.pageMap_tmp hLow, Option.bind_some]
  dsimp only
  rw [copyPage, frameAt, hWalk, Option.map_some, Option.bind_some, hSource, Option.map_some]

theorem setEntry_other (hFrame : s.mem p (pageMapEntries - 2) = ⟨d, pgPresent ||| pgSelf ||| pgRw⟩)
    (hi : i < pageMapEntries) (hj : j < pageMapEntries) (hPresent : (s.mem d i).Has pgPresent) :
    s.setEntry p (other 0) (i <<< pageMapBits + j) e = some (s.write (s.mem d i).frame j e) := by
  obtain ⟨hDiv, hMod⟩ := table_index (i := i) hj
  rw [setEntry, hDiv, frameAt_other hFrame hi hPresent, hMod, Option.map_some]

theorem Rooted.setEntry_other_dir (h : s.Rooted p)
    (hFrame : s.mem p (pageMapEntries - 2) = ⟨d, pgPresent ||| pgSelf ||| pgRw⟩)
    (hi : i < pageMapEntries) : s.setEntry p (other 1) i e = some (s.write d i e) := by
  rw [setEntry, Nat.div_eq_of_lt hi, Nat.add_zero, h.frameAt_other_dir hFrame, Nat.mod_eq_of_lt hi,
    Option.map_some]

section Rounds

variable (hBase : b.Maps Leaf used held roots) (hp : p ∈ roots)
include hBase hp

/-- What a round of the copy of a page table leaves behind. -/
structure LeafRound (used : Finset Nat) (held : List (Nat × Nat)) (b s s' : Paging) (p d i j : Nat) :
    Prop where
  copying : Copying used held b s' p d
  within : b.Within s s' p (s.mem d i).frame
  others : ∀ k ≠ j, s'.mem (s.mem d i).frame k = s.mem (s.mem d i).frame k
  image : ∃ e, (e = b.mem (b.mem p i).frame j ∨ b.Shifted p (b.mem p i).frame j e) ∧
    Image ⟨s'.frames, held⟩ e (s'.mem (s.mem d i).frame j)

/-- A word that needs no new frame. -/
theorem Copying.plainLeaf (h : Copying used held b s p d) (hi : i < pageMapEntries - 2)
    (hPresent : (b.mem p i).Has pgPresent) (hFree : ¬ b.frames.Marked (s.mem d i).frame)
    (hImage : Image ⟨s.frames, held⟩ (s.mem (b.mem p i).frame j) e) :
    LeafRound used held b s (s.write (s.mem d i).frame j e) p d i j := by
  refine ⟨h.keep hBase hp h.pool (fun _ hg => hg) fun g hg => mem_write_of_frame ?_,
    ⟨fun _ hg => hg, fun g _ hg _ => mem_write_of_frame hg⟩, fun k hk => mem_write_of_index hk,
    s.mem (b.mem p i).frame j, h.table_word hBase hp hi hPresent j, ?_⟩
  · exact fun he => hFree (he ▸ hg)
  · rw [mem_write]
    exact hImage

/-- A page of user space is replaced by the new frame `g`. -/
theorem Copying.userLeaf (h : Copying used held b s p d) (kernelEnd : Nat) (hi : i < pageMapEntries - 2)
    (hPresent : (b.mem p i).Has pgPresent) (hj : j < pageMapEntries)
    (hFresh : Fresh held b s d (s.mem d i).frame)
    (hUser : (s.mem (b.mem p i).frame j).IsUser) {frames : Frames} (usage : Nat) {addr : Nat}
    (hPool : Holding.Sound used ⟨frames, held⟩) (hTaking : Holding.Taking s.frames frames)
    (hFree : ¬ s.frames.Marked (addr >>> pageBits))
    (hOwned : Holding.Owned ⟨frames, held⟩ (addr >>> pageBits)) :
    ∃ s', Paging.copyLeaf kernelEnd p (i <<< pageMapBits + j) addr
        (write { s with frames := frames, usage := usage } (s.mem d i).frame j
          ⟨addr >>> pageBits, (s.mem (b.mem p i).frame j).flags⟩) = some s' ∧ s'.frames = frames ∧
      s'.usage = usage ∧ LeafRound used held b s s' p d i j ∧
      (s'.mem (s.mem d i).frame j).frame = addr >>> pageBits := by
  have hRootMarked := (hBase.root p hp).owned.marked
  obtain ⟨_, hApart, hTable⟩ := hBase.table p hp i hi hPresent
  obtain ⟨_, hApart₀, hTable₀⟩ := hBase.table p hp 0 (by decide) (hBase.root p hp).low
  have hWord : s.mem (b.mem p i).frame j = b.mem (b.mem p i).frame j := by
    rcases h.table_word hBase hp hi hPresent j with hSame | hShifted
    · exact hSame
    · exact absurd hUser.2 (PageEntry.has_tmp hShifted.flags).2
  generalize hf : (s.mem d i).frame = f at *
  generalize hg : addr >>> pageBits = g at *
  have hOld : ∀ q, b.frames.Marked q → q ≠ f := fun q hq he => hFresh.free (he ▸ hq)
  have hUsed : ∀ q, s.frames.Marked q → q ≠ g := fun q hq he => hFree (he ▸ hq)
  have h₁ : Copying used held b { s with frames := frames, usage := usage } p d :=
    h.keep hBase hp hPool hTaking fun _ _ => rfl
  generalize hs₂ : write { s with frames := frames, usage := usage } f j
    ⟨g, (s.mem (b.mem p i).frame j).flags⟩ = s₂
  have hMem₂ : ∀ q ≠ f, s₂.mem q = s.mem q := by
    intro q hq
    rw [← hs₂, mem_write_of_frame hq]
  have hFrames₂ : s₂.frames = frames := by rw [← hs₂, write_frames]
  have h₂ : Copying used held b s₂ p d := by
    rw [← hs₂]
    exact h₁.keep hBase hp hPool (fun _ hq => hq) fun q hq => mem_write_of_frame (hOld q hq)
  have hLow := h₂.root_word hBase hp (by decide : 0 ≠ pageMapEntries - 2)
  have hDir := h₂.root_word hBase hp (by omega : i ≠ pageMapEntries - 2)
  have hTmp : s₂.mapTmp p addr =
      s₂.write (b.mem p 0).frame (pageTmp >>> pageBits) ⟨g, pgRw ||| pgPresent⟩ := by
    rw [mapTmp, hLow, hg]
  have h₃ : Copying used held b (s₂.mapTmp p addr) p d := by
    rw [hTmp]
    exact h₂.shift hBase hp ⟨i, hi, hPresent, j, hj, hWord ▸ hUser⟩ rfl
  have hLow' : (s₂.mem p 0).Has pgPresent := by
    rw [hLow]
    exact (hBase.root p hp).low
  have hApart' : (s₂.mem p 0).frame ≠ p := by
    rw [hLow]
    exact fun he => hApart₀ (by rw [he]; exact hp)
  have hThere : (s₂.mem (s₂.mem p i).frame j).Has pgPresent := by
    rw [hDir, hMem₂ _ (hOld _ hTable.owned.marked)]
    exact hUser.1
  obtain ⟨words, hExec⟩ : ∃ words, Paging.copyLeaf kernelEnd p (i <<< pageMapBits + j) addr s₂ =
      some ((s₂.mapTmp p addr).setFrame g words) := by
    rw [← hg]
    exact ⟨_, (h₂.rooted hBase hp).copyLeaf hLow' hApart' hj (hDir ▸ hPresent) hThere addr⟩
  have hMem : ∀ q, s.frames.Marked q → q ≠ (b.mem p 0).frame →
      ((s₂.mapTmp p addr).setFrame g words).mem q = s₂.mem q := by
    intro q hq hTable
    rw [mem_setFrame_of_ne (hUsed q hq), hTmp, mem_write_of_frame hTable]
  have hNew : f ≠ (b.mem p 0).frame := fun he => hFresh.free (he ▸ hTable₀.owned.marked)
  have hMem₂f := hMem f hFresh.owned.marked hNew
  have hUsage₂ : s₂.usage = usage := by rw [← hs₂]; rfl
  refine ⟨_, hExec, hFrames₂, hUsage₂, ⟨?_, ⟨hFrames₂ ▸ hTaking, fun q hq hqf hqt => ?_⟩, fun k hk => ?_, ?_⟩, ?_⟩
  · refine h₃.keep hBase hp h₃.pool (fun _ hq => hq) fun q hq => mem_setFrame_of_ne ?_
    exact fun he => hFree (he ▸ h.taking q hq)
  · rw [hf] at hqf
    rw [hMem q hq hqt, hMem₂ q hqf]
  · rw [hf, hMem₂f, ← hs₂, mem_write_of_index hk]
  · refine ⟨s.mem (b.mem p i).frame j, Or.inl hWord, ?_⟩
    rw [hf, hMem₂f, ← hs₂, mem_write]
    exact Image.fresh hUser hOwned
  · rw [hMem₂f, ← hs₂, mem_write]

/-- One entry of a page table. -/
theorem Copying.leafRound (h : Copying used held b s p d) (hi : i < pageMapEntries - 2)
    (hPresent : (b.mem p i).Has pgPresent) (hj : j < pageMapEntries)
    (hDest : (s.mem d i).Has pgPresent) (hFresh : Fresh held b s d (s.mem d i).frame) {n : Nat}
    (hSupply : s.frames.Supply kernelEnd
      ((if (b.mem (b.mem p i).frame j).IsUser then 1 else 0) + n)) :
    ∃ s', s.copyEntry kernelEnd p 0 (Paging.copyLeaf kernelEnd p) (i <<< pageMapBits + j) =
        some (s', 0) ∧ LeafRound used held b s s' p d i j ∧ s'.frames.Supply kernelEnd n ∧
      ((s'.mem (s.mem d i).frame j).IsUser →
        ¬ s.frames.Marked (s'.mem (s.mem d i).frame j).frame) ∧
      (b.TmpKernel p → s'.usage =
        incr32^[if (b.mem (b.mem p i).frame j).IsUser then 1 else 0] s.usage) := by
  have hSame := h.root_word hBase hp (by omega : i ≠ pageMapEntries - 2)
  have hRead := (h.rooted hBase hp).entry_table (by omega : i < pageMapEntries) hj
    (hSame ▸ hPresent)
  rw [hSame] at hRead
  have hWrite : ∀ e, s.setEntry p (other 0) (i <<< pageMapBits + j) e =
      some (s.write (s.mem d i).frame j e) := fun e =>
    setEntry_other h.opened (by omega) hj hDest
  have hPlain : ∀ e, Image ⟨s.frames, held⟩ (s.mem (b.mem p i).frame j) e →
      LeafRound used held b s (s.write (s.mem d i).frame j e) p d i j := fun e hImage =>
    h.plainLeaf hBase hp hi hPresent hFresh.free hImage
  have hNone : ∀ e : PageEntry, ¬ e.IsUser → (((s.write (s.mem d i).frame j e).mem (s.mem d i).frame j).IsUser →
      ¬ s.frames.Marked ((s.write (s.mem d i).frame j e).mem (s.mem d i).frame j).frame) := by
    intro e he hUser
    rw [mem_write] at hUser
    exact absurd hUser he
  have hIdle : ∀ e, ¬ (s.mem (b.mem p i).frame j).IsUser → b.TmpKernel p →
      (s.write (s.mem d i).frame j e).usage =
        incr32^[if (b.mem (b.mem p i).frame j).IsUser then 1 else 0] s.usage := by
    intro e hNot hTmp
    rw [if_neg fun hUser => ?_]
    · rfl
    · rcases h.table_word hBase hp hi hPresent j with hWord | hShifted
      · exact hNot (hWord ▸ hUser)
      · rw [hShifted.table, hShifted.index] at hUser
        exact hTmp hUser
  have hLeft : s.frames.Supply kernelEnd n := hSupply.mono (Nat.le_add_left _ _)
  rw [copyEntry, hRead, Option.bind_some]
  by_cases hThere : (s.mem (b.mem p i).frame j).Has pgPresent
  · by_cases hUser : (s.mem (b.mem p i).frame j).Has pgUser
    · have hCount : (b.mem (b.mem p i).frame j).IsUser := by
        rcases h.table_word hBase hp hi hPresent j with hWord | hShifted
        · exact hWord ▸ ⟨hThere, hUser⟩
        · exact absurd hUser (PageEntry.has_tmp hShifted.flags).2
      rw [if_pos hCount] at hSupply
      obtain ⟨frames, addr, hCall, hAddr, hRest, hPool, hTaking, _, hFree, hOwned⟩ :=
        h.pool.supply hSupply
      obtain ⟨s', hExec, hFrames, hUsage, hRound, hFrame⟩ := h.userLeaf hBase hp kernelEnd hi
        hPresent hj hFresh ⟨hThere, hUser⟩ (incr32 s.usage) hPool hTaking hFree hOwned
      have hCounted : s'.usage =
          incr32^[if (b.mem (b.mem p i).frame j).IsUser then 1 else 0] s.usage := by
        rw [if_pos hCount]
        exact hUsage
      refine ⟨s', ?_, hRound, hFrames ▸ hRest, fun _ => hFrame ▸ hFree, fun _ => hCounted⟩
      rw [if_pos hThere, if_pos hUser, hCall, Option.bind_some]
      dsimp only
      have hSet := setEntry_other (s := { s with frames := frames, usage := incr32 s.usage })
        (e := ⟨addr >>> pageBits, (s.mem (b.mem p i).frame j).flags⟩) h.opened (by omega) hj hDest
      rw [if_neg hAddr, hSet, Option.bind_some, hExec, Option.map_some]
    · by_cases hSelf : (s.mem (b.mem p i).frame j).Has pgSelf
      · rw [if_pos hThere, if_neg hUser, if_pos hSelf, hWrite, Option.map_some]
        exact ⟨_, rfl, hPlain _ (Image.dropped (Or.inr ⟨hUser, hSelf⟩)), hLeft,
          hNone _ fun hZero => PageEntry.not_has_zero hZero.1, hIdle _ fun hBoth => hUser hBoth.2⟩
      · rw [if_pos hThere, if_neg hUser, if_neg hSelf, hWrite, Option.map_some]
        exact ⟨_, rfl, hPlain _ (Image.shared hThere hUser hSelf), hLeft,
          hNone _ fun hBoth => hUser hBoth.2, hIdle _ fun hBoth => hUser hBoth.2⟩
  · rw [if_neg hThere, hWrite, Option.map_some]
    exact ⟨_, rfl, hPlain _ (Image.dropped (Or.inl hThere)), hLeft,
      hNone _ fun hZero => PageEntry.not_has_zero hZero.1, hIdle _ fun hBoth => hThere hBoth.1⟩

variable (hNew : ¬ b.frames.Marked d)
include hNew

/-- The root of the new map is not touched while a page table is copied. -/
theorem Within.dest (h : b.Within s s' p f) (hCopying : Copying used held b s p d) (hne : d ≠ f) :
    s'.mem d = s.mem d := by
  refine h.mem d hCopying.dest.marked hne fun he => hNew ?_
  rw [he]
  exact (hBase.table p hp 0 (by decide) (hBase.root p hp).low).2.2.owned.marked

/-- A whole page table. -/
theorem Copying.leafLoop (h : Copying used held b s p d) (hi : i < pageMapEntries - 2)
    (hPresent : (b.mem p i).Has pgPresent) (hDest : (s.mem d i).Has pgPresent)
    (hf : (s.mem d i).frame = f) (hFresh : Fresh held b s d f) (left j : Nat)
    (hEnd : j + left = pageMapEntries)
    (hCopied : TableCopied held b s p (b.mem p i).frame f j) {m : Frames}
    (hBefore : Holding.Taking m s.frames) (hWords : NewWords m (s.mem f) j) {n : Nat}
    (hSupply : s.frames.Supply kernelEnd (userCount (b.mem (b.mem p i).frame) left j + n)) :
    ∃ s', copyLoop (copyEntry kernelEnd p 0 (Paging.copyLeaf kernelEnd p)) left
        (i <<< pageMapBits + j) s = some (s', 0) ∧ Copying used held b s' p d ∧
      b.Within s s' p f ∧ TableCopied held b s' p (b.mem p i).frame f pageMapEntries ∧
      NewWords m (s'.mem f) pageMapEntries ∧ s'.frames.Supply kernelEnd n ∧
      (b.TmpKernel p → s'.usage = incr32^[userCount (b.mem (b.mem p i).frame) left j] s.usage) := by
  induction left generalizing s j with
  | zero =>
      obtain rfl : j = pageMapEntries := hEnd
      exact ⟨s, rfl, h, ⟨fun _ hg => hg, fun _ _ _ _ => rfl⟩, hCopied, hWords,
        by simpa [userCount] using hSupply, fun _ => rfl⟩
  | succ left ih =>
      rw [userCount, Nat.add_assoc] at hSupply
      subst hf
      obtain ⟨s₁, hExec, ⟨hCopying, hWithin, hOthers, hImage⟩, hRest, hFree, hUsage⟩ :=
        h.leafRound hBase hp hi hPresent (by omega) hDest hFresh hSupply
      have hRoot := hWithin.dest hBase hp hNew h hFresh.ne_dest.symm
      have hNext : TableCopied held b s₁ p (b.mem p i).frame (s.mem d i).frame (j + 1) := by
        intro k hk
        by_cases hkj : k = j
        · exact hkj ▸ hImage
        · obtain ⟨e, he, hOld⟩ := hCopied k (by omega)
          rw [hOthers k hkj]
          exact ⟨e, he, hOld.grow hWithin.taking.grows⟩
      have hNewWords : NewWords m (s₁.mem (s.mem d i).frame) (j + 1) := by
        intro l hl hUser
        by_cases hlj : l = j
        · subst hlj
          refine ⟨fun hm => hFree hUser (hBefore _ hm), fun k hk hUser' he => hFree hUser ?_⟩
          obtain ⟨_, _, hOld⟩ := hCopied k hk
          rw [hOthers k (by omega)] at hUser' he
          exact he ▸ (hOld.owned hUser').marked
        · rw [hOthers l hlj] at hUser ⊢
          obtain ⟨hNotMarked, hApart⟩ := hWords l (by omega) hUser
          refine ⟨hNotMarked, fun k hk hUser' => ?_⟩
          rw [hOthers k (by omega)] at hUser' ⊢
          exact hApart k hk hUser'
      obtain ⟨s', hExec', hCopying', hWithin', hDone, hNewWords', hLeft, hUsage'⟩ := ih hCopying
        (by rw [hRoot]; exact hDest) (by rw [hRoot]) (hFresh.keep hWithin.taking) (j + 1) (by omega)
        hNext (fun g hg => hWithin.taking g (hBefore g hg)) hNewWords hRest
      refine ⟨s', ?_, hCopying', hWithin.trans hWithin', hDone, hNewWords', hLeft, fun hTmp => ?_⟩
      · rw [copyLoop, hExec, Option.bind_some]
        exact hExec'
      · rw [hUsage' hTmp, hUsage hTmp, ← Function.iterate_add_apply, Nat.add_comm (userCount ..),
          userCount]

/-- The first `n` words of the new root are in place. -/
structure RootRounds (used : Finset Nat) (held : List (Nat × Nat)) (b s : Paging) (p d n : Nat) :
    Prop where
  copying : Copying used held b s p d
  copied : RootCopied held b s p d n
  closed : pageMapEntries - 2 < n → ¬ (s.mem d (pageMapEntries - 2)).Has pgPresent

omit hBase hp hNew in
/-- The slots that are done refer to frames in use. -/
theorem RootRounds.marked (h : RootRounds used held b s p d i) {x : Slot} (hx : x.Before i 0)
    (hUses : Uses s.mem d x g) : s.frames.Marked g := by
  have hTable : ∀ k < i, k < pageMapEntries - 2 → (s.mem d k).Has pgPresent →
      Fresh held b s d (s.mem d k).frame ∧
        TableCopied held b s p (b.mem p k).frame (s.mem d k).frame pageMapEntries := by
    intro k hk hLow hThere
    obtain ⟨hAbsent, hCopied⟩ := h.copied k hk hLow
    by_cases hOld : (b.mem p k).Has pgPresent
    · exact (hCopied hOld).2
    · exact absurd hThere (hAbsent hOld)
  cases x with
  | root => exact hx.elim
  | table k =>
      obtain ⟨⟨hLow, hThere⟩, rfl⟩ := hUses
      exact (hTable k hx hLow hThere).1.owned.marked
  | page k l =>
      obtain ⟨⟨hLow, hThere⟩, hl, hUser, rfl⟩ := hUses
      have hk : k < i := hx.resolve_right fun hBoth => absurd hBoth.2 (Nat.not_lt_zero l)
      obtain ⟨_, _, hImage⟩ := (hTable k hk hLow hThere).2 l hl
      exact (hImage.owned hUser).marked

omit hBase hp hNew in
/-- Slots that are done stay as they are. -/
theorem RootRounds.old_uses (h : RootRounds used held b s p d i)
    (hDest : ∀ k < i, k < pageMapEntries - 2 → s'.mem d k = s.mem d k)
    (hMem : ∀ g, Fresh held b s d g → s'.mem g = s.mem g) {x : Slot} (hx : x.Before i 0)
    (hUses : Uses s'.mem d x g) : Uses s.mem d x g := by
  cases x with
  | root => exact hx.elim
  | table k =>
      have hSame := hDest k hx hUses.1.1
      rwa [Uses, hSame] at hUses
  | page k l =>
      have hk : k < i := hx.resolve_right fun hBoth => absurd hBoth.2 (Nat.not_lt_zero l)
      obtain ⟨⟨hLow, hThere⟩, hRest⟩ := hUses
      rw [hDest k hk hLow] at hThere hRest
      obtain ⟨hAbsent, hCopied⟩ := h.copied k hk hLow
      by_cases hOld : (b.mem p k).Has pgPresent
      · rw [hMem _ (hCopied hOld).2.1] at hRest
        exact ⟨⟨hLow, hThere⟩, hRest⟩
      · exact absurd hThere (hAbsent hOld)

/-- A word of the root that needs no new table. -/
theorem RootRounds.plain (h : RootRounds used held b s p d i)
    (hAbsent : i < pageMapEntries - 2 → ¬ (b.mem p i).Has pgPresent ∧ ¬ e.Has pgPresent)
    (hClosed : i = pageMapEntries - 2 → ¬ e.Has pgPresent) {m : Frames} (hSlots : NewSlots m s d i) :
    RootRounds used held b (s.write d i e) p d (i + 1) ∧ NewSlots m (s.write d i e) d (i + 1) := by
  have hSkip : NewSlots m (s.write d i e) d (i + 1) := by
    refine hSlots.skip (fun x g hx => h.old_uses (fun k hk _ => mem_write_of_index (by omega))
      (fun g hg => mem_write_of_frame hg.ne_dest) hx) fun hBoth => ?_
    rw [mem_write] at hBoth
    exact (hAbsent hBoth.1).2 hBoth.2
  refine ⟨?_, hSkip⟩
  obtain ⟨hCopying, hCopied, hBefore⟩ := h
  have hKeep : RootCopied held b (s.write d i e) p d i :=
    hCopied.keep (fun _ hg => hg) (fun k hk _ => mem_write_of_index (by omega))
      fun g hg => mem_write_of_frame hg.ne_dest
  refine ⟨hCopying.keep hBase hp hCopying.pool (fun _ hg => hg) fun g hg =>
    mem_write_of_frame fun he => hNew (he ▸ hg), fun k hk hLow => ?_, fun hDone => ?_⟩
  · by_cases hki : k = i
    · subst hki
      obtain ⟨hOld, hNone⟩ := hAbsent hLow
      rw [mem_write]
      exact ⟨fun _ => hNone, fun hThere => absurd hThere hOld⟩
    · exact hKeep k (by omega) hLow
  · by_cases hi : i = pageMapEntries - 2
    · rw [← hi, mem_write]
      exact hClosed hi
    · rw [mem_write_of_index fun he => hi he.symm]
      exact hBefore (by omega)

/-- A page table is replaced by the new frame `f` and copied. -/
theorem RootRounds.table (h : RootRounds used held b s p d i) (usage : Nat)
    (hi : i < pageMapEntries - 2) (hPresent : (b.mem p i).Has pgPresent) {frames : Frames} {n : Nat}
    (hPool : Holding.Sound used ⟨frames, held⟩) (hTaking : Holding.Taking s.frames frames)
    (hZero : f ≠ 0) (hFree : ¬ s.frames.Marked f) (hOwned : Holding.Owned ⟨frames, held⟩ f)
    {m : Frames} (hBefore : Holding.Taking m s.frames) (hSlots : NewSlots m s d i)
    (hSupply : frames.Supply kernelEnd
      (userCount (b.mem (b.mem p i).frame) pageMapEntries 0 + n)) :
    ∃ s', copyTraverse kernelEnd p 0 (i <<< pageMapBits)
        (write { s with frames := frames, usage := usage } d i ⟨f, (b.mem p i).flags⟩) =
          some (s', 0) ∧ RootRounds used held b s' p d (i + 1) ∧ Holding.Taking s.frames s'.frames ∧
      NewSlots m s' d (i + 1) ∧ s'.frames.Supply kernelEnd n ∧
      (b.TmpKernel p → s'.usage =
        incr32^[userCount (b.mem (b.mem p i).frame) pageMapEntries 0] usage) := by
  have hRounds := h
  obtain ⟨hCopying, hCopied, _⟩ := h
  generalize hs₁ : write { s with frames := frames, usage := usage } d i ⟨f, (b.mem p i).flags⟩ = s₁
  have hFrames₁ : s₁.frames = frames := by rw [← hs₁, write_frames]
  have hUsage₁ : s₁.usage = usage := by rw [← hs₁]; rfl
  have hMem₁ : ∀ g ≠ d, s₁.mem g = s.mem g := fun g hg => by
    rw [← hs₁, mem_write_of_frame hg]
  have hEntry₁ : s₁.mem d i = ⟨f, (b.mem p i).flags⟩ := by rw [← hs₁, mem_write]
  have hCopying₁ : Copying used held b s₁ p d :=
    hCopying.keep hBase hp (hFrames₁ ▸ hPool) (hFrames₁ ▸ hTaking) fun g hg =>
      hMem₁ g fun he => hNew (he ▸ hg)
  have hFresh : Fresh held b s₁ d f :=
    ⟨hZero, fun hf => hFree (hCopying.taking f hf), fun he => hFree (he ▸ hCopying.dest.marked),
      hFrames₁ ▸ hOwned⟩
  have hThere : (s₁.mem d i).Has pgPresent := by
    rw [hEntry₁]
    exact hPresent
  obtain ⟨s', hExec, hCopying', hWithin, hTable, hWords, hLeft, hUsage⟩ :=
    hCopying₁.leafLoop hBase hp hNew hi hPresent hThere (by rw [hEntry₁]) hFresh pageMapEntries 0
      (Nat.zero_add _) (fun j hj => by omega) (m := frames) (by rw [hFrames₁]; exact fun _ hg => hg)
      (fun j hj => by omega) (hFrames₁ ▸ hSupply)
  have hDest := hWithin.dest hBase hp hNew hCopying₁ hFresh.ne_dest.symm
  have hTaking' : Holding.Taking s.frames s'.frames := fun g hg =>
    hWithin.taking g (hFrames₁ ▸ hTaking g hg)
  have hDirs : ∀ k < i, k < pageMapEntries - 2 → s'.mem d k = s.mem d k := by
    intro k hk _
    rw [hDest, ← hs₁]
    exact mem_write_of_index (by omega)
  have hTables : ∀ g, Fresh held b s d g → s'.mem g = s.mem g := by
    intro g hg
    have hMarked : s₁.frames.Marked g := hFrames₁ ▸ hTaking g hg.owned.marked
    rw [hWithin.mem g hMarked (fun he => hFree (he ▸ hg.owned.marked)), hMem₁ g hg.ne_dest]
    intro he
    exact hg.free (he ▸ (hBase.table p hp 0 (by decide) (hBase.root p hp).low).2.2.owned.marked)
  have hKeep : RootCopied held b s' p d i := hCopied.keep hTaking' hDirs hTables
  have hSlots' : NewSlots m s' d (i + 1) :=
    hSlots.extend hBefore hTaking (fun x g hx => hRounds.old_uses hDirs hTables hx)
      (fun x g hx => hRounds.marked hx) (by rw [hDest, hEntry₁]) hFree hOwned.marked hWords
  refine ⟨s', hExec, ⟨hCopying', fun k hk hLow => ?_, fun hDone => by omega⟩, hTaking', hSlots', hLeft,
    hUsage₁ ▸ hUsage⟩
  by_cases hki : k = i
  · subst hki
    rw [hDest, hEntry₁]
    exact ⟨fun hNone => absurd hPresent hNone,
      fun _ => ⟨rfl, hFresh.keep hWithin.taking, hTable⟩⟩
  · exact hKeep k (by omega) hLow

/-- One word of the root. -/
theorem RootRounds.round (h : RootRounds used held b s p d i) (hi : i < pageMapEntries) {m : Frames}
    (hBefore : Holding.Taking m s.frames) (hSlots : NewSlots m s d i) {n : Nat}
    (hSupply : s.frames.Supply kernelEnd ((if (b.mem p i).IsUser then
      1 + userCount (b.mem (b.mem p i).frame) pageMapEntries 0 else 0) + n)) :
    ∃ s', s.copyEntry kernelEnd p 1 (fun vpn _ s =>
        (copyTraverse kernelEnd p 0 (vpn <<< pageMapBits) s).map Prod.fst) i = some (s', 0) ∧
      RootRounds used held b s' p d (i + 1) ∧ Holding.Taking m s'.frames ∧ NewSlots m s' d (i + 1) ∧
      s'.frames.Supply kernelEnd n ∧ (b.TmpKernel p → s'.usage = incr32^[if (b.mem p i).IsUser then
        1 + userCount (b.mem (b.mem p i).frame) pageMapEntries 0 else 0] s.usage) := by
  have hRooted := h.copying.rooted hBase hp
  have hWrite : ∀ e, s.setEntry p (other 1) i e = some (s.write d i e) := fun e =>
    hRooted.setEntry_other_dir h.copying.opened hi
  have hLeft : s.frames.Supply kernelEnd n := hSupply.mono (Nat.le_add_left _ _)
  have hIdle : ∀ e, ¬ (b.mem p i).IsUser → b.TmpKernel p → (s.write d i e).usage =
      incr32^[if (b.mem p i).IsUser then
        1 + userCount (b.mem (b.mem p i).frame) pageMapEntries 0 else 0] s.usage := by
    intro e hNot _
    rw [if_neg hNot]
    rfl
  rw [copyEntry, hRooted.entry_dir hi, Option.bind_some]
  by_cases hSecond : i = pageMapEntries - 2
  · obtain ⟨hPresent, hUser, hSelf⟩ := PageEntry.has_reference (f := d)
    rw [hSecond, h.copying.opened, if_pos hPresent, if_neg hUser, if_pos hSelf, ← hSecond, hWrite,
      Option.map_some]
    obtain ⟨hRounds, hSlots'⟩ := h.plain hBase hp hNew (e := PageEntry.zero) (fun hLow => by omega)
      (fun _ => PageEntry.not_has_zero) hSlots
    exact ⟨_, rfl, hRounds, hBefore, hSlots', hLeft, hIdle _ fun hBoth =>
      (hBase.root p hp).closed (hSecond ▸ hBoth.1)⟩
  · rw [h.copying.root_word hBase hp hSecond]
    by_cases hThere : (b.mem p i).Has pgPresent
    · by_cases hUser : (b.mem p i).Has pgUser
      · have hi' : i < pageMapEntries - 2 := by
          by_contra hHigh
          obtain rfl : i = pageMapEntries - 1 := by omega
          exact (hBase.root p hp).kernel hUser
        rw [if_pos ⟨hThere, hUser⟩, Nat.add_assoc] at hSupply
        obtain ⟨frames, addr, hCall, hAddr, hRest, hPool, hTaking, hZero, hFree, hOwned⟩ :=
          h.copying.pool.supply hSupply
        obtain ⟨s', hExec, hRounds, hTaking', hSlots', hDone, hUsage⟩ := h.table hBase hp hNew
          (incr32 s.usage) hi' hThere hPool hTaking hZero hFree hOwned hBefore hSlots hRest
        have hCounted : b.TmpKernel p → s'.usage = incr32^[if (b.mem p i).IsUser then
            1 + userCount (b.mem (b.mem p i).frame) pageMapEntries 0 else 0] s.usage := by
          intro hTmp
          rw [hUsage hTmp, if_pos ⟨hThere, hUser⟩, Nat.add_comm 1, Function.iterate_succ_apply]
        refine ⟨s', ?_, hRounds, fun g hg => hTaking' g (hBefore g hg), hSlots', hDone, hCounted⟩
        have hSet := Rooted.setEntry_other_dir
          (s := { s with frames := frames, usage := incr32 s.usage })
          (e := ⟨addr >>> pageBits, (b.mem p i).flags⟩) ⟨hRooted.frame, hRooted.present⟩
          h.copying.opened hi
        rw [if_pos hThere, if_pos hUser, hCall, Option.bind_some]
        dsimp only
        rw [if_neg hAddr, hSet, Option.bind_some, hExec]
        rfl
      · have hHigh : ¬ i < pageMapEntries - 2 := fun hLow =>
          hUser (hBase.table p hp i hLow hThere).1
        have hPlain : ∀ e, RootRounds used held b (s.write d i e) p d (i + 1) ∧
            NewSlots m (s.write d i e) d (i + 1) := fun e =>
          h.plain hBase hp hNew (fun hLow => absurd hLow hHigh) (fun he => absurd he hSecond) hSlots
        rw [if_pos hThere, if_neg hUser, hWrite, hWrite, Option.map_some, Option.map_some]
        split
        · exact ⟨_, rfl, (hPlain _).1, hBefore, (hPlain _).2, hLeft, hIdle _ fun hBoth => hUser hBoth.2⟩
        · exact ⟨_, rfl, (hPlain _).1, hBefore, (hPlain _).2, hLeft, hIdle _ fun hBoth => hUser hBoth.2⟩
    · rw [if_neg hThere, hWrite, Option.map_some]
      obtain ⟨hRounds, hSlots'⟩ := h.plain hBase hp hNew (e := PageEntry.zero)
        (fun _ => ⟨hThere, PageEntry.not_has_zero⟩) (fun _ => PageEntry.not_has_zero) hSlots
      exact ⟨_, rfl, hRounds, hBefore, hSlots', hLeft, hIdle _ fun hBoth => hThere hBoth.1⟩

/-- The loop over the root. -/
theorem RootRounds.loop (left i : Nat) (h : RootRounds used held b s p d i)
    (hEnd : i + left = pageMapEntries) {m : Frames} (hBefore : Holding.Taking m s.frames)
    (hSlots : NewSlots m s d i) {n : Nat}
    (hSupply : s.frames.Supply kernelEnd (b.tableCount p left i + n)) :
    ∃ s', copyLoop (copyEntry kernelEnd p 1 fun vpn _ s =>
        (copyTraverse kernelEnd p 0 (vpn <<< pageMapBits) s).map Prod.fst) left i s = some (s', 0) ∧
      RootRounds used held b s' p d pageMapEntries ∧ NewSlots m s' d pageMapEntries ∧
      s'.frames.Supply kernelEnd n ∧
      (b.TmpKernel p → s'.usage = incr32^[b.tableCount p left i] s.usage) := by
  induction left generalizing s i with
  | zero =>
      obtain rfl : i = pageMapEntries := hEnd
      exact ⟨s, rfl, h, hSlots, hSupply.mono (Nat.le_add_left _ _), fun _ => rfl⟩
  | succ left ih =>
      rw [tableCount, Nat.add_assoc] at hSupply
      obtain ⟨s₁, hExec, hRounds, hBefore₁, hSlots₁, hRest, hUsage₁⟩ :=
        h.round hBase hp hNew (by omega) hBefore hSlots hSupply
      obtain ⟨s', hExec', hRounds', hSlots', hLeft, hUsage⟩ :=
        ih (i + 1) hRounds (by omega) hBefore₁ hSlots₁ hRest
      refine ⟨s', ?_, hRounds', hSlots', hLeft, fun hTmp => ?_⟩
      · rw [copyLoop, hExec, Option.bind_some]
        exact hExec'
      · rw [hUsage hTmp, hUsage₁ hTmp, ← Function.iterate_add_apply, Nat.add_comm (tableCount ..),
          tableCount]

end Rounds

/-- The rule for the entries of page tables lets entries be copied. -/
structure CopyRule (Leaf : Holding → PageEntry → Prop) : Prop extends LeafRule Leaf where
  tmp : ∀ r e, e.flags = pgRw ||| pgPresent → Leaf r e
  fresh : ∀ r e f, Leaf r e → r.Owned f → Leaf r ⟨f, e.flags⟩

theorem CopyRule.image (hRule : CopyRule Leaf) {r : Holding} {e' : PageEntry} (h : Image r e e')
    (hLeaf : Leaf r e) : Leaf r e' := by
  cases h with
  | dropped => exact hRule.zero r
  | shared => exact hLeaf
  | fresh _ hOwned => exact hRule.fresh r e _ hLeaf hOwned

/-- What a copy has made, seen from the state before it. -/
structure Copied (held : List (Nat × Nat)) (b s : Paging) (p d : Nat) : Prop where
  taking : Holding.Taking b.frames s.frames
  old : ∀ f, b.frames.Marked f → ∀ j, (f = p → j ≠ pageMapEntries - 2) →
    s.mem f j = b.mem f j ∨ b.Shifted p f j (s.mem f j)
  closed : ¬ (s.mem p (pageMapEntries - 2)).Has pgPresent
  root : s.mem d (pageMapEntries - 1) = ⟨d, pgPresent ||| pgSelf ||| pgRw⟩
  spare : ¬ (s.mem d (pageMapEntries - 2)).Has pgPresent
  tables : RootCopied held b s p d pageMapEntries

section Result

variable (hBase : b.Maps Leaf used held roots) (hp : p ∈ roots)
include hBase hp

theorem Copied.root_word (h : Copied held b s p d) {q : Nat} (hq : q ∈ roots)
    (hj : q = p → j ≠ pageMapEntries - 2) : s.mem q j = b.mem q j := by
  rcases h.old q (hBase.root q hq).owned.marked j hj with hSame | hShifted
  · exact hSame
  · have hLow := hBase.table p hp 0 (by decide) (hBase.root p hp).low
    exact absurd hq (hShifted.table ▸ hLow.2.1)

theorem Copied.oldRoot (h : Copied held b s p d) {q : Nat} (hq : q ∈ roots) : s.Root held q := by
  obtain ⟨hOwned, ⟨hFrame, hSelf⟩, hKernel, hClosed, hLow⟩ := hBase.root q hq
  have hLast := h.root_word hBase hp hq fun _ =>
    (by decide : pageMapEntries - 1 ≠ pageMapEntries - 2)
  have hFirst := h.root_word hBase hp hq fun _ => (by decide : 0 ≠ pageMapEntries - 2)
  refine ⟨h.taking.grows q hOwned, ⟨hLast ▸ hFrame, hLast ▸ hSelf⟩, hLast ▸ hKernel, ?_,
    hFirst ▸ hLow⟩
  by_cases hqp : q = p
  · exact hqp ▸ h.closed
  · rw [h.root_word hBase hp hq fun he => absurd he hqp]
    exact hClosed

theorem Copied.newRoot (h : Copied held b s p d) (hOwned : Holding.Owned ⟨s.frames, held⟩ d) :
    s.Root held d := by
  obtain ⟨hPresent, hUser, _⟩ := PageEntry.has_reference (f := d)
  have hLow := (hBase.root p hp).low
  refine ⟨hOwned, ⟨?_, ?_⟩, ?_, h.spare, ?_⟩
  · rw [h.root]
  · rw [h.root]
    exact hPresent
  · rw [h.root]
    exact hUser
  · exact (PageEntry.has_congr ((h.tables 0 (by decide) (by decide)).2 hLow).1).mpr hLow

omit hBase in
theorem Copied.oldTable (hRule : CopyRule Leaf) (h : Copied held b s p d) {t : Nat} (ht : t ∉ roots)
    (hTable : b.Table Leaf held t) : s.Table Leaf held t := by
  refine ⟨hTable.ne_zero, h.taking.grows t hTable.owned, fun j hj => ?_⟩
  rcases h.old t hTable.owned.marked j fun he => absurd hp (he ▸ ht) with hSame | hShifted
  · rw [hSame]
    exact hRule.mono _ _ _ h.taking.grows (hTable.leaf j hj)
  · exact hRule.tmp _ _ hShifted.flags

theorem Copied.newTable (hRule : CopyRule Leaf) (h : Copied held b s p d)
    (hi : i < pageMapEntries - 2) (hPresent : (b.mem p i).Has pgPresent) :
    s.Table Leaf held (s.mem d i).frame := by
  obtain ⟨_, hFresh, hCopied⟩ := (h.tables i (by omega) hi).2 hPresent
  refine ⟨hFresh.ne_zero, hFresh.owned, fun j hj => ?_⟩
  obtain ⟨e, he, hImage⟩ := hCopied j hj
  refine hRule.image hImage ?_
  rcases he with rfl | hShifted
  · exact hRule.mono _ _ _ h.taking.grows ((hBase.table p hp i hi hPresent).2.2.leaf j hj)
  · exact hRule.tmp _ _ hShifted.flags

/-- The old page maps are still in order, and the new one joins them. -/
theorem Copied.maps (hRule : CopyRule Leaf) (h : Copied held b s p d)
    (hPool : Holding.Sound used ⟨s.frames, held⟩) (hNew : ¬ b.frames.Marked d)
    (hOwned : Holding.Owned ⟨s.frames, held⟩ d) : s.Maps Leaf used held (insert d roots) := by
  refine ⟨hPool, fun q hq => ?_, fun q hq i hi hThere => ?_⟩
  · rcases Set.mem_insert_iff.mp hq with rfl | hq
    · exact h.newRoot hBase hp hOwned
    · exact h.oldRoot hBase hp hq
  · rcases Set.mem_insert_iff.mp hq with rfl | hq
    · obtain ⟨hAbsent, hCopied⟩ := h.tables i (by omega) hi
      have hPresent : (b.mem p i).Has pgPresent := by_contra fun hNone => hAbsent hNone hThere
      obtain ⟨hFlags, hFresh, _⟩ := hCopied hPresent
      refine ⟨(PageEntry.has_congr hFlags).mpr (hBase.table p hp i hi hPresent).1, fun hRoot => ?_,
        h.newTable hBase hp hRule hi hPresent⟩
      rcases Set.mem_insert_iff.mp hRoot with he | hRoot
      · exact hFresh.ne_dest he
      · exact hFresh.free (hBase.root _ hRoot).owned.marked
    · have hWord := h.root_word hBase hp hq fun _ => (by omega : i ≠ pageMapEntries - 2)
      rw [hWord] at hThere ⊢
      obtain ⟨hUser, hApart, hTable⟩ := hBase.table q hq i hi hThere
      refine ⟨hUser, fun hRoot => ?_, h.oldTable hp hRule hApart hTable⟩
      rcases Set.mem_insert_iff.mp hRoot with he | hRoot
      · exact hNew (he ▸ hTable.owned.marked)
      · exact hApart hRoot

/-- `page_map_copy`, if there are enough frames for it. -/
theorem Maps.pageMapCopy (hNew : ¬ b.frames.Marked d) (hMem : s.mem = b.mem)
    (hPool : Holding.Sound used ⟨s.frames, held⟩) (hTaking : Holding.Taking b.frames s.frames)
    (hOwned : Holding.Owned ⟨s.frames, held⟩ d) {n : Nat}
    (hSupply : s.frames.Supply kernelEnd (b.tableCount p pageMapEntries 0 + n)) :
    ∃ s', s.pageMapCopy kernelEnd p d = some (s', 0) ∧ Copied held b s' p d ∧
      Holding.Sound used ⟨s'.frames, held⟩ ∧ Holding.Owned ⟨s'.frames, held⟩ d ∧
      s'.frames.Supply kernelEnd n ∧ NewSlots s.frames s' d pageMapEntries ∧
      (b.TmpKernel p → s'.usage = incr32^[b.tableCount p pageMapEntries 0] s.usage) := by
  have hMarked := (hBase.root p hp).owned.marked
  have hdp : d ≠ p := fun he => hNew (he ▸ hMarked)
  have hRooted : s.Rooted p := by
    obtain ⟨hFrame, hPresent⟩ := (hBase.root p hp).rooted
    exact ⟨hMem ▸ hFrame, hMem ▸ hPresent⟩
  generalize hRef : (⟨d, pgPresent ||| pgSelf ||| pgRw⟩ : PageEntry) = reference
  have hStart : RootRounds used held b (s.write p (pageMapEntries - 2) reference) p d 0 := by
    refine ⟨⟨hPool, hTaking, hOwned, ?_, fun f hf j hj => Or.inl ?_⟩, fun i hi => by omega,
      fun hDone => by omega⟩
    · rw [mem_write, hRef]
    · by_cases hIndex : j = pageMapEntries - 2
      · rw [mem_write_of_frame fun he => hj he hIndex, hMem]
      · rw [mem_write_of_index hIndex, hMem]
  have hFrames : (s.write p (pageMapEntries - 2) reference).frames.Supply kernelEnd
      (b.tableCount p pageMapEntries 0 + n) := by
    rw [write_frames]
    exact hSupply
  have hNone : NewSlots s.frames (s.write p (pageMapEntries - 2) reference) d 0 := by
    have hEmpty : ∀ x : Slot, ¬ x.Before 0 0 := by
      intro x hx
      cases x with
      | root => exact hx
      | table k => exact Nat.not_lt_zero k hx
      | page k l => exact hx.elim (Nat.not_lt_zero k) fun hBoth => Nat.not_lt_zero l hBoth.2
    exact ⟨fun x _ hx => absurd hx (hEmpty x), fun x _ _ hx => absurd hx (hEmpty x)⟩
  obtain ⟨s₂, hLoop, hRounds, hSlots, hLeft, hUsage⟩ :=
    hStart.loop hBase hp hNew pageMapEntries 0 (Nat.zero_add _) (fun _ hg => hg) hNone hFrames
  have hRounds₂ := hRounds
  obtain ⟨hCopying, hTables, hClosed⟩ := hRounds
  have hRooted₂ := hCopying.rooted hBase hp
  have hRooted₃ : (s₂.write d (pageMapEntries - 1) reference).Rooted p := by
    obtain ⟨hFrame, hPresent⟩ := hRooted₂
    have hSame := mem_write_of_frame (s := s₂) (i := pageMapEntries - 1) (e := reference) hdp.symm
    exact ⟨hSame ▸ hFrame, hSame ▸ hPresent⟩
  have hWord : ∀ g j, (g = d → j ≠ pageMapEntries - 1) → (g = p → j ≠ pageMapEntries - 2) →
      ((s₂.write d (pageMapEntries - 1) reference).write p (pageMapEntries - 2)
        PageEntry.zero).mem g j = s₂.mem g j := by
    intro g j hgd hgp
    rw [write_word hgp, write_word hgd]
  have hDirs : ∀ k < pageMapEntries, k < pageMapEntries - 2 →
      ((s₂.write d (pageMapEntries - 1) reference).write p (pageMapEntries - 2)
        PageEntry.zero).mem d k = s₂.mem d k := fun k _ hk =>
    hWord d k (fun _ => by omega) fun he => absurd he hdp
  have hFresh : ∀ g, Fresh held b s₂ d g →
      ((s₂.write d (pageMapEntries - 1) reference).write p (pageMapEntries - 2)
        PageEntry.zero).mem g = s₂.mem g := by
    intro g hg
    funext j
    exact hWord g j (fun he => absurd he hg.ne_dest) fun he => absurd hMarked (he ▸ hg.free)
  refine ⟨(s₂.write d (pageMapEntries - 1) reference).write p (pageMapEntries - 2) PageEntry.zero,
    ?_, ?_, hCopying.pool, hCopying.dest, hLeft, ?_, hUsage⟩
  · rw [Paging.pageMapCopy]
    dsimp only
    rw [hRef, hRooted.setEntry_dir (by decide), Option.bind_some, copyTraverse, hLoop,
      Option.bind_some]
    dsimp only
    rw [hRooted₂.setEntry_other_dir hCopying.opened (by decide), Option.bind_some,
      hRooted₃.setEntry_dir (by decide), Option.map_some]
  · refine ⟨hCopying.taking, fun f hf j hj => ?_, ?_, ?_, ?_, ?_⟩
    · rw [hWord f j (fun he => absurd hf (he ▸ hNew)) hj]
      exact hCopying.old f hf j hj
    · rw [mem_write]
      exact PageEntry.not_has_zero
    · rw [mem_write_of_frame hdp, mem_write, hRef]
    · rw [hWord d _ (fun _ => by decide) fun he => absurd he hdp]
      exact hClosed (by decide)
    · exact hTables.keep (fun _ hg => hg) hDirs hFresh
  · have hUses : ∀ (x : Slot) f, x.Before pageMapEntries 0 →
        Uses ((s₂.write d (pageMapEntries - 1) reference).write p (pageMapEntries - 2)
          PageEntry.zero).mem d x f → Uses s₂.mem d x f := fun x f hx =>
      hRounds₂.old_uses hDirs hFresh hx
    exact ⟨fun x f hx hUse => hSlots.free x f hx (hUses x f hx hUse), fun x y f hx hy hUse hUse' =>
      hSlots.unique x y f hx hy (hUses x f hx hUse) (hUses y f hy hUse')⟩

end Result

end Paging
end ArtOS

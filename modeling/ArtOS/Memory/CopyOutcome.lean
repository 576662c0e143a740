import ArtOS.Memory.PageMapCopy

/-! `page_map_copy` for every sequence of answers of `get_pages`: which calls it
makes, when it reports an error, and what the new page tables then hold. -/
namespace ArtOS

/-- A frame that `get_pages` does not hand out: it is in use, or outside the bitmap. -/
def Frames.Known (s : Frames) (f : Nat) : Prop := f < bitmapBits → s.Marked f

theorem PageEntry.isUser_congr {e e' : PageEntry} (h : e.flags = e'.flags) :
    e.IsUser ↔ e'.IsUser := and_congr (has_congr h) (has_congr h)

namespace Paging

open Frames

section Plan

variable (b : Paging) (p : Nat)

/-- A user page in front of `PAGE_TMP` is copied before the entry for `PAGE_TMP` is read. -/
def LowUser : Prop := ∃ k < pageTmp >>> pageBits, (b.mem (b.mem p 0).frame k).IsUser

instance : Decidable (LowUser b p) := inferInstanceAs (Decidable (∃ k < pageTmp >>> pageBits, _))

/-- The copy finds its own entry for `PAGE_TMP` here. -/
def Overwritten (i j : Nat) : Prop := i = 0 ∧ j = pageTmp >>> pageBits ∧ LowUser b p

instance (i j : Nat) : Decidable (Overwritten b p i j) := inferInstanceAs (Decidable (_ ∧ _))

/-- The copy asks for a frame for this page. -/
def Copies (i j : Nat) : Prop :=
  (b.mem (b.mem p i).frame j).IsUser ∧ ¬ Overwritten b p i j

instance (i j : Nat) : Decidable (Copies b p i j) := inferInstanceAs (Decidable (_ ∧ _))

/-- The call of `get_pages` for one page, and whether it is answered. -/
def takeLeaf (kernelEnd i j : Nat) (frames : Frames) : Option (Frames × Bool) :=
  if Copies b p i j then
    (frames.getPages kernelEnd 1).map fun (frames, addr) => (frames, decide (addr ≠ 0))
  else some (frames, true)

/-- The calls for the pages of one table. -/
def takeTable (kernelEnd i : Nat) : Nat → Nat → Frames → Option (Frames × Bool)
  | 0, _, frames => some (frames, true)
  | left + 1, j, frames =>
      (takeLeaf b p kernelEnd i j frames).bind fun (frames, complete) =>
        if complete then takeTable kernelEnd i left (j + 1) frames else some (frames, false)

/-- All calls, with the result of `page_map_copy` and whether some table is incomplete. -/
def takeTables (kernelEnd : Nat) : Nat → Nat → Bool → Frames → Option (Frames × Int × Bool)
  | 0, _, lost, frames => some (frames, 0, lost)
  | left + 1, i, lost, frames =>
      if (b.mem p i).IsUser then
        (frames.getPages kernelEnd 1).bind fun (frames, addr) =>
          if addr = 0 then some (frames, -enomem, lost)
          else
            (takeTable b p kernelEnd i pageMapEntries 0 frames).bind fun (frames, complete) =>
              takeTables kernelEnd left (i + 1) (lost || !complete) frames
      else takeTables kernelEnd left (i + 1) lost frames

end Plan

variable {used : Finset Nat} {held : List (Nat × Nat)} {b s s' : Paging} {roots : Set Nat}
  {p d f g i j : Nat} {e : PageEntry} {kernelEnd : Nat} {Leaf : Holding → PageEntry → Prop}

/-- The state in the course of a copy of the map `p` to `d`, seen from its start `b`: frames that
are known, or still free, have changed at most in the reference to `d` and at `PAGE_TMP`. -/
structure Tracked (used : Finset Nat) (held : List (Nat × Nat)) (b s : Paging) (p d : Nat) : Prop where
  pool : Holding.Sound used ⟨s.frames, held⟩
  taking : Holding.Taking b.frames s.frames
  dest : Holding.Owned ⟨s.frames, held⟩ d
  opened : s.mem p (pageMapEntries - 2) = ⟨d, pgPresent ||| pgSelf ||| pgRw⟩
  mem : ∀ f, b.frames.Known f ∨ ¬ s.frames.Known f → ∀ j, (f = p → j ≠ pageMapEntries - 2) →
    (f = (b.mem p 0).frame → j ≠ pageTmp >>> pageBits) → s.mem f j = b.mem f j

/-- The page in the new map for a page of user space. -/
structure UserImage (b s : Paging) (p d i j : Nat) (x e : PageEntry) : Prop where
  flags : e.flags = x.flags
  fresh : ¬ b.frames.Known e.frame
  taken : s.frames.Marked e.frame
  ne_dest : e.frame ≠ d
  copied : ¬ (i = 0 ∧ j = pageTmp >>> pageBits) → ∀ k, (x.frame = p → k ≠ pageMapEntries - 2) →
    (x.frame = (b.mem p 0).frame → k ≠ pageTmp >>> pageBits) → s.mem e.frame k = b.mem x.frame k
  root : ¬ (i = 0 ∧ j = pageTmp >>> pageBits) → x.frame = p →
    s.mem e.frame (pageMapEntries - 2) = ⟨d, pgPresent ||| pgSelf ||| pgRw⟩
  table : ¬ (i = 0 ∧ j = pageTmp >>> pageBits) → x.frame = (b.mem p 0).frame →
    s.mem e.frame (pageTmp >>> pageBits) = ⟨e.frame, pgRw ||| pgPresent⟩
  itself : i = 0 ∧ j = pageTmp >>> pageBits → s.mem e.frame = b.mem e.frame

/-- The word `e` of a new table that is made from the word `x` of an old one. -/
structure PageImage (b s : Paging) (p d i j : Nat) (x e : PageEntry) : Prop where
  dropped : ¬ x.Has pgPresent ∨ ¬ x.Has pgUser ∧ x.Has pgSelf → e = PageEntry.zero
  shared : x.Has pgPresent → ¬ x.Has pgUser → ¬ x.Has pgSelf → e = x
  user : x.IsUser → UserImage b s p d i j x e

/-- The word that the copy reads at this place. -/
def Reads (b : Paging) (p i j : Nat) (x : PageEntry) : Prop :=
  if Overwritten b p i j then x.flags = pgRw ||| pgPresent ∧ ¬ b.frames.Known x.frame
  else x = b.mem (b.mem p i).frame j

/-- The first words of the table `f` are copied from the `i`-th table. -/
def Filled (b s : Paging) (p d i f n : Nat) : Prop :=
  ∀ j < n, ∃ x, Reads b p i j x ∧ PageImage b s p d i j x (s.mem f j)

/-- The entry for `PAGE_TMP` when the copy arrives at the word `j` of the first table. -/
structure TmpEntry (b s : Paging) (p j : Nat) : Prop where
  before : j ≤ pageTmp >>> pageBits → (∀ k < j, ¬ (b.mem (b.mem p 0).frame k).IsUser) →
    s.mem (b.mem p 0).frame (pageTmp >>> pageBits) = b.mem (b.mem p 0).frame (pageTmp >>> pageBits)
  after : j ≤ pageTmp >>> pageBits → (∃ k < j, (b.mem (b.mem p 0).frame k).IsUser) →
    (s.mem (b.mem p 0).frame (pageTmp >>> pageBits)).flags = pgRw ||| pgPresent ∧
      ¬ b.frames.Known (s.mem (b.mem p 0).frame (pageTmp >>> pageBits)).frame

theorem reads_flags {x : PageEntry} (h : Reads b p i j x) (hOver : Overwritten b p i j) :
    ¬ x.IsUser := by
  rw [Reads, if_pos hOver] at h
  exact fun hUser => (PageEntry.has_tmp h.1).2 hUser.2

theorem reads_isUser {x : PageEntry} (h : Reads b p i j x) : x.IsUser ↔ Copies b p i j := by
  by_cases hOver : Overwritten b p i j
  · exact ⟨fun hUser => absurd hUser (reads_flags h hOver), fun hCopies => absurd hOver hCopies.2⟩
  · rw [Reads, if_neg hOver] at h
    rw [h, Copies, and_iff_left hOver]

theorem known_of_marked (h : s.frames.Marked f) : s.frames.Known f := fun _ => h

/-- Frames that are free stay so for longer if they are free later. -/
theorem not_known_of_taking (hTaking : Holding.Taking s.frames s'.frames)
    (h : ¬ s'.frames.Known f) : ¬ s.frames.Known f := fun hKnown =>
  h fun hLt => hTaking f (hKnown hLt)

theorem UserImage.keep {x : PageEntry} (h : UserImage b s p d i j x e)
    (hTaking : Holding.Taking s.frames s'.frames) (hMem : s'.mem e.frame = s.mem e.frame) :
    UserImage b s' p d i j x e := by
  obtain ⟨hFlags, hFresh, hTaken, hDest, hCopied, hRoot, hTable, hItself⟩ := h
  rw [← hMem] at hCopied hRoot hTable hItself
  exact ⟨hFlags, hFresh, hTaking _ hTaken, hDest, hCopied, hRoot, hTable, hItself⟩

theorem PageImage.keep {x : PageEntry} (h : PageImage b s p d i j x e)
    (hTaking : Holding.Taking s.frames s'.frames) (hMem : e.IsUser → s'.mem e.frame = s.mem e.frame) :
    PageImage b s' p d i j x e :=
  ⟨h.dropped, h.shared, fun hUser => (h.user hUser).keep hTaking
    (hMem ((PageEntry.isUser_congr (h.user hUser).flags).mpr hUser))⟩

/-- A page of user space is the copy of one. -/
theorem PageImage.image {x : PageEntry} (h : PageImage b s p d i j x e) (hUser : e.IsUser) :
    UserImage b s p d i j x e := by
  by_cases hx : x.IsUser
  · exact h.user hx
  · exfalso
    by_cases hSame : x.Has pgPresent ∧ ¬ x.Has pgUser ∧ ¬ x.Has pgSelf
    · rw [h.shared hSame.1 hSame.2.1 hSame.2.2] at hUser
      exact hx hUser
    · have hZero : e = PageEntry.zero := by
        refine h.dropped ?_
        rw [PageEntry.IsUser] at hx
        tauto
      rw [hZero] at hUser
      exact PageEntry.not_has_zero hUser.1

theorem PageImage.zero {x : PageEntry} (h : ¬ x.Has pgPresent ∨ ¬ x.Has pgUser ∧ x.Has pgSelf) :
    PageImage b s p d i j x PageEntry.zero := by
  refine ⟨fun _ => rfl, fun hPresent _ hSelf => ?_, fun hUser => ?_⟩
  · rcases h with hNone | hBoth
    · exact absurd hPresent hNone
    · exact absurd hBoth.2 hSelf
  · rcases h with hNone | hBoth
    · exact absurd hUser.1 hNone
    · exact absurd hUser.2 hBoth.1

theorem PageImage.same {x : PageEntry} (hPresent : x.Has pgPresent) (hUser : ¬ x.Has pgUser)
    (hSelf : ¬ x.Has pgSelf) : PageImage b s p d i j x x := by
  refine ⟨fun h => ?_, fun _ _ _ => rfl, fun h => absurd h.2 hUser⟩
  rcases h with hNone | hBoth
  · exact absurd hPresent hNone
  · exact absurd hBoth.2 hSelf

theorem PageImage.fresh {x : PageEntry} (h : x.IsUser) (hImage : UserImage b s p d i j x e) :
    PageImage b s p d i j x e := by
  refine ⟨fun hDrop => ?_, fun _ hUser => absurd h.2 hUser, fun _ => hImage⟩
  rcases hDrop with hNone | hBoth
  · exact absurd h.1 hNone
  · exact absurd h.2 hBoth.1

section Copy

variable (hBase : b.Maps Leaf used held roots) (hp : p ∈ roots)
include hBase hp

theorem low_table : (b.mem p 0).frame ∉ roots ∧ b.frames.Marked (b.mem p 0).frame :=
  let hTable := (hBase.table p hp 0 (by decide) (hBase.root p hp).low).2
  ⟨hTable.1, hTable.2.owned.marked⟩

theorem Tracked.root_word (h : Tracked used held b s p d) (hj : j ≠ pageMapEntries - 2) :
    s.mem p j = b.mem p j :=
  h.mem p (Or.inl (known_of_marked (hBase.root p hp).owned.marked)) j (fun _ => hj)
    fun he => absurd hp (he ▸ (low_table hBase hp).1)

theorem Tracked.rooted (h : Tracked used held b s p d) : s.Rooted p := by
  have hLast := h.root_word hBase hp (by decide : pageMapEntries - 1 ≠ pageMapEntries - 2)
  obtain ⟨hFrame, hPresent⟩ := (hBase.root p hp).rooted
  exact ⟨hLast ▸ hFrame, hLast ▸ hPresent⟩

theorem Tracked.table_word (h : Tracked used held b s p d) (hi : i < pageMapEntries - 2)
    (hPresent : (b.mem p i).Has pgPresent)
    (hj : (b.mem p i).frame = (b.mem p 0).frame → j ≠ pageTmp >>> pageBits) :
    s.mem (b.mem p i).frame j = b.mem (b.mem p i).frame j := by
  obtain ⟨_, hApart, hTable⟩ := hBase.table p hp i hi hPresent
  exact h.mem _ (Or.inl (known_of_marked hTable.owned.marked)) j
    (fun he => absurd hp (he ▸ hApart)) hj

omit hBase hp in
/-- Frames that were handed out may change. -/
theorem Tracked.keep (h : Tracked used held b s p d)
    (hPool : Holding.Sound used ⟨s'.frames, held⟩) (hTaking : Holding.Taking s.frames s'.frames)
    (hRoot : s'.mem p = s.mem p)
    (hMem : ∀ f, b.frames.Known f ∨ ¬ s'.frames.Known f → s'.mem f = s.mem f) :
    Tracked used held b s' p d := by
  refine ⟨hPool, fun g hg => hTaking g (h.taking g hg), hTaking.grows d h.dest, ?_, ?_⟩
  · rw [hRoot]
    exact h.opened
  · intro f hf j hj hTmp
    rw [hMem f hf]
    exact h.mem f (hf.imp_right (not_known_of_taking hTaking)) j hj hTmp

/-- The entry for `PAGE_TMP` changes. -/
theorem Tracked.shift (h : Tracked used held b s p d) :
    Tracked used held b (s.write (b.mem p 0).frame (pageTmp >>> pageBits) e) p d := by
  refine ⟨h.pool, h.taking, h.dest, ?_, fun f hf j hj hTmp => ?_⟩
  · rw [mem_write_of_frame (ne_of_mem_of_not_mem hp (low_table hBase hp).1)]
    exact h.opened
  · rw [write_word hTmp]
    exact h.mem f hf j hj hTmp

end Copy

/-- Every page of the map that is present is a frame in use. -/
def LeavesKnown (b : Paging) (p : Nat) : Prop :=
  ∀ i < pageMapEntries - 2, (b.mem p i).Has pgPresent → ∀ j < pageMapEntries,
    (b.mem (b.mem p i).frame j).Has pgPresent → b.frames.Known (b.mem (b.mem p i).frame j).frame

/-- No other entry of the root refers to the first page table. -/
def FirstAlone (b : Paging) (p : Nat) : Prop :=
  ∀ i < pageMapEntries - 2, (b.mem p i).Has pgPresent → i ≠ 0 →
    (b.mem p i).frame ≠ (b.mem p 0).frame

/-- A frame that the copy has taken for a table. -/
structure NewTable (b s : Paging) (d f : Nat) : Prop where
  fresh : ¬ b.frames.Known f
  taken : s.frames.Marked f
  ne_dest : f ≠ d

/-- One round of the loop over the `i`-th table, which is copied to `f`. -/
structure Round (used : Finset Nat) (held : List (Nat × Nat)) (kernelEnd : Nat) (b s s' : Paging)
    (p d i f j : Nat) (ret : Int) : Prop where
  tracked : Tracked used held b s' p d
  taking : Holding.Taking s.frames s'.frames
  mem : ∀ q, s.frames.Marked q → q ≠ f → q ≠ (b.mem p 0).frame → s'.mem q = s.mem q
  words : ∀ k ≠ j, s'.mem f k = s.mem f k
  plan : takeLeaf b p kernelEnd i j s.frames = some (s'.frames, decide (ret = 0))
  image : ret = 0 → ∃ x, Reads b p i j x ∧ PageImage b s' p d i j x (s'.mem f j)
  newer : ret = 0 → (s'.mem f j).IsUser → ¬ s.frames.Known (s'.mem f j).frame
  lost : ret ≠ 0 → ret = -enomem ∧ Copies b p i j ∧ s'.mem = s.mem
  tmp : ret = 0 → i = 0 → TmpEntry b s' p (j + 1)

section Rounds

variable (hBase : b.Maps Leaf used held roots) (hp : p ∈ roots)
include hBase hp

theorem NewTable.ne (h : NewTable b s d f) :
    f ≠ p ∧ f ≠ (b.mem p 0).frame ∧ ∀ q, b.frames.Known q → q ≠ f :=
  ⟨fun he => h.fresh (he ▸ known_of_marked (hBase.root p hp).owned.marked),
    fun he => h.fresh (he ▸ known_of_marked (low_table hBase hp).2),
    fun _ hq he => h.fresh (he ▸ hq)⟩

omit hBase hp in
/-- The entry for `PAGE_TMP` moves on with the loop over the first table. -/
theorem TmpEntry.next (h : TmpEntry b s p j) (hCopies : ¬ Copies b p 0 j)
    (hSame : s'.mem (b.mem p 0).frame = s.mem (b.mem p 0).frame) : TmpEntry b s' p (j + 1) := by
  refine ⟨fun hj hNone => ?_, fun hj hSome => ?_⟩
  · rw [hSame]
    exact h.before (by omega) fun k hk => hNone k (by omega)
  · rw [hSame]
    obtain ⟨k, hk, hkUser⟩ := hSome
    refine h.after (by omega) ⟨k, ?_, hkUser⟩
    have hne : k ≠ j := by
      intro he
      subst he
      refine hCopies ⟨hkUser, fun hOver => ?_⟩
      have hEnd := hOver.2.1
      omega
    omega

/-- A word that needs no new frame. -/
theorem Tracked.plainRound (h : Tracked used held b s p d) (hTmp : i = 0 → TmpEntry b s p j)
    (hTable : NewTable b s d f) {x : PageEntry} (hRead : Reads b p i j x) (hUser : ¬ x.IsUser)
    (hImage : PageImage b s p d i j x e) (hPlain : ¬ e.IsUser) :
    Round used held kernelEnd b s (s.write f j e) p d i f j 0 := by
  obtain ⟨hfp, hf₀, hfKnown⟩ := hTable.ne hBase hp
  have hCopies : ¬ Copies b p i j := mt (reads_isUser hRead).mpr hUser
  refine ⟨?_, fun _ hq => hq, fun q _ hqf _ => mem_write_of_frame hqf,
    fun k hk => mem_write_of_index hk, ?_, fun _ => ⟨x, hRead, ?_⟩, fun _ he => ?_,
    fun hRet => absurd rfl hRet, fun _ hi₀ => ?_⟩
  · refine h.keep h.pool (fun _ hq => hq) (mem_write_of_frame hfp.symm) fun q hq => ?_
    refine mem_write_of_frame ?_
    rcases hq with hq | hq
    · exact hfKnown q hq
    · exact fun he => hq fun _ => he ▸ hTable.taken
  · rw [takeLeaf, if_neg hCopies, write_frames]
    rfl
  · rw [mem_write]
    exact ⟨hImage.dropped, hImage.shared, fun hx => absurd hx hUser⟩
  · rw [mem_write] at he
    exact absurd he hPlain
  · subst hi₀
    exact (hTmp rfl).next hCopies (mem_write_of_frame hf₀.symm)

/-- A new table gets an entry, and the frame for it has been handed out. -/
theorem Tracked.grant {frames : Frames} (h : Tracked used held b s p d) (hTable : NewTable b s d f) (usage j : Nat)
    (e : PageEntry) (hPool : Holding.Sound used ⟨frames, held⟩) (hTaking : Holding.Taking s.frames frames) :
    Tracked used held b (write { s with frames := frames, usage := usage } f j e) p d := by
  obtain ⟨hfp, _, hfKnown⟩ := hTable.ne hBase hp
  generalize hNext : write { s with frames := frames, usage := usage } f j e = s'
  have hFrames : s'.frames = frames := by rw [← hNext, write_frames]
  have hSame : ∀ q ≠ f, s'.mem q = s.mem q := fun q hq => by rw [← hNext, mem_write_of_frame hq]
  refine h.keep (hFrames ▸ hPool) (hFrames ▸ hTaking) (hSame p hfp.symm) fun q hq => hSame q ?_
  rcases hq with hq | hq
  · exact hfKnown q hq
  · rw [hFrames] at hq
    exact fun he => hq fun _ => he ▸ hTaking f hTable.taken

/-- What the frame `g` holds once `page_map_copy` has copied a page to it, with its entry for `PAGE_TMP` in
place. -/
theorem Tracked.userImage {x : PageEntry} (h : Tracked used held b s p d) (h' : Tracked used held b s' p d)
    (hFree : ¬ s.frames.Known g) (hTaken : s'.frames.Marked g) (hgd : g ≠ d)
    (hEntry : s'.mem (b.mem p 0).frame (pageTmp >>> pageBits) = ⟨g, pgRw ||| pgPresent⟩)
    (hSource : ¬ (i = 0 ∧ j = pageTmp >>> pageBits) →
      s'.mem (b.mem p i).frame j = x ∧ b.frames.Known x.frame) (hSame : s'.mem g = s.mem g) :
    UserImage b (s'.setFrame g (s'.mem (s'.mem (b.mem p i).frame j).frame)) p d i j x ⟨g, x.flags⟩ := by
  have hUnknown := not_known_of_taking h.taking hFree
  have hg₀ : (b.mem p 0).frame ≠ g := fun he =>
    hUnknown (he ▸ known_of_marked (low_table hBase hp).2)
  have hgp : p ≠ g := fun he => hUnknown (he ▸ known_of_marked (hBase.root p hp).owned.marked)
  refine ⟨rfl, hUnknown, hTaken, hgd, fun hPlace k hRoot hTmpWord => ?_, fun hPlace hRoot => ?_,
    fun hPlace hTable₀ => ?_, fun hPlace => ?_⟩
  · obtain ⟨hWord, hxKnown⟩ := hSource hPlace
    rw [mem_setFrame, hWord]
    exact h'.mem _ (Or.inl hxKnown) k hRoot hTmpWord
  · rw [mem_setFrame, (hSource hPlace).1, hRoot]
    exact h'.opened
  · rw [mem_setFrame, (hSource hPlace).1, hTable₀]
    exact hEntry
  · rw [mem_setFrame, hPlace.1, hPlace.2, hEntry, hSame]
    funext k
    exact h.mem g (Or.inr hFree) k (fun he => absurd he.symm hgp) fun he => absurd he.symm hg₀

variable (hFirst : FirstAlone b p)
include hFirst

/-- The word that is read is the old one, or the copy's own entry. -/
theorem Tracked.reads (h : Tracked used held b s p d) (hi : i < pageMapEntries - 2)
    (hPresent : (b.mem p i).Has pgPresent) (hTmp : i = 0 → TmpEntry b s p j) :
    Reads b p i j (s.mem (b.mem p i).frame j) := by
  by_cases hPlace : i = 0 ∧ j = pageTmp >>> pageBits
  · obtain ⟨hi₀, hj₀⟩ := hPlace
    have hEntry := hTmp hi₀
    rw [Reads]
    split
    · rename_i hOver
      rw [hi₀, hj₀]
      exact hEntry.after hj₀.le (hj₀ ▸ hOver.2.2)
    · rename_i hOver
      rw [hi₀, hj₀]
      exact hEntry.before hj₀.le fun k hk hUser => hOver ⟨hi₀, hj₀, k, hj₀ ▸ hk, hUser⟩
  · rw [Reads, if_neg fun hOver => hPlace ⟨hOver.1, hOver.2.1⟩]
    refine h.table_word hBase hp hi hPresent fun he hj => hPlace ⟨?_, hj⟩
    by_contra hne
    exact hFirst i hi hPresent hne he

variable (hKnown : LeavesKnown b p)
include hKnown

/-- A page of user space is copied to the new frame `g`. -/
theorem Tracked.copyUser (h : Tracked used held b s p d) (kernelEnd : Nat) (hi : i < pageMapEntries - 2)
    (hPresent : (b.mem p i).Has pgPresent) (hj : j < pageMapEntries) (hTmp : i = 0 → TmpEntry b s p j)
    (hTable : NewTable b s d f) (hUser : (s.mem (b.mem p i).frame j).IsUser) {frames : Frames}
    (usage : Nat) {addr : Nat} (hPool : Holding.Sound used ⟨frames, held⟩)
    (hTaking : Holding.Taking s.frames frames) (hg : addr >>> pageBits = g)
    (hFree : ¬ s.frames.Marked g) (hOwned : Holding.Owned ⟨frames, held⟩ g) :
    ∃ s', Paging.copyLeaf kernelEnd p (i <<< pageMapBits + j) addr
        (write { s with frames := frames, usage := usage } f j
          ⟨g, (s.mem (b.mem p i).frame j).flags⟩) = some s' ∧ s'.frames = frames ∧
      Tracked used held b s' p d ∧
      (∀ q ≠ f, q ≠ (b.mem p 0).frame → q ≠ g → s'.mem q = s.mem q) ∧
      s'.mem f = Function.update (s.mem f) j ⟨g, (s.mem (b.mem p i).frame j).flags⟩ ∧
      s'.mem (b.mem p 0).frame (pageTmp >>> pageBits) = ⟨g, pgRw ||| pgPresent⟩ ∧
      UserImage b s' p d i j (s.mem (b.mem p i).frame j)
        ⟨g, (s.mem (b.mem p i).frame j).flags⟩ := by
  have hRead := h.reads hBase hp hFirst hi hPresent hTmp
  have hRootMarked := (hBase.root p hp).owned.marked
  obtain ⟨hApart₀, hMarked₀⟩ := low_table hBase hp
  obtain ⟨_, hApart, hOldTable⟩ := hBase.table p hp i hi hPresent
  obtain ⟨hfp, hf₀, hfKnown⟩ := hTable.ne hBase hp
  have hgUsed : ∀ q, s.frames.Marked q → q ≠ g := fun q hq he => hFree (he ▸ hq)
  have hgFree : ¬ s.frames.Known g := fun hgKnown => hFree (hgKnown hOwned.lt)
  have hgKnown : ∀ q, b.frames.Known q → q ≠ g := fun q hq he =>
    not_known_of_taking h.taking hgFree (he ▸ hq)
  generalize hx : s.mem (b.mem p i).frame j = x at hRead hUser ⊢
  generalize hs₂ : write { s with frames := frames, usage := usage } f j ⟨g, x.flags⟩ = s₂
  have hMem₂ : ∀ q ≠ f, s₂.mem q = s.mem q := fun q hq => by rw [← hs₂, mem_write_of_frame hq]
  have hf₂ : s₂.mem f = Function.update (s.mem f) j ⟨g, x.flags⟩ := by
    rw [← hs₂]
    exact mem_setFrame
  have hFrames₂ : s₂.frames = frames := by rw [← hs₂, write_frames]
  have h₂ : Tracked used held b s₂ p d := hs₂ ▸ h.grant hBase hp hTable usage j _ hPool hTaking
  have hLow := h₂.root_word hBase hp (by decide : 0 ≠ pageMapEntries - 2)
  have hDir := h₂.root_word hBase hp (by omega : i ≠ pageMapEntries - 2)
  have hWord₂ : s₂.mem (b.mem p i).frame j = x := by
    rw [hMem₂ _ (hfKnown _ (known_of_marked hOldTable.owned.marked)), hx]
  have hTmp₂ : s₂.mapTmp p addr =
      s₂.write (b.mem p 0).frame (pageTmp >>> pageBits) ⟨g, pgRw ||| pgPresent⟩ := by
    rw [mapTmp, hLow, hg]
  have hExec : Paging.copyLeaf kernelEnd p (i <<< pageMapBits + j) addr s₂ =
      some ((s₂.mapTmp p addr).setFrame g
        ((s₂.mapTmp p addr).mem ((s₂.mapTmp p addr).mem (b.mem p i).frame j).frame)) := by
    rw [← hg, ← hDir]
    refine (h₂.rooted hBase hp).copyLeaf ?_ ?_ hj (hDir ▸ hPresent) ?_ addr
    · rw [hLow]
      exact (hBase.root p hp).low
    · rw [hLow]
      exact fun he => hApart₀ (by rw [he]; exact hp)
    · rw [hDir, hWord₂]
      exact hUser.1
  have h₃ : Tracked used held b (s₂.mapTmp p addr) p d := by
    rw [hTmp₂]
    exact h₂.shift hBase hp
  rw [hTmp₂] at hExec h₃
  generalize hs₃ : s₂.write (b.mem p 0).frame (pageTmp >>> pageBits) ⟨g, pgRw ||| pgPresent⟩ = s₃
    at hExec h₃
  have hMem₃ : ∀ q ≠ (b.mem p 0).frame, s₃.mem q = s₂.mem q := fun q hq => by
    rw [← hs₃, mem_write_of_frame hq]
  have hEntry₃ : s₃.mem (b.mem p 0).frame (pageTmp >>> pageBits) = ⟨g, pgRw ||| pgPresent⟩ := by
    rw [← hs₃, mem_write]
  have hFrames₃ : s₃.frames = frames := by rw [← hs₃, write_frames, hFrames₂]
  have hg₀ : (b.mem p 0).frame ≠ g := hgKnown _ (known_of_marked hMarked₀)
  refine ⟨_, hExec, hFrames₃, ?_, fun q hqf hq₀ hqg => ?_, ?_, ?_, ?_⟩
  · refine h₃.keep h₃.pool (fun _ hq => hq)
      (mem_setFrame_of_ne (hgKnown p (known_of_marked hRootMarked))) fun q hq => mem_setFrame_of_ne ?_
    rcases hq with hq | hq
    · exact hgKnown q hq
    · rw [setFrame_frames, hFrames₃] at hq
      exact fun he => hq fun _ => he ▸ hOwned.marked
  · rw [mem_setFrame_of_ne hqg, hMem₃ q hq₀, hMem₂ q hqf]
  · rw [mem_setFrame_of_ne (hgUsed f hTable.taken), hMem₃ f hf₀, hf₂]
  · rw [mem_setFrame_of_ne hg₀, hEntry₃]
  · have hSource : ¬ (i = 0 ∧ j = pageTmp >>> pageBits) →
        s₃.mem (b.mem p i).frame j = x ∧ b.frames.Known x.frame := by
      intro hPlace
      rw [Reads, if_neg fun hOver => hPlace ⟨hOver.1, hOver.2.1⟩] at hRead
      constructor
      · rw [← hs₃, write_word fun he hj₀ => ?_, hWord₂]
        refine hPlace ⟨?_, hj₀⟩
        by_contra hne
        exact hFirst i hi hPresent hne he
      · rw [hRead]
        exact hKnown i hi hPresent j hj (hRead ▸ hUser.1)
    refine h.userImage hBase hp h₃ hgFree ?_ (hgUsed d h.dest.marked).symm hEntry₃ hSource ?_
    · rw [hFrames₃]
      exact hOwned.marked
    · rw [hMem₃ g hg₀.symm, hMem₂ g (hgUsed f hTable.taken).symm]

/-- One entry of a page table. -/
theorem Tracked.leafRound (h : Tracked used held b s p d) (kernelEnd : Nat)
    (hi : i < pageMapEntries - 2) (hPresent : (b.mem p i).Has pgPresent) (hj : j < pageMapEntries)
    (hTmp : i = 0 → TmpEntry b s p j) (hDest : (s.mem d i).Has pgPresent)
    (hf : (s.mem d i).frame = f) (hTable : NewTable b s d f) :
    ∃ s' ret, s.copyEntry kernelEnd p 0 (Paging.copyLeaf kernelEnd p) (i <<< pageMapBits + j) =
        some (s', ret) ∧ Round used held kernelEnd b s s' p d i f j ret := by
  have hSame := h.root_word hBase hp (by omega : i ≠ pageMapEntries - 2)
  have hRead := (h.rooted hBase hp).entry_table (by omega : i < pageMapEntries) hj
    (hSame ▸ hPresent)
  rw [hSame] at hRead
  have hWord := h.reads hBase hp hFirst hi hPresent hTmp
  have hWrite : ∀ e, s.setEntry p (other 0) (i <<< pageMapBits + j) e = some (s.write f j e) :=
    fun e => by rw [setEntry_other h.opened (by omega) hj hDest, hf]
  have hPlain : ∀ e, ¬ (s.mem (b.mem p i).frame j).IsUser →
      PageImage b s p d i j (s.mem (b.mem p i).frame j) e → ¬ e.IsUser →
      Round used held kernelEnd b s (s.write f j e) p d i f j 0 := fun e hUser hImage hNone =>
    h.plainRound hBase hp hTmp hTable hWord hUser hImage hNone
  rw [copyEntry, hRead, Option.bind_some]
  by_cases hThere : (s.mem (b.mem p i).frame j).Has pgPresent
  · by_cases hUser : (s.mem (b.mem p i).frame j).Has pgUser
    · have hCopies : Copies b p i j := (reads_isUser hWord).mp ⟨hThere, hUser⟩
      obtain ⟨frames, addr, hCall, hPool, hTaking, hNew⟩ := h.pool.take kernelEnd
      rw [if_pos hThere, if_pos hUser, hCall, Option.bind_some]
      dsimp only
      by_cases hAddr : addr = 0
      · rw [if_pos hAddr]
        refine ⟨_, _, rfl, ?_, hTaking, fun _ _ _ _ => rfl, fun _ _ => rfl, ?_,
          fun hRet => absurd hRet (by decide), fun hRet => absurd hRet (by decide),
          fun _ => ⟨rfl, hCopies, rfl⟩, fun hRet => absurd hRet (by decide)⟩
        · exact h.keep hPool hTaking rfl fun _ _ => rfl
        · rw [takeLeaf, if_pos hCopies, hCall, Option.map_some]
          simp [hAddr, enomem]
      · obtain ⟨_, hFree, hOwned⟩ := hNew hAddr
        obtain ⟨s', hExec, hFrames, hTracked, hOther, hf', hTmp', hImage⟩ :=
          h.copyUser hBase hp hFirst hKnown kernelEnd hi hPresent hj hTmp hTable ⟨hThere, hUser⟩
            (incr32 s.usage) hPool hTaking rfl hFree hOwned
        have hSet : setEntry p (other 0) (i <<< pageMapBits + j)
            ⟨addr >>> pageBits, (s.mem (b.mem p i).frame j).flags⟩
            { s with frames := frames, usage := incr32 s.usage } =
              some (write { s with frames := frames, usage := incr32 s.usage } f j
                ⟨addr >>> pageBits, (s.mem (b.mem p i).frame j).flags⟩) := by
          rw [setEntry_other (s := { s with frames := frames, usage := incr32 s.usage })
            h.opened (by omega) hj hDest, hf]
        have hj' : s'.mem f j = ⟨addr >>> pageBits, (s.mem (b.mem p i).frame j).flags⟩ := by
          rw [hf', Function.update_self]
        rw [if_neg hAddr, hSet, Option.bind_some, hExec, Option.map_some]
        refine ⟨s', 0, rfl, hTracked, hFrames ▸ hTaking, fun q hq hqf hq₀ => ?_, fun k hk => ?_, ?_,
          fun _ => ⟨_, hWord, ?_⟩, fun _ _ => ?_, fun hRet => absurd rfl hRet, fun _ hi₀ => ?_⟩
        · exact hOther q hqf hq₀ fun he => hFree (he ▸ hq)
        · rw [hf', Function.update_of_ne hk]
        · rw [takeLeaf, if_pos hCopies, hCall, Option.map_some, hFrames]
          simp [hAddr]
        · rw [hj']
          exact PageImage.fresh ⟨hThere, hUser⟩ hImage
        · rw [hj']
          exact fun hKnown => hFree (hKnown hOwned.lt)
        · subst hi₀
          refine ⟨fun _ hNone => absurd hCopies.1 (hNone j (Nat.lt_succ_self j)), fun _ _ => ?_⟩
          rw [hTmp']
          exact ⟨rfl, hImage.fresh⟩
    · by_cases hSelf : (s.mem (b.mem p i).frame j).Has pgSelf
      · rw [if_pos hThere, if_neg hUser, if_pos hSelf, hWrite, Option.map_some]
        exact ⟨_, _, rfl, hPlain _ (fun hBoth => hUser hBoth.2) (PageImage.zero (Or.inr ⟨hUser, hSelf⟩))
          fun hZero => PageEntry.not_has_zero hZero.1⟩
      · rw [if_pos hThere, if_neg hUser, if_neg hSelf, hWrite, Option.map_some]
        exact ⟨_, _, rfl, hPlain _ (fun hBoth => hUser hBoth.2) (PageImage.same hThere hUser hSelf)
          fun hBoth => hUser hBoth.2⟩
  · rw [if_neg hThere, hWrite, Option.map_some]
    exact ⟨_, _, rfl, hPlain _ (fun hBoth => hThere hBoth.1) (PageImage.zero (Or.inl hThere))
      fun hZero => PageEntry.not_has_zero hZero.1⟩

/-- The table `f` when the loop arrives at the word `j`; `s₀` is the state before the loop. -/
structure TableState (b s₀ s : Paging) (p d i f j : Nat) : Prop where
  filled : Filled b s p d i f j
  untouched : ∀ k, j ≤ k → s.mem f k = b.mem f k
  newer : ∀ k < j, (s.mem f k).IsUser → ¬ s₀.frames.Known (s.mem f k).frame
  apart : ∀ k < j, ∀ l < j, k ≠ l → (s.mem f k).IsUser → (s.mem f l).IsUser →
    (s.mem f k).frame ≠ (s.mem f l).frame

omit hFirst hKnown in
theorem TableState.next {s₀ : Paging} (h : TableState b s₀ s p d i f j)
    (hRound : Round used held kernelEnd b s s' p d i f j 0)
    (hTaking : Holding.Taking s₀.frames s.frames) (hTable : s₀.frames.Marked f) :
    TableState b s₀ s' p d i f (j + 1) := by
  have hOld : ∀ k < j, s'.mem f k = s.mem f k := fun k hk => hRound.words k (by omega)
  have hTaken : ∀ k < j, (s.mem f k).IsUser → s.frames.Marked (s.mem f k).frame := by
    intro k hk hUser
    obtain ⟨x, _, hImage⟩ := h.filled k hk
    exact (hImage.image hUser).taken
  have hNew : (s'.mem f j).IsUser → ∀ g, s.frames.Marked g → g ≠ (s'.mem f j).frame :=
    fun hUser g hg he => hRound.newer rfl hUser fun _ => he ▸ hg
  have hKeep : ∀ k < j, (s.mem f k).IsUser → s'.mem (s.mem f k).frame = s.mem (s.mem f k).frame := by
    intro k hk hUser
    obtain ⟨x, _, hImage⟩ := h.filled k hk
    refine hRound.mem _ (hTaken k hk hUser) (fun he => h.newer k hk hUser fun _ => by rw [he]; exact hTable) ?_
    exact fun he => (hImage.image hUser).fresh (he ▸ known_of_marked (low_table hBase hp).2)
  refine ⟨fun k hk => ?_, fun k hk => ?_, fun k hk hUser => ?_, fun k hk l hl hne hUser hUser' => ?_⟩
  · rcases Nat.lt_or_ge k j with hLess | hMore
    · obtain ⟨x, hRead, hImage⟩ := h.filled k hLess
      rw [hOld k hLess]
      exact ⟨x, hRead, hImage.keep hRound.taking (hKeep k hLess)⟩
    · obtain rfl : k = j := by omega
      exact hRound.image rfl
  · rw [hRound.words k (by omega)]
    exact h.untouched k (by omega)
  · rcases Nat.lt_or_ge k j with hLess | hMore
    · rw [hOld k hLess] at hUser ⊢
      exact h.newer k hLess hUser
    · obtain rfl : k = j := by omega
      exact not_known_of_taking hTaking (hRound.newer rfl hUser)
  · rcases Nat.lt_or_ge k j with hLess | hMore
    · rw [hOld k hLess] at hUser ⊢
      rcases Nat.lt_or_ge l j with hLess' | hMore'
      · rw [hOld l hLess'] at hUser' ⊢
        exact h.apart k hLess l hLess' hne hUser hUser'
      · obtain rfl : l = j := by omega
        exact hNew hUser' _ (hTaken k hLess hUser)
    · obtain rfl : k = j := by omega
      rw [hOld l (by omega)] at hUser' ⊢
      exact (hNew hUser _ (hTaken l (by omega) hUser')).symm

/-- What the loop over a table leaves behind. -/
structure TableDone (used : Finset Nat) (held : List (Nat × Nat)) (b s₀ s : Paging) (p d i f : Nat)
    (ret : Int) : Prop where
  tracked : Tracked used held b s p d
  taking : Holding.Taking s₀.frames s.frames
  mem : ∀ q, s₀.frames.Marked q → q ≠ f → q ≠ (b.mem p 0).frame → s.mem q = s₀.mem q
  complete : ret = 0 → TableState b s₀ s p d i f pageMapEntries
  lost : ret ≠ 0 → ret = -enomem ∧
    ∃ k < pageMapEntries, (b.mem (b.mem p i).frame k).IsUser ∧ s.mem f k = b.mem f k

variable (hNew : ¬ b.frames.Known d)
include hNew

/-- The loop over one table. -/
theorem Tracked.tableLoop {s₀ : Paging} (h : Tracked used held b s p d) (kernelEnd : Nat)
    (hi : i < pageMapEntries - 2) (hPresent : (b.mem p i).Has pgPresent)
    (hDest : (s.mem d i).Has pgPresent) (hf : (s.mem d i).frame = f) (hTable : NewTable b s₀ d f)
    (left j : Nat) (hEnd : j + left = pageMapEntries) (hTmp : i = 0 → TmpEntry b s p j)
    (hState : TableState b s₀ s p d i f j) (hTaking : Holding.Taking s₀.frames s.frames)
    (hMem : ∀ q, s₀.frames.Marked q → q ≠ f → q ≠ (b.mem p 0).frame → s.mem q = s₀.mem q) :
    ∃ s' ret, copyLoop (copyEntry kernelEnd p 0 (Paging.copyLeaf kernelEnd p)) left
        (i <<< pageMapBits + j) s = some (s', ret) ∧ TableDone used held b s₀ s' p d i f ret ∧
      takeTable b p kernelEnd i left j s.frames = some (s'.frames, decide (ret = 0)) := by
  induction left generalizing s j with
  | zero =>
      obtain rfl : j = pageMapEntries := hEnd
      exact ⟨s, 0, rfl, ⟨h, hTaking, hMem, fun _ => hState, fun hRet => absurd rfl hRet⟩, rfl⟩
  | succ left ih =>
      have hTable' : NewTable b s d f := ⟨hTable.fresh, hTaking f hTable.taken, hTable.ne_dest⟩
      obtain ⟨s₁, ret, hExec, hRound⟩ := h.leafRound hBase hp hFirst hKnown kernelEnd hi hPresent
        (by omega) hTmp hDest hf hTable'
      have hMem₁ : ∀ q, s₀.frames.Marked q → q ≠ f → q ≠ (b.mem p 0).frame → s₁.mem q = s₀.mem q :=
        fun q hq hqf hq₀ => (hRound.mem q (hTaking q hq) hqf hq₀).trans (hMem q hq hqf hq₀)
      have hTaking₁ : Holding.Taking s₀.frames s₁.frames := fun q hq =>
        hRound.taking q (hTaking q hq)
      rw [copyLoop, hExec, Option.bind_some, takeTable, hRound.plan, Option.bind_some]
      dsimp only
      by_cases hRet : ret = 0
      · subst hRet
        have hRoot : s₁.mem d = s.mem d := by
          refine hRound.mem d h.dest.marked hTable.ne_dest.symm fun he => hNew ?_
          exact he ▸ known_of_marked (low_table hBase hp).2
        have hNext := ih hRound.tracked (by rw [hRoot]; exact hDest) (by rw [hRoot]; exact hf) (j + 1)
          (by omega) (hRound.tmp rfl) (hState.next hBase hp hRound hTaking hTable.taken) hTaking₁ hMem₁
        exact hNext
      · obtain ⟨hError, hCopies, hSame⟩ := hRound.lost hRet
        rw [if_neg hRet, decide_eq_false hRet]
        refine ⟨s₁, ret, rfl, ⟨hRound.tracked, hTaking₁, hMem₁, fun he => absurd he hRet,
          fun _ => ⟨hError, j, by omega, hCopies.1, ?_⟩⟩, ?_⟩
        · rw [hSame]
          exact hState.untouched j le_rfl
        · rw [decide_eq_false hRet, if_neg Bool.false_ne_true]

end Rounds

end Paging
end ArtOS

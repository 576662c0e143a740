import ArtOS.Memory.CopyResult
import ArtOS.Memory.Tlb

/-! Runs of `page_map` and `page_unmap` under arbitrary accesses. No entry of the TLB is
stale as long as every entry of a page table that is written was not present, or stays
as it is, and new page tables come in frames without a present word. -/
namespace ArtOS

namespace Frames

/-- The frames that the next `n` calls of `get_pages(1)` hand out. -/
def grants (kernelEnd : Nat) : Nat → Frames → List Nat
  | 0, _ => []
  | n + 1, s =>
      match s.getPages kernelEnd 1 with
      | some (s, addr) => if addr = 0 then [] else addr >>> pageBits :: grants kernelEnd n s
      | none => []

/-- All of them are free. -/
theorem Holding.Sound.grants_free {used : Finset Nat} {held : List (Nat × Nat)} {s : Frames}
    {kernelEnd : Nat} (n : Nat) (h : Holding.Sound used ⟨s, held⟩) :
    ∀ f ∈ s.grants kernelEnd n, f < bitmapBits ∧ ¬ s.Marked f := by
  induction n generalizing s with
  | zero => exact fun f hf => nomatch hf
  | succ n ih =>
      obtain ⟨s', addr, hCall, hPool, hTaking, hAnswer⟩ := h.take kernelEnd
      intro f hf
      rw [grants, hCall] at hf
      dsimp only at hf
      split at hf
      · cases hf
      · rename_i hAddr
        obtain ⟨_, hFree, hOwned⟩ := hAnswer hAddr
        rcases List.mem_cons.mp hf with rfl | hf
        · exact ⟨hOwned.lt, hFree⟩
        · exact ⟨(ih hPool f hf).1, fun hMarked => (ih hPool f hf).2 (hTaking f hMarked)⟩

end Frames

namespace Paging

open Frames

variable {used : Finset Nat} {held : List (Nat × Nat)} {s : Paging} {p f i : Nat} {e : PageEntry}

/-- How many of the next `left` tables are missing. -/
def missing (s : Paging) (p : Nat) : Nat → Nat → Nat
  | 0, _ => 0
  | left + 1, i => (if (s.mem p i).Has pgPresent then 0 else 1) + missing s p left (i + 1)

theorem missing_congr {s' : Paging} (left i : Nat) (h : ∀ k, i ≤ k → s'.mem p k = s.mem p k) :
    s'.missing p left i = s.missing p left i := by
  induction left generalizing i with
  | zero => rfl
  | succ left ih => rw [missing, missing, h i le_rfl, ih (i + 1) fun k hk => h k (by omega)]

/-- A page map in order, whose tables are entered once each. -/
structure Tree (used : Finset Nat) (held : List (Nat × Nat)) (s : Paging) (p : Nat) : Prop where
  maps : s.Maps (fun _ _ => True) used held {p}
  apart : ∀ i < pageMapEntries - 2, ∀ k < pageMapEntries - 2, i ≠ k → (s.mem p i).Has pgPresent →
    (s.mem p k).Has pgPresent → (s.mem p i).frame ≠ (s.mem p k).frame

theorem anyLeaf : LeafRule fun _ _ => True := ⟨fun _ _ _ _ _ => trivial, fun _ => trivial⟩

theorem Tree.root_ne (h : s.Tree used held p) (hi : i < pageMapEntries - 2)
    (hPresent : (s.mem p i).Has pgPresent) : p ≠ (s.mem p i).frame := by
  intro he
  refine (h.maps.table p rfl i hi hPresent).2.1 ?_
  exact Set.mem_singleton_iff.mpr he.symm

/-- An entry of a page table is written: no other page changes. -/
theorem Tree.write_leaf (h : s.Tree used held p) {vpn : Nat} (hLow : vpn < lowPages)
    (hDir : (s.mem p (vpn / pageMapEntries)).Has pgPresent) :
    (s.write (s.mem p (vpn / pageMapEntries)).frame (vpn % pageMapEntries) e).Tree used held p ∧
      ∀ v < lowPages, v ≠ vpn →
        walk (s.write (s.mem p (vpn / pageMapEntries)).frame (vpn % pageMapEntries) e).mem p v =
          walk s.mem p v := by
  have hi := table_of_low hLow
  have hRoot : (s.write (s.mem p (vpn / pageMapEntries)).frame (vpn % pageMapEntries) e).mem p =
      s.mem p := mem_write_of_frame (h.root_ne hi hDir)
  refine ⟨⟨h.maps.write_leaf rfl hi hDir trivial, ?_⟩, fun v hv hne => ?_⟩
  · rw [hRoot]
    exact h.apart
  · rw [walk, walk, hRoot]
    by_cases hThere : (s.mem p (v / pageMapEntries)).Has pgPresent
    · rw [write_word]
      intro hFrame hIndex
      refine hne ?_
      rw [← index_split v, ← index_split vpn, hIndex]
      by_contra hSplit
      refine h.apart _ (table_of_low hv) _ hi (fun he => hSplit ?_) hThere hDir hFrame
      rw [he]
    · rw [if_neg fun hBoth => hThere hBoth.1, if_neg fun hBoth => hThere hBoth.1]

/-- A new table is entered: no page changes while its frame holds no present word. -/
theorem Tree.enter (h : s.Tree used held p) (hi : i < pageMapEntries - 2)
    (hAbsent : ¬ (s.mem p i).Has pgPresent) {frames : Frames} (usage : Nat)
    (hPool : Holding.Sound used ⟨frames, held⟩) (hTaking : Holding.Taking s.frames frames)
    (hZero : f ≠ 0) (hFree : ¬ s.frames.Marked f) (hOwned : Holding.Owned ⟨frames, held⟩ f)
    {flags : BitVec 12} (hUser : PageEntry.Has ⟨f, flags⟩ pgUser)
    (hClean : ∀ j < pageMapEntries, ¬ (s.mem f j).Has pgPresent) :
    (write { s with frames := frames, usage := usage } p i ⟨f, flags⟩).Tree used held p ∧
      ∀ v < lowPages,
        walk (write { s with frames := frames, usage := usage } p i ⟨f, flags⟩).mem p v =
          walk s.mem p v := by
  have hMaps : Maps (fun _ _ => True) used held { s with frames := frames, usage := usage } {p} :=
    h.maps.keep anyLeaf hPool hTaking.grows fun _ _ => rfl
  have hfp : f ≠ p := fun he => hFree (he ▸ (h.maps.root p rfl).owned.marked)
  have hfTable : ∀ k < pageMapEntries - 2, (s.mem p k).Has pgPresent → (s.mem p k).frame ≠ f :=
    fun k hk hThere he => hFree (he ▸ (h.maps.table p rfl k hk hThere).2.2.owned.marked)
  generalize hs' : write { s with frames := frames, usage := usage } p i ⟨f, flags⟩ = s'
  have hNew : s'.mem p i = ⟨f, flags⟩ := by rw [← hs', mem_write]
  have hOther : ∀ k ≠ i, s'.mem p k = s.mem p k := fun k hk => by rw [← hs', mem_write_of_index hk]
  have hMem : ∀ g ≠ p, s'.mem g = s.mem g := fun g hg => by rw [← hs', mem_write_of_frame hg]
  refine ⟨⟨?_, fun k hk l hl hne hThere hThere' => ?_⟩, fun v hv => ?_⟩
  · rw [← hs']
    exact hMaps.write_table rfl hi hAbsent hUser hfp ⟨hZero, hOwned, fun _ _ => trivial⟩
  · by_cases hki : k = i
    · rw [hOther l fun he => hne (hki.trans he.symm)] at hThere' ⊢
      rw [hki, hNew]
      exact (hfTable l hl hThere').symm
    · rw [hOther k hki] at hThere ⊢
      by_cases hli : l = i
      · rw [hli, hNew]
        exact hfTable k hk hThere
      · rw [hOther l hli] at hThere' ⊢
        exact h.apart k hk l hl hne hThere hThere'
  · by_cases hvi : v / pageMapEntries = i
    · have hWord := hClean (v % pageMapEntries) (Nat.mod_lt _ (by decide))
      rw [walk, walk, hvi, hNew, hMem f hfp, if_neg fun hBoth => hWord hBoth.2,
        if_neg fun hBoth => hAbsent hBoth.1]
    · rw [walk, walk, hOther _ hvi]
      by_cases hThere : (s.mem p (v / pageMapEntries)).Has pgPresent
      · rw [hMem _ (h.root_ne (table_of_low hv) hThere).symm]
      · rw [if_neg fun hBoth => hThere hBoth.1, if_neg fun hBoth => hThere hBoth.1]

/-- The frame of a table without a present word is filled with zeros. -/
theorem Tree.clear (h : s.Tree used held p) (hi : i < pageMapEntries - 2)
    (hDir : (s.mem p i).Has pgPresent)
    (hClean : ∀ j < pageMapEntries, ¬ (s.mem (s.mem p i).frame j).Has pgPresent) :
    (s.setFrame (s.mem p i).frame fun _ => PageEntry.zero).Tree used held p ∧
      ∀ v < lowPages, walk (s.setFrame (s.mem p i).frame fun _ => PageEntry.zero).mem p v =
        walk s.mem p v := by
  have hNot : (s.mem p i).frame ∉ ({p} : Set Nat) := (h.maps.table p rfl i hi hDir).2.1
  have hRoot : (s.setFrame (s.mem p i).frame fun _ => PageEntry.zero).mem p = s.mem p :=
    mem_setFrame_of_ne (h.root_ne hi hDir)
  refine ⟨⟨h.maps.clearFrame anyLeaf hNot, ?_⟩, fun v hv => ?_⟩
  · rw [hRoot]
    exact h.apart
  · rw [walk, walk, hRoot]
    by_cases hFrame : (s.mem p (v / pageMapEntries)).frame = (s.mem p i).frame
    · have hOld := hClean (v % pageMapEntries) (Nat.mod_lt _ (by decide))
      rw [hFrame, mem_setFrame, if_neg fun hBoth => PageEntry.not_has_zero hBoth.2,
        if_neg fun hBoth => hOld hBoth.2]
    · rw [mem_setFrame_of_ne hFrame]

/-- One new table of `page_map`. -/
theorem Tree.newTable (h : s.Tree used held p) (hi : i < pageMapEntries - 2)
    (hAbsent : ¬ (s.mem p i).Has pgPresent) {frames : Frames} (usage : Nat)
    (hPool : Holding.Sound used ⟨frames, held⟩) (hTaking : Holding.Taking s.frames frames)
    (hZero : f ≠ 0) (hFree : ¬ s.frames.Marked f) (hOwned : Holding.Owned ⟨frames, held⟩ f)
    {flags : BitVec 12} (hPresent : PageEntry.Has ⟨f, flags⟩ pgPresent)
    (hUser : PageEntry.Has ⟨f, flags⟩ pgUser)
    (hClean : ∀ j < pageMapEntries, ¬ (s.mem f j).Has pgPresent) :
    ∃ t t', setEntry p (self 1) i ⟨f, flags⟩ { s with frames := frames, usage := usage } = some t ∧
      t.clearPage p (self 0 + i) = some t' ∧ t.Tree used held p ∧ t'.Tree used held p ∧
      (∀ v < lowPages, walk t.mem p v = walk s.mem p v) ∧
      (∀ v < lowPages, walk t'.mem p v = walk s.mem p v) ∧ t'.frames = frames ∧
      (t'.mem p i).Has pgPresent ∧ (∀ k ≠ i, t'.mem p k = s.mem p k) ∧
      ∀ g ≠ p, g ≠ f → t'.mem g = s.mem g := by
  have hRooted : Rooted { s with frames := frames, usage := usage } p :=
    ⟨(h.maps.root p rfl).rooted.frame, (h.maps.root p rfl).rooted.present⟩
  obtain ⟨hTree, hWalk⟩ := h.enter hi hAbsent usage hPool hTaking hZero hFree hOwned hUser hClean
  have hfp : f ≠ p := fun he => hFree (he ▸ (h.maps.root p rfl).owned.marked)
  have hSet := hRooted.setEntry_dir (e := ⟨f, flags⟩) (by omega : i < pageMapEntries)
  generalize ht : write { s with frames := frames, usage := usage } p i ⟨f, flags⟩ = t at *
  have hNew : t.mem p i = ⟨f, flags⟩ := by rw [← ht, mem_write]
  have hMem : ∀ g ≠ p, t.mem g = s.mem g := fun g hg => by rw [← ht, mem_write_of_frame hg]
  have hDir : (t.mem p i).Has pgPresent := by
    rw [hNew]
    exact hPresent
  have hFound := (hTree.maps.root p rfl).rooted.frameAt_self (by omega : i < pageMapEntries) hDir
  obtain ⟨hTree', hWalk'⟩ := hTree.clear hi hDir (by
    rw [hNew, hMem f hfp]
    exact hClean)
  rw [hNew] at hFound hTree' hWalk'
  have hRoot : (t.setFrame f fun _ => PageEntry.zero).mem p = t.mem p := mem_setFrame_of_ne hfp.symm
  refine ⟨t, _, hSet, by rw [clearPage, hFound, Option.map_some], hTree, hTree', hWalk,
    fun v hv => (hWalk' v hv).trans (hWalk v hv), ?_, ?_, fun k hk => ?_, fun g hgp hgf => ?_⟩
  · rw [setFrame_frames, ← ht, write_frames]
  · rw [hRoot]
    exact hDir
  · rw [hRoot, ← ht, mem_write_of_index hk]
  · rw [mem_setFrame_of_ne hgf, hMem g hgp]

end Paging

namespace Mmu

open Frames Paging

variable {env : Nat → List Nat} {used : Finset Nat} {held : List (Nat × Nat)} {s s' : Mmu}
  {p kernelEnd : Nat} {bits : BitVec 12}

/-- The page map is in order, and the TLB holds entries as they are in the page tables. -/
structure Good (used : Finset Nat) (held : List (Nat × Nat)) (s : Mmu) (p : Nat) : Prop where
  tree : s.paging.Tree used held p
  coherent : ∀ v < lowPages, ∀ e, s.tlb v = some e → walk s.paging.mem p v = some e

theorem Good.access (h : s.Good used held p) (vpn : Nat) : (access p s vpn).Good used held p := by
  rw [Mmu.access]
  split
  · rename_i e he
    refine ⟨h.tree, fun v hv e' he' => ?_⟩
    have hEntry : Function.update s.tlb vpn (some e) v = some e' := he'
    by_cases hvpn : v = vpn
    · rw [hvpn, Function.update_self] at hEntry
      rw [hvpn, ← hEntry]
      exact he
    · rw [Function.update_of_ne hvpn] at hEntry
      exact h.coherent v hv e' hEntry
  · exact h

theorem Good.accesses (h : s.Good used held p) (env : Nat → List Nat) :
    (accesses env p s).Good used held p := by
  have hFold : ∀ (l : List Nat) (t : Mmu), t.Good used held p →
      (l.foldl (Mmu.access p) t).Good used held p := by
    intro l
    induction l with
    | nil => exact fun _ ht => ht
    | cons vpn l ih => exact fun t ht => ih _ (ht.access vpn)
  exact hFold _ _ ⟨h.tree, h.coherent⟩

theorem Good.flush (h : s.Good used held p) {c : Prop} [Decidable c] (vpn : Nat) :
    (if c then s.tlbFlushOnePage vpn else s).Good used held p := by
  split
  · refine ⟨h.tree, fun v hv e he => h.coherent v hv e ?_⟩
    by_cases hvpn : v = vpn
    · have hNone : Function.update s.tlb vpn none v = some e := he
      rw [hvpn, Function.update_self] at hNone
      cases hNone
    · have hSame : Function.update s.tlb vpn none v = some e := he
      rwa [Function.update_of_ne hvpn] at hSame
  · exact h

/-- The page tables change, but no entry that a TLB may hold. -/
theorem Good.update (h : s.Good used held p) {paging : Paging} (hTree : paging.Tree used held p)
    (hWalk : ∀ v < lowPages, ∀ e, walk s.paging.mem p v = some e → walk paging.mem p v = some e) :
    Good used held { s with paging := paging } p :=
  ⟨hTree, fun v hv e he => hWalk v hv e (h.coherent v hv e he)⟩

/-- The first round of `page_map`. -/
theorem Good.mapTables (h : s.Good used held p) (env : Nat → List Nat) (kernelEnd : Nat)
    (bits : BitVec 12) (left vpn : Nat) (hRange : vpn + left ≤ pageMapEntries - 2)
    (hClean : ∀ f ∈ s.paging.frames.grants kernelEnd (s.paging.missing p left vpn),
      ∀ j < pageMapEntries, ¬ (s.paging.mem f j).Has pgPresent) :
    ∃ s' complete, mapTables env kernelEnd p bits left vpn s = some (s', complete) ∧
      s'.Good used held p ∧
      (∀ v < lowPages, walk s'.paging.mem p v = walk s.paging.mem p v) ∧
      (∀ i, (s.paging.mem p i).Has pgPresent → (s'.paging.mem p i).Has pgPresent) ∧
      (complete = true → ∀ i, vpn ≤ i → i < vpn + left → (s'.paging.mem p i).Has pgPresent) := by
  induction left generalizing vpn s with
  | zero => exact ⟨s, true, rfl, h, fun _ _ => rfl, fun _ hi => hi, fun _ i h₁ h₂ => by omega⟩
  | succ left ih =>
      have hAccess := h.accesses env
      have hRooted := (h.tree.maps.root p rfl).rooted
      rw [Mmu.mapTables]
      dsimp only
      rw [accesses_paging, hRooted.entry_dir (by omega), Option.bind_some]
      rw [missing] at hClean
      by_cases hPresent : (s.paging.mem p vpn).Has pgPresent
      · rw [if_pos hPresent, Nat.zero_add] at hClean
        rw [if_pos hPresent]
        obtain ⟨s', complete, hExec, hGood, hWalk, hStay, hAll⟩ := ih hAccess (vpn + 1) (by omega)
          (by rw [accesses_paging]; exact hClean)
        rw [accesses_paging] at hWalk hStay
        refine ⟨s', complete, hExec, hGood, hWalk, hStay, fun hDone i h₁ h₂ => ?_⟩
        rcases Nat.eq_or_lt_of_le h₁ with rfl | h₁
        · exact hStay vpn hPresent
        · exact hAll hDone i h₁ (by omega)
      · rw [if_neg hPresent, Nat.add_comm 1, grants] at hClean
        obtain ⟨frames, addr, hCall, hPool, hTaking, hAnswer⟩ := h.tree.maps.pool.take kernelEnd
        rw [if_neg hPresent, hCall, Option.bind_some]
        rw [hCall] at hClean
        dsimp only at hClean ⊢
        by_cases hAddr : addr = 0
        · rw [if_pos hAddr]
          refine ⟨_, false, rfl, hAccess.update ?_ ?_, fun _ _ => rfl, fun _ hi => hi,
            fun hDone => absurd hDone (by decide)⟩
          · exact ⟨h.tree.maps.keep anyLeaf hPool hTaking.grows fun _ _ => rfl, h.tree.apart⟩
          · rw [accesses_paging]
            exact fun _ _ _ he => he
        · rw [if_neg hAddr] at hClean ⊢
          obtain ⟨hFirst, hRest⟩ := List.forall_mem_cons.mp hClean
          obtain ⟨hZero, hFree, hOwned⟩ := hAnswer hAddr
          obtain ⟨hTable, hUser⟩ := PageEntry.has_table (addr >>> pageBits) bits
          obtain ⟨t, t', hSet, hClear, hTree, hTree', hWalk, hWalk', hFrames, hThere, hSame, hOther⟩ :=
            h.tree.newTable (by omega) hPresent
              (if bits &&& pgUser ≠ 0 then incr32 s.paging.usage else s.paging.usage) hPool hTaking hZero
              hFree hOwned hTable hUser hFirst
          rw [hSet, Option.bind_some, accesses_paging]
          dsimp only
          rw [hClear, Option.bind_some]
          have hEntered : Good used held { Mmu.accesses env p s with paging := t } p := by
            refine hAccess.update hTree fun v hv e he => ?_
            rw [accesses_paging] at he
            rw [hWalk v hv, he]
          have hCleared : Good used held
              { Mmu.accesses env p { Mmu.accesses env p s with paging := t } with paging := t' } p := by
            refine (hEntered.accesses env).update hTree' fun v hv e he => ?_
            rw [accesses_paging] at he
            rw [hWalk' v hv, ← hWalk v hv]
            exact he
          have hMissing : t'.missing p left (vpn + 1) = s.paging.missing p left (vpn + 1) :=
            missing_congr left (vpn + 1) fun k hk => hSame k (by omega)
          obtain ⟨s', complete, hExec, hGood, hWalk'', hStay, hAll⟩ := ih hCleared (vpn + 1) (by omega)
            (by
              intro g hg j hj
              dsimp only at hg ⊢
              rw [hMissing, hFrames] at hg
              have hgFree := (hPool.grants_free _ g hg).2
              rw [hOther g (fun he => hgFree (he ▸ hTaking p (h.tree.maps.root p rfl).owned.marked))
                fun he => hgFree (he ▸ hOwned.marked)]
              exact hRest g hg j hj)
          have hKept : ∀ i, (s.paging.mem p i).Has pgPresent → (t'.mem p i).Has pgPresent := by
            intro i hi
            by_cases hvpn : i = vpn
            · exact hvpn ▸ hThere
            · exact hSame i hvpn ▸ hi
          refine ⟨s', complete, hExec, hGood, fun v hv => (hWalk'' v hv).trans (hWalk' v hv),
            fun i hi => hStay i (hKept i hi), fun hDone i h₁ h₂ => ?_⟩
          rcases Nat.eq_or_lt_of_le h₁ with rfl | h₁
          · exact hStay vpn hThere
          · exact hAll hDone i h₁ (by omega)

/-- The second round of `page_map`. -/
theorem Good.mapPages (h : s.Good used held p) (env : Nat → List Nat) (bits : BitVec 12)
    (left vpn frame : Nat) (hRange : vpn + left ≤ lowPages)
    (hTables : ∀ k < left, (s.paging.mem p ((vpn + k) / pageMapEntries)).Has pgPresent)
    (hOld : ∀ k < left, walk s.paging.mem p (vpn + k) = none ∨
      walk s.paging.mem p (vpn + k) = some ⟨frame + k, bits ||| pgPresent⟩) :
    ∃ s', mapPages env p bits left vpn frame s = some s' ∧ s'.Good used held p := by
  induction left generalizing vpn frame s with
  | zero => exact ⟨s, rfl, h⟩
  | succ left ih =>
      have hLow : vpn < lowPages := by omega
      have hDir : (s.paging.mem p (vpn / pageMapEntries)).Has pgPresent :=
        hTables 0 (Nat.zero_lt_succ left)
      have hRooted := (h.tree.maps.root p rfl).rooted
      have hNow := (((h.accesses env).flush (c := ((s.paging.mem (s.paging.mem p (vpn / pageMapEntries)).frame
        (vpn % pageMapEntries)).Has pgPresent)) vpn)).accesses env
      obtain ⟨hTree, hOther⟩ := h.tree.write_leaf (e := ⟨frame, bits ||| pgPresent⟩) hLow hDir
      have hEntry : s.paging.entry p (self 0) vpn =
          some (s.paging.mem (s.paging.mem p (vpn / pageMapEntries)).frame (vpn % pageMapEntries)) := by
        have hTable := table_of_low hLow
        have hRead := hRooted.entry_table (by omega : vpn / pageMapEntries < pageMapEntries)
          (Nat.mod_lt vpn (by decide)) hDir
        rwa [index_split] at hRead
      have hRoot : ∀ e : PageEntry, (s.paging.write (s.paging.mem p (vpn / pageMapEntries)).frame
          (vpn % pageMapEntries) e).mem p = s.paging.mem p := fun e =>
        mem_write_of_frame (h.tree.root_ne (table_of_low hLow) hDir)
      have hNew : walk (s.paging.write (s.paging.mem p (vpn / pageMapEntries)).frame
          (vpn % pageMapEntries) ⟨frame, bits ||| pgPresent⟩).mem p vpn =
            some ⟨frame, bits ||| pgPresent⟩ :=
        walk_write (h.tree.root_ne (table_of_low hLow) hDir).symm hDir PageEntry.has_page
      rw [Mmu.mapPages]
      dsimp only
      rw [accesses_paging, hEntry, Option.bind_some, accesses_paging, flush_paging, accesses_paging,
        hRooted.setEntry_page hLow hDir, Option.bind_some]
      have hNext : ∀ n k : Nat, n + 1 + k = n + (k + 1) := fun n k => by omega
      refine ih (hNow.update hTree fun v hv e he => ?_) (vpn + 1) (frame + 1) (by omega)
        (fun k hk => ?_) fun k hk => ?_
      · rw [accesses_paging, flush_paging, accesses_paging] at he
        by_cases hvpn : v = vpn
        · rw [hvpn] at he ⊢
          rw [hNew]
          rcases hOld 0 (Nat.zero_lt_succ left) with hNone | hSame
          · exact absurd (he.symm.trans hNone) (Option.some_ne_none e)
          · exact hSame.symm.trans he
        · rw [hOther v hv hvpn, he]
      · dsimp only
        rw [hRoot, hNext]
        exact hTables (k + 1) (by omega)
      · dsimp only
        rw [hNext, hNext, hOther _ (by omega) (by omega)]
        exact hOld (k + 1) (by omega)

/-- `page_map` leaves no stale entry behind. -/
theorem Good.pageMap (h : s.Good used held p) (env : Nat → List Nat) (kernelEnd : Nat)
    {viraddr phyaddr npages : Nat} {bits : BitVec 12} (hPages : 0 < viraddr >>> pageBits + npages)
    (hRange : viraddr >>> pageBits + npages ≤ lowPages)
    (hOld : ∀ k < npages, walk s.paging.mem p (viraddr >>> pageBits + k) = none ∨
      walk s.paging.mem p (viraddr >>> pageBits + k) =
        some ⟨phyaddr >>> pageBits + k, bits ||| pgPresent⟩)
    (hClean : ∀ f ∈ s.paging.frames.grants kernelEnd (s.paging.missing p
        ((viraddr >>> pageBits + npages - 1) / pageMapEntries + 1 -
          viraddr >>> pageBits / pageMapEntries) (viraddr >>> pageBits / pageMapEntries)),
      ∀ j < pageMapEntries, ¬ (s.paging.mem f j).Has pgPresent) :
    ∃ s' ret, pageMap env kernelEnd p viraddr phyaddr npages bits s = some (s', ret) ∧
      s'.Good used held p := by
  rw [Mmu.pageMap]
  dsimp only
  generalize viraddr >>> pageBits = vpn at hPages hRange hOld hClean ⊢
  have hLast := table_of_low (by omega : vpn + npages - 1 < lowPages)
  have hFirst : vpn / pageMapEntries ≤ pageMapEntries - 2 :=
    Nat.div_le_of_le_mul (by rw [show pageMapEntries * (pageMapEntries - 2) = lowPages by decide]; omega)
  obtain ⟨s₁, complete, hExec, hGood, hWalk, _, hAll⟩ := h.mapTables env kernelEnd bits
    ((vpn + npages - 1) / pageMapEntries + 1 - vpn / pageMapEntries) (vpn / pageMapEntries) (by omega)
    hClean
  rw [hExec, Option.bind_some]
  dsimp only
  cases complete with
  | false => exact ⟨s₁, -enomem, rfl, hGood⟩
  | true =>
      obtain ⟨s', hExec', hGood'⟩ := hGood.mapPages env bits npages vpn (phyaddr >>> pageBits) hRange
        (fun k hk => by
          have hUpper : (vpn + k) / pageMapEntries ≤ (vpn + npages - 1) / pageMapEntries :=
            Nat.div_le_div_right (by omega)
          exact hAll rfl _ (Nat.div_le_div_right (by omega)) (by omega))
        fun k hk => by
          rw [hWalk _ (by omega)]
          exact hOld k hk
      exact ⟨s', 0, by rw [if_pos rfl, hExec', Option.map_some], hGood'⟩

/-- `page_unmap` leaves none behind if nothing was mapped. -/
theorem Good.unmapPages (h : s.Good used held p) (left vpn : Nat) (hRange : vpn + left ≤ lowPages)
    (hOld : ∀ k < left, walk s.paging.mem p (vpn + k) = none)
    (hExec : unmapPages env p left vpn s = some s') : s'.Good used held p := by
  induction left generalizing vpn s with
  | zero => exact Option.some.inj hExec ▸ h
  | succ left ih =>
      have hLow : vpn < lowPages := by omega
      have hRooted := (h.tree.maps.root p rfl).rooted
      rw [Mmu.unmapPages, accesses_paging] at hExec
      obtain ⟨t, hSet, hRest⟩ := Option.bind_eq_some_iff.mp hExec
      by_cases hDir : (s.paging.mem p (vpn / pageMapEntries)).Has pgPresent
      · rw [hRooted.setEntry_page hLow hDir] at hSet
        obtain rfl := Option.some.inj hSet
        obtain ⟨hTree, hOther⟩ := h.tree.write_leaf (e := PageEntry.zero) hLow hDir
        refine ih ((h.accesses env).update hTree fun v hv e he => ?_) (vpn + 1) (by omega)
          (fun k hk => ?_) hRest
        · rw [accesses_paging] at he
          by_cases hvpn : v = vpn
          · have hNone := hOld 0 (Nat.zero_lt_succ left)
            rw [Nat.add_zero, ← hvpn, he] at hNone
            cases hNone
          · rw [hOther v hv hvpn, he]
        · dsimp only
          rw [hOther _ (by omega) (by omega), Nat.add_assoc, Nat.add_comm 1]
          exact hOld (k + 1) (by omega)
      · have hTable := table_of_low hLow
        rw [setEntry, hRooted.frameAt_self_absent (by omega) hDir] at hSet
        cases hSet

/-- A call; during `wait` the processor only accesses pages. -/
inductive TlbCall
  | map (viraddr phyaddr npages : Nat) (bits : BitVec 12)
  | unmap (viraddr npages : Nat)
  | wait

def call (env : Nat → List Nat) (kernelEnd p : Nat) (s : Mmu) : TlbCall → Option Mmu
  | .map viraddr phyaddr npages bits =>
      (pageMap env kernelEnd p viraddr phyaddr npages bits s).map Prod.fst
  | .unmap viraddr npages => (pageUnmap env p viraddr npages s).map Prod.fst
  | .wait => some (Mmu.accesses env p s)

/-- The call changes no entry of a present page, and enters no table with present words. -/
def Harmless (kernelEnd p : Nat) (s : Mmu) : TlbCall → Prop
  | .map viraddr phyaddr npages bits =>
      let vpn := viraddr >>> pageBits
      (∀ k < npages, walk s.paging.mem p (vpn + k) = none ∨
        walk s.paging.mem p (vpn + k) = some ⟨phyaddr >>> pageBits + k, bits ||| pgPresent⟩) ∧
      ∀ f ∈ s.paging.frames.grants kernelEnd (s.paging.missing p
          ((vpn + npages - 1) / pageMapEntries + 1 - vpn / pageMapEntries) (vpn / pageMapEntries)),
        ∀ j < pageMapEntries, ¬ (s.paging.mem f j).Has pgPresent
  | .unmap viraddr npages => ∀ k < npages, walk s.paging.mem p (viraddr >>> pageBits + k) = none
  | .wait => True

/-- The pages lie below the page tables, and `page_map` does not compute page `-1`. -/
def TlbCall.InRange : TlbCall → Prop
  | .map viraddr _ npages _ =>
      0 < viraddr >>> pageBits + npages ∧ viraddr >>> pageBits + npages ≤ lowPages
  | .unmap viraddr npages => viraddr >>> pageBits + npages ≤ lowPages
  | .wait => True

/-- One harmless call. -/
theorem Good.call (h : s.Good used held p) {c : TlbCall} (hRange : c.InRange)
    (hHarmless : s.Harmless kernelEnd p c) (hCall : s.call env kernelEnd p c = some s') :
    s'.Good used held p := by
  cases c with
  | map viraddr phyaddr npages bits =>
      obtain ⟨hOld, hClean⟩ := hHarmless
      obtain ⟨s₁, ret, hExec, hGood⟩ := h.pageMap env kernelEnd hRange.1 hRange.2 hOld hClean
      rw [Mmu.call, hExec, Option.map_some] at hCall
      exact Option.some.inj hCall ▸ hGood
  | unmap viraddr npages =>
      rw [Mmu.call, pageUnmap, Option.map_map] at hCall
      obtain ⟨s₁, hExec, hSame⟩ := Option.map_eq_some_iff.mp hCall
      exact hSame ▸ h.unmapPages npages _ hRange hHarmless hExec
  | wait => exact Option.some.inj hCall ▸ h.accesses env

/-- A call of a run. -/
def Step (env : Nat → List Nat) (kernelEnd p : Nat) (s s' : Mmu) : Prop :=
  ∃ c : TlbCall, c.InRange ∧ s.Harmless kernelEnd p c ∧ s.call env kernelEnd p c = some s'

/-- In no run of harmless calls the TLB keeps an entry that differs from the page tables. -/
theorem reachable_coherent {init : Mmu → Prop} (hInit : ∀ s, init s → s.Good used held p)
    (h : Transition.Reachable init (Step env kernelEnd p) s) :
    ∀ v < lowPages, ∀ e, s.tlb v = some e → walk s.paging.mem p v = some e := by
  have hGood : s.Good used held p := by
    apply h.invariant hInit
    intro s s' hs hStep
    obtain ⟨c, hRange, hHarmless, hCall⟩ := hStep
    exact hs.call hRange hHarmless hCall
  exact hGood.coherent

/-- One mapped page and an empty TLB. -/
def onePageStart : Mmu := ⟨onePage, fun _ => none, 0⟩

theorem onePageStart_good : onePageStart.Good onePage.frames.usedFrames [] 0x110 := by
  refine ⟨⟨onePage_maps, fun i hi k hk hne hPresent hPresent' => ?_⟩, fun v hv e he => nomatch he⟩
  have hi₀ : i = 0 := (onePage_dir hPresent).resolve_right (by omega)
  have hk₀ : k = 0 := (onePage_dir hPresent').resolve_right (by omega)
  exact absurd (hi₀.trans hk₀.symm) hne

theorem reachable_coherent_onePage :
    ∃ s, Transition.Reachable (· = onePageStart) (Step (fun _ => [0x150, 0x151]) 0x200000 0x110) s ∧
      s.tlb 0x151 = none ∧ s.tlb 0x150 = some ⟨0x150, pgPresent ||| pgRw ||| pgUser⟩ ∧
      walk s.paging.mem 0x110 0x151 = some ⟨0x300, pgRw ||| pgPresent⟩ ∧
      ∀ v < lowPages, ∀ e, s.tlb v = some e → walk s.paging.mem 0x110 v = some e := by
  have hCall : ((onePageStart.call (fun _ => [0x150, 0x151]) 0x200000 0x110
      (.map 0x151000 0x300000 1 pgRw)).map fun s =>
        (s.tlb 0x151, s.tlb 0x150, walk s.paging.mem 0x110 0x151)) =
      some (none, some ⟨0x150, pgPresent ||| pgRw ||| pgUser⟩, some ⟨0x300, pgRw ||| pgPresent⟩) := by
    decide
  obtain ⟨s, hExec, hSeen⟩ := Option.map_eq_some_iff.mp hCall
  simp only [Prod.mk.injEq] at hSeen
  obtain ⟨hNew, hKept, hWalk⟩ := hSeen
  have hStart : Transition.Reachable (· = onePageStart)
      (Step (fun _ => [0x150, 0x151]) 0x200000 0x110) onePageStart := Transition.Reachable.of_init rfl
  have hHarmless : onePageStart.Harmless 0x200000 0x110 (.map 0x151000 0x300000 1 pgRw) := by
    constructor
    · decide
    · decide
  have hReach := hStart.next ⟨.map 0x151000 0x300000 1 pgRw, ⟨by decide, by decide⟩, hHarmless, hExec⟩
  have hInit : ∀ s, s = onePageStart → s.Good onePage.frames.usedFrames [] 0x110 :=
    fun s hs => hs ▸ onePageStart_good
  exact ⟨s, hReach, hNew, hKept, hWalk, reachable_coherent hInit hReach⟩

/-- An unmapped page stays accessible; a page mapped elsewhere keeps its old frame. -/
theorem tlb_stale :
    (∃ s, onePageStart.call (fun _ => [0x150]) 0x200000 0x110 (.unmap 0x150000 1) = some s ∧
      s.tlb 0x150 = some ⟨0x150, pgPresent ||| pgRw ||| pgUser⟩ ∧
      walk s.paging.mem 0x110 0x150 = none) ∧
    ∃ s, onePageStart.call (fun _ => [0x150]) 0x200000 0x110 (.map 0x150000 0x300000 1 pgRw) = some s ∧
      s.tlb 0x150 = some ⟨0x150, pgPresent ||| pgRw ||| pgUser⟩ ∧
      walk s.paging.mem 0x110 0x150 = some ⟨0x300, pgRw ||| pgPresent⟩ := by
  have hUnmap : ((onePageStart.call (fun _ => [0x150]) 0x200000 0x110 (.unmap 0x150000 1)).map fun s =>
      (s.tlb 0x150, walk s.paging.mem 0x110 0x150)) =
      some (some ⟨0x150, pgPresent ||| pgRw ||| pgUser⟩, none) := by decide
  have hMap : ((onePageStart.call (fun _ => [0x150]) 0x200000 0x110
      (.map 0x150000 0x300000 1 pgRw)).map fun s => (s.tlb 0x150, walk s.paging.mem 0x110 0x150)) =
      some (some ⟨0x150, pgPresent ||| pgRw ||| pgUser⟩, some ⟨0x300, pgRw ||| pgPresent⟩) := by
    decide
  obtain ⟨s, hExec, hSeen⟩ := Option.map_eq_some_iff.mp hUnmap
  obtain ⟨s', hExec', hSeen'⟩ := Option.map_eq_some_iff.mp hMap
  rw [Prod.mk.injEq] at hSeen hSeen'
  exact ⟨⟨s, hExec, hSeen⟩, s', hExec', hSeen'⟩

end Mmu
end ArtOS

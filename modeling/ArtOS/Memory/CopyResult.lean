import ArtOS.Memory.CopyOutcome

/-! When `page_map_copy` makes a true copy of the current page map, or says that
it could not: the condition is on the map and on the answers of `get_pages`. -/
namespace ArtOS

namespace Paging

open Frames

variable {used : Finset Nat} {held : List (Nat × Nat)} {b s s' : Paging} {roots : Set Nat}
  {p d f g i j n : Nat} {e : PageEntry} {kernelEnd : Nat} {lost : Bool}
  {Leaf : Holding → PageEntry → Prop}

/-- The first `n` words of the new root are in place. -/
structure RootState (used : Finset Nat) (held : List (Nat × Nat)) (b s : Paging) (p d n : Nat)
    (lost : Bool) : Prop where
  tracked : Tracked used held b s p d
  absent : ∀ i < n, i < pageMapEntries - 2 → ¬ (b.mem p i).Has pgPresent →
    ¬ (s.mem d i).Has pgPresent
  closed : pageMapEntries - 2 < n → ¬ (s.mem d (pageMapEntries - 2)).Has pgPresent
  table : ∀ i < n, i < pageMapEntries - 2 → (b.mem p i).Has pgPresent →
    (s.mem d i).flags = (b.mem p i).flags ∧ NewTable b s d (s.mem d i).frame
  filled : lost = false → ∀ i < n, i < pageMapEntries - 2 → (b.mem p i).Has pgPresent →
    Filled b s p d i (s.mem d i).frame pageMapEntries
  apart : lost = false → ∀ i < n, i < pageMapEntries - 2 → (b.mem p i).Has pgPresent →
    ∀ k < n, k < pageMapEntries - 2 → (b.mem p k).Has pgPresent →
      ∀ j < pageMapEntries, ∀ l < pageMapEntries, i ≠ k ∨ j ≠ l →
        (s.mem (s.mem d i).frame j).IsUser → (s.mem (s.mem d k).frame l).IsUser →
          (s.mem (s.mem d i).frame j).frame ≠ (s.mem (s.mem d k).frame l).frame
  lost : lost = true → ∃ i < n, i < pageMapEntries - 2 ∧ (b.mem p i).Has pgPresent ∧
    ∃ j < pageMapEntries, (b.mem (b.mem p i).frame j).IsUser ∧
      s.mem (s.mem d i).frame j = b.mem (s.mem d i).frame j

/-- What is in place stays as it is while the frames of the new tables and pages do. -/
theorem RootState.keep (h : RootState used held b s p d n lost)
    (hTracked : Tracked used held b s' p d) (hTaking : Holding.Taking s.frames s'.frames)
    (hDest : ∀ k < n, s'.mem d k = s.mem d k)
    (hMem : ∀ g, ¬ b.frames.Known g → s.frames.Marked g → g ≠ d → s'.mem g = s.mem g) :
    RootState used held b s' p d n lost := by
  have hTable : ∀ i < n, i < pageMapEntries - 2 → (b.mem p i).Has pgPresent →
      s'.mem (s'.mem d i).frame = s.mem (s.mem d i).frame := by
    intro i hi hLow hPresent
    obtain ⟨_, hFresh, hTaken, hne⟩ := h.table i hi hLow hPresent
    rw [hDest i hi]
    exact hMem _ hFresh hTaken hne
  refine ⟨hTracked, fun i hi hLow hNone => ?_, fun hDone => ?_, fun i hi hLow hPresent => ?_,
    fun hAll i hi hLow hPresent j hj => ?_, fun hAll i hi hi' hPresent k hk hk' hPresent' => ?_,
    fun hSome => ?_⟩
  · rw [hDest i hi]
    exact h.absent i hi hLow hNone
  · rw [hDest _ hDone]
    exact h.closed hDone
  · obtain ⟨hFlags, hFresh, hTaken, hne⟩ := h.table i hi hLow hPresent
    rw [hDest i hi]
    exact ⟨hFlags, hFresh, hTaking _ hTaken, hne⟩
  · obtain ⟨x, hRead, hImage⟩ := h.filled hAll i hi hLow hPresent j hj
    rw [hTable i hi hLow hPresent]
    refine ⟨x, hRead, hImage.keep hTaking fun hUser => ?_⟩
    have hPage := hImage.image hUser
    exact hMem _ hPage.fresh hPage.taken hPage.ne_dest
  · rw [hTable i hi hi' hPresent, hTable k hk hk' hPresent']
    exact h.apart hAll i hi hi' hPresent k hk hk' hPresent'
  · obtain ⟨i, hi, hLow, hPresent, j, hj, hUser, hSame⟩ := h.lost hSome
    refine ⟨i, hi, hLow, hPresent, j, hj, hUser, ?_⟩
    rw [hTable i hi hLow hPresent, hDest i hi]
    exact hSame

/-- A word of the root that needs no new table. -/
theorem RootState.next (h : RootState used held b s p d i lost)
    (hAbsent : i < pageMapEntries - 2 → ¬ (b.mem p i).Has pgPresent ∧ ¬ (s.mem d i).Has pgPresent)
    (hClosed : i = pageMapEntries - 2 → ¬ (s.mem d i).Has pgPresent) :
    RootState used held b s p d (i + 1) lost := by
  have hLess : ∀ k < i + 1, k < pageMapEntries - 2 → (b.mem p k).Has pgPresent → k < i := by
    intro k hk hLow hPresent
    refine lt_of_le_of_ne (Nat.lt_succ_iff.mp hk) fun he => ?_
    subst he
    exact (hAbsent hLow).1 hPresent
  refine ⟨h.tracked, fun k hk hLow hNone => ?_, fun hDone => ?_, fun k hk hLow hPresent =>
    h.table k (hLess k hk hLow hPresent) hLow hPresent, fun hAll k hk hLow hPresent =>
    h.filled hAll k (hLess k hk hLow hPresent) hLow hPresent, fun hAll k hk hLow hPresent l hl hLow'
    hPresent' => h.apart hAll k (hLess k hk hLow hPresent) hLow hPresent l
      (hLess l hl hLow' hPresent') hLow' hPresent', fun hSome => ?_⟩
  · by_cases hki : k = i
    · subst hki
      exact (hAbsent hLow).2
    · exact h.absent k (by omega) hLow hNone
  · by_cases hi : i = pageMapEntries - 2
    · rw [← hi]
      exact hClosed hi
    · exact h.closed (by omega)
  · obtain ⟨k, hk, hLost⟩ := h.lost hSome
    exact ⟨k, by omega, hLost⟩

section Rounds

variable (hBase : b.Maps Leaf used held roots) (hp : p ∈ roots) (hNew : ¬ b.frames.Known d)
include hBase hp hNew

theorem RootState.plain (h : RootState used held b s p d i lost)
    (hAbsent : i < pageMapEntries - 2 → ¬ (b.mem p i).Has pgPresent ∧ ¬ e.Has pgPresent)
    (hClosed : i = pageMapEntries - 2 → ¬ e.Has pgPresent) :
    RootState used held b (s.write d i e) p d (i + 1) lost := by
  have hdp : p ≠ d := fun he =>
    hNew (he ▸ known_of_marked (hBase.root p hp).owned.marked)
  have hTracked : Tracked used held b (s.write d i e) p d := by
    refine h.tracked.keep h.tracked.pool (fun _ hg => hg) (mem_write_of_frame hdp) fun q hq =>
      mem_write_of_frame ?_
    rcases hq with hq | hq
    · exact fun he => hNew (he ▸ hq)
    · exact fun he => hq fun _ => he ▸ h.tracked.dest.marked
  have hKeep : RootState used held b (s.write d i e) p d i lost :=
    h.keep hTracked (fun _ hg => hg) (fun k hk => mem_write_of_index (by omega))
      fun g _ _ hg => mem_write_of_frame hg
  refine hKeep.next ?_ ?_
  · rw [mem_write]
    exact hAbsent
  · rw [mem_write]
    exact hClosed

/-- A page table is replaced by the new frame `f`, and the loop over it has ended. -/
theorem RootState.enter {s₁ : Paging} {ret : Int} (h : RootState used held b s p d i lost)
    (hi : i < pageMapEntries - 2) (hPresent : (b.mem p i).Has pgPresent)
    (hTaking : Holding.Taking s.frames s₁.frames) (hFree : ¬ s.frames.Known f)
    (hMem₁ : ∀ g ≠ d, s₁.mem g = s.mem g)
    (hDest₁ : s₁.mem d = Function.update (s.mem d) i ⟨f, (b.mem p i).flags⟩)
    (hTable : NewTable b s₁ d f) (hDone : TableDone used held b s₁ s' p d i f ret) :
    RootState used held b s' p d (i + 1) (lost || !decide (ret = 0)) := by
  have hd₀ : d ≠ (b.mem p 0).frame := fun he =>
    hNew (he ▸ known_of_marked (low_table hBase hp).2)
  have hDest : s'.mem d = s₁.mem d :=
    hDone.mem d (hTaking d h.tracked.dest.marked) hTable.ne_dest.symm hd₀
  have hWord : s'.mem d i = ⟨f, (b.mem p i).flags⟩ := by
    rw [hDest, hDest₁, Function.update_self]
  have hOlder : ∀ g, s.frames.Marked g → g ≠ f := fun g hg he => hFree fun _ => he ▸ hg
  have hTaking' : Holding.Taking s.frames s'.frames := fun g hg => hDone.taking g (hTaking g hg)
  have hKeep : RootState used held b s' p d i lost := by
    refine h.keep hDone.tracked hTaking' (fun k hk => ?_) fun g hgNew hg hgd => ?_
    · rw [hDest, hDest₁, Function.update_of_ne (by omega)]
    · rw [hDone.mem g (hTaking g hg) (hOlder g hg) fun he => hgNew (he ▸ known_of_marked
        (low_table hBase hp).2), hMem₁ g hgd]
  have hDestOld : ∀ k < i, s'.mem d k = s.mem d k := fun k hk => by
    rw [hDest, hDest₁, Function.update_of_ne (by omega)]
  have hOldPage : lost = false → ∀ k < i, k < pageMapEntries - 2 → (b.mem p k).Has pgPresent →
      ∀ l < pageMapEntries, (s'.mem (s'.mem d k).frame l).IsUser →
        s.frames.Marked (s'.mem (s'.mem d k).frame l).frame := by
    intro hAll k hk hLow hThere l hl hUser
    obtain ⟨_, hFresh, hTaken, hne⟩ := h.table k hk hLow hThere
    have hSame : s'.mem (s'.mem d k).frame = s.mem (s.mem d k).frame := by
      rw [hDestOld k hk, hDone.mem _ (hTaking _ hTaken) (hOlder _ hTaken) fun he =>
        hFresh (he ▸ known_of_marked (low_table hBase hp).2), hMem₁ _ hne]
    rw [hSame] at hUser ⊢
    obtain ⟨x, _, hImage⟩ := h.filled hAll k hk hLow hThere l hl
    exact (hImage.image hUser).taken
  have hNewPage : ret = 0 → ∀ l < pageMapEntries, (s'.mem (s'.mem d i).frame l).IsUser →
      ∀ g, s.frames.Marked g → g ≠ (s'.mem (s'.mem d i).frame l).frame := by
    intro hRet l hl hUser g hg he
    rw [hWord] at hUser he
    exact (hDone.complete hRet).newer l hl hUser fun _ => he ▸ hTaking g hg
  have hCases : (lost || !decide (ret = 0)) = false → lost = false ∧ ret = 0 := by simp
  have hSplit : ∀ k < i + 1, k < i ∨ k = i := fun k hk => Nat.lt_succ_iff_lt_or_eq.mp hk
  refine ⟨hDone.tracked, fun k hk hLow hNone => ?_, fun hEnd => by omega, fun k hk hLow hThere => ?_,
    fun hAll k hk hLow hThere => ?_, fun hAll k hk hLow hThere l hl hLow' hThere' j hj j' hj' hne
    hUser hUser' => ?_, fun hSome => ?_⟩
  · rcases hSplit k hk with hk | rfl
    · exact hKeep.absent k hk hLow hNone
    · exact absurd hPresent hNone
  · rcases hSplit k hk with hk | rfl
    · exact hKeep.table k hk hLow hThere
    · rw [hWord]
      exact ⟨rfl, hTable.fresh, hDone.taking f hTable.taken, hTable.ne_dest⟩
  · obtain ⟨hLost, hRet⟩ := hCases hAll
    rcases hSplit k hk with hk | rfl
    · exact hKeep.filled hLost k hk hLow hThere
    · rw [hWord]
      exact (hDone.complete hRet).filled
  · obtain ⟨hLost, hRet⟩ := hCases hAll
    rcases hSplit k hk with hk | rfl
    · rcases hSplit l hl with hl | rfl
      · exact hKeep.apart hLost k hk hLow hThere l hl hLow' hThere' j hj j' hj' hne hUser hUser'
      · exact hNewPage hRet j' hj' hUser' _ (hOldPage hLost k hk hLow hThere j hj hUser)
    · rcases hSplit l hl with hl | rfl
      · exact (hNewPage hRet j hj hUser _ (hOldPage hLost l hl hLow' hThere' j' hj' hUser')).symm
      · rw [hWord] at hUser hUser' ⊢
        exact (hDone.complete hRet).apart j hj j' hj' (hne.resolve_left (not_not.mpr rfl)) hUser hUser'
  · by_cases hLost : lost = true
    · obtain ⟨k, hk, hRest⟩ := hKeep.lost hLost
      exact ⟨k, by omega, hRest⟩
    · have hRet : ret ≠ 0 := by
        intro hRet
        simp [hLost, hRet] at hSome
      obtain ⟨_, j, hj, hUser, hSame⟩ := hDone.lost hRet
      refine ⟨i, Nat.lt_succ_self i, hi, hPresent, j, hj, hUser, ?_⟩
      rw [hWord]
      exact hSame

variable (hFirst : FirstAlone b p) (hKnown : LeavesKnown b p)
include hFirst hKnown

/-- A page table is replaced by the new frame `f`, and its entries are gone through. -/
theorem RootState.tableRound (h : RootState used held b s p d i lost) (kernelEnd : Nat)
    (hi : i < pageMapEntries - 2) (hPresent : (b.mem p i).Has pgPresent)
    (hTmp : i = 0 → TmpEntry b s p 0) (usage : Nat) {frames : Frames}
    (hPool : Holding.Sound used ⟨frames, held⟩) (hTaking : Holding.Taking s.frames frames)
    (hFree : ¬ s.frames.Known f) (hOwned : Holding.Owned ⟨frames, held⟩ f) :
    ∃ s' ret, copyTraverse kernelEnd p 0 (i <<< pageMapBits)
        (write { s with frames := frames, usage := usage } d i ⟨f, (b.mem p i).flags⟩) =
          some (s', ret) ∧
      RootState used held b s' p d (i + 1) (lost || !decide (ret = 0)) ∧
      takeTable b p kernelEnd i pageMapEntries 0 frames = some (s'.frames, decide (ret = 0)) := by
  have hpMarked := (hBase.root p hp).owned.marked
  have hdp : p ≠ d := fun he => hNew (he ▸ known_of_marked hpMarked)
  have hfd : f ≠ d := fun he => hFree fun _ => he ▸ h.tracked.dest.marked
  have hfNew := not_known_of_taking h.tracked.taking hFree
  generalize hs₁ : write { s with frames := frames, usage := usage } d i ⟨f, (b.mem p i).flags⟩ = s₁
  have hFrames₁ : s₁.frames = frames := by rw [← hs₁, write_frames]
  have hMem₁ : ∀ g ≠ d, s₁.mem g = s.mem g := fun g hg => by rw [← hs₁, mem_write_of_frame hg]
  have hDest₁ : s₁.mem d = Function.update (s.mem d) i ⟨f, (b.mem p i).flags⟩ := by
    rw [← hs₁]
    exact mem_setFrame
  have hWord₁ : s₁.mem d i = ⟨f, (b.mem p i).flags⟩ := by rw [hDest₁, Function.update_self]
  have hTracked : Tracked used held b s₁ p d := by
    refine h.tracked.keep (hFrames₁ ▸ hPool) (hFrames₁ ▸ hTaking) (hMem₁ p hdp) fun q hq => hMem₁ q ?_
    rcases hq with hq | hq
    · exact fun he => hNew (he ▸ hq)
    · rw [hFrames₁] at hq
      exact fun he => hq fun _ => he ▸ hTaking d h.tracked.dest.marked
  have hTable : NewTable b s₁ d f := ⟨hfNew, hFrames₁ ▸ hOwned.marked, hfd⟩
  obtain ⟨hfp, hf₀, _⟩ := hTable.ne hBase hp
  have hState : TableState b s₁ s₁ p d i f 0 := by
    refine ⟨fun k hk => absurd hk (Nat.not_lt_zero k), fun k _ => ?_, fun k hk =>
      absurd hk (Nat.not_lt_zero k), fun k hk => absurd hk (Nat.not_lt_zero k)⟩
    rw [hMem₁ f hfd]
    exact h.tracked.mem f (Or.inr hFree) k (fun he => absurd he hfp) fun he => absurd he hf₀
  have hTmp₁ : i = 0 → TmpEntry b s₁ p 0 := by
    intro hi₀
    refine ⟨fun hk hNone => ?_, fun _ hSome => absurd hSome.choose_spec.1 (Nat.not_lt_zero _)⟩
    rw [hMem₁ _ fun he => hNew (he ▸ known_of_marked (low_table hBase hp).2)]
    exact (hTmp hi₀).before hk hNone
  obtain ⟨s', ret, hExec, hDone, hPlan⟩ := hTracked.tableLoop hBase hp hFirst hKnown hNew kernelEnd hi
    hPresent (by rw [hWord₁]; exact hPresent) (by rw [hWord₁]) hTable pageMapEntries 0 (Nat.zero_add _)
    hTmp₁ hState (fun _ hq => hq) fun _ _ _ _ => rfl
  rw [hFrames₁] at hPlan
  exact ⟨s', ret, hExec, h.enter hBase hp hNew hi hPresent (hFrames₁ ▸ hTaking) hFree hMem₁ hDest₁ hTable
    hDone, hPlan⟩

/-- One word of the root: either there was no frame for a table, or the word is in place. -/
theorem RootState.round (h : RootState used held b s p d i lost) (kernelEnd : Nat)
    (hi : i < pageMapEntries) (hTmp : i = 0 → TmpEntry b s p 0) :
    ∃ s' ret, s.copyEntry kernelEnd p 1 (fun vpn _ s =>
        (copyTraverse kernelEnd p 0 (vpn <<< pageMapBits) s).map Prod.fst) i = some (s', ret) ∧
      (ret ≠ 0 ∧ ret = -enomem ∧ Tracked used held b s' p d ∧
          (∀ left, takeTables b p kernelEnd (left + 1) i lost s.frames =
            some (s'.frames, -enomem, lost)) ∨
        ret = 0 ∧ ∃ lost', RootState used held b s' p d (i + 1) lost' ∧
          ∀ left, takeTables b p kernelEnd (left + 1) i lost s.frames =
            takeTables b p kernelEnd left (i + 1) lost' s'.frames) := by
  have hRooted := h.tracked.rooted hBase hp
  have hWrite : ∀ e, s.setEntry p (other 1) i e = some (s.write d i e) := fun e =>
    hRooted.setEntry_other_dir h.tracked.opened hi
  have hSkip : ¬ (b.mem p i).IsUser → ∀ left, takeTables b p kernelEnd (left + 1) i lost s.frames =
      takeTables b p kernelEnd left (i + 1) lost s.frames := by
    intro hUser left
    rw [takeTables, if_neg hUser]
  have hPlain : ¬ (b.mem p i).IsUser → ∀ e, (i < pageMapEntries - 2 → ¬ (b.mem p i).Has pgPresent ∧
      ¬ e.Has pgPresent) → (i = pageMapEntries - 2 → ¬ e.Has pgPresent) →
      ∃ lost', RootState used held b (s.write d i e) p d (i + 1) lost' ∧
        ∀ left, takeTables b p kernelEnd (left + 1) i lost s.frames =
          takeTables b p kernelEnd left (i + 1) lost' (s.write d i e).frames := by
    intro hUser e hAbsent hClosed
    exact ⟨lost, h.plain hBase hp hNew hAbsent hClosed, hSkip hUser⟩
  rw [copyEntry, hRooted.entry_dir hi, Option.bind_some]
  by_cases hSecond : i = pageMapEntries - 2
  · obtain ⟨hPresent, hUser, hSelf⟩ := PageEntry.has_reference (f := d)
    have hOld : ¬ (b.mem p i).IsUser := by
      rw [hSecond]
      exact fun hBoth => (hBase.root p hp).closed hBoth.1
    rw [hSecond, h.tracked.opened, if_pos hPresent, if_neg hUser, if_pos hSelf, ← hSecond, hWrite,
      Option.map_some]
    exact ⟨_, 0, rfl, Or.inr ⟨rfl, hPlain hOld _ (fun hLow => by omega) fun _ =>
      PageEntry.not_has_zero⟩⟩
  · rw [h.tracked.root_word hBase hp hSecond]
    by_cases hThere : (b.mem p i).Has pgPresent
    · by_cases hUser : (b.mem p i).Has pgUser
      · have hi' : i < pageMapEntries - 2 := by
          by_contra hHigh
          obtain rfl : i = pageMapEntries - 1 := by omega
          exact (hBase.root p hp).kernel hUser
        obtain ⟨frames, addr, hCall, hPool, hTaking, hAnswer⟩ := h.tracked.pool.take kernelEnd
        rw [if_pos hThere, if_pos hUser, hCall, Option.bind_some]
        dsimp only
        by_cases hAddr : addr = 0
        · rw [if_pos hAddr]
          refine ⟨_, _, rfl, Or.inl ⟨by decide, rfl, h.tracked.keep hPool hTaking rfl fun _ _ => rfl,
            fun left => ?_⟩⟩
          rw [takeTables, if_pos ⟨hThere, hUser⟩, hCall, Option.bind_some]
          dsimp only
          rw [if_pos hAddr]
        · obtain ⟨_, hFree, hOwned⟩ := hAnswer hAddr
          have hFree' : ¬ s.frames.Known (addr >>> pageBits) := fun hKnown => hFree (hKnown hOwned.lt)
          obtain ⟨s', ret, hExec, hState, hPlan⟩ := h.tableRound hBase hp hNew hFirst hKnown kernelEnd hi'
            hThere hTmp (incr32 s.usage) hPool hTaking hFree' hOwned
          have hSet := Rooted.setEntry_other_dir
            (s := { s with frames := frames, usage := incr32 s.usage })
            (e := ⟨addr >>> pageBits, (b.mem p i).flags⟩) ⟨hRooted.frame, hRooted.present⟩
            h.tracked.opened hi
          rw [if_neg hAddr, hSet, Option.bind_some, hExec]
          refine ⟨s', 0, rfl, Or.inr ⟨rfl, _, hState, fun left => ?_⟩⟩
          rw [takeTables, if_pos ⟨hThere, hUser⟩, hCall, Option.bind_some]
          dsimp only
          rw [if_neg hAddr, hPlan, Option.bind_some]
      · have hHigh : ¬ i < pageMapEntries - 2 := fun hLow =>
          hUser (hBase.table p hp i hLow hThere).1
        have hOld : ¬ (b.mem p i).IsUser := fun hBoth => hUser hBoth.2
        rw [if_pos hThere, if_neg hUser, hWrite, hWrite, Option.map_some, Option.map_some]
        split
        · exact ⟨_, 0, rfl, Or.inr ⟨rfl, hPlain hOld _ (fun hLow => absurd hLow hHigh)
            fun he => absurd he hSecond⟩⟩
        · exact ⟨_, 0, rfl, Or.inr ⟨rfl, hPlain hOld _ (fun hLow => absurd hLow hHigh)
            fun he => absurd he hSecond⟩⟩
    · rw [if_neg hThere, hWrite, Option.map_some]
      exact ⟨_, 0, rfl, Or.inr ⟨rfl, hPlain (fun hBoth => hThere hBoth.1) _
        (fun _ => ⟨hThere, PageEntry.not_has_zero⟩) fun _ => PageEntry.not_has_zero⟩⟩

/-- The loop over the root. -/
theorem RootState.loop (left i : Nat) (h : RootState used held b s p d i lost) (kernelEnd : Nat)
    (hEnd : i + left = pageMapEntries) (hTmp : i = 0 → TmpEntry b s p 0) :
    ∃ s' ret lost', copyLoop (copyEntry kernelEnd p 1 fun vpn _ s =>
        (copyTraverse kernelEnd p 0 (vpn <<< pageMapBits) s).map Prod.fst) left i s = some (s', ret) ∧
      takeTables b p kernelEnd left i lost s.frames = some (s'.frames, ret, lost') ∧
      Tracked used held b s' p d ∧ (ret ≠ 0 → ret = -enomem) ∧
      (ret = 0 → RootState used held b s' p d pageMapEntries lost') := by
  induction left generalizing s i lost with
  | zero =>
      obtain rfl : i = pageMapEntries := hEnd
      exact ⟨s, 0, lost, rfl, rfl, h.tracked, fun hRet => absurd rfl hRet, fun _ => h⟩
  | succ left ih =>
      obtain ⟨s₁, ret, hExec, hCases⟩ := h.round hBase hp hNew hFirst hKnown kernelEnd (by omega) hTmp
      rw [copyLoop, hExec, Option.bind_some]
      dsimp only
      rcases hCases with ⟨hRet, hError, hTracked, hPlan⟩ | ⟨hRet, lost₁, hState, hPlan⟩
      · rw [if_neg hRet]
        refine ⟨s₁, ret, lost, rfl, ?_, hTracked, fun _ => hError, fun he => absurd he hRet⟩
        rw [hPlan left, hError]
      · rw [if_pos hRet, hPlan left]
        exact ih (i + 1) hState (by omega) fun he => absurd he (Nat.succ_ne_zero i)

/-- `page_map_copy` as a whole: its result and whether something is lost are those of its calls
of `get_pages`. -/
theorem Maps.pageMapCopy_outcome (hMem : s.mem = b.mem)
    (hPool : Holding.Sound used ⟨s.frames, held⟩) (hTaking : Holding.Taking b.frames s.frames)
    (hOwned : Holding.Owned ⟨s.frames, held⟩ d) :
    ∃ s' ret frames lost, s.pageMapCopy kernelEnd p d = some (s', ret) ∧
      takeTables b p kernelEnd pageMapEntries 0 false s.frames = some (frames, ret, lost) ∧
      (ret ≠ 0 → ret = -enomem) ∧
      (ret = 0 → s'.mem d (pageMapEntries - 1) = ⟨d, pgPresent ||| pgSelf ||| pgRw⟩ ∧
        ∃ t, RootState used held b t p d pageMapEntries lost ∧
          ∀ g j, (g = d → j ≠ pageMapEntries - 1) → (g = p → j ≠ pageMapEntries - 2) →
            s'.mem g j = t.mem g j) := by
  have hdp : d ≠ p := fun he => hNew (he ▸ known_of_marked (hBase.root p hp).owned.marked)
  have hRooted : s.Rooted p := by
    obtain ⟨hFrame, hPresent⟩ := (hBase.root p hp).rooted
    exact ⟨hMem ▸ hFrame, hMem ▸ hPresent⟩
  generalize hRef : (⟨d, pgPresent ||| pgSelf ||| pgRw⟩ : PageEntry) = reference
  have hTracked : Tracked used held b (s.write p (pageMapEntries - 2) reference) p d := by
    refine ⟨hPool, hTaking, hOwned, ?_, fun f _ j hj _ => ?_⟩
    · rw [mem_write, hRef]
    · rw [write_word hj, hMem]
  have hStart : RootState used held b (s.write p (pageMapEntries - 2) reference) p d 0 false :=
    ⟨hTracked, fun i hi => absurd hi (Nat.not_lt_zero i), fun hEnd => absurd hEnd (Nat.not_lt_zero _),
      fun i hi => absurd hi (Nat.not_lt_zero i), fun _ i hi => absurd hi (Nat.not_lt_zero i),
      fun _ i hi => absurd hi (Nat.not_lt_zero i), fun hSome => absurd hSome Bool.false_ne_true⟩
  have hTmp : TmpEntry b (s.write p (pageMapEntries - 2) reference) p 0 := by
    refine ⟨fun _ _ => ?_, fun _ hSome => absurd hSome.choose_spec.1 (Nat.not_lt_zero _)⟩
    rw [mem_write_of_frame fun he => (low_table hBase hp).1 (by rw [he]; exact hp), hMem]
  obtain ⟨t, ret, lost, hLoop, hPlan, hTracked', hError, hDone⟩ := hStart.loop hBase hp hNew hFirst hKnown
    pageMapEntries 0 kernelEnd (Nat.zero_add _) fun _ => hTmp
  have hRooted' := hTracked'.rooted hBase hp
  have hRooted'' : (t.write d (pageMapEntries - 1) reference).Rooted p := by
    obtain ⟨hFrame, hPresent⟩ := hRooted'
    have hSame := mem_write_of_frame (s := t) (i := pageMapEntries - 1) (e := reference) hdp.symm
    exact ⟨hSame ▸ hFrame, hSame ▸ hPresent⟩
  refine ⟨(t.write d (pageMapEntries - 1) reference).write p (pageMapEntries - 2) PageEntry.zero, ret,
    t.frames, lost, ?_, hPlan, hError, fun hRet => ⟨?_, t, hDone hRet, fun g j hgd hgp => ?_⟩⟩
  · rw [Paging.pageMapCopy]
    dsimp only
    rw [hRef, hRooted.setEntry_dir (by decide), Option.bind_some, copyTraverse, hLoop,
      Option.bind_some]
    dsimp only
    rw [hRooted'.setEntry_other_dir hTracked'.opened (by decide), Option.bind_some,
      hRooted''.setEntry_dir (by decide), Option.map_some]
  · rw [mem_write_of_frame hdp, mem_write]
  · rw [write_word hgp, write_word hgd]

end Rounds

theorem walk_eq_some {mem : Nat → Nat → PageEntry} {vpn : Nat} :
    walk mem p vpn = some e ↔ (mem p (vpn / pageMapEntries)).Has pgPresent ∧ e.Has pgPresent ∧
      mem (mem p (vpn / pageMapEntries)).frame (vpn % pageMapEntries) = e := by
  rw [walk]
  constructor
  · intro h
    split at h
    · rename_i hBoth
      obtain rfl := Option.some.inj h
      exact ⟨hBoth.1, hBoth.2, rfl⟩
    · cases h
  · rintro ⟨hDir, hEntry, rfl⟩
    exact if_pos ⟨hDir, hEntry⟩

/-- What a copy of the current page map has to be; `b` is the state at the time of the call. -/
structure FaithfulCopy (b s : Paging) (p d : Nat) : Prop where
  user : ∀ vpn < lowPages, ∀ e, walk b.mem p vpn = some e → e.Has pgUser →
    ∃ e', walk s.mem d vpn = some e' ∧ e'.flags = e.flags ∧
      (∀ v < lowPages, ∀ x, walk b.mem p v = some x → x.frame ≠ e'.frame) ∧
      (∀ v < lowPages, v ≠ vpn → ∀ x, walk s.mem d v = some x → x.Has pgUser → x.frame ≠ e'.frame) ∧
      ∀ j < pageMapEntries, s.mem e'.frame j = b.mem e.frame j
  kernel : ∀ vpn < lowPages, ∀ e, walk b.mem p vpn = some e → ¬ e.Has pgUser →
    walk s.mem d vpn = some e
  absent : ∀ vpn < lowPages, walk b.mem p vpn = none → walk s.mem d vpn = none
  self : s.mem d (pageMapEntries - 1) = ⟨d, pgPresent ||| pgSelf ||| pgRw⟩

/-- No user page lies at `PAGE_TMP` or in front of it, no other page carries `PG_SELF`, and no user
page is the root or the first table of the map. -/
structure Copyable (b : Paging) (p : Nat) : Prop where
  low : ∀ vpn ≤ pageTmp >>> pageBits, ∀ e, walk b.mem p vpn = some e → ¬ e.Has pgUser
  plain : ∀ vpn < lowPages, ∀ e, walk b.mem p vpn = some e → ¬ e.Has pgUser → ¬ e.Has pgSelf
  apart : ∀ vpn < lowPages, ∀ e, walk b.mem p vpn = some e → e.Has pgUser →
    e.frame ≠ p ∧ e.frame ≠ (b.mem p 0).frame

section Result

variable {t : Paging}

theorem vpn_lt {vpn : Nat} (h : vpn < lowPages) :
    vpn / pageMapEntries < pageMapEntries - 2 ∧ vpn / pageMapEntries < pageMapEntries ∧
      vpn % pageMapEntries < pageMapEntries :=
  have hLow := table_of_low h
  ⟨hLow, by omega, Nat.mod_lt _ (by decide)⟩

theorem not_lowUser (h : Copyable b p) (hLow : (b.mem p 0).Has pgPresent) : ¬ LowUser b p := by
  rintro ⟨k, hk, hUser⟩
  have hSmall : k < pageMapEntries := lt_trans hk (by decide)
  refine h.low k hk.le _ (walk_eq_some.mpr ?_) hUser.2
  rw [Nat.div_eq_of_lt hSmall, Nat.mod_eq_of_lt hSmall]
  exact ⟨hLow, hUser.1, rfl⟩

/-- The word of the new map for a page. -/
def newWord (t : Paging) (d vpn : Nat) : PageEntry :=
  t.mem (t.mem d (vpn / pageMapEntries)).frame (vpn % pageMapEntries)

variable (hBase : b.Maps Leaf used held roots) (hp : p ∈ roots) (hNew : ¬ b.frames.Known d)
  (h : RootState used held b t p d pageMapEntries false)
  (hSame : ∀ g j, (g = d → j ≠ pageMapEntries - 1) → (g = p → j ≠ pageMapEntries - 2) →
    s.mem g j = t.mem g j)
include hBase hp hNew h hSame

/-- The pages of the new map. -/
theorem RootState.page {vpn : Nat} (hLow : vpn < lowPages)
    (hPresent : (b.mem p (vpn / pageMapEntries)).Has pgPresent) :
    (∃ x, Reads b p (vpn / pageMapEntries) (vpn % pageMapEntries) x ∧
      PageImage b t p d (vpn / pageMapEntries) (vpn % pageMapEntries) x (t.newWord d vpn)) ∧
    ∀ e, walk s.mem d vpn = some e ↔ (t.newWord d vpn).Has pgPresent ∧ t.newWord d vpn = e := by
  obtain ⟨hi, hi', hj⟩ := vpn_lt hLow
  obtain ⟨hFlags, hFresh, hTaken, hne⟩ := h.table _ hi' hi hPresent
  have hdp : d ≠ p := fun he => hNew (he ▸ known_of_marked (hBase.root p hp).owned.marked)
  have hDir : s.mem d (vpn / pageMapEntries) = t.mem d (vpn / pageMapEntries) :=
    hSame d _ (fun _ => by omega) fun he => absurd he hdp
  refine ⟨h.filled rfl _ hi' hi hPresent _ hj, fun e => ?_⟩
  rw [walk_eq_some, hDir, hSame _ _ (fun he => absurd he hne) fun he => absurd (he ▸ known_of_marked
    (hBase.root p hp).owned.marked) hFresh]
  constructor
  · rintro ⟨_, hEntry, rfl⟩
    exact ⟨hEntry, rfl⟩
  · rintro ⟨hEntry, rfl⟩
    exact ⟨(PageEntry.has_congr hFlags).mpr hPresent, hEntry, rfl⟩

/-- A table that is missing is missing in the new map. -/
theorem RootState.walk_absent {vpn : Nat} (hLow : vpn < lowPages)
    (hNone : ¬ (b.mem p (vpn / pageMapEntries)).Has pgPresent) : walk s.mem d vpn = none := by
  obtain ⟨hi, hi', _⟩ := vpn_lt hLow
  have hdp : d ≠ p := fun he => hNew (he ▸ known_of_marked (hBase.root p hp).owned.marked)
  refine Option.eq_none_iff_forall_ne_some.mpr fun e he => ?_
  obtain ⟨hDir, _⟩ := walk_eq_some.mp he
  rw [hSame d _ (fun _ => by omega) fun he => absurd he hdp] at hDir
  exact h.absent _ hi' hi hNone hDir

/-- The frame of a new user page is no other user page's. -/
theorem RootState.page_apart {vpn v : Nat} (hLow : vpn < lowPages) (hLow' : v < lowPages)
    (hne : v ≠ vpn) (hPresent : (b.mem p (vpn / pageMapEntries)).Has pgPresent)
    (hUser : (t.newWord d vpn).IsUser) {x : PageEntry} (hx : walk s.mem d v = some x)
    (hxUser : x.Has pgUser) : x.frame ≠ (t.newWord d vpn).frame := by
  obtain ⟨hi, hi', hj⟩ := vpn_lt hLow
  obtain ⟨hk, hk', hl⟩ := vpn_lt hLow'
  by_cases hThere : (b.mem p (v / pageMapEntries)).Has pgPresent
  · obtain ⟨hxPresent, rfl⟩ := ((h.page hBase hp hNew hSame hLow' hThere).2 x).mp hx
    refine h.apart rfl _ hk' hk hThere _ hi' hi hPresent _ hl _ hj ?_ ⟨hxPresent, hxUser⟩ hUser
    by_contra hBoth
    rw [not_or, not_not, not_not] at hBoth
    rw [← index_split v, ← index_split vpn, hBoth.1, hBoth.2] at hne
    exact hne rfl
  · rw [h.walk_absent hBase hp hNew hSame hLow' hThere] at hx
    cases hx

omit hNew h in
/-- What the frame of a new user page holds. -/
theorem page_words {vpn : Nat} {x : PageEntry}
    (hImage : UserImage b t p d (vpn / pageMapEntries) (vpn % pageMapEntries) x (t.newWord d vpn)) :
    s.mem (t.newWord d vpn).frame = t.mem (t.newWord d vpn).frame := by
  funext j
  refine hSame _ j (fun he => absurd he hImage.ne_dest) fun he => absurd ?_ hImage.fresh
  rw [he]
  exact known_of_marked (hBase.root p hp).owned.marked

theorem RootState.faithful (hKnown : LeavesKnown b p) (hCopy : Copyable b p)
    (hLast : s.mem d (pageMapEntries - 1) = ⟨d, pgPresent ||| pgSelf ||| pgRw⟩) :
    FaithfulCopy b s p d := by
  have hNot : ∀ i j, ¬ Overwritten b p i j := fun i j hOver =>
    not_lowUser hCopy (hBase.root p hp).low hOver.2.2
  have hRead : ∀ vpn x, Reads b p (vpn / pageMapEntries) (vpn % pageMapEntries) x →
      x = b.mem (b.mem p (vpn / pageMapEntries)).frame (vpn % pageMapEntries) := by
    intro vpn x hRead
    rwa [Reads, if_neg (hNot _ _)] at hRead
  refine ⟨fun vpn hLow e he hUser => ?_, fun vpn hLow e he hUser => ?_, fun vpn hLow hNone => ?_, hLast⟩
  · obtain ⟨hDir, hPresent, hWord⟩ := walk_eq_some.mp he
    obtain ⟨⟨x, hReads, hImage⟩, hWalk⟩ := h.page hBase hp hNew hSame hLow hDir
    obtain rfl := (hRead vpn x hReads).trans hWord
    have hPage := hImage.user ⟨hPresent, hUser⟩
    have hNewUser : (t.newWord d vpn).IsUser := (PageEntry.isUser_congr hPage.flags).mpr ⟨hPresent, hUser⟩
    refine ⟨t.newWord d vpn, (hWalk _).mpr ⟨hNewUser.1, rfl⟩, hPage.flags, fun v hv x hx he => ?_,
      fun v hv hne x hx hxUser => h.page_apart hBase hp hNew hSame hLow hv hne hDir hNewUser hx hxUser,
      fun j hj => ?_⟩
    · obtain ⟨hDir', hPresent', rfl⟩ := walk_eq_some.mp hx
      obtain ⟨hi, _, hj⟩ := vpn_lt hv
      exact hPage.fresh (he ▸ hKnown _ hi hDir' _ hj hPresent')
    · have hPlace : ¬ (vpn / pageMapEntries = 0 ∧ vpn % pageMapEntries = pageTmp >>> pageBits) := by
        rintro ⟨hDiv, hMod⟩
        have hSplit := index_split vpn
        rw [hDiv, hMod] at hSplit
        exact hCopy.low vpn (by rw [← hSplit]; decide) x he hUser
      obtain ⟨hRoot, hTable⟩ := hCopy.apart vpn hLow x he hUser
      rw [page_words hBase hp hSame hPage]
      exact hPage.copied hPlace j (fun he => absurd he hRoot) fun he => absurd he hTable
  · obtain ⟨hDir, hPresent, hWord⟩ := walk_eq_some.mp he
    obtain ⟨⟨x, hReads, hImage⟩, hWalk⟩ := h.page hBase hp hNew hSame hLow hDir
    obtain rfl := (hRead vpn x hReads).trans hWord
    have hShared := hImage.shared hPresent hUser (hCopy.plain vpn hLow x he hUser)
    rw [hWalk, hShared]
    exact ⟨hPresent, rfl⟩
  · by_cases hDir : (b.mem p (vpn / pageMapEntries)).Has pgPresent
    · obtain ⟨⟨x, hReads, hImage⟩, hWalk⟩ := h.page hBase hp hNew hSame hLow hDir
      refine Option.eq_none_iff_forall_ne_some.mpr fun e he => ?_
      obtain ⟨hPresent, rfl⟩ := (hWalk e).mp he
      have hOld : ¬ x.Has pgPresent := by
        rw [hRead vpn x hReads]
        intro hThere
        rw [walk_eq_some.mpr ⟨hDir, hThere, rfl⟩] at hNone
        cases hNone
      rw [hImage.dropped (Or.inl hOld)] at hPresent
      exact PageEntry.not_has_zero hPresent
    · exact h.walk_absent hBase hp hNew hSame hLow hDir

/-- The copy does not meet its own entry for `PAGE_TMP` if it is true. -/
theorem RootState.no_lowUser (hKnown : LeavesKnown b p) (hFaithful : FaithfulCopy b s p d) :
    ¬ LowUser b p := by
  intro hLowUser
  obtain ⟨v, hv⟩ : ∃ v, pageTmp >>> pageBits = v := ⟨_, rfl⟩
  have hTmpLow : v < lowPages := hv ▸ (by decide)
  have hTmpDiv : v / pageMapEntries = 0 := hv ▸ (by decide)
  have hTmpMod : v % pageMapEntries = v := hv ▸ (by decide)
  have hDir : (b.mem p (v / pageMapEntries)).Has pgPresent := by
    rw [hTmpDiv]
    exact (hBase.root p hp).low
  obtain ⟨⟨x, hRead, hImage⟩, hWalk⟩ := h.page hBase hp hNew hSame hTmpLow hDir
  rw [Reads, hTmpDiv, hTmpMod, if_pos ⟨rfl, hv.symm, hLowUser⟩] at hRead
  obtain ⟨hPresent, hUser⟩ := PageEntry.has_tmp hRead.1
  have hSelf : ¬ x.Has pgSelf := by
    rw [PageEntry.Has, hRead.1]
    decide
  have hNewTmp : walk s.mem d v = some x := by
    rw [hWalk, hImage.shared hPresent hUser hSelf]
    exact ⟨hPresent, rfl⟩
  cases hOld : walk b.mem p v with
  | none =>
      rw [hFaithful.absent _ hTmpLow hOld] at hNewTmp
      cases hNewTmp
  | some e =>
      by_cases heUser : e.Has pgUser
      · obtain ⟨e', he', hFlags, _⟩ := hFaithful.user _ hTmpLow e hOld heUser
        obtain rfl := Option.some.inj (he'.symm.trans hNewTmp)
        exact hUser ((PageEntry.has_congr hFlags).mpr heUser)
      · obtain rfl := Option.some.inj ((hFaithful.kernel _ hTmpLow e hOld heUser).symm.trans hNewTmp)
        obtain ⟨hDir, hThere, hWord⟩ := walk_eq_some.mp hOld
        obtain ⟨hi, _, hj⟩ := vpn_lt hTmpLow
        exact hRead.2 (hWord ▸ hKnown _ hi hDir _ hj (by rw [hWord]; exact hThere))

/-- The new word for a page that is present. -/
theorem RootState.page_image (hLowUser : ¬ LowUser b p) {vpn : Nat} (hLow : vpn < lowPages)
    (he : walk b.mem p vpn = some e) :
    PageImage b t p d (vpn / pageMapEntries) (vpn % pageMapEntries) e (t.newWord d vpn) ∧
      ∀ e', walk s.mem d vpn = some e' ↔ (t.newWord d vpn).Has pgPresent ∧ t.newWord d vpn = e' := by
  obtain ⟨hDir, _, hWord⟩ := walk_eq_some.mp he
  obtain ⟨⟨x, hRead, hImage⟩, hWalk⟩ := h.page hBase hp hNew hSame hLow hDir
  rw [Reads, if_neg fun hOver => hLowUser hOver.2.2] at hRead
  obtain rfl := hRead.trans hWord
  exact ⟨hImage, hWalk⟩

/-- A user page and its copy, if the copy is true. -/
theorem RootState.page_copied (hFaithful : FaithfulCopy b s p d) (hLowUser : ¬ LowUser b p)
    {vpn : Nat} (hLow : vpn < lowPages) (he : walk b.mem p vpn = some e) (hUser : e.Has pgUser) :
    ∃ e', UserImage b t p d (vpn / pageMapEntries) (vpn % pageMapEntries) e e' ∧
      ∀ j < pageMapEntries, t.mem e'.frame j = b.mem e.frame j := by
  obtain ⟨hImage, hWalk⟩ := h.page_image hBase hp hNew hSame hLowUser hLow he
  have hUserImage := hImage.user ⟨(walk_eq_some.mp he).2.1, hUser⟩
  obtain ⟨e', he', _, _, _, hWords⟩ := hFaithful.user vpn hLow e he hUser
  obtain ⟨_, rfl⟩ := (hWalk e').mp he'
  rw [page_words hBase hp hSame hUserImage] at hWords
  exact ⟨_, hUserImage, hWords⟩

/-- A copy that is true tells what the old map is like, if the free frames differ from the page at
`PAGE_TMP`. -/
theorem RootState.copyable (hKnown : LeavesKnown b p) (hFaithful : FaithfulCopy b s p d)
    (hFill : ∀ e, walk b.mem p (pageTmp >>> pageBits) = some e →
      ∀ f, ¬ b.frames.Known f → b.mem f 0 ≠ b.mem e.frame 0) : Copyable b p := by
  have hTmpLow : pageTmp >>> pageBits < lowPages := by decide
  have hLowUser := h.no_lowUser hBase hp hNew hSame hKnown hFaithful
  have hNotTmp : ∀ e, walk b.mem p (pageTmp >>> pageBits) = some e → ¬ e.Has pgUser := by
    intro e he hUser
    obtain ⟨e', hImage, hWords⟩ := h.page_copied hBase hp hNew hSame hFaithful hLowUser hTmpLow he hUser
    refine hFill e he e'.frame hImage.fresh ?_
    rw [← hImage.itself ⟨by decide, by decide⟩]
    exact hWords 0 (by decide)
  have hPlace : ∀ vpn < lowPages, ∀ e, walk b.mem p vpn = some e → e.Has pgUser →
      ¬ (vpn / pageMapEntries = 0 ∧ vpn % pageMapEntries = pageTmp >>> pageBits) := by
    rintro vpn hLow e he hUser ⟨hDiv, hMod⟩
    have hSplit := index_split vpn
    rw [hDiv, hMod] at hSplit
    rw [← hSplit] at he
    exact hNotTmp e he hUser
  refine ⟨fun vpn hLow e he hUser => ?_, fun vpn hLow e he hUser hSelf => ?_,
    fun vpn hLow e he hUser => ⟨fun hRoot => ?_, fun hTable => ?_⟩⟩
  · rcases Nat.eq_or_lt_of_le hLow with rfl | hLess
    · exact hNotTmp e he hUser
    · obtain ⟨_, hPresent, hWord⟩ := walk_eq_some.mp he
      have hSmall : vpn < pageMapEntries := lt_trans hLess (by decide)
      rw [Nat.div_eq_of_lt hSmall, Nat.mod_eq_of_lt hSmall] at hWord
      exact hLowUser ⟨vpn, hLess, by rw [hWord]; exact ⟨hPresent, hUser⟩⟩
  · obtain ⟨hImage, hWalk⟩ := h.page_image hBase hp hNew hSame hLowUser hLow he
    have hZero := hImage.dropped (Or.inr ⟨hUser, hSelf⟩)
    have hNone := ((hWalk e).mp (hFaithful.kernel vpn hLow e he hUser)).1
    rw [hZero] at hNone
    exact PageEntry.not_has_zero hNone
  · obtain ⟨e', hImage, hWords⟩ := h.page_copied hBase hp hNew hSame hFaithful hLowUser hLow he hUser
    have hWord := hWords (pageMapEntries - 2) (by decide)
    rw [hImage.root (hPlace vpn hLow e he hUser) hRoot, hRoot] at hWord
    refine (hBase.root p hp).closed ?_
    rw [← hWord]
    exact PageEntry.has_reference.1
  · obtain ⟨e', hImage, hWords⟩ := h.page_copied hBase hp hNew hSame hFaithful hLowUser hLow he hUser
    have hWord := hWords (pageTmp >>> pageBits) (by decide)
    rw [hImage.table (hPlace vpn hLow e he hUser) hTable, hTable] at hWord
    have hEntry := hKnown 0 (by decide) (hBase.root p hp).low (pageTmp >>> pageBits) (by decide)
    rw [← hWord] at hEntry
    exact hImage.fresh (hEntry PageEntry.has_page)

end Result

/-- What is lost shows if the free frames hold no entry. -/
theorem RootState.not_lost {t : Paging} (hBase : b.Maps Leaf used held roots) (hp : p ∈ roots)
    (hNew : ¬ b.frames.Known d) (h : RootState used held b t p d pageMapEntries true)
    (hSame : ∀ g j, (g = d → j ≠ pageMapEntries - 1) → (g = p → j ≠ pageMapEntries - 2) →
      s.mem g j = t.mem g j) (hFaithful : FaithfulCopy b s p d)
    (hFill : ∀ f, ¬ b.frames.Known f → ∀ j, ¬ (b.mem f j).Has pgPresent) : False := by
  obtain ⟨i, hi, hLow, hPresent, j, hj, hUser, hLost⟩ := h.lost rfl
  obtain ⟨_, hFresh, hTaken, hne⟩ := h.table i hi hLow hPresent
  obtain ⟨hDiv, hMod⟩ := table_index (i := i) hj
  have hVpn : i <<< pageMapBits + j < lowPages := by
    rw [lowPages, Nat.shiftLeft_eq, Nat.shiftLeft_eq]
    have hMul : (i + 1) * 2 ^ pageMapBits ≤ (pageMapEntries - 2) * 2 ^ pageMapBits :=
      Nat.mul_le_mul_right _ hLow
    rw [Nat.succ_mul] at hMul
    exact lt_of_lt_of_le (Nat.add_lt_add_left hj _) hMul
  have hWalk : walk b.mem p (i <<< pageMapBits + j) = some (b.mem (b.mem p i).frame j) := by
    rw [walk_eq_some, hDiv, hMod]
    exact ⟨hPresent, hUser.1, rfl⟩
  obtain ⟨e', he', _⟩ := hFaithful.user _ hVpn _ hWalk hUser.2
  obtain ⟨_, hThere, hWord⟩ := walk_eq_some.mp he'
  have hpMarked := (hBase.root p hp).owned.marked
  have hdp : d ≠ p := fun he => hNew (he ▸ known_of_marked hpMarked)
  rw [hDiv, hMod, hSame d i (fun _ => by omega) fun he => absurd he hdp, hSame _ j (fun he =>
    absurd he hne) fun he => absurd (he ▸ known_of_marked hpMarked) hFresh, hLost] at hWord
  rw [← hWord] at hThere
  exact hFill _ hFresh j hThere

section Supplied

theorem takeLeaf_supply {m : Nat} {frames : Frames}
    (h : frames.Supply kernelEnd ((if (b.mem (b.mem p i).frame j).IsUser then 1 else 0) + m)) :
    ∃ frames', takeLeaf b p kernelEnd i j frames = some (frames', true) ∧
      frames'.Supply kernelEnd m := by
  rw [takeLeaf]
  by_cases hCopies : Copies b p i j
  · rw [if_pos hCopies.1, Nat.add_comm] at h
    cases h with
    | @next _ _ frames' addr hCall hAddr hRest =>
        rw [if_pos hCopies, hCall, Option.map_some]
        dsimp only
        rw [decide_eq_true hAddr]
        exact ⟨frames', rfl, hRest⟩
  · rw [if_neg hCopies]
    exact ⟨frames, rfl, h.mono (Nat.le_add_left _ _)⟩

theorem takeTable_supply {m : Nat} (left j : Nat) {frames : Frames}
    (h : frames.Supply kernelEnd (userCount (b.mem (b.mem p i).frame) left j + m)) :
    ∃ frames', takeTable b p kernelEnd i left j frames = some (frames', true) ∧
      frames'.Supply kernelEnd m := by
  induction left generalizing j frames with
  | zero => exact ⟨frames, rfl, h.mono (Nat.le_add_left _ _)⟩
  | succ left ih =>
      rw [userCount, Nat.add_assoc] at h
      obtain ⟨frames₁, hLeaf, hLeft⟩ := takeLeaf_supply h
      obtain ⟨frames', hTable, hRest⟩ := ih (j + 1) hLeft
      rw [takeTable, hLeaf, Option.bind_some]
      exact ⟨frames', hTable, hRest⟩

/-- With enough frames no call fails. -/
theorem takeTables_supply {m : Nat} (left i : Nat) {frames : Frames}
    (h : frames.Supply kernelEnd (b.tableCount p left i + m)) :
    ∃ frames', takeTables b p kernelEnd left i lost frames = some (frames', 0, lost) ∧
      frames'.Supply kernelEnd m := by
  induction left generalizing i frames with
  | zero => exact ⟨frames, rfl, h.mono (Nat.le_add_left _ _)⟩
  | succ left ih =>
      rw [tableCount, Nat.add_assoc] at h
      rw [takeTables]
      by_cases hUser : (b.mem p i).IsUser
      · rw [if_pos hUser, Nat.add_assoc, Nat.add_comm] at h
        cases h with
        | @next _ _ frames₁ addr hCall hAddr hRest =>
            obtain ⟨frames₂, hTable, hLeft⟩ := takeTable_supply pageMapEntries 0 hRest
            obtain ⟨frames', hTables, hRest'⟩ := ih (i + 1) hLeft
            rw [if_pos hUser, hCall, Option.bind_some]
            dsimp only
            rw [if_neg hAddr, hTable, Option.bind_some]
            exact ⟨frames', by rw [Bool.not_true, Bool.or_false]; exact hTables, hRest'⟩
      · rw [if_neg hUser] at h ⊢
        exact ih (i + 1) (h.mono (Nat.le_add_left _ _))

/-- A copy that gets all its frames is a true one. -/
theorem Maps.copy_faithful (hBase : b.Maps Leaf used held roots) (hp : p ∈ roots)
    (hFirst : FirstAlone b p) (hKnown : LeavesKnown b p) (hCopyable : Copyable b p)
    (hNew : ¬ b.frames.Marked d) (hMem : s.mem = b.mem)
    (hPool : Holding.Sound used ⟨s.frames, held⟩) (hTaking : Holding.Taking b.frames s.frames)
    (hOwned : Holding.Owned ⟨s.frames, held⟩ d)
    (hSupply : s.frames.Supply kernelEnd (b.tableCount p pageMapEntries 0))
    (hCopy : s.pageMapCopy kernelEnd p d = some (s', 0)) : FaithfulCopy b s' p d := by
  have hFresh : ¬ b.frames.Known d := fun hKnown => hNew (hKnown hOwned.lt)
  obtain ⟨s₁, ret, frames, lost, hExec, hPlan, _, hDone⟩ :=
    hBase.pageMapCopy_outcome hp hFresh hFirst hKnown hMem hPool hTaking hOwned
  obtain ⟨rfl, rfl⟩ := Prod.mk.inj (Option.some.inj (hCopy.symm.trans hExec))
  rw [← Nat.add_zero (b.tableCount p pageMapEntries 0)] at hSupply
  obtain ⟨frames₁, hPlan₁, _⟩ := takeTables_supply pageMapEntries 0 hSupply
  obtain ⟨_, hLost⟩ := Prod.mk.inj (Option.some.inj (hPlan.symm.trans hPlan₁))
  obtain ⟨_, rfl⟩ := Prod.mk.inj hLost
  obtain ⟨hLast, t, hState, hSame⟩ := hDone rfl
  exact hState.faithful hBase hp hFresh hSame hKnown hCopyable hLast

end Supplied

section Contents

variable {mem : Nat → Nat → PageEntry} (hBase : b.Maps (fun _ _ => True) used held roots)
  (hp : p ∈ roots) (hMem : ∀ f, b.frames.Known f → mem f = b.mem f)
include hBase hp hMem

omit hp in
/-- Whatever the free frames hold, the page maps are in order. -/
theorem Maps.contents : Maps (fun _ _ => True) used held { b with mem := mem } roots :=
  hBase.keep ⟨fun _ _ _ _ _ => trivial, fun _ => trivial⟩ hBase.pool (fun _ hf => hf)
    fun f hf => hMem f (known_of_marked hf.marked)

theorem root_contents : mem p = b.mem p := hMem p (known_of_marked (hBase.root p hp).owned.marked)

theorem table_contents (hi : i < pageMapEntries - 2) (hPresent : (b.mem p i).Has pgPresent) :
    mem (b.mem p i).frame = b.mem (b.mem p i).frame :=
  hMem _ (known_of_marked (hBase.table p hp i hi hPresent).2.2.owned.marked)

theorem walk_contents {vpn : Nat} (hLow : vpn < lowPages) : walk mem p vpn = walk b.mem p vpn := by
  rw [walk, walk, root_contents hBase hp hMem]
  by_cases hDir : (b.mem p (vpn / pageMapEntries)).Has pgPresent
  · rw [table_contents hBase hp hMem (table_of_low hLow) hDir]
  · rw [if_neg fun hBoth => hDir hBoth.1, if_neg fun hBoth => hDir hBoth.1]

theorem first_contents (h : FirstAlone b p) : FirstAlone { b with mem := mem } p := by
  have hRoot : ({ b with mem := mem } : Paging).mem p = b.mem p := root_contents hBase hp hMem
  rw [FirstAlone, hRoot]
  exact h

theorem known_contents (h : LeavesKnown b p) : LeavesKnown { b with mem := mem } p := by
  intro i hi hDir j hj
  have hRoot : ({ b with mem := mem } : Paging).mem p = b.mem p := root_contents hBase hp hMem
  rw [hRoot] at hDir ⊢
  have hTable : ({ b with mem := mem } : Paging).mem (b.mem p i).frame = b.mem (b.mem p i).frame :=
    table_contents hBase hp hMem hi hDir
  rw [hTable]
  exact h i hi hDir j hj

theorem copyable_contents : Copyable { b with mem := mem } p ↔ Copyable b p := by
  have hWalk : ∀ vpn < lowPages, walk ({ b with mem := mem } : Paging).mem p vpn = walk b.mem p vpn :=
    fun vpn hLow => walk_contents hBase hp hMem hLow
  have hTmp : ∀ vpn ≤ pageTmp >>> pageBits, vpn < lowPages := fun vpn hLe =>
    lt_of_le_of_lt hLe (by decide)
  have hRoot : ({ b with mem := mem } : Paging).mem p = b.mem p := root_contents hBase hp hMem
  constructor
  · rintro ⟨hLow, hPlain, hApart⟩
    rw [hRoot] at hApart
    exact ⟨fun vpn hLe => hWalk vpn (hTmp vpn hLe) ▸ hLow vpn hLe,
      fun vpn hLt => hWalk vpn hLt ▸ hPlain vpn hLt, fun vpn hLt => hWalk vpn hLt ▸ hApart vpn hLt⟩
  · rintro ⟨hLow, hPlain, hApart⟩
    rw [← hRoot] at hApart
    exact ⟨fun vpn hLe => (hWalk vpn (hTmp vpn hLe)).symm ▸ hLow vpn hLe,
      fun vpn hLt => (hWalk vpn hLt).symm ▸ hPlain vpn hLt,
      fun vpn hLt => (hWalk vpn hLt).symm ▸ hApart vpn hLt⟩

theorem takeTable_contents (hi : i < pageMapEntries - 2) (hPresent : (b.mem p i).Has pgPresent)
    (left j : Nat) (frames : Frames) :
    takeTable { b with mem := mem } p kernelEnd i left j frames =
      takeTable b p kernelEnd i left j frames := by
  have hCopies : ∀ j, Copies { b with mem := mem } p i j ↔ Copies b p i j := by
    intro j
    have hRoot : ({ b with mem := mem } : Paging).mem p = b.mem p := root_contents hBase hp hMem
    have hTable : ({ b with mem := mem } : Paging).mem (b.mem p i).frame = b.mem (b.mem p i).frame :=
      table_contents hBase hp hMem hi hPresent
    have hFirst : ({ b with mem := mem } : Paging).mem (b.mem p 0).frame = b.mem (b.mem p 0).frame :=
      table_contents hBase hp hMem (by decide) (hBase.root p hp).low
    rw [Copies, Copies, Overwritten, Overwritten, LowUser, LowUser, hRoot, hTable, hFirst]
  induction left generalizing j frames with
  | zero => rfl
  | succ left ih =>
      have hLeaf : takeLeaf { b with mem := mem } p kernelEnd i j frames =
          takeLeaf b p kernelEnd i j frames := by
        rw [takeLeaf, takeLeaf]
        simp only [hCopies]
      rw [takeTable, takeTable, hLeaf]
      refine congrArg (Option.bind _) (funext fun r => ?_)
      obtain ⟨frames, complete⟩ := r
      dsimp only
      rw [ih]

theorem takeTables_contents (left i : Nat) (hEnd : i + left ≤ pageMapEntries) (lost : Bool)
    (frames : Frames) :
    takeTables { b with mem := mem } p kernelEnd left i lost frames =
      takeTables b p kernelEnd left i lost frames := by
  have hRoot : ({ b with mem := mem } : Paging).mem p = b.mem p := root_contents hBase hp hMem
  induction left generalizing i lost frames with
  | zero => rfl
  | succ left ih =>
      rw [takeTables, takeTables, hRoot]
      by_cases hUser : (b.mem p i).IsUser
      · have hi : i < pageMapEntries - 2 := by
          by_contra hHigh
          rcases (by omega : i = pageMapEntries - 2 ∨ i = pageMapEntries - 1) with rfl | rfl
          · exact (hBase.root p hp).closed hUser.1
          · exact (hBase.root p hp).kernel hUser.2
        rw [if_pos hUser, if_pos hUser]
        refine congrArg (Option.bind _) (funext fun r => ?_)
        obtain ⟨frames, addr⟩ := r
        dsimp only
        rw [takeTable_contents hBase hp hMem hi hUser.1]
        have hRest : (fun r : Frames × Bool => takeTables { b with mem := mem } p kernelEnd left (i + 1)
            (lost || !r.2) r.1) = fun r => takeTables b p kernelEnd left (i + 1) (lost || !r.2) r.1 :=
          funext fun r => ih (i + 1) (by omega) _ _
        exact congrArg (fun next => if addr = 0 then some (frames, -enomem, lost)
          else (takeTable b p kernelEnd i pageMapEntries 0 frames).bind next) hRest
      · rw [if_neg hUser, if_neg hUser]
        exact ih (i + 1) (by omega) _ _

end Contents

/-- The free frames hold words that are not present and differ from the page at `PAGE_TMP`. -/
def filler (b : Paging) (p : Nat) : PageEntry :=
  match walk b.mem p (pageTmp >>> pageBits) with
  | some e => if b.mem e.frame 0 = PageEntry.zero then ⟨1, 0⟩ else PageEntry.zero
  | none => PageEntry.zero

theorem filler_absent (b : Paging) (p : Nat) : ¬ (filler b p).Has pgPresent := by
  have hFlags : (filler b p).flags = 0 := by
    rw [filler]
    split
    · split
      · rfl
      · rfl
    · rfl
  rw [PageEntry.Has, hFlags]
  simp

theorem filler_ne (he : walk b.mem p (pageTmp >>> pageBits) = some e) :
    filler b p ≠ b.mem e.frame 0 := by
  rw [filler, he]
  dsimp only
  split
  · rename_i hZero
    rw [hZero]
    decide
  · rename_i hOther
    exact fun he => hOther he.symm

open Classical in
/-- Whatever the free frames hold, `page_map_copy` makes a true copy or reports an error, exactly
when it reports one, or misses no frame and can copy the map. -/
theorem pageMapCopy_faithful (hBase : b.Maps (fun _ _ => True) used held roots) (hp : p ∈ roots)
    (hFirst : FirstAlone b p) (hKnown : LeavesKnown b p) {frames : Frames} {addr : Nat}
    (hDest : b.frames.getPages kernelEnd 1 = some (frames, addr)) (hAddr : addr ≠ 0) (usage : Nat) :
    (∀ mem, (∀ f, b.frames.Known f → mem f = b.mem f) →
      ∃ s' ret, Paging.pageMapCopy kernelEnd p (addr >>> pageBits) ⟨mem, frames, usage⟩ = some (s', ret) ∧
        (ret = 0 ∧ FaithfulCopy { b with mem := mem } s' p (addr >>> pageBits) ∨ ret < 0)) ↔
    ∃ frames' ret lost,
      takeTables b p kernelEnd pageMapEntries 0 false frames = some (frames', ret, lost) ∧
        (ret = 0 → lost = false ∧ Copyable b p) := by
  obtain ⟨frames₁, addr₁, hCall, hPool, hTaking, hAnswer⟩ := hBase.pool.take kernelEnd
  obtain ⟨rfl, rfl⟩ := Prod.mk.inj (Option.some.inj (hDest.symm.trans hCall))
  obtain ⟨_, hFree, hOwned⟩ := hAnswer hAddr
  generalize addr >>> pageBits = d at hFree hOwned ⊢
  have hNew : ¬ b.frames.Known d := fun hKnown => hFree (hKnown hOwned.lt)
  have hOutcome : ∀ mem, (∀ f, b.frames.Known f → mem f = b.mem f) →
      ∃ s' ret frames' lost, Paging.pageMapCopy kernelEnd p d ⟨mem, frames, usage⟩ = some (s', ret) ∧
        takeTables b p kernelEnd pageMapEntries 0 false frames = some (frames', ret, lost) ∧
        (ret ≠ 0 → ret = -enomem) ∧
        (ret = 0 → s'.mem d (pageMapEntries - 1) = ⟨d, pgPresent ||| pgSelf ||| pgRw⟩ ∧
          ∃ t, RootState used held { b with mem := mem } t p d pageMapEntries lost ∧
            ∀ g j, (g = d → j ≠ pageMapEntries - 1) → (g = p → j ≠ pageMapEntries - 2) →
              s'.mem g j = t.mem g j) := by
    intro mem hMem
    obtain ⟨s', ret, frames', lost, hExec, hPlan, hRest⟩ := (hBase.contents hMem).pageMapCopy_outcome hp
      (s := ⟨mem, frames, usage⟩) hNew (first_contents hBase hp hMem hFirst)
      (known_contents hBase hp hMem hKnown) rfl hPool hTaking hOwned
    rw [takeTables_contents hBase hp hMem pageMapEntries 0 le_rfl] at hPlan
    exact ⟨s', ret, frames', lost, hExec, hPlan, hRest⟩
  constructor
  · intro hAll
    have hMem : ∀ f, b.frames.Known f →
        (fun f => if b.frames.Known f then b.mem f else fun _ => filler b p) f = b.mem f :=
      fun f hf => if_pos hf
    have hFree : ∀ f, ¬ b.frames.Known f →
        (fun f => if b.frames.Known f then b.mem f else fun _ => filler b p) f =
          fun _ => filler b p := fun f hf => if_neg hf
    generalize (fun f => if b.frames.Known f then b.mem f else fun _ => filler b p) = mem at hMem hFree
    obtain ⟨s', ret, frames', lost, hExec, hPlan, _, hDone⟩ := hOutcome mem hMem
    obtain ⟨s₁, ret₁, hExec₁, hResult⟩ := hAll mem hMem
    obtain ⟨rfl, rfl⟩ := Prod.mk.inj (Option.some.inj (hExec.symm.trans hExec₁))
    refine ⟨frames', ret, lost, hPlan, fun hRet => ?_⟩
    obtain ⟨hLast, t, hState, hSame⟩ := hDone hRet
    have hFaithful := (hResult.resolve_right (by omega)).2
    have hBase' := hBase.contents hMem
    cases lost with
    | true =>
        refine (hState.not_lost hBase' hp hNew hSame hFaithful fun f hf j => ?_).elim
        show ¬ (mem f j).Has pgPresent
        rw [hFree f hf]
        exact filler_absent b p
    | false =>
        refine ⟨rfl, (copyable_contents hBase hp hMem).mp ?_⟩
        refine hState.copyable hBase' hp hNew hSame (known_contents hBase hp hMem hKnown) hFaithful
          fun e he f hf => ?_
        show mem f 0 ≠ mem e.frame 0
        have hOld : walk b.mem p (pageTmp >>> pageBits) = some e := by
          rw [← walk_contents hBase hp hMem (by decide)]
          exact he
        obtain ⟨hDir, hPresent, hWord⟩ := walk_eq_some.mp hOld
        obtain ⟨hi, _, hj⟩ := vpn_lt (by decide : pageTmp >>> pageBits < lowPages)
        have hPage := hKnown _ hi hDir _ hj (by rw [hWord]; exact hPresent)
        rw [hWord] at hPage
        rw [hFree f hf, hMem _ hPage]
        exact filler_ne hOld
  · rintro ⟨frames', ret, lost, hPlan, hGood⟩ mem hMem
    obtain ⟨s', ret₁, frames₁, lost₁, hExec, hPlan₁, hError, hDone⟩ := hOutcome mem hMem
    obtain ⟨rfl, hRest⟩ := Prod.mk.inj (Option.some.inj (hPlan.symm.trans hPlan₁))
    obtain ⟨rfl, rfl⟩ := Prod.mk.inj hRest
    refine ⟨s', ret, hExec, ?_⟩
    by_cases hRet : ret = 0
    · obtain ⟨rfl, hCopyable⟩ := hGood hRet
      obtain ⟨hLast, t, hState, hSame⟩ := hDone hRet
      exact Or.inl ⟨hRet, hState.faithful (hBase.contents hMem) hp hNew hSame
        (known_contents hBase hp hMem hKnown) ((copyable_contents hBase hp hMem).mpr hCopyable) hLast⟩
    · rw [hError hRet]
      exact Or.inr (by decide)

/-- One user page, and two frames left. -/
def onePage : Paging where
  mem f j :=
    if f = 0x110 then
      if j = 0 then ⟨0x111, pgPresent ||| pgRw ||| pgUser⟩
      else if j = pageMapEntries - 1 then ⟨0x110, pgPresent ||| pgSelf ||| pgRw⟩ else PageEntry.zero
    else if f = 0x111 ∧ j = 0x150 then ⟨0x150, pgPresent ||| pgRw ||| pgUser⟩
    else PageEntry.zero
  frames :=
    { bitmap := fun i => if i = 0x40 then 0 else 0xff
      allocStart := 2 ^ 32 - 1
      allocated := bitmapBits - 2
      available := 2 }
  usage := 0

theorem onePage_dir (h : (onePage.mem 0x110 i).Has pgPresent) : i = 0 ∨ i = pageMapEntries - 1 := by
  by_contra hNot
  rw [not_or] at hNot
  have hZero : onePage.mem 0x110 i = PageEntry.zero := by
    simp [onePage, hNot.1, hNot.2]
  rw [hZero] at h
  exact PageEntry.not_has_zero h

theorem onePage_maps :
    onePage.Maps (fun _ _ => True) onePage.frames.usedFrames [] {0x110} := by
  have hReady : onePage.frames.Ready := by
    refine ⟨?_, 0, mem_usedFrames.mpr ⟨by decide, by decide⟩⟩
    have hFree : Finset.Ico 0x200 0x202 ⊆ onePage.frames.freeFrames := by
      intro i hi
      obtain ⟨hLow, hHigh⟩ := Finset.mem_Ico.mp hi
      refine mem_freeFrames.mpr ⟨hHigh.trans (by decide), fun hMarked => ?_⟩
      have hByte : i / 8 = 0x40 := by omega
      rw [Marked, hByte] at hMarked
      exact absurd hMarked (by simp [onePage])
    exact Finset.card_le_card hFree
  have hStart : Holding.Reachable 0 onePage.frames ⟨onePage.frames, []⟩ :=
    Transition.Reachable.of_init rfl
  refine ⟨Holding.reachable_sound hReady hStart, fun p hp => ?_, fun p hp i hi hPresent => ?_⟩
  · obtain rfl := Set.mem_singleton_iff.mp hp
    refine ⟨⟨by decide, by decide, fun block hb => absurd hb List.not_mem_nil⟩, ⟨by decide, by decide⟩, by decide,
      by decide, by decide⟩
  · obtain rfl := Set.mem_singleton_iff.mp hp
    obtain rfl : i = 0 := (onePage_dir hPresent).resolve_right (by omega)
    refine ⟨by decide, fun hRoot => ?_, by decide, ⟨by decide, by decide, fun block hb => absurd hb List.not_mem_nil⟩,
      fun _ _ => trivial⟩
    exact absurd (Set.mem_singleton_iff.mp hRoot) (by decide)

theorem onePage_first : FirstAlone onePage 0x110 := fun i hi hPresent hne =>
  absurd ((onePage_dir hPresent).resolve_left hne) (by omega)

theorem onePage_known : LeavesKnown onePage 0x110 := by
  intro i hi hPresent j hj hThere
  obtain rfl : i = 0 := (onePage_dir hPresent).resolve_right (by omega)
  by_cases hj' : j = 0x150
  · subst hj'
    exact fun _ => by decide
  · have hZero : onePage.mem (onePage.mem 0x110 0).frame j = PageEntry.zero := by
      simp [onePage, hj']
    rw [hZero] at hThere
    exact absurd hThere PageEntry.not_has_zero

theorem onePage_dest : ∃ frames, onePage.frames.getPages 0x200000 1 = some (frames, 0x201000) ∧
    ∃ frames', takeTables onePage 0x110 0x200000 pageMapEntries 0 false frames =
      some (frames', 0, true) := by
  have hCall : ((onePage.frames.getPages 0x200000 1).bind fun r =>
      (takeTables onePage 0x110 0x200000 pageMapEntries 0 false r.1).map fun x =>
        (r.2, x.2)) = some (0x201000, 0, true) := by
    decide +kernel
  obtain ⟨⟨frames, addr⟩, hFirst, hCall⟩ := Option.bind_eq_some_iff.mp hCall
  obtain ⟨⟨frames', ret, lost⟩, hPlan, hRest⟩ := Option.map_eq_some_iff.mp hCall
  simp only [Prod.mk.injEq] at hRest
  obtain ⟨rfl, rfl, rfl⟩ := hRest
  exact ⟨frames, hFirst, frames', hPlan⟩

theorem pageMapCopy_faithful_onePage :
    ∃ frames, onePage.frames.getPages 0x200000 1 = some (frames, 0x201000) ∧
      ((∀ mem, (∀ f, onePage.frames.Known f → mem f = onePage.mem f) →
        ∃ s' ret, Paging.pageMapCopy 0x200000 0x110 (0x201000 >>> pageBits) ⟨mem, frames, 0⟩ =
            some (s', ret) ∧
          (ret = 0 ∧ FaithfulCopy { onePage with mem := mem } s' 0x110 (0x201000 >>> pageBits) ∨
            ret < 0)) ↔
      ∃ frames' ret lost,
        takeTables onePage 0x110 0x200000 pageMapEntries 0 false frames = some (frames', ret, lost) ∧
          (ret = 0 → lost = false ∧ Copyable onePage 0x110)) := by
  obtain ⟨frames, hDest, _⟩ := onePage_dest
  exact ⟨frames, hDest, pageMapCopy_faithful onePage_maps (Set.mem_singleton _) onePage_first
    onePage_known hDest (by decide) 0⟩

theorem pageMapCopy_incomplete :
    ∃ frames s', onePage.frames.getPages 0x200000 1 = some (frames, 0x201000) ∧
      Paging.pageMapCopy 0x200000 0x110 0x201 ⟨onePage.mem, frames, 0⟩ = some (s', 0) ∧
      ¬ FaithfulCopy onePage s' 0x110 0x201 := by
  obtain ⟨frames, hDest, frames', hPlan⟩ := onePage_dest
  obtain ⟨frames₁, addr₁, hCall, hPool, hTaking, hAnswer⟩ := onePage_maps.pool.take 0x200000
  obtain ⟨rfl, rfl⟩ := Prod.mk.inj (Option.some.inj (hDest.symm.trans hCall))
  obtain ⟨_, hFree, hOwned⟩ := hAnswer (by decide)
  have hNew : ¬ onePage.frames.Known 0x201 := fun hKnown => hFree (hKnown hOwned.lt)
  obtain ⟨s', ret, frames₂, lost, hExec, hPlan', _, hDone⟩ :=
    onePage_maps.pageMapCopy_outcome (Set.mem_singleton _) (s := ⟨onePage.mem, frames, 0⟩) hNew
      onePage_first onePage_known rfl hPool hTaking hOwned
  obtain ⟨rfl, hRest⟩ := Prod.mk.inj (Option.some.inj (hPlan.symm.trans hPlan'))
  obtain ⟨rfl, rfl⟩ := Prod.mk.inj hRest
  obtain ⟨_, t, hState, hSame⟩ := hDone rfl
  refine ⟨frames, s', hDest, hExec, fun hFaithful => ?_⟩
  refine hState.not_lost onePage_maps (Set.mem_singleton _) hNew hSame hFaithful fun f hf j => ?_
  have hFar : f ≠ 0x110 ∧ f ≠ 0x111 :=
    ⟨fun he => hf fun _ => he ▸ (by decide), fun he => hf fun _ => he ▸ (by decide)⟩
  have hZero : onePage.mem f j = PageEntry.zero := by
    simp [onePage, hFar.1, hFar.2]
  rw [hZero]
  exact PageEntry.not_has_zero

end Paging
end ArtOS

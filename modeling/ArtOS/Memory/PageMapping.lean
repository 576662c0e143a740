import Mathlib.Logic.Function.Iterate
import ArtOS.Memory.Accounting
import ArtOS.Memory.TlbRun

/-! What `page_map` and `page_unmap` do to a page map, whatever its use: the tables
that are entered, the words that are written, and the translations that follow. -/
namespace ArtOS

namespace Frames

variable {s s' : Frames} {addr f kernelEnd : Nat}

/-- A call of `get_pages(1)` that comes back. -/
theorem getPages_one (h : getPages kernelEnd 1 s = some (s', addr)) (hAddr : addr ≠ 0) :
    addr >>> pageBits < bitmapBits ∧ ¬ s.Marked (addr >>> pageBits) ∧
      (∀ f, s'.Marked f ↔ s.Marked f ∨ addr >>> pageBits = f) ∧ Neutral s s' := by
  rcases getPages_cases h with ⟨hZero, _⟩ | ⟨hFree, hMarks, hNeutral⟩
  · exact absurd hZero hAddr
  · obtain ⟨hLt, hNot⟩ := mem_freeFrames.mp (hFree (Holding.mem_framesOf_one.mpr rfl))
    refine ⟨hLt, hNot, fun f => ?_, hNeutral⟩
    rw [hMarks, Holding.mem_framesOf_one, eq_comm]

/-- What the next calls hand out is free. -/
theorem grants_free (n : Nat) : ∀ f ∈ s.grants kernelEnd n, f < bitmapBits ∧ ¬ s.Marked f := by
  induction n generalizing s with
  | zero => exact fun f hf => absurd hf List.not_mem_nil
  | succ n ih =>
      intro f hf
      rw [grants] at hf
      split at hf
      · rename_i s' addr hCall
        split at hf
        · exact absurd hf List.not_mem_nil
        · rename_i hAddr
          obtain ⟨hLt, hFree, hMarks, _⟩ := getPages_one hCall hAddr
          rcases List.mem_cons.mp hf with rfl | hf
          · exact ⟨hLt, hFree⟩
          · exact ⟨(ih f hf).1, fun hMarked => (ih f hf).2 ((hMarks f).mpr (Or.inl hMarked))⟩
      · exact absurd hf List.not_mem_nil

/-- A failure takes at most frame 0. -/
theorem getPages_null (h : getPages kernelEnd 1 s = some (s', 0)) :
    (∀ f, f ≠ 0 ∨ s.Marked 0 → (s'.Marked f ↔ s.Marked f)) ∧ Holding.Taking s s' ∧ Neutral s s' := by
  rcases getPages_cases h with ⟨_, hMarks, hNeutral⟩ | ⟨hFree, hMarks, hNeutral⟩
  · exact ⟨fun f _ => hMarks f, fun f hf => (hMarks f).mpr hf, hNeutral⟩
  · have hZero := (mem_freeFrames.mp (hFree (Holding.mem_framesOf_one.mpr rfl))).2
    refine ⟨fun f hf => ?_, fun f hf => (hMarks f).mpr (Or.inl hf), hNeutral⟩
    rw [hMarks, Holding.mem_framesOf_one]
    exact or_iff_left fun he => hf.elim (fun hne => hne he) hZero

end Frames

namespace Paging

open Frames

variable {s s₁ s' : Paging} {p f i kernelEnd : Nat} {bits : BitVec 12} {new : List Nat}

/-- A root table with its page tables: a tree, but for the self-reference. -/
structure TwoLevel (s : Paging) (p : Nat) : Prop where
  rooted : s.Rooted p
  root_ne : ∀ i < pageMapEntries - 1, (s.mem p i).Has pgPresent → (s.mem p i).frame ≠ p
  apart : ∀ i < pageMapEntries - 1, ∀ k < pageMapEntries - 1, i ≠ k → (s.mem p i).Has pgPresent →
    (s.mem p k).Has pgPresent → (s.mem p i).frame ≠ (s.mem p k).frame

/-- The frame holds no table of the page map. -/
structure Unused (s : Paging) (p f : Nat) : Prop where
  root : f ≠ p
  table : ∀ i < pageMapEntries - 1, (s.mem p i).Has pgPresent → (s.mem p i).frame ≠ f

/-- The tables `new` have been entered in the root `p`. -/
structure Extends (bits : BitVec 12) (p : Nat) (s s' : Paging) (new : List Nat) : Prop where
  nodup : new.Nodup
  absent : ∀ i ∈ new, i < pageMapEntries - 1 ∧ ¬ (s.mem p i).Has pgPresent
  flags : ∀ i ∈ new, (s'.mem p i).flags = bits ||| pgPresent ||| pgUser ||| pgRw
  fresh : ∀ i ∈ new, s.Unused p (s'.mem p i).frame ∧ (s'.mem p i).frame < bitmapBits ∧
    (s'.mem p i).frame ≠ 0 ∧ ¬ s.frames.Marked (s'.mem p i).frame
  clear : ∀ i ∈ new, s'.mem (s'.mem p i).frame = fun _ => PageEntry.zero
  entry : ∀ i, i ∉ new → s'.mem p i = s.mem p i
  other : ∀ g, g ≠ p → (∀ i ∈ new, (s'.mem p i).frame ≠ g) → s'.mem g = s.mem g
  marked : ∀ f, f ≠ 0 ∨ s.frames.Marked 0 →
    (s'.frames.Marked f ↔ s.frames.Marked f ∨ ∃ i ∈ new, (s'.mem p i).frame = f)
  taking : Holding.Taking s.frames s'.frames
  taken : ∀ i ∈ new, s'.frames.Marked (s'.mem p i).frame
  neutral : Neutral s.frames s'.frames
  usage : s'.usage = if bits &&& pgUser ≠ 0 then incr32^[new.length] s.usage else s.usage

theorem Extends.refl (bits : BitVec 12) (p : Nat) (s : Paging) : Extends bits p s s [] where
  nodup := List.nodup_nil
  absent := fun _ hi => absurd hi List.not_mem_nil
  flags := fun _ hi => absurd hi List.not_mem_nil
  fresh := fun _ hi => absurd hi List.not_mem_nil
  clear := fun _ hi => absurd hi List.not_mem_nil
  entry := fun _ _ => rfl
  other := fun _ _ _ => rfl
  marked := fun _ _ => ⟨Or.inl, fun h => h.resolve_right fun ⟨_, hi, _⟩ => absurd hi List.not_mem_nil⟩
  taking := fun _ hf => hf
  taken := fun _ hi => absurd hi List.not_mem_nil
  neutral := Neutral.refl _
  usage := by rw [List.length_nil, Function.iterate_zero, id, ite_self]

theorem Extends.present (h : Extends bits p s s' new) (hi : i ∈ new) :
    (s'.mem p i).Has pgPresent ∧ (s'.mem p i).Has pgUser := by
  obtain ⟨hPresent, hUser⟩ := PageEntry.has_table (s'.mem p i).frame bits
  exact ⟨(PageEntry.has_congr (h.flags i hi)).mpr hPresent,
    (PageEntry.has_congr (h.flags i hi)).mpr hUser⟩

/-- The frame of a call of `get_pages(1)` is entered as a table and filled with zeros. -/
theorem TwoLevel.enter (h : s.TwoLevel p) (bits : BitVec 12) (hi : i < pageMapEntries - 1)
    (hAbsent : ¬ (s.mem p i).Has pgPresent) {frames : Frames} {addr : Nat}
    (hCall : s.frames.getPages kernelEnd 1 = some (frames, addr)) (hAddr : addr ≠ 0)
    (hUnused : s.Unused p (addr >>> pageBits)) :
    ∃ s', ((setEntry p (self 1) i
          ⟨addr >>> pageBits, bits ||| pgPresent ||| pgUser ||| pgRw⟩
          { s with
            frames := frames
            usage := if bits &&& pgUser ≠ 0 then incr32 s.usage else s.usage }).bind
        (clearPage p (self 0 + i))) = some s' ∧
      s'.frames = frames ∧ s'.TwoLevel p ∧ Extends bits p s s' [i] := by
  obtain ⟨hLt, hFree, hMarks, hNeutral⟩ := getPages_one hCall hAddr
  have hZero : addr >>> pageBits ≠ 0 := mt (getPages_aligned hCall) hAddr
  generalize addr >>> pageBits = f at *
  generalize he : (⟨f, bits ||| pgPresent ||| pgUser ||| pgRw⟩ : PageEntry) = e
  have heFrame : e.frame = f := by rw [← he]
  have heFlags : e.flags = bits ||| pgPresent ||| pgUser ||| pgRw := by rw [← he]
  have hePresent : e.Has pgPresent := he ▸ (PageEntry.has_table f bits).1
  generalize hu : (if bits &&& pgUser ≠ 0 then incr32 s.usage else s.usage) = usage
  generalize hs₁ : ({ s with frames := frames, usage := usage } : Paging) = s₁
  have hMem₁ : s₁.mem = s.mem := by rw [← hs₁]
  have hRooted₁ : s₁.Rooted p := ⟨hMem₁ ▸ h.rooted.frame, hMem₁ ▸ h.rooted.present⟩
  have hNew : (s₁.write p i e).mem p i = e := mem_write
  have hFound := (hRooted₁.write (f := p) (e := e) (by omega : i ≠ _)).frameAt_self
    (by omega : i < pageMapEntries) (by rw [hNew]; exact hePresent)
  rw [hNew, heFrame] at hFound
  generalize hs' : (s₁.write p i e).setFrame f (fun _ => PageEntry.zero) = s'
  have hEntry : s'.mem p i = e := by rw [← hs', mem_setFrame_of_ne hUnused.root.symm, hNew]
  have hSame : ∀ k, k ≠ i → s'.mem p k = s.mem p k := fun k hk => by
    rw [← hs', mem_setFrame_of_ne hUnused.root.symm, mem_write_of_index hk, hMem₁]
  have hOther : ∀ g, g ≠ p → g ≠ f → s'.mem g = s.mem g := fun g hgp hgf => by
    rw [← hs', mem_setFrame_of_ne hgf, mem_write_of_frame hgp, hMem₁]
  have hClear : s'.mem f = fun _ => PageEntry.zero := by rw [← hs', mem_setFrame]
  have hFrames : s'.frames = frames := by rw [← hs', setFrame_frames, write_frames, ← hs₁]
  have hUsage : s'.usage = usage := by rw [← hs', ← hs₁]; rfl
  have hLast : pageMapEntries - 1 ≠ i := by omega
  refine ⟨s', ?_, hFrames, ⟨⟨?_, ?_⟩, fun k hk hThere => ?_, fun k hk l hl hne hThere hThere' => ?_⟩, ?_⟩
  · rw [hRooted₁.setEntry_dir (by omega), Option.bind_some, clearPage, hFound, Option.map_some, hs']
  · rw [hSame _ hLast]
    exact h.rooted.frame
  · rw [hSame _ hLast]
    exact h.rooted.present
  · by_cases hki : k = i
    · rw [hki, hEntry, heFrame]
      exact hUnused.root
    · rw [hSame k hki] at hThere ⊢
      exact h.root_ne k hk hThere
  · by_cases hki : k = i
    · rw [hSame l fun he => hne (hki.trans he.symm)] at hThere' ⊢
      rw [hki, hEntry, heFrame]
      exact (hUnused.table l hl hThere').symm
    · rw [hSame k hki] at hThere ⊢
      by_cases hli : l = i
      · rw [hli, hEntry, heFrame]
        exact hUnused.table k hk hThere
      · rw [hSame l hli] at hThere' ⊢
        exact h.apart k hk l hl hne hThere hThere'
  · have hOne : ∀ {P : Nat → Prop}, P i → ∀ k ∈ [i], P k := fun hP k hk =>
      (List.mem_singleton.mp hk) ▸ hP
    refine ⟨List.nodup_singleton i, hOne ⟨hi, hAbsent⟩, hOne ?_, hOne ?_, hOne ?_,
      fun k hk => hSame k (mt List.mem_singleton.mpr hk), fun g hgp hg => ?_, fun g _ => ?_,
      fun g hg => ?_, hOne ?_, hFrames ▸ hNeutral, ?_⟩
    · rw [hEntry, heFlags]
    · rw [hEntry, heFrame]
      exact ⟨hUnused, hLt, hZero, hFree⟩
    · rw [hEntry, heFrame, hClear]
    · refine hOther g hgp fun hgf => hg i List.mem_cons_self ?_
      rw [hEntry, heFrame, hgf]
    · rw [hFrames, hMarks]
      refine or_congr_right ⟨fun hg => ⟨i, List.mem_cons_self, ?_⟩, fun hNew => ?_⟩
      · rw [hEntry, heFrame, hg]
      · obtain ⟨k, hk, hg⟩ := hNew
        rw [List.mem_singleton.mp hk, hEntry, heFrame] at hg
        exact hg
    · rw [hFrames, hMarks]
      exact Or.inl hg
    · rw [hFrames, hMarks, hEntry, heFrame]
      exact Or.inr rfl
    · rw [hUsage, ← hu, List.length_singleton, Function.iterate_one]

/-- One table after another. -/
theorem Extends.cons (h : Extends bits p s s₁ [i]) (h' : Extends bits p s₁ s' new) :
    Extends bits p s s' (i :: new) := by
  have hThere := (h.present List.mem_cons_self).1
  have hNot : i ∉ new := fun hi => (h'.absent i hi).2 hThere
  obtain ⟨hi, hAbsent⟩ := h.absent i List.mem_cons_self
  have hEntry : s'.mem p i = s₁.mem p i := h'.entry i hNot
  have hApart : ∀ k ∈ new, (s'.mem p k).frame ≠ (s₁.mem p i).frame := fun k hk he =>
    (h'.fresh k hk).1.table i (by omega) hThere he.symm
  have hOld : ∀ k ∈ new, s₁.mem p k = s.mem p k := fun k hk =>
    h.entry k fun hki => hNot (List.mem_singleton.mp hki ▸ hk)
  have hRoot : (s₁.mem p i).frame ≠ p := (h.fresh i List.mem_cons_self).1.root
  refine ⟨List.nodup_cons.mpr ⟨hNot, h'.nodup⟩, ?_, ?_, ?_, ?_, fun k hk => ?_, fun g hgp hg => ?_,
    fun g hg => ?_, fun g hg => h'.taking g (h.taking g hg), ?_, h.neutral.trans h'.neutral, ?_⟩
  · refine List.forall_mem_cons.mpr ⟨⟨hi, hAbsent⟩, fun k hk => ⟨(h'.absent k hk).1, ?_⟩⟩
    rw [← hOld k hk]
    exact (h'.absent k hk).2
  · refine List.forall_mem_cons.mpr ⟨?_, h'.flags⟩
    rw [hEntry]
    exact h.flags i List.mem_cons_self
  · refine List.forall_mem_cons.mpr ⟨?_, fun k hk => ?_⟩
    · rw [hEntry]
      exact h.fresh i List.mem_cons_self
    · obtain ⟨⟨hkRoot, hkTable⟩, hkLt, hkZero, hkFree⟩ := h'.fresh k hk
      refine ⟨⟨hkRoot, fun l hl hlThere => ?_⟩, hkLt, hkZero, fun hg => hkFree (h.taking _ hg)⟩
      have hli : l ≠ i := fun he => hAbsent (he ▸ hlThere)
      have hSame : s₁.mem p l = s.mem p l := h.entry l (mt List.mem_singleton.mp hli)
      have hkl := hkTable l hl
      rw [hSame] at hkl
      exact hkl hlThere
  · refine List.forall_mem_cons.mpr ⟨?_, h'.clear⟩
    rw [hEntry, h'.other _ hRoot hApart]
    exact h.clear i List.mem_cons_self
  · rw [List.mem_cons, not_or] at hk
    rw [h'.entry k hk.2, h.entry k (mt List.mem_singleton.mp hk.1)]
  · obtain ⟨hgi, hgNew⟩ := List.forall_mem_cons.mp hg
    rw [hEntry] at hgi
    rw [h'.other g hgp hgNew]
    exact h.other g hgp fun k hk => List.mem_singleton.mp hk ▸ hgi
  · rw [h'.marked g (hg.imp_right (h.taking 0)), h.marked g hg, or_assoc]
    simp only [List.mem_cons, List.not_mem_nil, or_false, exists_eq_or_imp, exists_eq_left, hEntry]
  · refine List.forall_mem_cons.mpr ⟨?_, h'.taken⟩
    rw [hEntry]
    exact h'.taking _ (h.taken i List.mem_cons_self)
  · rw [h'.usage, h.usage, List.length_singleton, Function.iterate_one, List.length_cons]
    split
    · rw [Function.iterate_succ_apply]
    · rfl

theorem missing_extends {left vpn : Nat} (h : Extends bits p s s' new) (hNew : ∀ i ∈ new, i < vpn) :
    s'.missing p left vpn = s.missing p left vpn :=
  missing_congr left vpn fun k hk => h.entry k fun hi => absurd (hNew k hi) (by omega)

/-- What the first round of `page_map` leaves behind. -/
structure TablesDone (kernelEnd : Nat) (bits : BitVec 12) (p left vpn : Nat) (s s' : Paging)
    (complete : Bool) (new : List Nat) : Prop where
  level : s'.TwoLevel p
  tables : Extends bits p s s' new
  range : ∀ i ∈ new, vpn ≤ i ∧ i < vpn + left
  count : new.length = (s.frames.grants kernelEnd (s.missing p left vpn)).length
  complete_iff : complete = true ↔ new.length = s.missing p left vpn
  zero : complete = true → (s'.frames.Marked 0 ↔ s.frames.Marked 0)
  all : complete = true → ∀ i, vpn ≤ i → i < vpn + left → (s'.mem p i).Has pgPresent

/-- The first round of `page_map`, as long as `get_pages` answers with unused frames. -/
theorem TwoLevel.mapTables (h : s.TwoLevel p) {left vpn : Nat} {complete : Bool}
    (hRange : vpn + left ≤ pageMapEntries - 1)
    (hUnused : ∀ f ∈ s.frames.grants kernelEnd (s.missing p left vpn), s.Unused p f)
    (hExec : s.mapTables kernelEnd p bits left vpn = some (s', complete)) :
    ∃ new, TablesDone kernelEnd bits p left vpn s s' complete new := by
  induction left generalizing vpn s with
  | zero =>
      obtain ⟨rfl, rfl⟩ := Prod.mk.inj (Option.some.inj hExec)
      exact ⟨[], h, Extends.refl bits p s, fun _ hi => absurd hi List.not_mem_nil, rfl,
        iff_of_true rfl rfl, fun _ => Iff.rfl, fun _ i h₁ h₂ => by omega⟩
  | succ left ih =>
      rw [Paging.mapTables, h.rooted.entry_dir (by omega), Option.bind_some] at hExec
      rw [missing] at hUnused
      by_cases hPresent : (s.mem p vpn).Has pgPresent
      · have hMissing : s.missing p (left + 1) vpn = s.missing p left (vpn + 1) := by
          rw [missing, if_pos hPresent, Nat.zero_add]
        rw [if_pos hPresent] at hExec
        rw [if_pos hPresent, Nat.zero_add] at hUnused
        obtain ⟨new, hLevel, hExtends, hIn, hCount, hComplete, hZero, hAll⟩ :=
          ih h (by omega) hUnused hExec
        refine ⟨new, hLevel, hExtends, fun i hi => ?_, ?_, ?_, hZero, fun hDone i h₁ h₂ => ?_⟩
        · have hIn := hIn i hi
          omega
        · rw [hMissing, hCount]
        · rw [hMissing, hComplete]
        · rcases Nat.eq_or_lt_of_le h₁ with rfl | h₁
          · rw [hExtends.entry vpn fun hi => absurd (hIn vpn hi).1 (by omega)]
            exact hPresent
          · exact hAll hDone i h₁ (by omega)
      · have hMissing : s.missing p (left + 1) vpn = s.missing p left (vpn + 1) + 1 := by
          rw [missing, if_neg hPresent, Nat.add_comm]
        rw [if_neg hPresent] at hExec
        rw [if_neg hPresent, Nat.add_comm 1, grants] at hUnused
        obtain ⟨⟨frames, addr⟩, hCall, hRest⟩ := Option.bind_eq_some_iff.mp hExec
        rw [hCall] at hUnused
        dsimp only at hUnused hRest
        by_cases hAddr : addr = 0
        · subst hAddr
          rw [if_pos rfl] at hRest
          obtain ⟨rfl, rfl⟩ := Prod.mk.inj (Option.some.inj hRest)
          obtain ⟨hMarks, hTaking, hNeutral⟩ := getPages_null hCall
          have hNone : s.frames.grants kernelEnd (s.missing p left (vpn + 1) + 1) = [] := by
            rw [grants, hCall]
            rfl
          refine ⟨[], ⟨⟨h.rooted.frame, h.rooted.present⟩, h.root_ne, h.apart⟩,
            { Extends.refl bits p s with
              marked := fun f hf => (hMarks f hf).trans ((Extends.refl bits p s).marked f hf)
              taking := hTaking
              taken := fun _ hi => absurd hi List.not_mem_nil
              neutral := hNeutral },
            fun _ hi => absurd hi List.not_mem_nil, by rw [hMissing, hNone], ?_,
            fun hDone => absurd hDone (by decide), fun hDone => absurd hDone (by decide)⟩
          rw [hMissing]
          exact iff_of_false (by decide) (by rw [List.length_nil]; omega)
        · rw [if_neg hAddr] at hUnused hRest
          obtain ⟨hFirst, hUnused⟩ := List.forall_mem_cons.mp hUnused
          obtain ⟨s₁, hEnter, hFrames₁, hLevel₁, hExtends₁⟩ := h.enter (i := vpn) bits (by omega)
            hPresent hCall hAddr hFirst
          rw [← Option.bind_assoc, hEnter, Option.bind_some] at hRest
          have hMissing₁ : s₁.missing p left (vpn + 1) = s.missing p left (vpn + 1) :=
            missing_extends hExtends₁ fun i hi => by
              rw [List.mem_singleton.mp hi]
              exact Nat.lt_succ_self vpn
          have hGrants : s.frames.grants kernelEnd (s.missing p left (vpn + 1) + 1) =
              addr >>> pageBits :: s₁.frames.grants kernelEnd (s₁.missing p left (vpn + 1)) := by
            rw [grants, hCall]
            dsimp only
            rw [if_neg hAddr, hMissing₁, hFrames₁]
          have hThere := (hExtends₁.present List.mem_cons_self).1
          have hNext : ∀ f ∈ s₁.frames.grants kernelEnd (s₁.missing p left (vpn + 1)), s₁.Unused p f := by
            intro f hf
            rw [hMissing₁, hFrames₁] at hf
            have hfUnused := hUnused f hf
            refine ⟨hfUnused.root, fun k hk hkThere he => ?_⟩
            by_cases hkvpn : k = vpn
            · have hMarked := hExtends₁.taken vpn List.mem_cons_self
              rw [← hkvpn, he, hFrames₁] at hMarked
              exact (grants_free _ f hf).2 hMarked
            · have hSame := hExtends₁.entry k (mt List.mem_singleton.mp hkvpn)
              rw [hSame] at hkThere he
              exact hfUnused.table k hk hkThere he
          obtain ⟨new, hLevel, hExtends, hIn, hCount, hComplete, hZero, hAll⟩ :=
            ih hLevel₁ (by omega) hNext hRest
          refine ⟨vpn :: new, hLevel, hExtends₁.cons hExtends, ?_, ?_, ?_, fun hDone => ?_,
            fun hDone i h₁ h₂ => ?_⟩
          · refine List.forall_mem_cons.mpr ⟨⟨le_rfl, by omega⟩, fun i hi => ?_⟩
            have hIn := hIn i hi
            omega
          · rw [hMissing, hGrants, List.length_cons, List.length_cons, hCount]
          · rw [hMissing, hComplete, hMissing₁, List.length_cons, Nat.add_right_cancel_iff]
          · rw [hZero hDone, hFrames₁, (getPages_one hCall hAddr).2.2.1]
            exact or_iff_left (mt (getPages_aligned hCall) hAddr)
          · rcases Nat.eq_or_lt_of_le h₁ with rfl | h₁
            · rw [hExtends.entry vpn fun hi => absurd (hIn vpn hi).1 (by omega)]
              exact hThere
            · exact hAll hDone i h₁ (by omega)

/-- The entries of the pages from `vpn` on have been written. -/
structure Rewrites (entry : Nat → PageEntry) (p vpn n : Nat) (s s' : Paging) : Prop where
  frames : s'.frames = s.frames
  usage : s'.usage = s.usage
  root : s'.mem p = s.mem p
  table : ∀ k < n, (s.mem p ((vpn + k) / pageMapEntries)).Has pgPresent
  page : ∀ k < n, s'.mem (s.mem p ((vpn + k) / pageMapEntries)).frame ((vpn + k) % pageMapEntries) =
    entry k
  other : ∀ g j, (∀ k < n, (s.mem p ((vpn + k) / pageMapEntries)).frame = g →
    (vpn + k) % pageMapEntries ≠ j) → s'.mem g j = s.mem g j

theorem Rewrites.refl (entry : Nat → PageEntry) (p vpn : Nat) (s : Paging) :
    Rewrites entry p vpn 0 s s :=
  ⟨rfl, rfl, rfl, fun k hk => by omega, fun k hk => by omega, fun _ _ _ => rfl⟩

/-- Two pages never share an entry. -/
theorem TwoLevel.page_inj (h : s.TwoLevel p) {v w : Nat} (hv : v / pageMapEntries < pageMapEntries - 1)
    (hw : w / pageMapEntries < pageMapEntries - 1) (hvThere : (s.mem p (v / pageMapEntries)).Has pgPresent)
    (hwThere : (s.mem p (w / pageMapEntries)).Has pgPresent)
    (hFrame : (s.mem p (v / pageMapEntries)).frame = (s.mem p (w / pageMapEntries)).frame)
    (hIndex : v % pageMapEntries = w % pageMapEntries) : v = w := by
  rw [← index_split v, ← index_split w, hIndex]
  by_contra hne
  exact h.apart _ hv _ hw (fun he => hne (by rw [he])) hvThere hwThere hFrame

/-- The pages below the reference of the root to itself. -/
abbrev treePages : Nat := (pageMapEntries - 1) <<< pageMapBits

theorem table_of_tree {vpn : Nat} (h : vpn < treePages) : vpn / pageMapEntries < pageMapEntries - 1 :=
  Nat.div_lt_of_lt_mul h

theorem lowPages_le : lowPages ≤ treePages := by decide

/-- The entry of one page is written. -/
theorem TwoLevel.write_page (h : s.TwoLevel p) {vpn : Nat} {e : PageEntry} (hTree : vpn < treePages)
    (hExec : s.setEntry p (self 0) vpn e = some s₁) :
    s₁.TwoLevel p ∧ Rewrites (fun _ => e) p vpn 1 s s₁ := by
  have hTable := table_of_tree hTree
  by_cases hThere : (s.mem p (vpn / pageMapEntries)).Has pgPresent
  · rw [h.rooted.setEntry_leaf (by omega) hThere] at hExec
    obtain rfl := Option.some.inj hExec
    have hRoot : (s.write (s.mem p (vpn / pageMapEntries)).frame (vpn % pageMapEntries) e).mem p =
        s.mem p := mem_write_of_frame (h.root_ne _ (by omega) hThere).symm
    refine ⟨⟨⟨?_, ?_⟩, ?_, ?_⟩, rfl, rfl, hRoot, fun k hk => ?_, fun k hk => ?_, fun g j hOut => ?_⟩
    · rw [hRoot]
      exact h.rooted.frame
    · rw [hRoot]
      exact h.rooted.present
    · rw [hRoot]
      exact h.root_ne
    · rw [hRoot]
      exact h.apart
    · obtain rfl : k = 0 := by omega
      exact hThere
    · obtain rfl : k = 0 := by omega
      exact mem_write
    · exact write_word fun hg hj => hOut 0 Nat.one_pos hg.symm hj.symm
  · rw [setEntry, h.rooted.frameAt_self_absent (by omega) hThere] at hExec
    cases hExec

/-- One page after another. -/
theorem Rewrites.cons {entry : Nat → PageEntry} {vpn n : Nat} (h : s.TwoLevel p)
    (hRange : vpn + (n + 1) ≤ treePages) (hFirst : Rewrites (fun _ => entry 0) p vpn 1 s s₁)
    (hRest : Rewrites (fun k => entry (k + 1)) p (vpn + 1) n s₁ s') :
    Rewrites entry p vpn (n + 1) s s' := by
  obtain ⟨hFrames, hUsage, hRoot, hTable, hPage, hOther⟩ := hFirst
  obtain ⟨hFrames', hUsage', hRoot', hTable', hPage', hOther'⟩ := hRest
  rw [hRoot] at hTable' hPage' hOther' hRoot'
  have hNext : ∀ k, vpn + 1 + k = vpn + (k + 1) := fun k => by omega
  have hThere : ∀ k < n + 1, (s.mem p ((vpn + k) / pageMapEntries)).Has pgPresent := by
    intro k hk
    cases k with
    | zero => exact hTable 0 Nat.one_pos
    | succ k => exact hNext k ▸ hTable' k (by omega)
  have hDir : ∀ k < n + 1, (vpn + k) / pageMapEntries < pageMapEntries - 1 := fun k hk =>
    table_of_tree (by omega)
  refine ⟨hFrames'.trans hFrames, hUsage'.trans hUsage, hRoot', hThere, fun k hk => ?_, fun g j hOut => ?_⟩
  · cases k with
    | zero =>
        rw [hOther' _ _ fun k hk hFrame hIndex => ?_]
        · exact hPage 0 Nat.one_pos
        · rw [hNext] at hFrame hIndex
          have hSame := h.page_inj (hDir _ (by omega)) (hDir 0 (by omega)) (hThere _ (by omega))
            (hThere 0 (by omega)) hFrame hIndex
          omega
    | succ k =>
        have hWritten := hPage' k (by omega)
        rwa [hNext] at hWritten
  · rw [hOther' g j fun k hk => by rw [hNext]; exact hOut (k + 1) (by omega)]
    refine hOther g j fun k hk => ?_
    obtain rfl : k = 0 := by omega
    exact hOut 0 (by omega)

/-- The second round of `page_map`. -/
theorem TwoLevel.mapPages (h : s.TwoLevel p) {left vpn frame : Nat} (hRange : vpn + left ≤ treePages)
    (hExec : s.mapPages p bits left vpn frame = some s') :
    s'.TwoLevel p ∧ Rewrites (fun k => ⟨frame + k, bits ||| pgPresent⟩) p vpn left s s' := by
  induction left generalizing vpn frame s with
  | zero => exact Option.some.inj hExec ▸ ⟨h, Rewrites.refl _ p vpn s⟩
  | succ left ih =>
      obtain ⟨s₁, hSet, hRest⟩ := Option.bind_eq_some_iff.mp hExec
      obtain ⟨hLevel₁, hFirst⟩ := h.write_page (by omega) hSet
      obtain ⟨hLevel, hRest⟩ := ih hLevel₁ (by omega) hRest
      refine ⟨hLevel, Rewrites.cons h hRange hFirst ?_⟩
      simpa only [Nat.add_assoc, Nat.add_comm 1] using hRest

/-- The loop of `page_unmap`. -/
theorem TwoLevel.unmapPages (h : s.TwoLevel p) {left vpn : Nat} (hRange : vpn + left ≤ treePages)
    (hExec : s.unmapPages p left vpn = some s') :
    s'.TwoLevel p ∧ Rewrites (fun _ => PageEntry.zero) p vpn left s s' := by
  induction left generalizing vpn s with
  | zero => exact Option.some.inj hExec ▸ ⟨h, Rewrites.refl _ p vpn s⟩
  | succ left ih =>
      obtain ⟨s₁, hSet, hRest⟩ := Option.bind_eq_some_iff.mp hExec
      obtain ⟨hLevel₁, hFirst⟩ := h.write_page (by omega) hSet
      obtain ⟨hLevel, hRest⟩ := ih hLevel₁ (by omega) hRest
      exact ⟨hLevel, Rewrites.cons h hRange hFirst hRest⟩

/-- It comes to its end where no table is missing. -/
theorem TwoLevel.unmapPages_ends (h : s.TwoLevel p) {left vpn : Nat} (hRange : vpn + left ≤ treePages)
    (hTables : ∀ k < left, (s.mem p ((vpn + k) / pageMapEntries)).Has pgPresent) :
    ∃ s', s.unmapPages p left vpn = some s' := by
  induction left generalizing vpn s with
  | zero => exact ⟨s, rfl⟩
  | succ left ih =>
      have hTable := table_of_tree (by omega : vpn < treePages)
      have hSet := h.rooted.setEntry_leaf (e := PageEntry.zero) (by omega : vpn / pageMapEntries < pageMapEntries)
        (hTables 0 (Nat.zero_lt_succ left))
      obtain ⟨hLevel, hFirst⟩ := h.write_page (by omega) hSet
      rw [Paging.unmapPages, hSet, Option.bind_some]
      refine ih hLevel (by omega) fun k hk => ?_
      rw [hFirst.root, Nat.add_assoc, Nat.add_comm 1]
      exact hTables (k + 1) (by omega)

/-- All pages of the address space. -/
abbrev allPages : Nat := pageMapEntries <<< pageMapBits

/-- The pages that are written translate to their new entries. -/
theorem Rewrites.walk_page {entry : Nat → PageEntry} {vpn n k : Nat} (h : Rewrites entry p vpn n s s')
    (hk : k < n) :
    walk s'.mem p (vpn + k) = if (entry k).Has pgPresent then some (entry k) else none := by
  rw [walk, h.root, h.page k hk]
  simp only [h.table k hk, true_and]

theorem walk_absent {mem : Nat → Nat → PageEntry} {v : Nat}
    (h : ¬ (mem p (v / pageMapEntries)).Has pgPresent) : walk mem p v = none :=
  if_neg fun hBoth => h hBoth.1

theorem dir_lt {v : Nat} (hv : v < allPages) : v / pageMapEntries < pageMapEntries :=
  Nat.div_lt_of_lt_mul hv

/-- All other pages translate as before. -/
theorem Rewrites.walk_other {entry : Nat → PageEntry} {vpn n v : Nat} (h : s.TwoLevel p)
    (hRewrites : Rewrites entry p vpn n s s') (hRange : vpn + n ≤ treePages) (hv : v < allPages)
    (hOut : ∀ k < n, v ≠ vpn + k) : walk s'.mem p v = walk s.mem p v := by
  by_cases hThere : (s.mem p (v / pageMapEntries)).Has pgPresent
  · have hDir := dir_lt hv
    rw [walk, walk, hRewrites.root, hRewrites.other]
    intro k hk hFrame hIndex
    have hTable := table_of_tree (by omega : vpn + k < treePages)
    by_cases hLast : v / pageMapEntries = pageMapEntries - 1
    · rw [hLast, h.rooted.frame] at hFrame
      exact h.root_ne _ (by omega) (hRewrites.table k hk) hFrame
    · refine hOut k hk (h.page_inj (by omega) (by omega) hThere (hRewrites.table k hk) hFrame.symm
        hIndex.symm)
  · rw [walk_absent hThere, walk_absent (by rwa [hRewrites.root])]

/-- The page of the self-reference at which the MMU shows the `i`-th table. -/
theorem self_window {v : Nat} (hLast : v / pageMapEntries = pageMapEntries - 1) :
    v = self 0 + v % pageMapEntries := by
  rw [show self 0 = (pageMapEntries - 1) * pageMapEntries by decide, ← hLast]
  exact (Nat.div_add_mod' v pageMapEntries).symm

/-- New tables are empty: only they themselves can be seen. -/
theorem Extends.walk_other (h : s.TwoLevel p) (hExtends : Extends bits p s s' new) {v : Nat}
    (hv : v < allPages) (hWindow : ∀ i ∈ new, v ≠ self 0 + i) : walk s'.mem p v = walk s.mem p v := by
  have hDir := dir_lt hv
  by_cases hNew : v / pageMapEntries ∈ new
  · rw [walk_absent (hExtends.absent _ hNew).2, walk, hExtends.clear _ hNew,
      if_neg fun hBoth => PageEntry.not_has_zero hBoth.2]
  · have hSame := hExtends.entry _ hNew
    by_cases hThere : (s.mem p (v / pageMapEntries)).Has pgPresent
    · rw [walk, walk, hSame]
      by_cases hLast : v / pageMapEntries = pageMapEntries - 1
      · have hIndex : v % pageMapEntries ∉ new := fun hi => hWindow _ hi (self_window hLast)
        rw [hLast, h.rooted.frame, hExtends.entry _ hIndex]
      · rw [hExtends.other _ (h.root_ne _ (by omega) hThere) fun i hi he => ?_]
        exact (hExtends.fresh i hi).1.table _ (by omega) hThere he.symm
    · rw [walk_absent hThere, walk_absent (by rwa [hSame])]

/-- The frames that `page_map` gets for the tables of these pages. -/
def tableGrants (kernelEnd p viraddr npages : Nat) (s : Paging) : List Nat :=
  let vpn := viraddr >>> pageBits
  let first := vpn / pageMapEntries
  let last := (vpn + npages - 1) / pageMapEntries
  s.frames.grants kernelEnd (s.missing p (last + 1 - first) first)

/-- How many tables these pages lack. -/
def tablesMissing (p viraddr npages : Nat) (s : Paging) : Nat :=
  let vpn := viraddr >>> pageBits
  let first := vpn / pageMapEntries
  let last := (vpn + npages - 1) / pageMapEntries
  s.missing p (last + 1 - first) first

/-- What `page_map` leaves behind: new tables, and the entries of the pages if no table is missing. -/
structure MapDone (bits : BitVec 12) (p vpn frame npages : Nat) (s s' : Paging) (ret : Int)
    (new : List Nat) (tables : Paging) : Prop where
  enter : Extends bits p s tables new
  level : tables.TwoLevel p
  level' : s'.TwoLevel p
  range : ∀ i ∈ new, ∃ k < npages, i = (vpn + k) / pageMapEntries
  low : ∀ i ∈ new, i < pageMapEntries - 2
  marked : ret = 0 ∨ s.frames.Marked 0 → ∀ f, tables.frames.Marked f ↔
    s.frames.Marked f ∨ ∃ i ∈ new, (tables.mem p i).frame = f
  result : ret = 0 ∧ Rewrites (fun k => ⟨frame + k, bits ||| pgPresent⟩) p vpn npages tables s' ∨
    ret = -enomem ∧ s' = tables

/-- `page_map` below the self-references: it fails if the frames for tables run out. -/
theorem TwoLevel.pageMap_counted (h : s.TwoLevel p) {viraddr phyaddr npages : Nat} {ret : Int}
    (hPages : 1 ≤ npages) (hRange : viraddr >>> pageBits + npages ≤ lowPages)
    (hUnused : ∀ f ∈ s.tableGrants kernelEnd p viraddr npages, s.Unused p f)
    (hCall : s.pageMap kernelEnd p viraddr phyaddr npages bits = some (s', ret)) :
    ∃ new tables,
      MapDone bits p (viraddr >>> pageBits) (phyaddr >>> pageBits) npages s s' ret new tables ∧
      new.length = (s.tableGrants kernelEnd p viraddr npages).length ∧
      (ret = 0 ↔ new.length = s.tablesMissing p viraddr npages) := by
  rw [Paging.pageMap] at hCall
  rw [tableGrants] at hUnused ⊢
  rw [tablesMissing]
  dsimp only at hCall hUnused ⊢
  generalize viraddr >>> pageBits = vpn at hRange hCall hUnused ⊢
  have hLast := table_of_low (by omega : vpn + npages - 1 < lowPages)
  have hOrder : vpn / pageMapEntries ≤ (vpn + npages - 1) / pageMapEntries :=
    Nat.div_le_div_right (by omega)
  obtain ⟨⟨s₁, complete⟩, hTables, hRest⟩ := Option.bind_eq_some_iff.mp hCall
  obtain ⟨new, hDone⟩ := h.mapTables (by omega) hUnused hTables
  have hIn : ∀ i ∈ new, ∃ k < npages, i = (vpn + k) / pageMapEntries := by
    intro i hi
    have hBounds := hDone.range i hi
    have hDiv : vpn / pageMapEntries * pageMapEntries ≤ vpn := Nat.div_mul_le_self _ _
    have hDiv' : i * pageMapEntries ≤ vpn + npages - 1 :=
      (Nat.le_div_iff_mul_le (by decide)).mp (by omega)
    by_cases hFirst : i = vpn / pageMapEntries
    · exact ⟨0, by omega, hFirst⟩
    · have hAbove : vpn < i * pageMapEntries :=
        (Nat.div_lt_iff_lt_mul (by decide)).mp (by omega)
      refine ⟨i * pageMapEntries - vpn, by omega, ?_⟩
      rw [Nat.add_sub_cancel' hAbove.le, Nat.mul_div_cancel _ (by decide)]
  have hLow : ∀ i ∈ new, i < pageMapEntries - 2 := by
    intro i hi
    obtain ⟨k, hk, rfl⟩ := hIn i hi
    exact table_of_low (by omega)
  dsimp only at hRest
  cases complete with
  | false =>
      obtain ⟨rfl, rfl⟩ := Prod.mk.inj (Option.some.inj hRest)
      refine ⟨new, s₁, ⟨hDone.tables, hDone.level, hDone.level, hIn, hLow, fun hRet f => ?_,
        Or.inr ⟨rfl, rfl⟩⟩, hDone.count, ?_⟩
      · exact hDone.tables.marked f (Or.inr (hRet.resolve_left (by decide)))
      · rw [← hDone.complete_iff]
        decide
  | true =>
      rw [if_pos rfl] at hRest
      obtain ⟨s₂, hPages, hResult⟩ := Option.map_eq_some_iff.mp hRest
      obtain ⟨rfl, rfl⟩ := Prod.mk.inj hResult
      obtain ⟨hLevel, hRewrites⟩ := hDone.level.mapPages (hRange.trans lowPages_le) hPages
      refine ⟨new, s₁, ⟨hDone.tables, hDone.level, hLevel, hIn, hLow, fun _ f => ?_,
        Or.inl ⟨rfl, hRewrites⟩⟩, hDone.count, iff_of_true rfl (hDone.complete_iff.mp rfl)⟩
      by_cases hf : f = 0
      · subst hf
        rw [hDone.zero rfl]
        refine (or_iff_left fun hNew => ?_).symm
        obtain ⟨i, hi, hFrame⟩ := hNew
        exact (hDone.tables.fresh i hi).2.2.1 hFrame
      · exact hDone.tables.marked f (Or.inl hf)

/-- `page_map` below the self-references. -/
theorem TwoLevel.pageMap (h : s.TwoLevel p) {viraddr phyaddr npages : Nat} {ret : Int}
    (hPages : 1 ≤ npages) (hRange : viraddr >>> pageBits + npages ≤ lowPages)
    (hUnused : ∀ f ∈ s.tableGrants kernelEnd p viraddr npages, s.Unused p f)
    (hCall : s.pageMap kernelEnd p viraddr phyaddr npages bits = some (s', ret)) :
    ∃ new tables,
      MapDone bits p (viraddr >>> pageBits) (phyaddr >>> pageBits) npages s s' ret new tables := by
  obtain ⟨new, tables, hDone, _⟩ := h.pageMap_counted hPages hRange hUnused hCall
  exact ⟨new, tables, hDone⟩

/-- The page shows a table that has been entered. -/
def Entered (s s' : Paging) (p v : Nat) : Prop :=
  ∃ i < pageMapEntries - 2, v = self 0 + i ∧ ¬ (s.mem p i).Has pgPresent ∧ (s'.mem p i).Has pgPresent

theorem MapDone.root {vpn frame npages : Nat} {ret : Int} {tables : Paging}
    (h : MapDone bits p vpn frame npages s s' ret new tables) : s'.mem p = tables.mem p := by
  rcases h.result with ⟨_, hRewrites⟩ | ⟨_, rfl⟩
  · exact hRewrites.root
  · rfl

/-- The pages that `page_map` leaves alone. -/
theorem MapDone.walk_other {vpn frame npages v : Nat} {ret : Int} {tables : Paging}
    (hDone : MapDone bits p vpn frame npages s s' ret new tables) (h : s.TwoLevel p)
    (hRange : vpn + npages ≤ lowPages) (hv : v < allPages)
    (hOut : ret = 0 → ∀ i < npages, v ≠ vpn + i) (hWindow : ¬ s.Entered s' p v) :
    walk s'.mem p v = walk s.mem p v := by
  have hTables : walk tables.mem p v = walk s.mem p v := by
    refine hDone.enter.walk_other h hv fun i hi he => hWindow ?_
    refine ⟨i, hDone.low i hi, he, (hDone.enter.absent i hi).2, ?_⟩
    rw [hDone.root]
    exact (hDone.enter.present hi).1
  rcases hDone.result with ⟨hRet, hRewrites⟩ | ⟨_, rfl⟩
  · rw [hRewrites.walk_other hDone.level (hRange.trans lowPages_le) hv (hOut hRet), hTables]
  · exact hTables

theorem frame_shl {phyaddr i : Nat} (hAligned : pageSize ∣ phyaddr) :
    (phyaddr >>> pageBits + i) <<< pageBits = phyaddr + i * pageSize := by
  rw [Nat.shiftRight_eq_div_pow, Nat.shiftLeft_eq, Nat.add_mul]
  exact congrArg (· + i * pageSize) (Nat.div_mul_cancel hAligned)

/-- `page_map` maps the pages of the range, or none of them; but for the pages that show the new
tables, it changes no other translation. -/
theorem pageMap_translation (hMap : s.TwoLevel p) {viraddr phyaddr npages : Nat} {ret : Int}
    (hPages : 1 ≤ npages) (hRange : viraddr >>> pageBits + npages ≤ lowPages)
    (hAligned : pageSize ∣ phyaddr)
    (hUnused : ∀ f ∈ s.tableGrants kernelEnd p viraddr npages, s.Unused p f)
    (hCall : s.pageMap kernelEnd p viraddr phyaddr npages bits = some (s', ret)) :
    (ret = 0 ∨ ret = -enomem) ∧
      (ret = 0 → ∀ i < npages, ∃ e, walk s'.mem p (viraddr >>> pageBits + i) = some e ∧
        e.frame <<< pageBits = phyaddr + i * pageSize ∧ e.flags = bits ||| pgPresent) ∧
      ∀ v < allPages, (ret = 0 → ∀ i < npages, v ≠ viraddr >>> pageBits + i) →
        ¬ s.Entered s' p v → walk s'.mem p v = walk s.mem p v := by
  obtain ⟨new, tables, hDone⟩ := hMap.pageMap hPages hRange hUnused hCall
  refine ⟨hDone.result.imp And.left And.left, fun hRet i hi => ?_, fun v hv hOut hWindow =>
    hDone.walk_other hMap hRange hv hOut hWindow⟩
  rcases hDone.result with ⟨_, hRewrites⟩ | ⟨hError, _⟩
  · refine ⟨⟨phyaddr >>> pageBits + i, bits ||| pgPresent⟩, ?_, frame_shl hAligned, rfl⟩
    rw [hRewrites.walk_page hi, if_pos PageEntry.has_page]
  · rw [hRet] at hError
    exact absurd hError (by decide)

theorem onePage_twoLevel : onePage.TwoLevel 0x110 := by
  refine ⟨⟨by decide, by decide⟩, fun i hi hThere => ?_, fun i hi k hk hne hThere hThere' => ?_⟩
  · obtain rfl : i = 0 := (onePage_dir hThere).resolve_right (by omega)
    decide
  · have hi₀ : i = 0 := (onePage_dir hThere).resolve_right (by omega)
    have hk₀ : k = 0 := (onePage_dir hThere').resolve_right (by omega)
    exact absurd (hi₀.trans hk₀.symm) hne

theorem onePage_unused (hp : f ≠ 0x110) (hTable : f ≠ 0x111) : onePage.Unused 0x110 f := by
  refine ⟨hp, fun i hi hThere => ?_⟩
  obtain rfl : i = 0 := (onePage_dir hThere).resolve_right (by omega)
  exact hTable.symm

/-- Two pages over the end of a page table. -/
theorem onePage_map : ∃ s', onePage.pageMap 0x200000 0x110 0x3ff000 0x300000 2 pgRw = some (s', 0) ∧
    walk s'.mem 0x110 0x3ff = some ⟨0x300, pgRw ||| pgPresent⟩ ∧
    walk s'.mem 0x110 0x400 = some ⟨0x301, pgRw ||| pgPresent⟩ ∧
    walk s'.mem 0x110 0xffc01 = some ⟨0x201, pgRw ||| pgPresent ||| pgUser ||| pgRw⟩ ∧
    ∀ f ∈ onePage.tableGrants 0x200000 0x110 0x3ff000 2, onePage.Unused 0x110 f := by
  have hCall : ((onePage.pageMap 0x200000 0x110 0x3ff000 0x300000 2 pgRw).map fun r =>
      (r.2, walk r.1.mem 0x110 0x3ff, walk r.1.mem 0x110 0x400, walk r.1.mem 0x110 0xffc01)) =
      some (0, some ⟨0x300, pgRw ||| pgPresent⟩, some ⟨0x301, pgRw ||| pgPresent⟩,
        some ⟨0x201, pgRw ||| pgPresent ||| pgUser ||| pgRw⟩) := by
    decide
  obtain ⟨⟨s', ret⟩, hExec, hSeen⟩ := Option.map_eq_some_iff.mp hCall
  simp only [Prod.mk.injEq] at hSeen
  obtain ⟨rfl, hFirst, hSecond, hWindow⟩ := hSeen
  have hGrants : onePage.tableGrants 0x200000 0x110 0x3ff000 2 = [0x201] := by decide
  refine ⟨s', hExec, hFirst, hSecond, hWindow, fun f hf => ?_⟩
  rw [hGrants] at hf
  obtain rfl := List.mem_singleton.mp hf
  exact onePage_unused (by decide) (by decide)

theorem pageMap_translation_onePage :
    ∃ s' ret, onePage.pageMap 0x200000 0x110 0x3ff000 0x300000 2 pgRw = some (s', ret) ∧
      (ret = 0 ∨ ret = -enomem) ∧
      (ret = 0 → ∀ i < 2, ∃ e, walk s'.mem 0x110 (0x3ff000 >>> pageBits + i) = some e ∧
        e.frame <<< pageBits = 0x300000 + i * pageSize ∧ e.flags = pgRw ||| pgPresent) ∧
      ∀ v < allPages, (ret = 0 → ∀ i < 2, v ≠ 0x3ff000 >>> pageBits + i) →
        ¬ onePage.Entered s' 0x110 v → walk s'.mem 0x110 v = walk onePage.mem 0x110 v := by
  obtain ⟨s', hCall, _, _, _, hUnused⟩ := onePage_map
  exact ⟨s', 0, hCall, pageMap_translation onePage_twoLevel (by decide) (by decide) (by decide) hUnused
    hCall⟩

/-- A new table appears among the pages of the self-reference. -/
theorem pageMap_window : ¬ ∀ (s s' : Paging) (kernelEnd p viraddr phyaddr npages : Nat)
    (bits : BitVec 12) (ret : Int), s.TwoLevel p → 1 ≤ npages →
    viraddr >>> pageBits + npages ≤ lowPages → pageSize ∣ phyaddr →
    (∀ f ∈ s.tableGrants kernelEnd p viraddr npages, s.Unused p f) →
    s.pageMap kernelEnd p viraddr phyaddr npages bits = some (s', ret) → ret = 0 →
    ∀ v < allPages, (∀ i < npages, v ≠ viraddr >>> pageBits + i) → walk s'.mem p v = walk s.mem p v := by
  intro hAll
  obtain ⟨s', hCall, _, _, hWindow, hUnused⟩ := onePage_map
  have hSame := hAll onePage s' 0x200000 0x110 0x3ff000 0x300000 2 pgRw 0 onePage_twoLevel (by decide)
    (by decide) (by decide) hUnused hCall rfl 0xffc01 (by decide) (by decide)
  have hBefore : walk onePage.mem 0x110 0xffc01 = none := by decide
  rw [hWindow, hBefore] at hSame
  cases hSame

end Paging
end ArtOS

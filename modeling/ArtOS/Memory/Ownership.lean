import ArtOS.Memory.PageMapDrop

/-! What the page maps use their frames for. In maps in order no frame serves two purposes,
neither in two maps nor in one; the calls that change a map keep it so. -/
namespace ArtOS

namespace Frames.Holding

variable {used used' : Finset Nat} {s : Frames} {held : List (Nat × Nat)} {f : Nat}

theorem Sound.shrink (h : Sound used ⟨s, held⟩) (hSub : used' ⊆ used) (hUsed : used'.Nonempty) :
    Sound used' ⟨s, held⟩ := by
  obtain ⟨⟨hOutside, hTaken, hApart, hDisjoint⟩, hAvailable, ⟨_, hRange⟩, hBlock⟩ := h
  exact ⟨⟨hOutside.mono_left hSub, hTaken, fun t ht => (hApart t ht).mono_right hSub, hDisjoint⟩,
    hAvailable, ⟨hUsed, hSub.trans hRange⟩, hBlock⟩

theorem framesOf_single (f : Nat) : framesOf (f <<< pageBits, 1) = {f} := by
  ext j
  rw [mem_framesOf_one, Nat.shiftLeft_shiftRight, Finset.mem_singleton]

/-- A frame with an owner becomes a block in hand. -/
theorem Sound.lend (h : Sound used ⟨s, held⟩) (hOwned : Owned ⟨s, held⟩ f) (hZero : f ≠ 0)
    (hUsed : f ∉ used) : Sound used ⟨s, (f <<< pageBits, 1) :: held⟩ := by
  obtain ⟨⟨hOutside, hTaken, hApart, hDisjoint⟩, hAvailable, hRange, hBlock⟩ := h
  refine ⟨⟨hOutside, ?_, ?_, ?_⟩, hAvailable, hRange, ?_⟩
  · refine List.forall_mem_cons.mpr ⟨?_, hTaken⟩
    rw [framesOf_single, Finset.disjoint_singleton_left]
    exact fun hFree => (mem_freeFrames.mp hFree).2 hOwned.marked
  · refine List.forall_mem_cons.mpr ⟨?_, hApart⟩
    rw [framesOf_single, Finset.disjoint_singleton_left]
    exact hUsed
  · refine List.pairwise_cons.mpr ⟨fun t ht => ?_, hDisjoint⟩
    obtain ⟨block, hMem, rfl⟩ := List.mem_map.mp ht
    rw [framesOf_single, Finset.disjoint_singleton_left]
    exact hOwned.apart block hMem
  · refine List.forall_mem_cons.mpr ⟨⟨fun he => hZero ?_, Nat.one_pos, ?_⟩, hBlock⟩
    · have hAddr : f <<< pageBits = 0 := he
      rw [← Nat.shiftLeft_shiftRight f pageBits, hAddr, Nat.zero_shiftRight]
    · rw [framesOf_single, Finset.singleton_subset_iff, Finset.mem_range]
      exact hOwned.lt

/-- A frame with an owner is given back. -/
theorem Sound.putOwned (h : Sound used ⟨s, held⟩) (hOwned : Owned ⟨s, held⟩ f) (hZero : f ≠ 0)
    (hUsed : f ∉ used) :
    ∃ s' ret, s.putPages (f <<< pageBits) 1 = some (s', ret) ∧ Sound used ⟨s', held⟩ ∧
      ∀ j, s'.Marked j ↔ s.Marked j ∧ j ≠ f := by
  obtain ⟨s', ret, hCall, hMarks, hSound⟩ := (h.lend hOwned hZero hUsed).put List.mem_cons_self
  rw [List.erase_cons_head] at hSound
  refine ⟨s', ret, hCall, hSound, fun j => (hMarks j).trans ?_⟩
  rw [framesOf_single, Finset.mem_singleton]

end Frames.Holding

namespace Paging

open Frames

def Exclusive (mem : Nat → Nat → PageEntry) (roots : Set Nat) : Prop :=
  ∀ p ∈ roots, ∀ q ∈ roots, ∀ x y f, Uses mem p x f → Uses mem q y f → p = q ∧ x = y

/-- Page maps in order, and no frame is used twice. -/
structure Owners (Leaf : Holding → PageEntry → Prop) (used : Finset Nat) (held : List (Nat × Nat))
    (s : Paging) (roots : Set Nat) : Prop where
  maps : s.Maps Leaf used held roots
  exclusive : Exclusive s.mem roots

/-- Pages of user space are owned, and nothing else is asked of them. -/
structure OwnRule (Leaf : Holding → PageEntry → Prop) : Prop extends CopyRule Leaf where
  owned : ∀ r e, Leaf r e → e.IsUser → r.Owned e.frame
  keep : ∀ r r' e, Leaf r e → (e.IsUser → Holding.Owned r' e.frame) → Leaf r' e

variable {used : Finset Nat} {held held' : List (Nat × Nat)} {s s' s₁ : Paging} {roots roots' : Set Nat}
  {mem mem' : Nat → Nat → PageEntry} {p q d f g i j : Nat} {e : PageEntry} {x y : Slot}
  {kernelEnd : Nat} {Leaf : Holding → PageEntry → Prop}

theorem Exclusive.mono (h : Exclusive mem roots) (hSub : roots' ⊆ roots)
    (hUses : ∀ q ∈ roots', ∀ y f, Uses mem' q y f → Uses mem q y f) : Exclusive mem' roots' := by
  intro p hp q hq x y f hx hy
  exact h p (hSub hp) q (hSub hq) x y f (hUses p hp x f hx) (hUses q hq y f hy)

/-- One new use of a frame that was not in use. -/
theorem Exclusive.add (h : Exclusive mem roots) (p₀ : Nat) (x₀ : Slot) (f₀ : Nat)
    (hUses : ∀ q ∈ roots, ∀ y f, Uses mem' q y f →
      Uses mem q y f ∨ q = p₀ ∧ y = x₀ ∧ f = f₀ ∧ ∀ p ∈ roots, ∀ x, ¬ Uses mem p x f₀) :
    Exclusive mem' roots := by
  intro p hp q hq x y f hx hy
  rcases hUses p hp x f hx with hOld | ⟨rfl, rfl, rfl, hFree⟩
  · rcases hUses q hq y f hy with hOld' | ⟨rfl, rfl, rfl, hFree⟩
    · exact h p hp q hq x y f hOld hOld'
    · exact absurd hOld (hFree p hp x)
  · rcases hUses q hq y f hy with hOld' | ⟨rfl, rfl, _, _⟩
    · exact absurd hOld' (hFree q hq y)
    · exact ⟨rfl, rfl⟩

theorem Maps.owned (hRule : OwnRule Leaf) (h : s.Maps Leaf used held roots) (hp : p ∈ roots)
    (hUses : Uses s.mem p x f) : Holding.Owned ⟨s.frames, held⟩ f := by
  cases x with
  | root => exact hUses ▸ (h.root p hp).owned
  | table i =>
      obtain ⟨⟨hi, hPresent⟩, rfl⟩ := hUses
      exact (h.table p hp i hi hPresent).2.2.owned
  | page i j =>
      obtain ⟨⟨hi, hPresent⟩, hj, hUser, rfl⟩ := hUses
      exact hRule.owned _ _ ((h.table p hp i hi hPresent).2.2.leaf j hj) hUser

/-- What a free frame is not used for. -/
theorem Maps.unused (hRule : OwnRule Leaf) (h : s.Maps Leaf used held roots)
    (hFree : ¬ s.frames.Marked f) : ∀ p ∈ roots, ∀ x, ¬ Uses s.mem p x f :=
  fun _ hp _ hUses => hFree (h.owned hRule hp hUses).marked

/-- What a frame in hand is not used for. -/
theorem Maps.unused_held (hRule : OwnRule Leaf) (h : s.Maps Leaf used held roots)
    {block : Nat × Nat} (hBlock : block ∈ held) (hf : f ∈ framesOf block) :
    ∀ p ∈ roots, ∀ x, ¬ Uses s.mem p x f :=
  fun _ hp _ hUses => (h.owned hRule hp hUses).apart block hBlock hf

/-- The words of tables that matter are the same. -/
theorem Uses.congr (hRoot : mem' p = mem p)
    (hTable : ∀ i < pageMapEntries - 2, (mem p i).Has pgPresent → mem' (mem p i).frame = mem (mem p i).frame)
    (h : Uses mem' p x f) : Uses mem p x f := by
  cases x with
  | root => exact h
  | table i => rwa [Uses, hRoot] at h
  | page i j =>
      rw [Uses, hRoot] at h
      obtain ⟨⟨hi, hPresent⟩, hRest⟩ := h
      rw [hTable i hi hPresent] at hRest
      exact ⟨⟨hi, hPresent⟩, hRest⟩

/-- Frames that no one owns may change. -/
theorem Owners.keep (hRule : LeafRule Leaf) (h : s.Owners Leaf used held roots)
    (hPool : Holding.Sound used ⟨s'.frames, held'⟩)
    (hGrows : Holding.Grows ⟨s.frames, held⟩ ⟨s'.frames, held'⟩)
    (hMem : ∀ f, Holding.Owned ⟨s.frames, held⟩ f → s'.mem f = s.mem f) :
    s'.Owners Leaf used held' roots := by
  refine ⟨h.maps.keep hRule hPool hGrows hMem, h.exclusive.mono subset_rfl fun q hq y f hUses => ?_⟩
  exact Uses.congr (hMem q (h.maps.root q hq).owned)
    (fun i hi hPresent => hMem _ (h.maps.table q hq i hi hPresent).2.2.owned) hUses

/-- A frame that no map uses is in hand from now on. -/
theorem Owners.lend (hRule : OwnRule Leaf) (h : s.Owners Leaf used held roots)
    (hOwned : Holding.Owned ⟨s.frames, held⟩ d) (hZero : d ≠ 0) (hUsed : d ∉ used)
    (hNot : ∀ p ∈ roots, ∀ x, ¬ Uses s.mem p x d) :
    s.Owners Leaf used ((d <<< pageBits, 1) :: held) roots := by
  have hKeep : ∀ p ∈ roots, ∀ x f, Uses s.mem p x f →
      Holding.Owned ⟨s.frames, (d <<< pageBits, 1) :: held⟩ f := by
    intro p hp x f hUses
    obtain ⟨hLt, hMarked, hApart⟩ := h.maps.owned hRule hp hUses
    refine ⟨hLt, hMarked, List.forall_mem_cons.mpr ⟨?_, hApart⟩⟩
    rw [Holding.framesOf_single, Finset.mem_singleton]
    rintro rfl
    exact hNot p hp x hUses
  refine ⟨⟨h.maps.pool.lend hOwned hZero hUsed, fun p hp => ?_, fun p hp i hi hPresent => ?_⟩,
    h.exclusive⟩
  · obtain ⟨_, hRooted, hKernel, hClosed, hLow⟩ := h.maps.root p hp
    exact ⟨hKeep p hp .root p rfl, hRooted, hKernel, hClosed, hLow⟩
  · obtain ⟨hUser, hApart, hTable, _, hLeaf⟩ := h.maps.table p hp i hi hPresent
    refine ⟨hUser, hApart, hTable, hKeep p hp (.table i) _ ⟨⟨hi, hPresent⟩, rfl⟩, fun j hj => ?_⟩
    exact hRule.keep _ _ _ (hLeaf j hj) fun hPage =>
      hKeep p hp (.page i j) _ ⟨⟨hi, hPresent⟩, hj, hPage, rfl⟩

/-- The order of the blocks in hand does not matter. -/
theorem Owners.perm (hRule : LeafRule Leaf) (h : s.Owners Leaf used held roots)
    (hPerm : held.Perm held') : s.Owners Leaf used held' roots := by
  refine h.keep hRule ⟨h.maps.pool.pool.perm (hPerm.map framesOf), h.maps.pool.available,
    h.maps.pool.used, fun range hr => h.maps.pool.block range (hPerm.mem_iff.mpr hr)⟩
    (fun f hf => ⟨hf.lt, hf.marked, fun block hb => hf.apart block (hPerm.mem_iff.mpr hb)⟩)
    fun _ _ => rfl

/-- An entry of a page table is written: the only new use is its own. -/
theorem Owners.write_uses (h : s.Owners Leaf used held roots) (hp : p ∈ roots)
    (hi : i < pageMapEntries - 2) (hPresent : (s.mem p i).Has pgPresent) :
    ∀ q ∈ roots, ∀ y f, Uses (s.write (s.mem p i).frame j e).mem q y f →
      Uses s.mem q y f ∨ q = p ∧ y = .page i j ∧ f = e.frame ∧ e.IsUser := by
  intro q hq y f hUses
  have hRoot : (s.write (s.mem p i).frame j e).mem q = s.mem q :=
    mem_write_of_frame fun he => (h.maps.table p hp i hi hPresent).2.1 (he ▸ hq)
  cases y with
  | root => exact Or.inl hUses
  | table k =>
      rw [Uses, hRoot] at hUses
      exact Or.inl hUses
  | page k l =>
      rw [Uses, hRoot] at hUses
      obtain ⟨⟨hk, hThere⟩, hl, hWord⟩ := hUses
      by_cases hFrame : (s.mem q k).frame = (s.mem p i).frame
      · obtain ⟨rfl, hSlot⟩ := h.exclusive q hq p hp (.table k) (.table i) _ ⟨⟨hk, hThere⟩, hFrame⟩
          ⟨⟨hi, hPresent⟩, rfl⟩
        obtain rfl : k = i := by injection hSlot
        by_cases hlj : l = j
        · subst hlj
          rw [mem_write] at hWord
          exact Or.inr ⟨rfl, rfl, hWord.2.symm, hWord.1⟩
        · rw [mem_write_of_index hlj] at hWord
          exact Or.inl ⟨⟨hk, hThere⟩, hl, hWord⟩
      · rw [mem_write_of_frame hFrame] at hWord
        exact Or.inl ⟨⟨hk, hThere⟩, hl, hWord⟩

theorem Owners.write_leaf (h : s.Owners Leaf used held roots) (hp : p ∈ roots)
    (hi : i < pageMapEntries - 2) (hPresent : (s.mem p i).Has pgPresent)
    (hLeaf : Leaf ⟨s.frames, held⟩ e)
    (hFree : e.IsUser → ∀ q ∈ roots, ∀ y, ¬ Uses s.mem q y e.frame) :
    (s.write (s.mem p i).frame j e).Owners Leaf used held roots := by
  refine ⟨h.maps.write_leaf hp hi hPresent hLeaf, h.exclusive.add p (.page i j) e.frame fun q hq y f hUses => ?_⟩
  rcases h.write_uses hp hi hPresent q hq y f hUses with hOld | ⟨hqp, hSlot, hFrame, hUser⟩
  · exact Or.inl hOld
  · exact Or.inr ⟨hqp, hSlot, hFrame, hFree hUser⟩

/-- One new table of `page_map`. -/
theorem Owners.newTable (hRule : OwnRule Leaf) (h : s.Owners Leaf used held roots) (hp : p ∈ roots)
    (hi : i < pageMapEntries - 2) (hAbsent : ¬ (s.mem p i).Has pgPresent) {frames : Frames}
    {usage : Nat} (hTaking : Holding.Taking s.frames frames)
    (hMaps : Maps Leaf used held { s with frames := frames, usage := usage } roots)
    (hZero : f ≠ 0) (hFree : ¬ s.frames.Marked f) (hOwned : Holding.Owned ⟨frames, held⟩ f)
    {flags : BitVec 12} (hPresent : PageEntry.Has ⟨f, flags⟩ pgPresent)
    (hUser : PageEntry.Has ⟨f, flags⟩ pgUser) :
    ∃ s', ((setEntry p (self 1) i ⟨f, flags⟩ { s with frames := frames, usage := usage }).bind
        (clearPage p (self 0 + i))) = some s' ∧ s'.frames = frames ∧
      s'.Owners Leaf used held roots ∧ (s'.mem p i).Has pgPresent ∧
      (∀ j ≠ i, s'.mem p j = s.mem p j) ∧
      ∀ q ∈ roots, ∀ y g, Uses s'.mem q y g → Uses s.mem q y g ∨ g = f := by
  obtain ⟨s', hExec, hFrames, hMaps', hNew, hSame, hOther, hClear⟩ :=
    h.maps.newTable hRule.toLeafRule hp hi hAbsent hTaking hMaps hZero hFree hOwned hPresent hUser
  have hUnused := h.maps.unused hRule hFree
  have hfp : f ≠ p := fun he => hUnused p hp .root he
  have hRoot : ∀ q ∈ roots, q ≠ p → s'.mem q = s.mem q := fun q hq hqp =>
    hOther q hqp fun he => hUnused q hq .root he.symm
  have hWord : ∀ q ∈ roots, ∀ k, ¬ (q = p ∧ k = i) → s'.mem q k = s.mem q k := by
    intro q hq k hk
    by_cases hqp : q = p
    · subst hqp
      exact hSame k fun he => hk ⟨rfl, he⟩
    · rw [hRoot q hq hqp]
  have hUses : ∀ q ∈ roots, ∀ y g, Uses s'.mem q y g →
      Uses s.mem q y g ∨ q = p ∧ y = .table i ∧ g = f := by
    intro q hq y g hUses
    cases y with
    | root => exact Or.inl hUses
    | table k =>
        by_cases hk : q = p ∧ k = i
        · obtain ⟨rfl, rfl⟩ := hk
          rw [Uses, hNew] at hUses
          exact Or.inr ⟨rfl, rfl, hUses.2.symm⟩
        · rw [Uses, hWord q hq k hk] at hUses
          exact Or.inl hUses
    | page k l =>
        by_cases hk : q = p ∧ k = i
        · obtain ⟨rfl, rfl⟩ := hk
          rw [Uses, hNew, hClear] at hUses
          exact absurd hUses.2.2.1.1 PageEntry.not_has_zero
        · rw [Uses, hWord q hq k hk] at hUses
          obtain ⟨⟨hk', hThere⟩, hRest⟩ := hUses
          have hTable : s'.mem (s.mem q k).frame = s.mem (s.mem q k).frame := by
            refine hOther _ (fun he => ?_) fun he => hUnused q hq (.table k) ⟨⟨hk', hThere⟩, he⟩
            exact (h.maps.table q hq k hk' hThere).2.1 (he ▸ hp)
          rw [hTable] at hRest
          exact Or.inl ⟨⟨hk', hThere⟩, hRest⟩
  refine ⟨s', hExec, hFrames, ⟨hMaps', h.exclusive.add p (.table i) f fun q hq y g hg => ?_⟩, ?_, hSame,
    fun q hq y g hg => ?_⟩
  · rcases hUses q hq y g hg with hOld | ⟨hqp, hSlot, hgf⟩
    · exact Or.inl hOld
    · exact Or.inr ⟨hqp, hSlot, hgf, hUnused⟩
  · rw [hNew]
    exact hPresent
  · rcases hUses q hq y g hg with hOld | ⟨_, _, hgf⟩
    · exact Or.inl hOld
    · exact Or.inr hgf

/-- The first round of `page_map`. -/
theorem Owners.mapTables (hRule : OwnRule Leaf) (h : s.Owners Leaf used held roots) (hp : p ∈ roots)
    (kernelEnd : Nat) (bits : BitVec 12) (left vpn : Nat) (hRange : vpn + left ≤ pageMapEntries - 2) :
    ∃ s' complete, s.mapTables kernelEnd p bits left vpn = some (s', complete) ∧
      s'.Owners Leaf used held roots ∧ Holding.Taking s.frames s'.frames ∧
      (∀ i, (s.mem p i).Has pgPresent → (s'.mem p i).Has pgPresent) ∧
      (complete = true → ∀ i, vpn ≤ i → i < vpn + left → (s'.mem p i).Has pgPresent) ∧
      ∀ q ∈ roots, ∀ y g, s.frames.Marked g → Uses s'.mem q y g → Uses s.mem q y g := by
  induction left generalizing vpn s with
  | zero => exact ⟨s, true, rfl, h, fun _ hf => hf, fun _ hi => hi, fun _ i h₁ h₂ => by omega,
      fun _ _ _ _ _ hUses => hUses⟩
  | succ left ih =>
      rw [Paging.mapTables, (h.maps.root p hp).rooted.entry_dir (by omega), Option.bind_some]
      by_cases hPresent : (s.mem p vpn).Has pgPresent
      · rw [if_pos hPresent]
        obtain ⟨s', complete, hExec, hOwners, hTaking, hStay, hAll, hUses⟩ := ih h (vpn + 1) (by omega)
        refine ⟨s', complete, hExec, hOwners, hTaking, hStay, fun hDone i h₁ h₂ => ?_, hUses⟩
        rcases Nat.eq_or_lt_of_le h₁ with rfl | h₁
        · exact hStay vpn hPresent
        · exact hAll hDone i h₁ (by omega)
      · obtain ⟨frames, addr, hCall, hTaking, hMaps, hNew⟩ :=
          h.maps.getPages hRule.toLeafRule kernelEnd
        rw [if_neg hPresent, hCall, Option.bind_some]
        dsimp only
        by_cases hAddr : addr = 0
        · rw [if_pos hAddr]
          exact ⟨_, false, rfl, ⟨hMaps s.usage, h.exclusive⟩, hTaking, fun _ hi => hi,
            fun hDone => absurd hDone (by decide), fun _ _ _ _ _ hUses => hUses⟩
        · obtain ⟨hZero, hFree, hOwned⟩ := hNew hAddr
          obtain ⟨hTable, hUser⟩ := PageEntry.has_table (addr >>> pageBits) bits
          obtain ⟨s₁, hExec, hFrames, hOwners₁, hThere, hSame, hUses₁⟩ := h.newTable hRule hp
            (by omega) hPresent hTaking (hMaps _) hZero hFree hOwned hTable hUser
          obtain ⟨s', complete, hRest, hOwners', hTaking', hStay, hAll, hUses'⟩ :=
            ih hOwners₁ (vpn + 1) (by omega)
          have hKept : ∀ i, (s.mem p i).Has pgPresent → (s₁.mem p i).Has pgPresent := by
            intro i hi
            by_cases hvpn : i = vpn
            · exact hvpn ▸ hThere
            · exact hSame i hvpn ▸ hi
          refine ⟨s', complete, ?_, hOwners', fun f hf => hTaking' f (hFrames ▸ hTaking f hf),
            fun i hi => hStay i (hKept i hi), fun hDone i h₁ h₂ => ?_, fun q hq y g hg hUses => ?_⟩
          · rw [if_neg hAddr, ← Option.bind_assoc, hExec, Option.bind_some]
            exact hRest
          · rcases Nat.eq_or_lt_of_le h₁ with rfl | h₁
            · exact hStay vpn hThere
            · exact hAll hDone i h₁ (by omega)
          · rcases hUses₁ q hq y g (hUses' q hq y g (hFrames ▸ hTaking g hg) hUses) with hOld | rfl
            · exact hOld
            · exact absurd hg hFree

/-- The second round of `page_map`. -/
theorem Owners.mapPages (h : s.Owners Leaf used held roots) (hp : p ∈ roots) (bits : BitVec 12)
    (left vpn frame : Nat) (hRange : vpn + left ≤ lowPages)
    (hTables : ∀ k < left, (s.mem p ((vpn + k) / pageMapEntries)).Has pgPresent)
    (hLeaf : ∀ k < left, Leaf ⟨s.frames, held⟩ ⟨frame + k, bits ||| pgPresent⟩)
    (hFree : bits &&& pgUser ≠ 0 → ∀ k < left, ∀ q ∈ roots, ∀ y, ¬ Uses s.mem q y (frame + k)) :
    ∃ s', s.mapPages p bits left vpn frame = some s' ∧ s'.Owners Leaf used held roots ∧
      s'.frames = s.frames ∧ ∀ q ∈ roots, ∀ y g, Uses s'.mem q y g → Uses s.mem q y g ∨
        bits &&& pgUser ≠ 0 ∧ frame ≤ g ∧ g < frame + left := by
  induction left generalizing vpn frame s with
  | zero => exact ⟨s, rfl, h, rfl, fun _ _ _ _ hUses => Or.inl hUses⟩
  | succ left ih =>
      have hFirst : (s.mem p (vpn / pageMapEntries)).Has pgPresent := hTables 0 (Nat.zero_lt_succ left)
      have hTable := table_of_low (by omega : vpn < lowPages)
      have hBits : PageEntry.IsUser ⟨frame, bits ||| pgPresent⟩ → bits &&& pgUser ≠ 0 := fun hUser =>
        (PageEntry.or_and_ne_zero.mp hUser.2).resolve_right fun hne => hne (by decide)
      have hOwners := h.write_leaf (j := vpn % pageMapEntries) (e := ⟨frame, bits ||| pgPresent⟩) hp
        hTable hFirst (hLeaf 0 (Nat.zero_lt_succ left))
        fun hUser => hFree (hBits hUser) 0 (Nat.zero_lt_succ left)
      have hUses := h.write_uses (j := vpn % pageMapEntries) (e := ⟨frame, bits ||| pgPresent⟩) hp
        hTable hFirst
      have hApart := (h.maps.table p hp _ hTable hFirst).2.1
      have hSame : (s.write (s.mem p (vpn / pageMapEntries)).frame (vpn % pageMapEntries)
          ⟨frame, bits ||| pgPresent⟩).mem p = s.mem p :=
        mem_write_of_frame fun he => hApart (by rw [← he]; exact hp)
      rw [Paging.mapPages, (h.maps.root p hp).rooted.setEntry_page (by omega) hFirst, Option.bind_some]
      generalize hs₁ : s.write (s.mem p (vpn / pageMapEntries)).frame (vpn % pageMapEntries)
        ⟨frame, bits ||| pgPresent⟩ = s₁ at hOwners hUses hSame ⊢
      have hFrames : s₁.frames = s.frames := by rw [← hs₁, write_frames]
      have hNext : ∀ n k : Nat, n + 1 + k = n + (k + 1) := fun n k => by omega
      obtain ⟨s', hExec, hOwners', hFrames', hUses'⟩ := ih hOwners (vpn + 1) (frame + 1) (by omega)
        (fun k hk => by
          rw [hSame, hNext]
          exact hTables (k + 1) (by omega))
        (fun k hk => by
          rw [hFrames, hNext]
          exact hLeaf (k + 1) (by omega))
        fun hUser k hk q hq y hUsed => by
          rcases hUses q hq y _ hUsed with hOld | ⟨_, _, hFrame, _⟩
          · rw [hNext] at hOld
            exact hFree hUser (k + 1) (by omega) q hq y hOld
          · dsimp only at hFrame
            omega
      refine ⟨s', hExec, hOwners', hFrames'.trans hFrames, fun q hq y g hg => ?_⟩
      rcases hUses' q hq y g hg with hMiddle | ⟨hUser, hLow, hHigh⟩
      · rcases hUses q hq y g hMiddle with hOld | ⟨_, _, rfl, hUser⟩
        · exact Or.inl hOld
        · exact Or.inr ⟨hBits hUser, le_rfl, by omega⟩
      · exact Or.inr ⟨hUser, by omega, by omega⟩

/-- `page_map` below the self-references. -/
theorem Owners.pageMap (hRule : OwnRule Leaf) (h : s.Owners Leaf used held roots) (hp : p ∈ roots)
    (kernelEnd : Nat) {viraddr phyaddr npages : Nat} {bits : BitVec 12} (hPages : 0 < npages)
    (hRange : viraddr >>> pageBits + npages ≤ lowPages) (hSub : held'.Sublist held)
    (hLeaf : ∀ k < npages,
      Leaf ⟨s.frames, held'⟩ ⟨phyaddr >>> pageBits + k, bits ||| pgPresent⟩)
    (hFree : bits &&& pgUser ≠ 0 → ∀ k < npages, s.frames.Marked (phyaddr >>> pageBits + k) ∧
      ∀ q ∈ roots, ∀ y, ¬ Uses s.mem q y (phyaddr >>> pageBits + k)) :
    ∃ s' ret, s.pageMap kernelEnd p viraddr phyaddr npages bits = some (s', ret) ∧
      (ret = 0 ∧ s'.Owners Leaf used held' roots ∨ ret ≠ 0 ∧ s'.Owners Leaf used held roots) := by
  rw [Paging.pageMap]
  dsimp only
  generalize viraddr >>> pageBits = vpn at hRange ⊢
  have hLast := table_of_low (by omega : vpn + npages - 1 < lowPages)
  have hOrder : vpn / pageMapEntries ≤ (vpn + npages - 1) / pageMapEntries :=
    Nat.div_le_div_right (by omega)
  obtain ⟨s₁, complete, hExec, hOwners, hTaking, _, hAll, hUses⟩ := h.mapTables hRule hp kernelEnd bits
    ((vpn + npages - 1) / pageMapEntries + 1 - vpn / pageMapEntries) (vpn / pageMapEntries)
    (by omega)
  rw [hExec, Option.bind_some]
  dsimp only
  cases complete with
  | false => exact ⟨s₁, -enomem, rfl, Or.inr ⟨by decide, hOwners⟩⟩
  | true =>
      have hOwners₁ : s₁.Owners Leaf used held' roots :=
        hOwners.keep hRule.toLeafRule (hOwners.maps.pool.sublist hSub) (Holding.grows_sublist hSub)
          fun _ _ => rfl
      obtain ⟨s', hExec', hOwners', _⟩ := hOwners₁.mapPages hp bits npages vpn (phyaddr >>> pageBits)
        hRange
        (fun k hk => by
          have hUpper : (vpn + k) / pageMapEntries ≤ (vpn + npages - 1) / pageMapEntries :=
            Nat.div_le_div_right (by omega)
          exact hAll rfl _ (Nat.div_le_div_right (by omega)) (by omega))
        (fun k hk => hRule.mono _ _ _ hTaking.grows (hLeaf k hk))
        fun hUser k hk q hq y hUsed => by
          obtain ⟨hMarked, hUnused⟩ := hFree hUser k hk
          exact hUnused q hq y (hUses q hq y _ hMarked hUsed)
      exact ⟨s', 0, by rw [if_pos rfl, hExec', Option.map_some], Or.inl ⟨rfl, hOwners'⟩⟩

/-- The loop of `page_unmap`. -/
theorem Owners.unmapPages (hRule : OwnRule Leaf) (h : s.Owners Leaf used held roots) (hp : p ∈ roots)
    (left vpn : Nat) (hRange : vpn + left ≤ lowPages) (hExec : s.unmapPages p left vpn = some s') :
    s'.Owners Leaf used held roots := by
  induction left generalizing vpn s with
  | zero => exact Option.some.inj hExec ▸ h
  | succ left ih =>
      rw [Paging.unmapPages] at hExec
      obtain ⟨s₁, hSet, hRest⟩ := Option.bind_eq_some_iff.mp hExec
      have hRooted := (h.maps.root p hp).rooted
      have hTable := table_of_low (by omega : vpn < lowPages)
      by_cases hPresent : (s.mem p (vpn / pageMapEntries)).Has pgPresent
      · rw [hRooted.setEntry_page (by omega) hPresent] at hSet
        obtain rfl := Option.some.inj hSet
        exact ih (h.write_leaf hp hTable hPresent (hRule.zero _) fun hUser =>
          absurd hUser.1 PageEntry.not_has_zero) (vpn + 1) (by omega) hRest
      · rw [setEntry, hRooted.frameAt_self_absent (by omega) hPresent] at hSet
        cases hSet

/-- What a page holds does not matter. -/
theorem Owners.clearPage (hRule : LeafRule Leaf) (h : s.Owners Leaf used held roots) (hp : p ∈ roots)
    (hPage : Uses s.mem p (.page i j) f) :
    (s.setFrame f fun _ => PageEntry.zero).Owners Leaf used held roots := by
  have hOther : ∀ q ∈ roots, ∀ x, x ≠ .page i j → ¬ Uses s.mem q x f := fun q hq x hx hUses =>
    hx (h.exclusive q hq p hp x _ f hUses hPage).2
  have hRoot : f ∉ roots := fun hf => hOther f hf .root (fun he => by cases he) rfl
  refine ⟨h.maps.clearFrame hRule hRoot, h.exclusive.mono subset_rfl fun q hq y g hUses => ?_⟩
  have hqf : q ≠ f := fun he => hRoot (by rw [← he]; exact hq)
  refine Uses.congr (mem_setFrame_of_ne hqf) (fun k hk hPresent => ?_) hUses
  exact mem_setFrame_of_ne fun he => hOther q hq (.table k) (fun he => by cases he) ⟨⟨hk, hPresent⟩, he⟩

theorem uses_of_walk {vpn : Nat} (hLow : vpn < lowPages) (hWalk : walk mem p vpn = some e)
    (hUser : e.Has pgUser) :
    Uses mem p (.page (vpn / pageMapEntries) (vpn % pageMapEntries)) e.frame := by
  rw [walk] at hWalk
  split at hWalk
  · rename_i hBoth
    obtain rfl := Option.some.inj hWalk
    exact ⟨⟨table_of_low hLow, hBoth.1⟩, Nat.mod_lt _ (by decide), ⟨hBoth.2, hUser⟩, rfl⟩
  · cases hWalk

/-- A page fault below the self-references. -/
theorem Owners.pageFault (hRule : OwnRule Leaf) (h : s.Owners Leaf used held roots) (hp : p ∈ roots)
    (kernelEnd : Nat) {viraddr : Nat} (heap : Option (Nat × Nat))
    (hRange : (∃ area ∈ heap, area.1 ≤ viraddr ∧ viraddr < area.2) → viraddr >>> pageBits < lowPages)
    (hLeaf : ∀ r f, Holding.Owned r f → Leaf r ⟨f, pgUser ||| pgRw ||| pgPresent⟩) :
    ∃ s' back, s.pageFaultHandler kernelEnd p viraddr heap = some (s', back) ∧
      s'.Owners Leaf used held roots := by
  rw [pageFaultHandler]
  split
  · rename_i hHeap
    have hRange := hRange hHeap
    have hPage : viraddr >>> pageBits <<< pageBits >>> pageBits = viraddr >>> pageBits :=
      Nat.shiftLeft_shiftRight _ _
    obtain ⟨frames, addr, hCall, hPool, hTaking, hGrows, hNew⟩ := h.maps.pool.getPages kernelEnd 1
    dsimp only
    rw [hCall, Option.bind_some]
    dsimp only
    by_cases hAddr : addr = 0
    · rw [if_pos hAddr] at hPool hGrows ⊢
      exact ⟨_, false, rfl, h.keep hRule.toLeafRule hPool hGrows fun _ _ => rfl⟩
    · rw [if_neg hAddr] at hPool hGrows ⊢
      have hOwners : Owners Leaf used ((addr, 1) :: held) { s with frames := frames } roots :=
        h.keep hRule.toLeafRule hPool hGrows fun _ _ => rfl
      have hMine : addr >>> pageBits ∈ framesOf (addr, 1) := Holding.mem_framesOf_one.mpr rfl
      have hOwned := hPool.owned List.mem_cons_self hMine
      rw [List.erase_cons_head] at hOwned
      have hFrame : ∀ k < 1,
          Leaf ⟨frames, held⟩ ⟨addr >>> pageBits + k, pgUser ||| pgRw ||| pgPresent⟩ := by
        intro k hk
        obtain rfl : k = 0 := by omega
        exact hLeaf _ _ hOwned
      have hUnused : ∀ k < 1, frames.Marked (addr >>> pageBits + k) ∧
          ∀ q ∈ roots, ∀ y, ¬ Uses s.mem q y (addr >>> pageBits + k) := by
        intro k hk
        obtain rfl : k = 0 := by omega
        exact ⟨hOwned.marked, h.maps.unused hRule (hNew hAddr _ hMine)⟩
      generalize viraddr >>> pageBits <<< pageBits = page at hPage ⊢
      have hPages : page >>> pageBits + 1 ≤ lowPages := by omega
      obtain ⟨s', ret, hMap, _, _, hWalk, _⟩ := hOwners.maps.pageMap hRule.toLeafRule hp kernelEnd
        Nat.one_pos hPages (List.sublist_cons_self _ held) hFrame
      obtain ⟨s₁, ret₁, hMap₁, hCases⟩ := hOwners.pageMap hRule hp kernelEnd Nat.one_pos hPages
        (List.sublist_cons_self _ held) hFrame fun _ => hUnused
      obtain ⟨rfl, rfl⟩ := Prod.mk.inj (Option.some.inj (hMap.symm.trans hMap₁))
      rw [hMap, Option.bind_some]
      dsimp only
      rcases hCases with ⟨hRet, hOwners'⟩ | ⟨hRet, hOwners'⟩
      · have hFound : s'.frameAt p (page >>> pageBits) = some (addr >>> pageBits) := by
          rw [frameAt, hWalk rfl hRet, Option.map_some]
        rw [if_neg fun hne => hne hRet, Paging.clearPage, hFound, Option.map_some, Option.map_some]
        refine ⟨_, true, rfl, hOwners'.clearPage hRule.toLeafRule hp
          (uses_of_walk (by omega) (hWalk rfl hRet) ?_)⟩
        show (pgUser ||| pgRw ||| pgPresent) &&& pgUser ≠ 0
        decide
      · obtain ⟨frames', back, hPut, hPool', hGrows'⟩ :=
          hOwners'.maps.pool.putPages List.mem_cons_self
        rw [List.erase_cons_head] at hPool' hGrows'
        rw [if_pos hRet, hPut, Option.map_some]
        exact ⟨_, false, rfl, hOwners'.keep hRule.toLeafRule hPool' hGrows' fun _ _ => rfl⟩
  · exact ⟨s, false, rfl, h⟩

/-- The state in the course of `page_map_drop`, seen from its start `s`: the frames of the slots in
`done` are free. -/
structure Dropping (used : Finset Nat) (held : List (Nat × Nat)) (s s₁ : Paging) (p : Nat)
    (done : Slot → Prop) : Prop where
  mem : s₁.mem = s.mem
  pool : Holding.Sound used ⟨s₁.frames, held⟩
  marked : ∀ f, s₁.frames.Marked f ↔
    s.frames.Marked f ∧ (f ≠ 0 → ∀ x, done x → ¬ Uses s.mem p x f)

theorem Dropping.congr {done done' : Slot → Prop} (h : Dropping used held s s₁ p done)
    (hSame : ∀ x f, Uses s.mem p x f → (done' x ↔ done x)) : Dropping used held s s₁ p done' := by
  refine ⟨h.mem, h.pool, fun f => (h.marked f).trans (and_congr_right fun _ => ?_)⟩
  refine forall_congr' fun _ => forall_congr' fun x => ?_
  exact ⟨fun hOld hDone hUses => hOld ((hSame x f hUses).mp hDone) hUses,
    fun hNew hDone hUses => hNew ((hSame x f hUses).mpr hDone) hUses⟩

section Drop

variable (hRule : OwnRule Leaf) (h : s.Owners Leaf used held roots) (hp : p ∈ roots)
  (hUsed : ∀ x f, x ≠ .root → Uses s.mem p x f → f ∉ used)
include hRule h hp hUsed

/-- The frame of one slot is given back. -/
theorem Dropping.put {done : Slot → Prop} (hDrop : Dropping used held s s₁ p done)
    (hx : x ≠ .root) (hUses : Uses s.mem p x f) (hNot : ¬ done x) :
    ∃ frames ret, s₁.frames.putPages (f <<< pageBits) 1 = some (frames, ret) ∧
      ∀ usage, Dropping used held s ⟨s₁.mem, frames, usage⟩ p fun y => done y ∨ y = x := by
  have hOwned := h.maps.owned hRule hp hUses
  have hOnly : ∀ y g, Uses s.mem p y g → (y = x ↔ g = f) := by
    intro y g hg
    constructor
    · rintro rfl
      exact uses_unique hg hUses
    · rintro rfl
      exact (h.exclusive p hp p hp y x g hg hUses).2
  by_cases hZero : f = 0
  · refine ⟨s₁.frames, -einval, by rw [hZero]; rfl, fun usage => ⟨hDrop.mem, hDrop.pool, fun g => ?_⟩⟩
    refine (hDrop.marked g).trans (and_congr_right fun _ => forall_congr' fun hg => ?_)
    refine forall_congr' fun y => ⟨fun hOld hDone hy => ?_, fun hNew hDone => hNew (Or.inl hDone)⟩
    rcases hDone with hDone | rfl
    · exact hOld hDone hy
    · exact hg (((hOnly y g hy).mp rfl).trans hZero)
  · have hMarked : s₁.frames.Marked f := by
      refine (hDrop.marked f).mpr ⟨hOwned.marked, fun _ y hDone hy => ?_⟩
      obtain rfl := (h.exclusive p hp p hp y x f hy hUses).2
      exact hNot hDone
    obtain ⟨frames, ret, hCall, hPool, hMarks⟩ := hDrop.pool.putOwned
      ⟨hOwned.lt, hMarked, hOwned.apart⟩ hZero (hUsed x f hx hUses)
    refine ⟨frames, ret, hCall, fun usage => ⟨hDrop.mem, hPool, fun g => ?_⟩⟩
    rw [hMarks, hDrop.marked]
    constructor
    · rintro ⟨⟨hOld, hRest⟩, hne⟩
      refine ⟨hOld, fun hg y hDone hy => ?_⟩
      rcases hDone with hDone | rfl
      · exact hRest hg y hDone hy
      · exact hne ((hOnly y g hy).mp rfl)
    · rintro ⟨hOld, hRest⟩
      refine ⟨⟨hOld, fun hg y hDone => hRest hg y (Or.inl hDone)⟩, ?_⟩
      rintro rfl
      exact hRest hZero x (Or.inr rfl) hUses

/-- The loop over a page table. -/
theorem Dropping.table (hi : i < pageMapEntries - 2) (hPresent : (s.mem p i).Has pgPresent)
    (hDrop : Dropping used held s s₁ p (Slot.Before i 0)) :
    ∃ s', s₁.dropTraverse p 0 (i <<< pageMapBits) = some s' ∧
      Dropping used held s s' p (Slot.Before i pageMapEntries) := by
  have hLoop : ∃ s', (List.range' (i <<< pageMapBits) pageMapEntries).foldlM
      (dropEntry p 0 fun _ s => some s) s₁ = some s' ∧ Dropping used held s s' p
        (Slot.Before i (i <<< pageMapBits + pageMapEntries - i <<< pageMapBits)) := by
    refine Partial.foldlM_range (P := fun k s' => Dropping used held s s' p
      (Slot.Before i (k - i <<< pageMapBits))) pageMapEntries (by rwa [Nat.sub_self])
      fun k hLow hHigh s₂ hDrop₂ => ?_
    obtain ⟨j, rfl⟩ := Nat.exists_eq_add_of_le hLow
    have hj : j < pageMapEntries := by omega
    rw [Nat.add_sub_cancel_left] at hDrop₂
    rw [Nat.add_assoc, Nat.add_sub_cancel_left]
    have hMem := hDrop₂.mem
    have hRooted : s₂.Rooted p := by
      obtain ⟨hFrame, hSelf⟩ := (h.maps.root p hp).rooted
      exact ⟨hMem ▸ hFrame, hMem ▸ hSelf⟩
    rw [dropEntry, hRooted.entry_table (by omega) hj (hMem ▸ hPresent), hMem, Option.bind_some]
    split
    · rename_i hUser
      obtain ⟨frames, ret, hCall, hNext⟩ := hDrop₂.put hRule h hp hUsed (fun he => by cases he)
        (show Uses s.mem p (.page i j) _ from ⟨⟨hi, hPresent⟩, hj, hUser, rfl⟩)
        (by rintro (hLess | ⟨_, hLess⟩) <;> omega)
      rw [Option.bind_some, hCall, Option.map_some]
      refine ⟨_, rfl, (hNext _).congr fun x f _ => ?_⟩
      cases x with
      | root => simp [Slot.Before]
      | table k => simp [Slot.Before]
      | page k l =>
          simp only [Slot.Before, Slot.page.injEq]
          omega
    · rename_i hOther
      refine ⟨s₂, rfl, hDrop₂.congr fun x f hUses => ?_⟩
      cases x with
      | root => exact Iff.rfl
      | table k => exact Iff.rfl
      | page k l =>
          have hne : ¬ (k = i ∧ l = j) := by
            rintro ⟨rfl, rfl⟩
            exact hOther hUses.2.2.1
          simp only [Slot.Before]
          omega
  obtain ⟨s', hExec, hDone⟩ := hLoop
  rw [Nat.add_sub_cancel_left] at hDone
  exact ⟨s', hExec, hDone⟩

/-- `page_map_drop` gives back every frame of the map but its root. -/
theorem Owners.pageMapDrop :
    ∃ s', s.pageMapDrop p = some (s', 0) ∧ Dropping used held s s' p fun x => x ≠ .root := by
  have hStart : Dropping used held s s p (Slot.Before 0 0) := by
    refine ⟨rfl, h.maps.pool, fun f => (and_iff_left fun _ x hx => ?_).symm⟩
    cases x with
    | root => exact hx.elim
    | table k => exact absurd hx (Nat.not_lt_zero k)
    | page k l =>
        rcases hx with hLess | ⟨_, hLess⟩
        · exact absurd hLess (Nat.not_lt_zero k)
        · exact absurd hLess (Nat.not_lt_zero l)
  have hLoop : ∃ s', (List.range' 0 pageMapEntries).foldlM (dropEntry p 1 (dropTraverse p 0)) s =
      some s' ∧ Dropping used held s s' p (Slot.Before (0 + pageMapEntries) 0) := by
    refine Partial.foldlM_range (P := fun i s' => Dropping used held s s' p (Slot.Before i 0))
      pageMapEntries hStart fun i _ hHigh s₂ hDrop₂ => ?_
    have hRoot := h.maps.root p hp
    have hMem := hDrop₂.mem
    have hRooted : s₂.Rooted p := by
      obtain ⟨hFrame, hSelf⟩ := hRoot.rooted
      exact ⟨hMem ▸ hFrame, hMem ▸ hSelf⟩
    rw [dropEntry, hRooted.entry_dir (by omega), hMem, Option.bind_some]
    split
    · rename_i hUser
      have hTable : i < pageMapEntries - 2 := by
        by_contra hNot
        rcases (by omega : i = pageMapEntries - 2 ∨ i = pageMapEntries - 1) with rfl | rfl
        · exact hRoot.closed hUser.1
        · exact hRoot.kernel hUser.2
      obtain ⟨s₃, hDeeper, hDrop₃⟩ := hDrop₂.table hRule h hp hUsed hTable hUser.1
      obtain ⟨frames, ret, hCall, hNext⟩ := hDrop₃.put hRule h hp hUsed (fun he => by cases he)
        (show Uses s.mem p (.table i) _ from ⟨⟨hTable, hUser.1⟩, rfl⟩) (Nat.lt_irrefl i)
      rw [hDeeper, Option.bind_some, hCall, Option.map_some]
      refine ⟨_, rfl, (hNext _).congr fun x f hUses => ?_⟩
      cases x with
      | root => simp [Slot.Before]
      | table k =>
          simp only [Slot.Before, Slot.table.injEq]
          omega
      | page k l =>
          have hl := hUses.2.1
          simp only [Slot.Before, reduceCtorEq, or_false]
          omega
    · rename_i hOther
      refine ⟨s₂, rfl, hDrop₂.congr fun x f hUses => ?_⟩
      have hAbsent : ¬ (i < pageMapEntries - 2 ∧ (s.mem p i).Has pgPresent) := fun hBoth =>
        hOther ⟨hBoth.2, (h.maps.table p hp i hBoth.1 hBoth.2).1⟩
      cases x with
      | root => exact Iff.rfl
      | table k =>
          have hne : k ≠ i := fun he => hAbsent (he ▸ hUses.1)
          simp only [Slot.Before]
          omega
      | page k l =>
          have hne : k ≠ i := fun he => hAbsent (he ▸ hUses.1)
          simp only [Slot.Before]
          omega
  obtain ⟨s', hExec, hDone⟩ := hLoop
  refine ⟨s', by rw [Paging.pageMapDrop, dropTraverse, hExec, Option.map_some],
    hDone.congr fun x f hUses => ?_⟩
  cases x with
  | root => exact iff_of_false (fun hne => hne rfl) id
  | table k =>
      have hk := hUses.1.1
      refine iff_of_true (fun he => by cases he) ?_
      show k < 0 + pageMapEntries
      omega
  | page k l =>
      have hk := hUses.1.1
      exact iff_of_true (fun he => by cases he) (Or.inl (by omega))

end Drop

/-- The other maps stay in order. -/
theorem Owners.dropped (hRule : OwnRule Leaf) (h : s.Owners Leaf used held roots) (hp : p ∈ roots)
    (hDrop : Dropping used held s s' p fun x => x ≠ .root) (hSub : roots' ⊆ roots)
    (hNot : p ∉ roots') : s'.Owners Leaf used held roots' := by
  have hMem := hDrop.mem
  have hOwned : ∀ q ∈ roots', ∀ x f, Uses s.mem q x f → Holding.Owned ⟨s'.frames, held⟩ f := by
    intro q hq x f hUses
    obtain ⟨hLt, hMarked, hApart⟩ := h.maps.owned hRule (hSub hq) hUses
    refine ⟨hLt, (hDrop.marked f).mpr ⟨hMarked, fun _ y _ hUses' => ?_⟩, hApart⟩
    obtain rfl := (h.exclusive q (hSub hq) p hp x y f hUses hUses').1
    exact hNot hq
  refine ⟨⟨hDrop.pool, fun q hq => ?_, fun q hq i hi hPresent => ?_⟩,
    h.exclusive.mono hSub fun q hq y f hUses => by rwa [hMem] at hUses⟩
  · obtain ⟨_, ⟨hFrame, hSelf⟩, hKernel, hClosed, hLow⟩ := h.maps.root q (hSub hq)
    rw [← hMem] at hFrame hSelf hKernel hClosed hLow
    exact ⟨hOwned q hq .root q rfl, ⟨hFrame, hSelf⟩, hKernel, hClosed, hLow⟩
  · rw [hMem] at hPresent ⊢
    obtain ⟨hUser, hApart, hZero, _, hLeaf⟩ := h.maps.table q (hSub hq) i hi hPresent
    refine ⟨hUser, fun hRoot => hApart (hSub hRoot), hZero,
      hOwned q hq (.table i) _ ⟨⟨hi, hPresent⟩, rfl⟩, fun j hj => ?_⟩
    rw [hMem]
    exact hRule.keep _ _ _ (hLeaf j hj) fun hPage =>
      hOwned q hq (.page i j) _ ⟨⟨hi, hPresent⟩, hj, hPage, rfl⟩

theorem Slot.before_last (hx : x ≠ .root) (hUses : Uses mem p x f) : x.Before pageMapEntries 0 := by
  cases x with
  | root => exact absurd rfl hx
  | table k =>
      have hk := hUses.1.1
      show k < pageMapEntries
      omega
  | page k l =>
      have hk := hUses.1.1
      exact Or.inl (by omega)

/-- After `page_map_copy` the new map has frames of its own, if there were enough. -/
theorem Owners.copied {b : Paging} {m : Frames} (hRule : OwnRule Leaf)
    (h : b.Owners Leaf used held roots) (hp : p ∈ roots) (hNew : ¬ b.frames.Marked d)
    (hCopied : Copied held b s p d) (hPool : Holding.Sound used ⟨s.frames, held⟩)
    (hOwned : Holding.Owned ⟨s.frames, held⟩ d) (hTaking : Holding.Taking b.frames m)
    (hd : m.Marked d) (hSlots : NewSlots m s d pageMapEntries) :
    s.Owners Leaf used held (insert d roots) := by
  refine ⟨hCopied.maps h.maps hp hRule.toCopyRule hPool hNew hOwned, ?_⟩
  have hOld : ∀ q ∈ roots, ∀ x f, Uses s.mem q x f → Uses b.mem q x f := by
    intro q hq x f hUses
    have hWord : ∀ k < pageMapEntries - 2, s.mem q k = b.mem q k := fun k hk =>
      hCopied.root_word h.maps hp hq fun _ => by omega
    cases x with
    | root => exact hUses
    | table k =>
        have hSame := hWord k hUses.1.1
        rwa [Uses, hSame] at hUses
    | page k l =>
        obtain ⟨⟨hk, hPresent⟩, hl, hUser, hFrame⟩ := hUses
        rw [hWord k hk] at hPresent hUser hFrame
        obtain ⟨_, hApart, hTable⟩ := h.maps.table q hq k hk hPresent
        have hne : (b.mem q k).frame ≠ p := fun he => hApart (by rw [he]; exact hp)
        rcases hCopied.old _ hTable.owned.marked l (fun he => absurd he hne) with hSame | hShifted
        · rw [hSame] at hUser hFrame
          exact ⟨⟨hk, hPresent⟩, hl, hUser, hFrame⟩
        · exact absurd hUser.2 (PageEntry.has_tmp hShifted.flags).2
  have hFresh : ∀ x f, Uses s.mem d x f → ¬ b.frames.Marked f := by
    intro x f hUses hMarked
    by_cases hx : x = .root
    · subst hx
      exact hNew (Eq.subst (motive := fun f => b.frames.Marked f) hUses hMarked)
    · exact hSlots.free x f (Slot.before_last hx hUses) hUses (hTaking f hMarked)
  have hSeen : ∀ q ∈ roots, ∀ x f, Uses s.mem q x f → b.frames.Marked f := fun q hq x f hUses =>
    (h.maps.owned hRule hq (hOld q hq x f hUses)).marked
  intro q hIn q' hIn' x y f hUses hUses'
  rcases Set.mem_insert_iff.mp hIn with rfl | hq
  · rcases Set.mem_insert_iff.mp hIn' with rfl | hq'
    · refine ⟨rfl, ?_⟩
      by_cases hx : x = .root
      · subst hx
        by_cases hy : y = .root
        · exact hy.symm
        · refine absurd hd ?_
          rw [← show f = q' from hUses]
          exact hSlots.free y f (Slot.before_last hy hUses') hUses'
      · by_cases hy : y = .root
        · subst hy
          refine absurd hd ?_
          rw [← show f = q' from hUses']
          exact hSlots.free x f (Slot.before_last hx hUses) hUses
        · exact hSlots.unique x y f (Slot.before_last hx hUses) (Slot.before_last hy hUses') hUses hUses'
    · exact absurd (hSeen q' hq' y f hUses') (hFresh x f hUses)
  · rcases Set.mem_insert_iff.mp hIn' with rfl | hq'
    · exact absurd (hSeen q hq x f hUses) (hFresh y f hUses')
    · exact h.exclusive q hq q' hq' x y f (hOld q hq x f hUses) (hOld q' hq' y f hUses')

end Paging
end ArtOS

import ArtOS.Memory.VmaMap
import ArtOS.Memory.VmaRun

/-! The bounds of what `vma_alloc` accepts. Its tests compare a sum of two words, which may have wrapped
around; then the area it enters ends below its own start. -/
namespace ArtOS

open DoublyLinked Intervals Partial

namespace Vmas

/-- The nodes of a list, as a walk along the links comes to them. -/
inductive Listed (v : Vmas) (sp : Space) : Nat → Prop
  | head {p : Nat} (h : v.list sp = some p) : Listed v sp p
  | next {p q : Nat} (h : Listed v sp q) (hNext : v.next q = some p) : Listed v sp p

/-- No area of the list ends below its start. -/
def Proper (v : Vmas) (sp : Space) : Prop :=
  ∀ p, v.Listed sp p → (v.area p).start ≤ (v.area p).endAddr

variable {v : Vmas} {sp : Space} {l left right : List Entry} {p q new : Nat} {f : Vma → Vma}
variable {pred succ : Option Nat} {area : Area}

theorem Spells.listed (h : v.Spells sp l) : v.Listed sp p ↔ p ∈ l.map Prod.fst := by
  have hPath : ∀ left right, l = left ++ right → ∃ before, Path v.next v.prev v.area before (first right)
      right none := by
    rintro left right rfl
    obtain ⟨middle, _, hRight⟩ := path_append.mp h
    exact ⟨_, hRight.start_eq ▸ hRight⟩
  constructor
  · intro hListed
    induction hListed with
    | head hHead => exact first_eq_some (h.list_eq.symm.trans hHead)
    | next _ hNext ih =>
        obtain ⟨e, he, rfl⟩ := List.mem_map.mp ih
        obtain ⟨left, right, rfl⟩ := List.append_of_mem he
        obtain ⟨_, _, _, _, hRest⟩ := hPath left (e :: right) rfl
        have hMem := first_eq_some (hRest.start_eq.symm.trans hNext)
        rw [List.map_append, List.map_cons]
        exact List.mem_append_right _ (List.mem_cons_of_mem _ hMem)
  · intro hMem
    obtain ⟨e, he, rfl⟩ := List.mem_map.mp hMem
    obtain ⟨left, right, rfl⟩ := List.append_of_mem he
    clear hMem he
    induction left using List.reverseRecOn generalizing e right with
    | nil => exact Listed.head h.list_eq
    | append_singleton left d ih =>
        have hList : left ++ [d] ++ e :: right = left ++ d :: e :: right := by simp
        obtain ⟨_, _, _, _, hRest⟩ := hPath left (d :: e :: right) hList
        refine Listed.next (ih d (e :: right) (hList ▸ h) fun left' right' hSplit => ?_) hRest.start_eq
        exact hPath left' right' (hList.trans hSplit)

theorem Spells.proper (h : v.Spells sp l) (hSorted : Sorted l) : v.Proper sp := by
  intro p hp
  obtain ⟨e, he, rfl⟩ := List.mem_map.mp (h.listed.mp hp)
  rw [h.area_eq he]
  exact hSorted.proper e he

/-- Changing the area of one node. -/
theorem Proper.setNode (h : v.Proper sp) (hNext : (f (v.node q)).next = (v.node q).next)
    (hArea : (f (v.node q)).start ≤ (f (v.node q)).endAddr) : (v.setNode q f).Proper sp := by
  have hListed : ∀ p, (v.setNode q f).Listed sp p → v.Listed sp p := by
    intro p hp
    induction hp with
    | head hHead => exact Listed.head (list_setNode.symm.trans hHead)
    | @next p r _ hLink ih =>
        refine Listed.next ih ?_
        rw [next, node_setNode] at hLink
        split at hLink
        next hr =>
          rw [hNext] at hLink
          exact hr ▸ hLink
        next => exact hLink
  intro p hp
  rw [Vmas.area, node_setNode]
  split
  next => exact hArea
  next => exact h p (hListed p hp)

theorem area_insert : (v.insert sp new area pred succ).area q = if q = new then area else v.area q := by
  have hNode : (v.insert sp new area pred succ).area q =
      (((v.setNode new fun _ => { area with next := succ, prev := pred }).linkPrev succ
        (some new)).linkNext pred (some new)).area q := by
    rw [insert]
    cases pred with
    | none => simp [linkNext, Vmas.area]
    | some p => rfl
  rw [hNode, Vmas.area, node_linkNext, node_linkPrev, node_setNode]
  split <;> split <;> split <;> rfl

/-- Where the links lead behind an insertion. -/
theorem next_insert (h : (v.insert sp new area pred succ).next q = some p) :
    p = new ∨ succ = some p ∨ q ≠ new ∧ v.next q = some p := by
  have hNode : (v.insert sp new area pred succ).next q =
      (((v.setNode new fun _ => { area with next := succ, prev := pred }).linkPrev succ
        (some new)).linkNext pred (some new)).next q := by
    rw [insert]
    cases pred with
    | none => simp [linkNext, next]
    | some p => rfl
  rw [hNode, next, node_linkNext, node_linkPrev, node_setNode] at h
  split at h
  next => exact Or.inl (Option.some.inj h).symm
  next =>
    have hLink : (if q = new then succ else v.next q) = some p := by
      rw [← h]
      split <;> split <;> rfl
    split at hLink
    next => exact Or.inr (Or.inl hLink)
    next hne => exact Or.inr (Or.inr ⟨hne, hLink⟩)

/-- A new node in front of one of the list, or at its end. -/
theorem Proper.insert (h : v.Proper sp) (hSucc : ∀ q ∈ succ, v.Listed sp q)
    (hArea : area.start ≤ area.endAddr) : (v.insert sp new area pred succ).Proper sp := by
  have hListed : ∀ p, (v.insert sp new area pred succ).Listed sp p → p = new ∨ v.Listed sp p := by
    intro p hp
    induction hp with
    | head hHead =>
        rw [list_insert] at hHead
        split at hHead
        · exact Or.inr (Listed.head hHead)
        · exact Or.inl (Option.some.inj hHead).symm
    | @next p r _ hLink ih =>
        rcases next_insert hLink with rfl | hSame | ⟨hne, hNext⟩
        · exact Or.inl rfl
        · exact Or.inr (hSucc p hSame)
        · exact Or.inr (Listed.next (ih.resolve_left hne) hNext)
  intro p hp
  rw [area_insert]
  split
  next => exact hArea
  next hne => exact h p ((hListed p hp).resolve_left hne)

end Vmas

variable {Env : Type} {kmalloc : Allocator Env} {s t : Mm Env} {l : List Entry} {flags : BitVec 32}
variable {fuel size r : Nat}

/-- A request for a node leaves the areas of this list proper, and their nodes in it. -/
def KeepsAreas (kmalloc : Allocator Env) (sp : Space) (s : Mm Env) : Prop :=
  ∀ u new, kmalloc sizeofVma s = some (u, new) →
    u.vmas.Proper sp ∧ ∀ p, s.vmas.Listed sp p → u.vmas.Listed sp p

/-- The first place of the list that passes the test of `vma_alloc` does so since the sum has wrapped
around. -/
def TakesWrapped (flags : BitVec 32) (size : Nat) (l : List Entry) : Prop :=
  ∃ pred succ, firstGap (fitsGap (Space.of flags) size) none l = some (pred, succ) ∧
    2 ^ 32 ≤ gapStart (Space.of flags).base (pred.map Prod.snd) + size

/-- What `vma_alloc` returns lies within the bounds, and its areas are proper. -/
def Bounded (flags : BitVec 32) (size : Nat) (s : Mm Env) : Prop :=
  ∀ (kmalloc : Allocator Env) (fuel : Nat) (t : Mm Env) (r : Nat),
    KeepsAreas kmalloc (Space.of flags) s → vmaAlloc kmalloc fuel size flags s = some (t, r) → r ≠ 0 →
      r + size ≤ (Space.of flags).limit ∧ t.vmas.Proper (Space.of flags)

section Alloc

variable (hSpells : s.vmas.Spells (Space.of flags) l)
include hSpells

/-- At the place it has found `vma_alloc` lets the area in front grow, or puts a new one into it. -/
theorem vmaAlloc_found {pred succ : Option Entry} (hFuel : l.length + 2 ≤ fuel)
    (hGap : firstGap (fitsGap (Space.of flags) size) none l = some (pred, succ)) :
    (∃ e, pred = some e ∧ e ∈ l ∧ vmaAlloc kmalloc fuel size flags s =
      some ({ s with vmas := s.vmas.setNode e.1 fun n =>
        { n with endAddr := Word.add e.2.endAddr size } }, e.2.endAddr)) ∨
      vmaAlloc kmalloc fuel size flags s =
        let start := gapStart (Space.of flags).base (pred.map Prod.snd)
        let area := { start := start, endAddr := Word.add start size, flags := flags }
        withNode kmalloc 0 (fun new s =>
          let vmas := s.vmas.insert (Space.of flags) new area (pred.map Prod.fst) (succ.map Prod.fst)
          ({ s with vmas := vmas }, start)) s := by
  obtain ⟨left, right, hSplit, hPred, _, _⟩ := firstGap_split hGap
  rw [Option.or_none] at hPred
  have hMem : ∀ e ∈ pred, e ∈ l := by
    intro e he
    rw [hSplit]
    exact List.mem_append_left _ (List.mem_of_getLast? (hPred ▸ he))
  by_cases hFlags : ∃ e ∈ pred, e.2.flags = flags
  · obtain ⟨e, he, hFlags⟩ := hFlags
    obtain rfl : pred = some e := he
    exact Or.inl ⟨e, rfl, hMem e rfl, vmaAlloc_extend hSpells hFuel hGap (hMem e rfl) hFlags⟩
  · exact Or.inr (vmaAlloc_insert hSpells hFuel hGap hMem fun e he hSame => hFlags ⟨e, he, hSame⟩)

variable (hSorted : Sorted l)
include hSorted

theorem not_bounded_of_wrapped (hWraps : TakesWrapped flags size l) : ¬ Bounded flags size s := by
  obtain ⟨pred, succ, hGap, hSum⟩ := hWraps
  intro hBounded
  obtain ⟨_, _, _, _, _, hTest⟩ := firstGap_split hGap
  have hPositive : gapStart (Space.of flags).base (pred.map Prod.snd) ≠ 0 := by
    have hBase : 0 < (Space.of flags).base := by
      cases Space.of flags <;> decide
    simp only [fits, decide_eq_true_eq] at hTest
    exact (hBase.trans_le hTest.2.1).ne'
  have hKeeps : KeepsAreas (fun _ s => some (s, some 0)) (Space.of flags) s := by
    intro u new hCall
    cases hCall
    exact ⟨hSpells.proper hSorted, fun _ hp => hp⟩
  obtain ⟨t, hRun⟩ : ∃ t, vmaAlloc (fun _ s => some (s, some 0)) (l.length + 2) size flags s =
      some (t, gapStart (Space.of flags).base (pred.map Prod.snd)) := by
    rcases vmaAlloc_found hSpells le_rfl hGap with ⟨e, rfl, _, hRun⟩ | hRun
    · exact ⟨_, hRun⟩
    · exact ⟨_, hRun⟩
  have hLimit : (Space.of flags).limit < 2 ^ 32 := by
    cases Space.of flags <;> decide
  have hHigh := (hBounded _ _ t _ hKeeps hRun hPositive).1
  omega

theorem bounded_of_unwrapped (hWraps : ¬ TakesWrapped flags size l) : Bounded flags size s := by
  intro kmalloc fuel t r hKeeps hRun hr
  obtain ⟨pred, succ, ample, hGap, hFuel, hLarge⟩ := vmaAlloc_gap hSpells hRun hr
  obtain ⟨left, right, hSplit, _, hSucc, hTest⟩ := firstGap_split hGap
  have hAdd : Word.add (gapStart (Space.of flags).base (pred.map Prod.snd)) size =
      gapStart (Space.of flags).base (pred.map Prod.snd) + size :=
    Word.add_eq (Nat.lt_of_not_le fun hWrap => hWraps ⟨pred, succ, hGap, hWrap⟩)
  have hHigh : gapStart (Space.of flags).base (pred.map Prod.snd) + size ≤ (Space.of flags).limit := by
    simp only [fits, hAdd, decide_eq_true_eq] at hTest
    exact hTest.2.2.le
  rcases vmaAlloc_found hSpells hFuel hGap with ⟨e, rfl, he, hFound⟩ | hFound
  · rw [hFound] at hLarge
    cases hLarge
    have hArea : (s.vmas.node e.1).toArea = e.2 := hSpells.area_eq he
    have hStart : (s.vmas.node e.1).start ≤ Word.add e.2.endAddr size := by
      have hProper := hSorted.proper e he
      have hSum : Word.add e.2.endAddr size = e.2.endAddr + size := hAdd
      rw [hSum, hArea]
      exact hProper.trans (Nat.le_add_right _ _)
    have hProper : (s.vmas.setNode e.1 fun n =>
        { n with endAddr := Word.add e.2.endAddr size }).Proper (Space.of flags) :=
      Vmas.Proper.setNode (hSpells.proper hSorted) rfl hStart
    exact ⟨hHigh, hProper⟩
  · rw [hFound] at hLarge
    obtain ⟨⟨u, new⟩, hCall, hFill⟩ := Option.map_eq_some_iff.mp hLarge
    obtain ⟨hProper, hListed⟩ := hKeeps u new hCall
    cases new with
    | none =>
        cases hFill
        exact absurd rfl hr
    | some p =>
        cases hFill
        refine ⟨hHigh, hProper.insert ?_ (hAdd ▸ Nat.le_add_right _ _)⟩
        intro q hq
        obtain ⟨e, he, rfl⟩ := Option.map_eq_some_iff.mp hq
        have hMem : e ∈ l := hSplit ▸ List.mem_append_right _ (List.mem_of_head? (hSucc ▸ he))
        exact hListed e.1 (hSpells.listed.mpr (List.mem_map_of_mem hMem))

/-- What `vma_alloc` returns is within the bounds exactly if the first place that passes its test does
so without a sum that wraps around. -/
theorem vmaAlloc_bounded_iff : Bounded flags size s ↔ ¬ TakesWrapped flags size l := by
  constructor
  · exact fun hBounded hWraps => not_bounded_of_wrapped hSpells hSorted hWraps hBounded
  · exact bounded_of_unwrapped hSpells hSorted

end Alloc

/-- The list with nothing but `vma_boot`. -/
theorem start_spells : VmaRun.start.vmas.Spells .kernel [(1, vmaBoot.toArea)] :=
  ⟨rfl, rfl, rfl, rfl⟩

theorem start_sorted : Sorted [(1, vmaBoot.toArea)] :=
  ordered_cons.mpr ⟨le_rfl, ordered_nil, by simp⟩

theorem vmaAlloc_bounded_iff_example : Bounded vmaRead 0x1000 VmaRun.start := by
  apply (vmaAlloc_bounded_iff start_spells start_sorted).mpr
  rintro ⟨pred, succ, hGap, hSum⟩
  have hFound : firstGap (fitsGap (Space.of vmaRead) 0x1000) none [(1, vmaBoot.toArea)] =
      some (some (1, vmaBoot.toArea), none) := by decide
  cases hFound.symm.trans hGap
  exact absurd hSum (by decide)

/-- A size of four gigabytes less one byte passes the first test. -/
theorem vmaAlloc_wraps : ¬ ∀ (flags : BitVec 32) (size : Nat) (s : Mm (Finset Nat)) (l : List Entry),
    s.vmas.Spells (Space.of flags) l → Sorted l → size < 2 ^ 32 → Bounded flags size s := by
  intro hAll
  have hWraps : TakesWrapped vmaRead (2 ^ 32 - 1) [(1, vmaBoot.toArea)] :=
    ⟨none, some (1, vmaBoot.toArea), by decide, by decide⟩
  exact not_bounded_of_wrapped start_spells start_sorted hWraps
    (hAll vmaRead _ VmaRun.start _ start_spells start_sorted (by decide))

end ArtOS

import ArtOS.Memory.Overlap

/-! What the operations of `vma.c` do to the address space. A list of areas assigns flags to
addresses, and each operation changes this in the range that it is about and nowhere else. -/
namespace ArtOS

open DoublyLinked Intervals Partial

def Area.Covers (a : Area) (addr : Nat) : Prop := a.start ≤ addr ∧ addr < a.endAddr

instance (a : Area) (addr : Nat) : Decidable (a.Covers addr) := inferInstanceAs (Decidable (_ ∧ _))

/-- The flags of an address, if an area covers it. -/
def assigns (l : List Entry) (addr : Nat) : Option (BitVec 32) :=
  (l.find? fun e => e.2.Covers addr).map fun e => e.2.flags

/-- What the list leaves free in front of one of its areas or behind the last one. -/
def IsGap (sp : Space) (l : List Entry) (start endAddr : Nat) : Prop :=
  ∃ left right, l = left ++ right ∧ start = gapStart sp.base (left.getLast?.map Prod.snd) ∧
    endAddr = gapEnd sp.limit (right.head?.map Prod.snd)

/-- A gap starts here that lies within the bounds and is larger than `size`. -/
def GapAt (sp : Space) (l : List Entry) (size start : Nat) : Prop :=
  ∃ endAddr, IsGap sp l start endAddr ∧ sp.base ≤ start ∧ endAddr ≤ sp.limit ∧ start + size < endAddr

variable {Env : Type} {kmalloc : Allocator Env} {kfree : Deallocator Env} {s t u : Mm Env}
variable {sp : Space} {l left right : List Entry} {e : Entry} {new : Option Nat} {p : Nat}
variable {addr size start endAddr fuel : Nat} {flags : BitVec 32}

/-- `kmalloc` answers the request for a node with `NULL` or with a node that is not in the list of
`sp`, and leaves this list as it is. -/
structure NodeAnswer (kmalloc : Allocator Env) (sp : Space) (l : List Entry) (s t : Mm Env)
    (new : Option Nat) : Prop where
  call : kmalloc sizeofVma s = some (t, new)
  same : t.vmas.Spells sp l
  fresh : ∀ p ∈ new, p ∉ l.map Prod.fst

theorem assigns_append : assigns (left ++ right) addr = (assigns left addr).or (assigns right addr) := by
  rw [assigns, List.find?_append, Option.map_or]
  rfl

theorem assigns_cons : assigns (e :: l) addr =
    if e.2.Covers addr then some e.2.flags else assigns l addr := by
  rw [assigns, List.find?_cons]
  by_cases hCovers : e.2.Covers addr
  · simp [hCovers]
  · simp [hCovers, assigns]

theorem assigns_eq_none_iff : assigns l addr = none ↔ ∀ e ∈ l, ¬ e.2.Covers addr := by
  rw [assigns, Option.map_eq_none_iff, List.find?_eq_none]
  simp

theorem assigns_none (h : ∀ e ∈ l, ¬ e.2.Covers addr) : assigns l addr = none :=
  assigns_eq_none_iff.mpr h

/-- In a sorted list each area decides about its own addresses. -/
theorem Sorted.assigns_middle (h : Sorted (left ++ e :: right)) :
    assigns (left ++ e :: right) addr =
      if e.2.Covers addr then some e.2.flags else assigns (left ++ right) addr := by
  rw [assigns_append, assigns_cons, assigns_append]
  by_cases hCovers : e.2.Covers addr
  · rw [if_pos hCovers, if_pos hCovers, assigns_none, Option.none_or]
    intro x hx hOther
    have hBelow := h.middle.1 x hx
    exact absurd (hBelow.trans hCovers.1) (Nat.not_le.mpr hOther.2)
  · rw [if_neg hCovers, if_neg hCovers]

/-- Between two neighbours nothing is assigned. -/
theorem assigns_gap (h : ∀ e ∈ l, e.2.endAddr ≤ start ∨ endAddr ≤ e.2.start)
    (hLow : start ≤ addr) (hHigh : addr < endAddr) : assigns l addr = none := by
  apply assigns_none
  intro e he hCovers
  rcases h e he with hBelow | hAbove
  · exact absurd (hBelow.trans hLow) (Nat.not_le.mpr hCovers.2)
  · exact absurd (hHigh.trans_le hAbove) (Nat.not_lt.mpr hCovers.1)

/-- What lies between two neighbours overlaps no area. -/
theorem Sorted.apart (h : Sorted (left ++ right)) (hLast : ∀ y ∈ left.getLast?, y.2.endAddr ≤ start)
    (hFirst : ∀ y ∈ right.head?, endAddr ≤ y.2.start) :
    ∀ e ∈ left ++ right, e.2.endAddr ≤ start ∨ endAddr ≤ e.2.start := by
  obtain ⟨hLeft, hRight, _⟩ := ordered_append.mp h
  intro e he
  rcases List.mem_append.mp he with he | he
  · exact Or.inl (hLeft.le_of_last hLast e he)
  · exact Or.inr (hRight.le_of_first hFirst e he)

/-! `vma_alloc`. -/

/-- The areas end within the bounds, and no sum that `vma_alloc` computes reaches 2^32. -/
structure Unwrapping (sp : Space) (l : List Entry) (size : Nat) : Prop where
  limit : ∀ e ∈ l, e.2.endAddr ≤ sp.limit
  base : sp.base + size < 2 ^ 32
  areas : ∀ e ∈ l, e.2.endAddr + size < 2 ^ 32

/-- `vma_alloc` has found room at `r`. -/
structure Allocated (flags : BitVec 32) (size : Nat) (l : List Entry) (t : Mm Env) (r : Nat) :
    Prop where
  low : (Space.of flags).base ≤ r
  high : r + size < (Space.of flags).limit
  apart : ∀ e ∈ l, e.2.endAddr ≤ r ∨ r + size ≤ e.2.start
  list : ∃ l', t.vmas.Spells (Space.of flags) l' ∧ Sorted l' ∧
    ∀ addr, assigns l' addr = if r ≤ addr ∧ addr < r + size then some flags else assigns l addr
  gap : GapAt (Space.of flags) l size r
  lowest : ∀ start, GapAt (Space.of flags) l size start → r ≤ start

/-- What `vma_alloc` promises: the lowest gap that is large enough, or there is none, or `kmalloc` has
`failed`. -/
structure FirstFit (flags : BitVec 32) (size : Nat) (l : List Entry) (failed : Prop) (t : Mm Env)
    (r : Nat) : Prop where
  found : r ≠ 0 → Allocated flags size l t r
  same : r = 0 → t.vmas.Spells (Space.of flags) l
  full : r = 0 → failed ∨ ∀ start, ¬ GapAt (Space.of flags) l size start

/-- `vma_alloc` puts the memory into an area of its own. -/
def NewArea (flags : BitVec 32) (size : Nat) (l : List Entry) : Prop :=
  ∃ pred succ, firstGap (fitsGap (Space.of flags) size) none l = some (pred, succ) ∧
    ∀ e ∈ pred, e.2.flags ≠ flags

theorem Unwrapping.add_eq (h : Unwrapping sp (left ++ right) size) :
    Word.add (gapStart sp.base (left.getLast?.map Prod.snd)) size =
      gapStart sp.base (left.getLast?.map Prod.snd) + size := by
  apply Word.add_eq
  cases hLast : left.getLast? with
  | none => exact h.base
  | some e => exact h.areas e (List.mem_append_left _ (List.mem_of_getLast? hLast))

theorem Unwrapping.gapEnd_le (h : Unwrapping sp (left ++ right) size)
    (hSorted : Sorted (left ++ right)) : gapEnd sp.limit (right.head?.map Prod.snd) ≤ sp.limit := by
  cases hFirst : right.head? with
  | none => exact Nat.le_refl _
  | some e =>
      have hMem := List.mem_append_right left (List.mem_of_head? hFirst)
      exact (hSorted.proper e hMem).trans (h.limit e hMem)

/-- The test of `vma_alloc` is the one of the specification. -/
theorem Unwrapping.fitsGap_iff (h : Unwrapping sp (left ++ right) size)
    (hSorted : Sorted (left ++ right)) :
    fitsGap sp size left.getLast? right.head? = true ↔
      sp.base ≤ gapStart sp.base (left.getLast?.map Prod.snd) ∧
        gapStart sp.base (left.getLast?.map Prod.snd) + size <
          gapEnd sp.limit (right.head?.map Prod.snd) := by
  have hEnd := h.gapEnd_le hSorted
  simp only [fits, h.add_eq, decide_eq_true_eq]
  constructor
  · rintro ⟨hFits, hLow, _⟩
    exact ⟨hLow, hFits⟩
  · rintro ⟨hLow, hFits⟩
    exact ⟨hFits, hLow, hFits.trans_le hEnd⟩

/-- No gap that is found starts at zero. -/
theorem fitsGap_start_ne {pred succ : Option Entry} (hTest : fitsGap sp size pred succ = true) :
    gapStart sp.base (pred.map Prod.snd) ≠ 0 := by
  have hBase : 0 < sp.base := by
    cases sp <;> decide
  simp only [fits, decide_eq_true_eq] at hTest
  exact (hBase.trans_le hTest.2.1).ne'

theorem Unwrapping.gapAt (h : Unwrapping sp (left ++ right) size) (hSorted : Sorted (left ++ right))
    (hTest : fitsGap sp size left.getLast? right.head? = true) :
    GapAt sp (left ++ right) size (gapStart sp.base (left.getLast?.map Prod.snd)) := by
  obtain ⟨hLow, hFits⟩ := (h.fitsGap_iff hSorted).mp hTest
  exact ⟨_, ⟨left, right, rfl, rfl, rfl⟩, hLow, h.gapEnd_le hSorted, hFits⟩

/-- The first place that passes the test is the lowest gap. -/
theorem Unwrapping.lowest (h : Unwrapping sp l size) (hSorted : Sorted l) (hSplit : l = left ++ right)
    (hLeast : ∀ left' right', l = left' ++ right' → left'.length < left.length →
      fitsGap sp size left'.getLast? right'.head? = false) :
    ∀ start, GapAt sp l size start → gapStart sp.base (left.getLast?.map Prod.snd) ≤ start := by
  rintro start ⟨endAddr, ⟨left', right', hSplit', rfl, rfl⟩, hLow, _, hFits⟩
  have hLength : left.length ≤ left'.length := by
    by_contra hShort
    have hFail := hLeast left' right' hSplit' (Nat.lt_of_not_le hShort)
    rw [hSplit'] at h hSorted
    rw [(h.fitsGap_iff hSorted).mpr ⟨hLow, hFits⟩] at hFail
    cases hFail
  cases hLast : left.getLast? with
  | none => exact hLow
  | some x =>
      rw [hSplit] at hSorted
      obtain ⟨y, hy, hLe⟩ := hSorted.last_le (hSplit.symm.trans hSplit') hLength x hLast
      rw [hy]
      exact hLe

theorem NodeAnswer.withNode {Out : Type} {err : Out} {fill : Nat → Mm Env → Mm Env × Out}
    (h : NodeAnswer kmalloc sp l s u new) :
    withNode kmalloc err fill s = some ((new.map fun p => fill p u).getD (u, err)) := by
  rw [ArtOS.withNode, h.call, Option.map_some]

/-- The list after a new area went between two neighbours. -/
theorem NodeAnswer.insert (h : NodeAnswer kmalloc sp (left ++ right) s u (some p)) (area : Area) :
    (u.vmas.insert sp p area (left.getLast?.map Prod.fst) (right.head?.map Prod.fst)).Spells sp
      (left ++ (p, area) :: right) :=
  h.same.insert (h.fresh p rfl)

section Alloc

variable (hSpells : s.vmas.Spells (Space.of flags) l) (hSorted : Sorted l)
  (hBounds : Unwrapping (Space.of flags) l size)
include hSpells hSorted hBounds

/-- The area in front of the gap grows. -/
theorem extend_allocated {r : Nat} (hSplit : l = left ++ e :: right)
    (hFlags : e.2.flags = flags) (hr : r = e.2.endAddr)
    (hTest : fitsGap (Space.of flags) size (some e) right.head? = true)
    (hLowest : ∀ start, GapAt (Space.of flags) l size start → r ≤ start) :
    Allocated flags size l { s with vmas := s.vmas.setNode e.1 fun n =>
      { n with endAddr := Word.add e.2.endAddr size } } r := by
  have hSplit' : l = (left ++ [e]) ++ right := by simp [hSplit]
  have hLast : (left ++ [e]).getLast? = some e := List.getLast?_concat
  rw [hSplit'] at hBounds hSorted
  rw [← hLast] at hTest
  have hAdd := hBounds.add_eq
  obtain ⟨hLow, hFits⟩ := (hBounds.fitsGap_iff hSorted).mp hTest
  have hGap := hBounds.gapAt hSorted hTest
  have hEnd := hBounds.gapEnd_le hSorted
  rw [hLast] at hAdd hLow hFits hGap
  have hStart : gapStart (Space.of flags).base ((some e).map Prod.snd) = r := hr.symm
  rw [hStart] at hAdd hLow hFits hGap
  have hFirst : ∀ y ∈ right.head?, r + size ≤ y.2.start := by
    intro y hy
    rw [hy] at hFits
    exact hFits.le
  have hApart : ∀ x ∈ left ++ [e] ++ right, x.2.endAddr ≤ r ∨ r + size ≤ x.2.start :=
    hSorted.apart (by rw [hLast]; rintro y ⟨⟩; exact hr.ge) hFirst
  subst hSplit
  have hArea : (s.vmas.node e.1).toArea = e.2 := hSpells.area_eq (by simp)
  rw [List.append_assoc, List.singleton_append] at hSorted
  obtain ⟨hBelow, hProper, _⟩ := hSorted.middle
  have hGrown : Sorted (left ++ (e.1, { e.2 with endAddr := r + size }) :: right) := by
    refine hSorted.replace ?_ (fun z hz => hBelow z (List.mem_of_getLast? hz)) hFirst
    exact hProper.trans (hr.ge.trans (Nat.le_add_right r size))
  refine ⟨hLow, hFits.trans_le hEnd, by simpa using hApart, ⟨_, ?_, hGrown, ?_⟩,
    by simpa using hGap, hLowest⟩
  · rw [← hr, hAdd]
    exact hSpells.modify (f := fun n => { n with endAddr := r + size }) rfl rfl (by rw [← hArea])
  · intro addr
    rw [Sorted.assigns_middle hGrown, Sorted.assigns_middle hSorted]
    simp only [Area.Covers, hFlags, hr]
    have hProper' : e.2.start ≤ e.2.endAddr := hProper
    by_cases hNew : e.2.endAddr ≤ addr ∧ addr < e.2.endAddr + size
    · rw [if_pos ⟨hProper'.trans hNew.1, hNew.2⟩, if_pos hNew]
    · rw [if_neg hNew]
      by_cases hOld : e.2.start ≤ addr ∧ addr < e.2.endAddr
      · rw [if_pos ⟨hOld.1, hOld.2.trans_le (Nat.le_add_right _ _)⟩, if_pos hOld]
      · rw [if_neg (by omega), if_neg hOld]

omit hSpells in
/-- A new area goes into the gap. -/
theorem insert_allocated {area : Area} (hSplit : l = left ++ right)
    (hNode : NodeAnswer kmalloc (Space.of flags) l s u (some p))
    (hTest : fitsGap (Space.of flags) size left.getLast? right.head? = true)
    (hStart : start = gapStart (Space.of flags).base (left.getLast?.map Prod.snd))
    (hArea : area = { start := start, endAddr := Word.add start size, flags := flags })
    (hLowest : ∀ r, GapAt (Space.of flags) l size r → start ≤ r) :
    Allocated flags size l
      { u with
        vmas := u.vmas.insert (Space.of flags) p area (left.getLast?.map Prod.fst)
          (right.head?.map Prod.fst) } start := by
  subst hSplit
  obtain ⟨hLow, hFits⟩ := (hBounds.fitsGap_iff hSorted).mp hTest
  have hGap := hBounds.gapAt hSorted hTest
  have hAdd := hBounds.add_eq
  rw [← hStart] at hLow hFits hGap hAdd
  rw [hAdd] at hArea
  have hLast : ∀ y ∈ left.getLast?, y.2.endAddr ≤ start := by
    intro y hy
    rw [hStart, hy]
    exact Nat.le_refl _
  have hFirst : ∀ y ∈ right.head?, start + size ≤ y.2.start := by
    intro y hy
    rw [hy] at hFits
    exact hFits.le
  have hNew : Sorted (left ++ (p, area) :: right) := by
    rw [hArea]
    exact hSorted.insert (Nat.le_add_right start size) hLast hFirst
  refine ⟨hLow, hFits.trans_le (hBounds.gapEnd_le hSorted), hSorted.apart hLast hFirst,
    ⟨_, hNode.insert area, hNew, ?_⟩, hGap, hLowest⟩
  intro addr
  rw [hNew.assigns_middle, hArea]
  rfl

/-- The result of `vma_alloc` for any sufficient fuel. -/
theorem vmaAlloc_outcome
    (hNode : NewArea flags size l → NodeAnswer kmalloc (Space.of flags) l s u new) :
    ∃ x, (∀ fuel, l.length + 2 ≤ fuel → vmaAlloc kmalloc fuel size flags s = some x) ∧
      FirstFit flags size l (new = none) x.1 x.2 := by
  cases hGap : firstGap (fitsGap (Space.of flags) size) none l with
  | none =>
      refine ⟨(s, 0), fun fuel hFuel => vmaAlloc_full hSpells hFuel hGap,
        fun hFound => absurd rfl hFound, fun _ => hSpells, fun _ => Or.inr ?_⟩
      rintro start ⟨endAddr, ⟨left, right, rfl, rfl, rfl⟩, hLow, _, hFits⟩
      have hFail := firstGap_none hGap left right rfl
      rw [Option.or_none, (hBounds.fitsGap_iff hSorted).mpr ⟨hLow, hFits⟩] at hFail
      cases hFail
  | some gap =>
      obtain ⟨pred, succ⟩ := gap
      obtain ⟨left, right, hSplit, hPred, hSucc, hTest, hLeast⟩ := firstGap_least hGap
      simp only [Option.or_none] at hPred hLeast
      subst hPred hSucc
      have hLowest := hBounds.lowest hSorted hSplit hLeast
      have hPositive := fitsGap_start_ne hTest
      by_cases hFlags : ∃ e ∈ left.getLast?, e.2.flags = flags
      · obtain ⟨e, he, hFlags⟩ := hFlags
        obtain ⟨front, rfl⟩ := List.getLast?_eq_some_iff.mp he
        rw [he] at hGap hTest hLowest hPositive
        have hMem : e ∈ l := by simp [hSplit]
        refine ⟨_, fun fuel hFuel => vmaAlloc_extend hSpells hFuel hGap hMem hFlags, ?_,
          fun hZero => absurd hZero hPositive, fun hZero => absurd hZero hPositive⟩
        intro _
        exact extend_allocated hSpells hSorted hBounds (by simpa using hSplit) hFlags rfl hTest hLowest
      · have hOther : ∀ e ∈ left.getLast?, e.2.flags ≠ flags :=
          fun e he hSame => hFlags ⟨e, he, hSame⟩
        have hMem : ∀ e ∈ left.getLast?, e ∈ l := fun e he =>
          hSplit ▸ List.mem_append_left _ (List.mem_of_getLast? he)
        replace hNode := hNode ⟨_, _, hGap, hOther⟩
        refine ⟨_, fun fuel hFuel =>
          (vmaAlloc_insert hSpells hFuel hGap hMem hOther).trans hNode.withNode, ?_⟩
        cases new with
        | none => exact ⟨fun hFound => absurd rfl hFound, fun _ => hNode.same, fun _ => Or.inl rfl⟩
        | some p =>
            exact ⟨fun _ => insert_allocated hSorted hBounds hSplit hNode hTest rfl rfl hLowest,
              fun hZero => absurd hZero hPositive, fun hZero => absurd hZero hPositive⟩

/-- `vma_alloc` is first fit. -/
theorem vmaAlloc_first_fit
    (hNode : NewArea flags size l → NodeAnswer kmalloc (Space.of flags) l s u new) :
    (∃ fuel x, vmaAlloc kmalloc fuel size flags s = some x) ∧
      ∀ fuel x, vmaAlloc kmalloc fuel size flags s = some x →
        FirstFit flags size l (new = none) x.1 x.2 :=
  Le.determined (fun _ _ h => vmaAlloc_mono (fun _ _ => Le.refl) h)
    (vmaAlloc_outcome hSpells hSorted hBounds hNode)

end Alloc

/-! `vma_add`. -/

/-- The range is on its side and overlaps no area. -/
def Placeable (flags : BitVec 32) (start endAddr : Nat) (l : List Entry) : Prop :=
  Addable start endAddr flags ∧ ∀ e ∈ l, ¬ (e.2.start < endAddr ∧ start < e.2.endAddr)

/-- What `vma_add` promises: it succeeds exactly for a range that is free, provided `kmalloc` gives a
node, and then there is exactly one area more, in its place. -/
structure Added (flags : BitVec 32) (start endAddr : Nat) (l : List Entry) (gives : Nat → Prop)
    (t : Mm Env) (ret : Int) : Prop where
  succeeds : ret = 0 ↔ Placeable flags start endAddr l ∧ ∃ p, gives p
  list : ret = 0 → ∃ left right p, gives p ∧ l = left ++ right ∧
    t.vmas.Spells (Space.of flags)
      (left ++ (p, { start := start, endAddr := endAddr, flags := flags }) :: right) ∧
    Sorted (left ++ (p, { start := start, endAddr := endAddr, flags := flags }) :: right)
  same : ret ≠ 0 → t.vmas.Spells (Space.of flags) l

/-- Where nothing overlaps, there is a place between two neighbours. -/
theorem Sorted.place (h : Sorted l)
    (hApart : ∀ e ∈ l, ¬ (e.2.start < endAddr ∧ start < e.2.endAddr)) :
    ∃ left right, l = left ++ right ∧ betweenGap start endAddr left.getLast? right.head? = true := by
  induction l with
  | nil => exact ⟨[], [], rfl, rfl⟩
  | cons e rest ih =>
      obtain ⟨hProper, hRest, hFirst⟩ := ordered_cons.mp h
      have hHead := hApart e List.mem_cons_self
      by_cases hBelow : e.2.endAddr ≤ start
      · obtain ⟨left, right, rfl, hTest⟩ := ih hRest fun x hx => hApart x (List.mem_cons_of_mem e hx)
        refine ⟨e :: left, right, rfl, betweenGap_iff.mpr ⟨?_, (betweenGap_iff.mp hTest).2⟩⟩
        intro y hy
        rw [List.getLast?_cons] at hy
        cases hLast : left.getLast? with
        | none =>
            rw [hLast] at hy
            cases hy
            exact hBelow
        | some z =>
            rw [hLast] at hy hTest
            cases hy
            exact (betweenGap_iff.mp hTest).1 z rfl
      · refine ⟨[], e :: rest, rfl, betweenGap_iff.mpr ⟨by simp, ?_⟩⟩
        rintro y ⟨⟩
        omega

section Add

variable (hSpells : s.vmas.Spells (Space.of flags) l) (hSorted : Sorted l)
include hSpells hSorted

/-- The result of `vma_add` for any sufficient fuel. -/
theorem vmaAdd_outcome
    (hNode : Placeable flags start endAddr l → NodeAnswer kmalloc (Space.of flags) l s u new) :
    ∃ x, (∀ fuel, l.length + 2 ≤ fuel → vmaAdd kmalloc fuel start endAddr flags s = some x) ∧
      Added flags start endAddr l (· ∈ new) x.1 x.2 := by
  have hError : (-einval : Int) ≠ 0 := by decide
  have hMemory : (-enomem : Int) ≠ 0 := by decide
  by_cases hAdd : Addable start endAddr flags
  · cases hGap : firstGap (betweenGap start endAddr) none l with
    | none =>
        refine ⟨(s, -einval), fun fuel hFuel => vmaAdd_full hSpells hFuel hAdd hGap, ?_, ?_, ?_⟩
        · refine iff_of_false hError ?_
          rintro ⟨⟨_, hApart⟩, _⟩
          obtain ⟨left, right, hSplit, hTest⟩ := hSorted.place hApart
          have hFail := firstGap_none hGap left right hSplit
          rw [Option.or_none, hTest] at hFail
          cases hFail
        · exact fun hZero => absurd hZero hError
        · exact fun _ => hSpells
    | some gap =>
        obtain ⟨pred, succ⟩ := gap
        obtain ⟨left, right, hSplit, hPred, hSucc, hTest⟩ := firstGap_split hGap
        rw [Option.or_none] at hPred
        subst hPred hSucc hSplit
        obtain ⟨hLast, hFirst⟩ := betweenGap_iff.mp hTest
        have hFree : Placeable flags start endAddr (left ++ right) := by
          refine ⟨hAdd, fun e he hOverlap => ?_⟩
          have hApart := hSorted.apart hLast hFirst e he
          omega
        replace hNode := hNode hFree
        refine ⟨_, fun fuel hFuel =>
          (vmaAdd_insert hSpells hFuel hAdd hGap).trans hNode.withNode, ?_⟩
        cases new with
        | none =>
            refine ⟨iff_of_false hMemory ?_, fun hZero => absurd hZero hMemory, fun _ => hNode.same⟩
            rintro ⟨_, p, ⟨⟩⟩
        | some p =>
            refine ⟨iff_of_true rfl ⟨hFree, p, rfl⟩, fun _ => ?_, fun h => absurd rfl h⟩
            exact ⟨left, right, p, rfl, rfl, hNode.insert _,
              hSorted.insert hAdd.proper.le hLast hFirst⟩
  · refine ⟨(s, -einval), fun fuel _ => vmaAdd_reject hAdd, iff_of_false hError fun h => hAdd h.1.1, ?_, ?_⟩
    · exact fun hZero => absurd hZero hError
    · exact fun _ => hSpells

/-- `vma_add` does exactly what it promises. -/
theorem vmaAdd_exact
    (hNode : Placeable flags start endAddr l → NodeAnswer kmalloc (Space.of flags) l s u new) :
    (∃ fuel x, vmaAdd kmalloc fuel start endAddr flags s = some x) ∧
      ∀ fuel x, vmaAdd kmalloc fuel start endAddr flags s = some x →
        Added flags start endAddr l (· ∈ new) x.1 x.2 :=
  Le.determined (fun _ _ h => vmaAdd_mono (fun _ _ => Le.refl) h)
    (vmaAdd_outcome hSpells hSorted hNode)

end Add

/-! `vma_free`. -/

/-- What `vma_free` promises: the range is covered no more, and nothing else changes. -/
structure Freed (sp : Space) (start endAddr : Nat) (l : List Entry) (t : Mm Env) (ret : Int) :
    Prop where
  list : ret = 0 → ∃ l', t.vmas.Spells sp l' ∧ Sorted l' ∧
    ∀ addr, assigns l' addr = if start ≤ addr ∧ addr < endAddr then none else assigns l addr
  same : ret ≠ 0 → t.vmas.Spells sp l

/-- `[start, endAddr)` is a part of the area `e`, on the side of `sp`. -/
structure Within (sp : Space) (e : Entry) (start endAddr : Nat) : Prop where
  proper : start < endAddr
  space : freeSpace start endAddr = some sp
  low : e.2.start ≤ start
  high : endAddr ≤ e.2.endAddr

/-- `vma_free` does not have to split the area, or cannot, or the area is the last one and `kmalloc`
answers with a node whose memory already holds its flags. -/
def NoSplit (e : Entry) (right : List Entry) (start endAddr : Nat) (u : Mm Env) (new : Option Nat) :
    Prop :=
  start = e.2.start ∨ endAddr = e.2.endAddr ∨
    ∀ p ∈ new, right = [] ∧ (u.vmas.node p).flags = e.2.flags

section Free

variable (hSpells : s.vmas.Spells sp (left ++ e :: right)) (hSorted : Sorted (left ++ e :: right))
  (hIn : Within sp e start endAddr)
include hSorted hIn

/-- Cutting the range out of its area. -/
theorem assigns_cut {pieces : List Entry} (hPieces : ∀ addr, assigns pieces addr =
      if e.2.Covers addr ∧ ¬ (start ≤ addr ∧ addr < endAddr) then some e.2.flags else none) :
    ∀ addr, assigns (left ++ (pieces ++ right)) addr =
      if start ≤ addr ∧ addr < endAddr then none else assigns (left ++ e :: right) addr := by
  intro addr
  obtain ⟨hBelow, _, hAbove⟩ := hSorted.middle
  rw [hSorted.assigns_middle, assigns_append, assigns_append, assigns_append, hPieces]
  by_cases hCovers : e.2.Covers addr
  · have hLeft : assigns left addr = none := by
      apply assigns_none
      intro x hx hOther
      exact absurd ((hBelow x hx).trans hCovers.1) (Nat.not_le.mpr hOther.2)
    have hRight : assigns right addr = none := by
      apply assigns_none
      intro x hx hOther
      exact absurd ((hAbove x hx).trans hOther.1) (Nat.not_le.mpr hCovers.2)
    rw [hLeft, hRight, if_pos hCovers, Option.none_or, Option.or_none]
    by_cases hRange : start ≤ addr ∧ addr < endAddr
    · rw [if_pos hRange, if_neg fun h => h.2 hRange]
    · rw [if_neg hRange, if_pos ⟨hCovers, hRange⟩]
  · have hRange : ¬ (start ≤ addr ∧ addr < endAddr) := fun h =>
      hCovers ⟨hIn.low.trans h.1, h.2.trans_le hIn.high⟩
    rw [if_neg hRange, if_neg hCovers, if_neg fun h => hCovers h.1, Option.none_or]

/-- One piece of the area stays. -/
theorem freed_modify (f : Vma → Vma) (area : Area) (hSpells : s.vmas.Spells sp (left ++ e :: right))
    (hNext : ∀ n, (f n).next = n.next) (hPrev : ∀ n, (f n).prev = n.prev)
    (hArea : (f (s.vmas.node e.1)).toArea = area) (hProper : area.start ≤ area.endAddr)
    (hLow : e.2.start ≤ area.start) (hHigh : area.endAddr ≤ e.2.endAddr)
    (hFlags : area.flags = e.2.flags)
    (hRest : ∀ addr, area.Covers addr ↔ e.2.Covers addr ∧ ¬ (start ≤ addr ∧ addr < endAddr)) :
    Freed sp start endAddr (left ++ e :: right) { s with vmas := s.vmas.setNode e.1 f } 0 := by
  refine ⟨fun _ => ⟨left ++ ([(e.1, area)] ++ right), ?_, ?_, ?_⟩, fun h => absurd rfl h⟩
  · exact hSpells.modify (hNext _) (hPrev _) hArea
  · exact hSorted.shrink hProper hLow hHigh
  · apply assigns_cut hSorted hIn
    intro addr
    rw [assigns_cons, hFlags]
    simp only [hRest]
    rfl

/-- The area is split. -/
theorem freed_split_iff (hNode : NodeAnswer kmalloc sp (left ++ e :: right) s u (some p))
    (hLow : e.2.start < start) (hHigh : endAddr < e.2.endAddr) :
    Freed sp start endAddr (left ++ e :: right)
      { u with vmas := u.vmas.split e.1 p start endAddr } 0 ↔
      right = [] ∧ (u.vmas.node p).flags = e.2.flags := by
  have hLt := hIn.proper
  have hFresh := hNode.fresh p rfl
  cases right with
  | cons x right =>
      refine iff_of_false ?_ fun h => absurd h.1 (List.cons_ne_nil x right)
      intro h
      obtain ⟨l', hSpells', _⟩ := h.list rfl
      exact hNode.same.not_split hFresh l' hSpells'
  | nil =>
      obtain ⟨lower, hLower⟩ : ∃ a : Area, a = { e.2 with endAddr := start } := ⟨_, rfl⟩
      obtain ⟨upper, hUpper⟩ : ∃ a : Area, a =
        { start := endAddr, endAddr := e.2.endAddr, flags := (u.vmas.node p).flags } := ⟨_, rfl⟩
      have hSpells' : (u.vmas.split e.1 p start endAddr).Spells sp
          (left ++ [(e.1, lower), (p, upper)]) := by
        rw [hLower, hUpper]
        exact hNode.same.split_last hFresh
      have hEnds : lower.endAddr = start ∧ upper.start = endAddr := by
        rw [hLower, hUpper]
        exact ⟨rfl, rfl⟩
      have hFront : Sorted (left ++ [(e.1, lower)] ++ []) := by
        rw [List.append_nil, hLower]
        exact hSorted.shrink hLow.le le_rfl (hLt.le.trans hHigh.le)
      have hPieces : Sorted (left ++ [(e.1, lower)] ++ [(p, upper)]) := by
        refine hFront.insert ?_ ?_ (by simp)
        · rw [hUpper]
          exact hHigh.le
        · rw [List.getLast?_concat]
          rintro y ⟨⟩
          rw [hEnds.1, hEnds.2]
          exact hLt.le
      have hUpperCovers : ∀ addr, upper.Covers addr ↔ endAddr ≤ addr ∧ addr < e.2.endAddr := by
        intro addr
        rw [hUpper]
        exact Iff.rfl
      have hLowerCovers : ∀ addr, lower.Covers addr ↔ e.2.start ≤ addr ∧ addr < start := by
        intro addr
        rw [hLower]
        exact Iff.rfl
      have hFlags : lower.flags = e.2.flags ∧ upper.flags = (u.vmas.node p).flags := by
        rw [hLower, hUpper]
        exact ⟨rfl, rfl⟩
      constructor
      · intro h
        obtain ⟨l', hList, _, hAssigns⟩ := h.list rfl
        have hAt := hAssigns endAddr
        rw [hList.unique hSpells', List.append_cons, hPieces.assigns_middle,
          if_pos ((hUpperCovers endAddr).mpr ⟨le_rfl, hHigh⟩), if_neg fun h => Nat.lt_irrefl _ h.2,
          hSorted.assigns_middle, if_pos ⟨hLow.le.trans hLt.le, hHigh⟩, hFlags.2] at hAt
        exact ⟨rfl, Option.some.inj hAt⟩
      · rintro ⟨_, hSame⟩
        rw [List.append_assoc] at hPieces
        refine ⟨fun _ => ⟨_, hSpells', hPieces, ?_⟩, fun h => absurd rfl h⟩
        rw [← List.append_nil [(e.1, lower), (p, upper)]]
        apply assigns_cut hSorted hIn
        intro addr
        rw [assigns_cons, assigns_cons, hFlags.1, hFlags.2, hSame]
        have hAll : e.2.Covers addr ↔ e.2.start ≤ addr ∧ addr < e.2.endAddr := Iff.rfl
        by_cases hBelow : e.2.start ≤ addr ∧ addr < start
        · rw [if_pos ((hLowerCovers addr).mpr hBelow), if_pos (by rw [hAll]; omega)]
        · rw [if_neg fun h => hBelow ((hLowerCovers addr).mp h)]
          by_cases hAbove : endAddr ≤ addr ∧ addr < e.2.endAddr
          · rw [if_pos ((hUpperCovers addr).mpr hAbove), if_pos (by rw [hAll]; omega)]
          · rw [if_neg fun h => hAbove ((hUpperCovers addr).mp h), if_neg (by rw [hAll]; omega)]
            rfl

/-- What the second half of `vma_free` comes to. -/
theorem vmaRelease_outcome (hSpells : s.vmas.Spells sp (left ++ e :: right))
    (hNode : start ≠ e.2.start → endAddr ≠ e.2.endAddr → NodeAnswer kmalloc sp (left ++ e :: right) s u new)
    (hFree : ∃ t, kfree e.1 { s with vmas := s.vmas.unlink sp e.1 } = some t ∧
      t.vmas = s.vmas.unlink sp e.1) :
    ∃ x, vmaRelease kmalloc kfree sp e.1 start endAddr s = some x ∧
      (Freed sp start endAddr (left ++ e :: right) x.1 x.2 ↔ NoSplit e right start endAddr u new) := by
  have hLt := hIn.proper
  have hLow := hIn.low
  have hHigh := hIn.high
  have hArea : (s.vmas.node e.1).toArea = e.2 := hSpells.area_eq (by simp)
  have hAll : ∀ addr, e.2.Covers addr ↔ e.2.start ≤ addr ∧ addr < e.2.endAddr := fun _ => Iff.rfl
  rw [vmaRelease, Vmas.area, hArea]
  by_cases hStart : start = e.2.start
  · by_cases hEnd : endAddr = e.2.endAddr
    · obtain ⟨t, hCall, hVmas⟩ := hFree
      rw [if_pos ⟨hStart, hEnd⟩, hCall]
      refine ⟨(t, 0), rfl, iff_of_true ⟨fun _ => ⟨left ++ ([] ++ right), ?_, hSorted.remove, ?_⟩,
        fun h => absurd rfl h⟩ (Or.inl hStart)⟩
      · rw [hVmas]
        exact hSpells.unlink
      · apply assigns_cut hSorted hIn
        intro addr
        rw [if_neg (by rw [hAll]; omega)]
        rfl
    · rw [if_neg fun h => hEnd h.2, if_pos hStart]
      refine ⟨_, rfl, iff_of_true ?_ (Or.inl hStart)⟩
      refine freed_modify hSorted hIn _ { e.2 with start := endAddr } hSpells (fun _ => rfl)
        (fun _ => rfl) (by rw [← hArea]) hHigh (hLow.trans hLt.le) le_rfl rfl ?_
      intro addr
      rw [hAll]
      show endAddr ≤ addr ∧ addr < e.2.endAddr ↔ _
      omega
  · rw [if_neg fun h => hStart h.1, if_neg hStart]
    by_cases hEnd : endAddr = e.2.endAddr
    · rw [if_pos hEnd]
      refine ⟨_, rfl, iff_of_true ?_ (Or.inr (Or.inl hEnd))⟩
      refine freed_modify hSorted hIn _ { e.2 with endAddr := start } hSpells (fun _ => rfl)
        (fun _ => rfl) (by rw [← hArea]) hLow le_rfl (hLt.le.trans hHigh) rfl ?_
      intro addr
      rw [hAll]
      show e.2.start ≤ addr ∧ addr < start ↔ _
      omega
    · replace hNode := hNode hStart hEnd
      rw [if_neg hEnd, hNode.withNode]
      refine ⟨_, rfl, ?_⟩
      cases new with
      | none =>
          have hMemory : (-enomem : Int) ≠ 0 := by decide
          refine iff_of_true ⟨fun h => absurd h hMemory, fun _ => hNode.same⟩ (Or.inr (Or.inr ?_))
          rintro p ⟨⟩
      | some p =>
          refine (freed_split_iff hSorted hIn hNode (by omega) (by omega)).trans ?_
          constructor
          · intro h
            refine Or.inr (Or.inr ?_)
            rintro q ⟨⟩
            exact h
          · rintro (h | h | h)
            · exact absurd h hStart
            · exact absurd h hEnd
            · exact h p rfl

/-- `vma_free` does what it promises exactly when it does not come to split an area. -/
theorem vmaFree_freed_iff (hSpells : s.vmas.Spells sp (left ++ e :: right))
    (hNode : start ≠ e.2.start → endAddr ≠ e.2.endAddr → NodeAnswer kmalloc sp (left ++ e :: right) s u new)
    (hFree : ∃ t, kfree e.1 { s with vmas := s.vmas.unlink sp e.1 } = some t ∧
      t.vmas = s.vmas.unlink sp e.1) :
    (∃ fuel x, vmaFree kmalloc kfree fuel start endAddr s = some x) ∧
      ((∀ fuel x, vmaFree kmalloc kfree fuel start endAddr s = some x →
        Freed sp start endAddr (left ++ e :: right) x.1 x.2) ↔ NoSplit e right start endAddr u new) := by
  obtain ⟨x, hRelease, hIff⟩ := vmaRelease_outcome hSorted hIn hSpells hNode hFree
  have hRun : ∀ fuel, (left ++ e :: right).length + 1 ≤ fuel →
      vmaFree kmalloc kfree fuel start endAddr s = some x := by
    intro fuel hFuel
    rw [vmaFree_search hSpells (by omega) hIn.proper hIn.space,
      hSorted.find hIn.proper hIn.low hIn.high]
    exact hRelease
  have hMono : ∀ m n, m ≤ n → Le (vmaFree kmalloc kfree m start endAddr s)
      (vmaFree kmalloc kfree n start endAddr s) := fun m n h =>
    vmaFree_mono (fun _ _ => Le.refl) h
  obtain ⟨hEnds, hOnly⟩ := Le.determined (P := fun y => y = x) hMono ⟨x, hRun, rfl⟩
  refine ⟨hEnds, Iff.trans ?_ hIff⟩
  constructor
  · intro h
    exact h _ x (hRun _ le_rfl)
  · intro h fuel y hResult
    rw [hOnly fuel y hResult]
    exact h

end Free

end ArtOS

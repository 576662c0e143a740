import Mathlib.Logic.Function.Basic
import Mathlib.Data.List.Basic
import Mathlib.Data.List.Nodup

/-! Lists threaded through a store of cells. The store is seen only through
its link function, so the same rules serve a table of records, a set of heap
nodes, and free blocks that keep the link in their own first word. -/
namespace LinkedList

variable {Cell : Type*} {next prev : Cell → Option Cell}

/-- Following `next` from `start` visits exactly `cells` and arrives at `stop`. -/
def Segment (next : Cell → Option Cell) : Option Cell → List Cell → Option Cell → Prop
  | start, [], stop => start = stop
  | start, cell :: rest, stop => start = some cell ∧ Segment next (next cell) rest stop

/-- A terminated list: the last link is null. -/
abbrev Chain (next : Cell → Option Cell) (start : Option Cell) (cells : List Cell) : Prop :=
  Segment next start cells none

@[simp] theorem segment_nil {start stop : Option Cell} :
    Segment next start [] stop ↔ start = stop := Iff.rfl

@[simp] theorem segment_cons {start stop : Option Cell} {cell : Cell} {rest : List Cell} :
    Segment next start (cell :: rest) stop ↔
      start = some cell ∧ Segment next (next cell) rest stop := Iff.rfl

theorem segment_append {start stop : Option Cell} {left right : List Cell} :
    Segment next start (left ++ right) stop ↔
      ∃ middle, Segment next start left middle ∧ Segment next middle right stop := by
  induction left generalizing start with
  | nil => simp
  | cons cell rest ih => simp [ih, and_assoc]

/-- Only the links of the visited cells are read. -/
theorem Segment.congr {next' : Cell → Option Cell} {start stop : Option Cell} {cells : List Cell}
    (h : Segment next start cells stop) (hSame : ∀ cell ∈ cells, next' cell = next cell) :
    Segment next' start cells stop := by
  induction cells generalizing start with
  | nil => exact h
  | cons cell rest ih =>
      refine ⟨h.1, ?_⟩
      rw [hSame cell List.mem_cons_self]
      exact ih h.2 (fun c hc => hSame c (List.mem_cons_of_mem _ hc))

theorem Chain.head? {start : Option Cell} {cells : List Cell} (h : Chain next start cells) :
    start = cells.head? := by
  cases cells with
  | nil => exact h
  | cons cell rest => exact h.1

theorem Chain.eq_nil_iff {start : Option Cell} {cells : List Cell} (h : Chain next start cells) :
    start = none ↔ cells = [] := by
  rw [h.head?, List.head?_eq_none_iff]

/-- The links determine the list. -/
theorem Chain.unique {start : Option Cell} {left right : List Cell}
    (hl : Chain next start left) (hr : Chain next start right) : left = right := by
  induction left generalizing start right with
  | nil => exact ((hr.eq_nil_iff).mp hl).symm
  | cons cell rest ih =>
      cases right with
      | nil => exact absurd (hl.1.symm.trans hr) (by simp)
      | cons other tail =>
          have hSame : cell = other := Option.some.inj (hl.1.symm.trans hr.1)
          subst hSame
          rw [ih hl.2 hr.2]

/-- A terminated list goes on from where a path into it stops. -/
theorem Segment.rest {start stop : Option Cell} {cells all : List Cell}
    (h : Segment next start cells stop) (hAll : Chain next start all) :
    ∃ rest, all = cells ++ rest ∧ Chain next stop rest := by
  induction cells generalizing start all with
  | nil =>
      obtain rfl : start = stop := h
      exact ⟨all, rfl, hAll⟩
  | cons cell cells ih =>
      cases all with
      | nil => exact absurd (h.1.symm.trans hAll) (by simp)
      | cons other all =>
          obtain rfl : cell = other := Option.some.inj (h.1.symm.trans hAll.1)
          obtain ⟨rest, rfl, hRest⟩ := ih h.2 hAll.2
          exact ⟨rest, rfl, hRest⟩

/-- A terminated list visits no cell twice: from a repeated cell the two
remaining lists would be the same list with different lengths. -/
theorem Chain.nodup {start : Option Cell} {cells : List Cell} (h : Chain next start cells) :
    cells.Nodup := by
  induction cells generalizing start with
  | nil => exact List.nodup_nil
  | cons cell rest ih =>
      refine List.nodup_cons.mpr ⟨?_, ih h.2⟩
      intro hMem
      obtain ⟨before, after, hSplit⟩ := List.append_of_mem hMem
      have hRest := h.2
      rw [hSplit, segment_append] at hRest
      obtain ⟨middle, _, hMiddle⟩ := hRest
      have hEq : after = rest := Chain.unique hMiddle.2 h.2
      have hLength := congrArg List.length hSplit
      simp only [hEq, List.length_append, List.length_cons] at hLength
      omega

variable [DecidableEq Cell]

/-- A link written in a cell off the path leaves the path alone. -/
theorem Segment.update {start stop : Option Cell} {cells : List Cell} {cell : Cell}
    {link : Option Cell} (h : Segment next start cells stop) (hOff : cell ∉ cells) :
    Segment (Function.update next cell link) start cells stop := by
  refine h.congr fun c hc => Function.update_of_ne ?_ _ _
  rintro rfl
  exact hOff hc

/-- Cutting a terminated path in front of `stop` and linking its last cell to
`target` instead. -/
theorem Segment.relink {start stop target : Option Cell} {before : List Cell} {last : Cell}
    (h : Segment next start (before ++ [last]) stop) (hOff : last ∉ before) :
    Segment (Function.update next last target) start (before ++ [last]) target := by
  obtain ⟨middle, hBefore, hLast⟩ := segment_append.mp h
  refine segment_append.mpr ⟨middle, hBefore.update hOff, hLast.1, ?_⟩
  simp

/-- Appending a cell behind the last one: its own link is cleared first, then
the old last cell is linked to it. -/
theorem Chain.append_cell {start : Option Cell} {before : List Cell} {last cell : Cell}
    (h : Chain next start (before ++ [last])) (hNew : cell ∉ before ++ [last]) :
    Chain (Function.update (Function.update next cell none) last (some cell)) start
      (before ++ [last] ++ [cell]) := by
  have hDistinct : cell ≠ last := fun he => hNew (by simp [he])
  have hOff : last ∉ before := fun hm =>
    (List.nodup_append.mp (Chain.nodup h)).2.2 last hm last (by simp) rfl
  refine segment_append.mpr ⟨some cell, ?_, rfl, ?_⟩
  · exact (Segment.update h hNew).relink hOff
  · simp [Function.update_of_ne hDistinct]

end LinkedList

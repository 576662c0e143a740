import Mathlib.Data.List.Induction
import ArtOS.Library.LinkedList

/-! Lists threaded through a store in both directions, together with what the
cells hold. A path is described by its entries: each cell with its contents. -/
namespace DoublyLinked

variable {Cell Data : Type*} {next prev next' prev' : Cell → Option Cell} {data data' : Cell → Data}

/-- The cell of the first entry. -/
def first (entries : List (Cell × Data)) : Option Cell := entries.head?.map Prod.fst

/-- The cell of the last entry, or `before` when there is none. -/
def last (before : Option Cell) (entries : List (Cell × Data)) : Option Cell :=
  entries.foldl (fun _ e => some e.1) before

/-- Following `next` from `start` visits `entries` and arrives at `stop`, and
`prev` leads back to `before`. -/
def Path (next prev : Cell → Option Cell) (data : Cell → Data) :
    Option Cell → Option Cell → List (Cell × Data) → Option Cell → Prop
  | _, start, [], stop => start = stop
  | before, start, e :: rest, stop =>
      start = some e.1 ∧ prev e.1 = before ∧ data e.1 = e.2 ∧
        Path next prev data (some e.1) (next e.1) rest stop

variable {before start stop target : Option Cell} {entries left right : List (Cell × Data)}
variable {e : Cell × Data}

theorem first_eq : first entries = entries.head?.map Prod.fst := rfl

@[simp] theorem first_nil : first ([] : List (Cell × Data)) = none := rfl

@[simp] theorem first_cons : first (e :: entries) = some e.1 := rfl

@[simp] theorem last_nil : last before ([] : List (Cell × Data)) = before := rfl

@[simp] theorem last_cons : last before (e :: entries) = last (some e.1) entries := rfl

@[simp] theorem last_append : last before (left ++ right) = last (last before left) right :=
  List.foldl_append

theorem path_nil : Path next prev data before start [] stop ↔ start = stop := Iff.rfl

theorem path_cons : Path next prev data before start (e :: entries) stop ↔
    start = some e.1 ∧ prev e.1 = before ∧ data e.1 = e.2 ∧
      Path next prev data (some e.1) (next e.1) entries stop := Iff.rfl

theorem path_append : Path next prev data before start (left ++ right) stop ↔
    ∃ middle, Path next prev data before start left middle ∧
      Path next prev data (last before left) middle right stop := by
  induction left generalizing before start with
  | nil => simp [path_nil]
  | cons e rest ih =>
      simp only [List.cons_append, path_cons, ih, last_cons]
      constructor
      · rintro ⟨hStart, hPrev, hData, middle, hLeft, hRight⟩
        exact ⟨middle, ⟨hStart, hPrev, hData, hLeft⟩, hRight⟩
      · rintro ⟨middle, ⟨hStart, hPrev, hData, hLeft⟩, hRight⟩
        exact ⟨hStart, hPrev, hData, middle, hLeft, hRight⟩

/-- The forward links alone are a singly linked path. -/
theorem Path.segment (h : Path next prev data before start entries stop) :
    LinkedList.Segment next start (entries.map Prod.fst) stop := by
  induction entries generalizing before start with
  | nil => exact h
  | cons e rest ih => exact ⟨h.1, ih h.2.2.2⟩

theorem Path.start_eq (h : Path next prev data before start entries none) :
    start = first entries := by
  cases entries with
  | nil => exact h
  | cons e rest => exact h.1

theorem Path.data_eq (h : Path next prev data before start entries stop) (he : e ∈ entries) :
    data e.1 = e.2 := by
  induction entries generalizing before start with
  | nil => exact absurd he List.not_mem_nil
  | cons e' rest ih =>
      cases List.mem_cons.mp he with
      | inl hSame => exact hSame ▸ h.2.2.1
      | inr hRest => exact ih h.2.2.2 hRest

theorem Path.nodup (h : Path next prev data before start entries none) :
    (entries.map Prod.fst).Nodup :=
  LinkedList.Chain.nodup h.segment

/-- The store determines the entries. -/
theorem Path.unique (hl : Path next prev data before start left none)
    (hr : Path next prev data before start right none) : left = right := by
  induction left generalizing before start right with
  | nil =>
      cases right with
      | nil => rfl
      | cons e rest => exact absurd (hl.symm.trans hr.1) (by simp)
  | cons e rest ih =>
      cases right with
      | nil => exact absurd (hl.1.symm.trans hr) (by simp)
      | cons e' rest' =>
          have hCell : e.1 = e'.1 := Option.some.inj (hl.1.symm.trans hr.1)
          have hData : e.2 = e'.2 := by rw [← hl.2.2.1, ← hr.2.2.1, hCell]
          obtain rfl : e = e' := Prod.ext hCell hData
          rw [ih hl.2.2.2 hr.2.2.2]

/-- Only the visited cells are read. -/
theorem Path.congr (h : Path next prev data before start entries stop)
    (hSame : ∀ c ∈ entries.map Prod.fst, next' c = next c ∧ prev' c = prev c ∧ data' c = data c) :
    Path next' prev' data' before start entries stop := by
  induction entries generalizing before start with
  | nil => exact h
  | cons e rest ih =>
      obtain ⟨hNext, hPrev, hData⟩ := hSame e.1 (by simp)
      refine ⟨h.1, hPrev.trans h.2.1, hData.trans h.2.2.1, ?_⟩
      rw [hNext]
      exact ih h.2.2.2 fun c hc => hSame c (List.mem_cons_of_mem _ hc)

/-- Directing the last link of a path elsewhere. -/
theorem Path.retarget (h : Path next prev data before start (left ++ [e]) stop)
    (hNext : next' e.1 = target) (hPrev : prev' e.1 = prev e.1) (hData : data' e.1 = data e.1)
    (hSame : ∀ c ∈ left.map Prod.fst, next' c = next c ∧ prev' c = prev c ∧ data' c = data c) :
    Path next' prev' data' before start (left ++ [e]) target := by
  obtain ⟨middle, hLeft, hLast⟩ := path_append.mp h
  refine path_append.mpr ⟨middle, hLeft.congr hSame, hLast.1, ?_, ?_, hNext⟩
  · exact hPrev.trans hLast.2.1
  · exact hData.trans hLast.2.2.1

/-- Directing the first back link of a path elsewhere. -/
theorem Path.rebase (h : Path next prev data before start (e :: right) stop)
    (hPrev : prev' e.1 = target) (hNext : next' e.1 = next e.1) (hData : data' e.1 = data e.1)
    (hSame : ∀ c ∈ right.map Prod.fst, next' c = next c ∧ prev' c = prev c ∧ data' c = data c) :
    Path next' prev' data' target start (e :: right) stop := by
  refine ⟨h.1, hPrev, hData.trans h.2.2.1, ?_⟩
  rw [hNext]
  exact h.2.2.2.congr hSame

/-- The same path from the other end. -/
theorem Path.reverse (h : Path next prev data before start entries stop) :
    Path prev next data stop (last before entries) entries.reverse before := by
  induction entries generalizing before start with
  | nil => rfl
  | cons e rest ih =>
      obtain ⟨-, hPrev, hData, hRest⟩ := h
      have hNext : next e.1 = last stop rest.reverse := by
        cases rest with
        | nil => exact hRest
        | cons f r => rw [List.reverse_cons, last_append, last_cons, last_nil, hRest.1]
      rw [List.reverse_cons, last_cons]
      exact path_append.mpr ⟨some e.1, ih hRest, rfl, hNext, hData, hPrev⟩

theorem last_none : last none entries = entries.getLast?.map Prod.fst := by
  cases entries using List.reverseRecOn with
  | nil => rfl
  | append_singleton l e => simp

theorem last_ne_none (h : entries ≠ []) : ∃ z, last none entries = some z := by
  rw [last_none, List.getLast?_eq_some_getLast h]
  exact ⟨_, rfl⟩

/-- The two directions separately: a terminated list of cells whose back links undo the
forward links. -/
theorem path_iff : Path next prev data before start entries none ↔
    LinkedList.Chain next start (entries.map Prod.fst) ∧ (∀ e ∈ entries, data e.1 = e.2) ∧
      (∀ c ∈ entries.map Prod.fst, ∀ c', next c = some c' → prev c' = some c) ∧
      ∀ c, start = some c → prev c = before := by
  induction entries generalizing before start with
  | nil =>
      simp only [path_nil, List.map_nil, LinkedList.segment_nil]
      constructor
      · rintro rfl
        simp
      · exact fun h => h.1
  | cons e rest ih =>
      rw [path_cons, ih]
      simp only [List.map_cons, LinkedList.segment_cons, List.forall_mem_cons]
      constructor
      · rintro ⟨rfl, hPrev, hData, hChain, hRest, hBack, hNext⟩
        exact ⟨⟨rfl, hChain⟩, ⟨hData, hRest⟩, ⟨hNext, hBack⟩, by rintro c ⟨⟩; exact hPrev⟩
      · rintro ⟨⟨rfl, hChain⟩, ⟨hData, hRest⟩, ⟨hNext, hBack⟩, hPrev⟩
        exact ⟨rfl, hPrev _ rfl, hData, hChain, hRest, hBack, hNext⟩

theorem last_concat : last before (left ++ [e]) = some e.1 := by simp

theorem last_eq_some {c : Cell} (h : last none left = some c) : c ∈ left.map Prod.fst := by
  induction left using List.reverseRecOn with
  | nil => cases h
  | append_singleton l e _ =>
      rw [last_concat] at h
      simp [Option.some.inj h]

theorem first_eq_some {c : Cell} (h : first right = some c) : c ∈ right.map Prod.fst := by
  cases right with
  | nil => cases h
  | cons e r => simp [Option.some.inj h]

variable [DecidableEq Cell] {start' : Option Cell}

/-- Exchanging the middle of a list. Besides the cells of the new middle, only the link
into it from the left and the back link into it from the right are written. -/
theorem Path.splice (mid mid' : List (Cell × Data)) (into : Option Cell)
    (h : Path next prev data none start (left ++ (mid ++ right)) none)
    (hMid : Path next' prev' data' (last none left) into mid' (first right))
    (hStart : start' = if left = [] then into else start)
    (hSame : ∀ c ∈ (left ++ right).map Prod.fst,
      next' c = (if last none left = some c then into else next c) ∧
      prev' c = (if first right = some c then last (last none left) mid' else prev c) ∧
      data' c = data c) :
    Path next' prev' data' none start' (left ++ (mid' ++ right)) none := by
  obtain ⟨hLeft', hRest', hDisjoint⟩ := List.nodup_append.mp (List.map_append ▸ h.nodup)
  have hApart : ∀ c ∈ left.map Prod.fst, c ∉ right.map Prod.fst := fun c hc hr =>
    hDisjoint c hc c (by simp at hr; simp [hr]) rfl
  have hRightNodup : (right.map Prod.fst).Nodup :=
    (List.nodup_append.mp (List.map_append ▸ hRest')).2.1
  obtain ⟨middle, hLeft, hTail⟩ := path_append.mp h
  obtain ⟨middle', _, hRight⟩ := path_append.mp hTail
  have hNext : ∀ c ∈ right.map Prod.fst, next' c = next c := fun c hc => by
    rw [(hSame c (by simp at hc; simp [hc])).1, if_neg fun hl => hApart c (last_eq_some hl) hc]
  have hPrev : ∀ c ∈ left.map Prod.fst, prev' c = prev c := fun c hc => by
    rw [(hSame c (by simp at hc; simp [hc])).2.1, if_neg fun hf => hApart c hc (first_eq_some hf)]
  have hData : ∀ c ∈ (left ++ right).map Prod.fst, data' c = data c := fun c hc => (hSame c hc).2.2
  refine path_append.mpr ⟨into, ?_, path_append.mpr ⟨first right, hMid, ?_⟩⟩
  · cases left using List.reverseRecOn with
    | nil => simpa [path_nil] using hStart
    | append_singleton l e =>
        have hOff : e.1 ∉ l.map Prod.fst := by
          intro hm
          rw [List.map_append] at hLeft'
          exact (List.nodup_append.mp hLeft').2.2 e.1 hm e.1 (by simp) rfl
        rw [hStart, if_neg (by simp)]
        refine hLeft.retarget ?_ (hPrev _ (by simp)) (hData _ (by simp)) fun c hc => ?_
        · rw [(hSame e.1 (by simp)).1, last_concat, if_pos rfl]
        · have hcl : c ∈ (l ++ [e]).map Prod.fst := by simp at hc; simp [hc]
          refine ⟨?_, hPrev c hcl, hData c (by simp at hc; simp [hc])⟩
          rw [(hSame c (by simp at hc; simp [hc])).1, last_concat, if_neg]
          rintro ⟨⟩
          exact hOff hc
  · cases right with
    | nil => exact path_nil.mpr rfl
    | cons e r =>
        have hOff : e.1 ∉ r.map Prod.fst := (List.nodup_cons.mp hRightNodup).1
        obtain rfl : middle' = some e.1 := hRight.1
        refine hRight.rebase ?_ (hNext _ (by simp)) (hData _ (by simp)) fun c hc => ?_
        · rw [(hSame e.1 (by simp)).2.1, first_cons, if_pos rfl]
        · have hcr : c ∈ (e :: r).map Prod.fst := List.mem_cons_of_mem _ hc
          refine ⟨hNext c hcr, ?_, hData c (by simp at hc; simp [hc])⟩
          rw [(hSame c (by simp at hc; simp [hc])).2.1, first_cons, if_neg]
          rintro ⟨⟩
          exact hOff hc

end DoublyLinked

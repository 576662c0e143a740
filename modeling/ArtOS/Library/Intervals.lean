import Mathlib.Order.Basic
import Mathlib.Data.List.Basic

/-! Lists of intervals in increasing order. An interval is any value with a
lower and an upper end; neighbours may touch. -/
namespace Intervals

variable {Item Point : Type*} [Preorder Point] {lo hi : Item → Point}

/-- No interval ends before it starts, and each one ends before the later ones start. -/
structure Ordered (lo hi : Item → Point) (items : List Item) : Prop where
  proper : ∀ x ∈ items, lo x ≤ hi x
  sorted : items.Pairwise fun x y => hi x ≤ lo y

variable {items left right : List Item} {x y : Item} {p : Point}

theorem ordered_nil : Ordered lo hi [] := ⟨by simp, List.Pairwise.nil⟩

theorem ordered_append : Ordered lo hi (left ++ right) ↔
    Ordered lo hi left ∧ Ordered lo hi right ∧ ∀ x ∈ left, ∀ y ∈ right, hi x ≤ lo y := by
  constructor
  · intro h
    obtain ⟨hLeft, hRight, hCross⟩ := List.pairwise_append.mp h.sorted
    exact ⟨⟨fun x hx => h.proper x (by simp [hx]), hLeft⟩,
      ⟨fun x hx => h.proper x (by simp [hx]), hRight⟩, hCross⟩
  · rintro ⟨hLeft, hRight, hCross⟩
    refine ⟨fun x hx => ?_, List.pairwise_append.mpr ⟨hLeft.sorted, hRight.sorted, hCross⟩⟩
    cases List.mem_append.mp hx with
    | inl hx => exact hLeft.proper x hx
    | inr hx => exact hRight.proper x hx

theorem ordered_cons : Ordered lo hi (x :: items) ↔
    lo x ≤ hi x ∧ Ordered lo hi items ∧ ∀ y ∈ items, hi x ≤ lo y := by
  constructor
  · intro h
    obtain ⟨hFirst, hRest⟩ := List.pairwise_cons.mp h.sorted
    exact ⟨h.proper x (by simp), ⟨fun y hy => h.proper y (by simp [hy]), hRest⟩, hFirst⟩
  · rintro ⟨hProper, hItems, hFirst⟩
    exact ⟨List.forall_mem_cons.mpr ⟨hProper, hItems.proper⟩,
      List.pairwise_cons.mpr ⟨hFirst, hItems.sorted⟩⟩

/-- What lies above the last interval lies above all of them. -/
theorem Ordered.le_of_last (h : Ordered lo hi left) (hLast : ∀ y ∈ left.getLast?, hi y ≤ p) :
    ∀ x ∈ left, hi x ≤ p := by
  induction left with
  | nil => simp
  | cons z rest ih =>
      obtain ⟨_, hRest, hFirst⟩ := ordered_cons.mp h
      cases rest with
      | nil => simpa using hLast
      | cons w rest =>
          have hTail := ih hRest (by simpa using hLast)
          refine List.forall_mem_cons.mpr ⟨?_, hTail⟩
          calc hi z ≤ lo w := hFirst w (by simp)
            _ ≤ hi w := hRest.proper w (by simp)
            _ ≤ p := hTail w (by simp)

/-- What lies below the first interval lies below all of them. -/
theorem Ordered.le_of_first (h : Ordered lo hi right) (hFirst : ∀ y ∈ right.head?, p ≤ lo y) :
    ∀ x ∈ right, p ≤ lo x := by
  cases right with
  | nil => simp
  | cons z rest =>
      obtain ⟨hProper, _, hRest⟩ := ordered_cons.mp h
      have hz : p ≤ lo z := hFirst z rfl
      exact List.forall_mem_cons.mpr ⟨hz, fun x hx => (hz.trans hProper).trans (hRest x hx)⟩

/-- An interval fits between its two neighbours. -/
theorem Ordered.insert (h : Ordered lo hi (left ++ right)) (hx : lo x ≤ hi x)
    (hLast : ∀ y ∈ left.getLast?, hi y ≤ lo x) (hFirst : ∀ y ∈ right.head?, hi x ≤ lo y) :
    Ordered lo hi (left ++ x :: right) := by
  obtain ⟨hLeft, hRight, hCross⟩ := ordered_append.mp h
  have hBelow := hLeft.le_of_last hLast
  have hAbove := hRight.le_of_first hFirst
  refine ordered_append.mpr ⟨hLeft, ordered_cons.mpr ⟨hx, hRight, hAbove⟩, fun y hy z hz => ?_⟩
  cases List.mem_cons.mp hz with
  | inl hz => exact hz ▸ hBelow y hy
  | inr hz => exact hCross y hy z hz

theorem Ordered.remove (h : Ordered lo hi (left ++ x :: right)) : Ordered lo hi (left ++ right) :=
  ⟨fun y hy => h.proper y (by
      rcases List.mem_append.mp hy with hy | hy <;> simp [hy]),
    h.sorted.sublist (by simp)⟩

/-- What an interval in the middle has to satisfy. -/
theorem Ordered.middle (h : Ordered lo hi (left ++ x :: right)) :
    (∀ y ∈ left, hi y ≤ lo x) ∧ lo x ≤ hi x ∧ ∀ y ∈ right, hi x ≤ lo y := by
  obtain ⟨_, hRest, hCross⟩ := ordered_append.mp h
  obtain ⟨hProper, _, hRight⟩ := ordered_cons.mp hRest
  exact ⟨fun y hy => hCross y hy x (by simp), hProper, hRight⟩

/-- Changing one interval within the room between its neighbours. -/
theorem Ordered.replace (h : Ordered lo hi (left ++ x :: right)) (hy : lo y ≤ hi y)
    (hLast : ∀ z ∈ left.getLast?, hi z ≤ lo y) (hFirst : ∀ z ∈ right.head?, hi y ≤ lo z) :
    Ordered lo hi (left ++ y :: right) :=
  h.remove.insert hy hLast hFirst

/-- Between its neighbours an interval only has to be proper. -/
theorem Ordered.insert_iff (h : Ordered lo hi (left ++ right))
    (hLast : ∀ y ∈ left.getLast?, hi y ≤ lo x) (hFirst : ∀ y ∈ right.head?, hi x ≤ lo y) :
    Ordered lo hi (left ++ x :: right) ↔ lo x ≤ hi x :=
  ⟨fun hx => hx.middle.2.1, fun hx => h.insert hx hLast hFirst⟩

/-- An interval inside another one takes its place. -/
theorem Ordered.shrink (h : Ordered lo hi (left ++ x :: right)) (hy : lo y ≤ hi y)
    (hLo : lo x ≤ lo y) (hHi : hi y ≤ hi x) : Ordered lo hi (left ++ y :: right) := by
  obtain ⟨hLeft, _, hRight⟩ := h.middle
  refine h.replace hy (fun z hz => ?_) fun z hz => ?_
  · exact (hLeft z (List.mem_of_getLast? hz)).trans hLo
  · exact hHi.trans (hRight z (List.mem_of_head? hz))

/-! Searching the places between neighbours. -/

/-- The first place, seen as its two neighbours, that passes the test. -/
def firstGap (test : Option Item → Option Item → Bool) :
    Option Item → List Item → Option (Option Item × Option Item)
  | pred, [] => if test pred none then some (pred, none) else none
  | pred, x :: rest => if test pred (some x) then some (pred, some x) else firstGap test (some x) rest

variable {test : Option Item → Option Item → Bool} {pred succ before : Option Item}

omit [Preorder Point] in
theorem last_or_cons : (x :: items).getLast?.or before = items.getLast?.or (some x) := by
  rw [List.getLast?_cons]
  cases items.getLast? <;> rfl

omit [Preorder Point] in
/-- The place that is found passes the test, and no earlier one does. -/
theorem firstGap_least (h : firstGap test before items = some (pred, succ)) :
    ∃ left right, items = left ++ right ∧ pred = left.getLast?.or before ∧
      succ = right.head? ∧ test pred succ = true ∧
      ∀ left' right', items = left' ++ right' → left'.length < left.length →
        test (left'.getLast?.or before) right'.head? = false := by
  induction items generalizing before with
  | nil =>
      rw [firstGap] at h
      split at h
      · cases h
        exact ⟨[], [], rfl, rfl, rfl, by assumption, by simp⟩
      · cases h
  | cons x rest ih =>
      rw [firstGap] at h
      split at h
      · cases h
        exact ⟨[], x :: rest, rfl, rfl, rfl, by assumption, by simp⟩
      next hFirst =>
        obtain ⟨left, right, rfl, hPred, hSucc, hTest, hLeast⟩ := ih h
        refine ⟨x :: left, right, rfl, hPred.trans last_or_cons.symm, hSucc, hTest, ?_⟩
        intro left' right' hSplit hShort
        cases left' with
        | nil =>
            rw [List.nil_append] at hSplit
            rw [← hSplit]
            exact Bool.eq_false_iff.mpr hFirst
        | cons y left' =>
            obtain ⟨rfl, hRest⟩ := List.cons_eq_cons.mp hSplit
            rw [last_or_cons]
            exact hLeast left' right' hRest (Nat.lt_of_succ_lt_succ hShort)

omit [Preorder Point] in
theorem firstGap_split (h : firstGap test before items = some (pred, succ)) :
    ∃ left right, items = left ++ right ∧ pred = left.getLast?.or before ∧
      succ = right.head? ∧ test pred succ = true := by
  obtain ⟨left, right, hItems, hPred, hSucc, hTest, _⟩ := firstGap_least h
  exact ⟨left, right, hItems, hPred, hSucc, hTest⟩

omit [Preorder Point] in
/-- When nothing is found, every place fails the test. -/
theorem firstGap_none (h : firstGap test before items = none) :
    ∀ left right, items = left ++ right → test (left.getLast?.or before) right.head? = false := by
  induction items generalizing before with
  | nil =>
      intro left right hSplit
      obtain ⟨rfl, rfl⟩ := List.nil_eq_append_iff.mp hSplit
      rw [firstGap] at h
      split at h
      · cases h
      next hTest => exact Bool.eq_false_iff.mpr hTest
  | cons x rest ih =>
      intro left right hSplit
      rw [firstGap] at h
      split at h
      · cases h
      next hFirst =>
        cases left with
        | nil =>
            rw [List.nil_append] at hSplit
            rw [← hSplit]
            exact Bool.eq_false_iff.mpr hFirst
        | cons y left =>
            obtain ⟨rfl, hRest⟩ := List.cons_eq_cons.mp hSplit
            rw [last_or_cons]
            exact ih h left right hRest

/-- The ends of the intervals in front of a place grow along the list. -/
theorem Ordered.last_le {left' right' : List Item} (h : Ordered lo hi (left ++ right))
    (hSplit : left ++ right = left' ++ right') (hLength : left.length ≤ left'.length) :
    ∀ x ∈ left.getLast?, ∃ y ∈ left'.getLast?, hi x ≤ hi y := by
  obtain ⟨more, rfl⟩ : ∃ more, left' = left ++ more :=
    (List.prefix_of_prefix_length_le ⟨right, rfl⟩ ⟨right', hSplit.symm⟩ hLength).imp fun _ h => h.symm
  intro x hx
  cases hMore : more.getLast? with
  | none =>
      rw [List.getLast?_eq_none_iff.mp hMore, List.append_nil]
      exact ⟨x, hx, le_rfl⟩
  | some y =>
      refine ⟨y, by rw [List.getLast?_append, hMore]; rfl, ?_⟩
      rw [hSplit] at h
      obtain ⟨hLeft', _⟩ := ordered_append.mp h
      obtain ⟨_, hMore', hCross⟩ := ordered_append.mp hLeft'
      have hy := List.mem_of_getLast? hMore
      exact (hCross x (List.mem_of_getLast? hx) y hy).trans (hMore'.proper y hy)

end Intervals

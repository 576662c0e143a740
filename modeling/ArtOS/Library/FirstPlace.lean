import Mathlib.Data.List.Basic

/-! A search through nested arrays that changes the first element where it can. -/
namespace FirstPlace

variable {α β : Type*}

/-- The first element where `f` has a result gets it. -/
def modifyFirst (f : α → Option α) : List α → Option (List α)
  | [] => none
  | a :: rest =>
      match f a with
      | some a' => some (a' :: rest)
      | none => (modifyFirst f rest).map (a :: ·)

variable {f : α → Option α} {l l' : List α}

/-- Where the search has changed something, and that it could not do so before. -/
theorem modifyFirst_eq_some (h : modifyFirst f l = some l') :
    ∃ left a a' right, l = left ++ a :: right ∧ l' = left ++ a' :: right ∧ f a = some a' ∧
      ∀ b ∈ left, f b = none := by
  induction l generalizing l' with
  | nil => exact absurd h (by simp [modifyFirst])
  | cons b rest ih =>
      rw [modifyFirst] at h
      cases hb : f b with
      | some b' =>
          rw [hb] at h
          obtain rfl := Option.some.inj h
          exact ⟨[], b, b', rest, rfl, rfl, hb, by simp⟩
      | none =>
          rw [hb] at h
          obtain ⟨rest', hRest, rfl⟩ := Option.map_eq_some_iff.mp h
          obtain ⟨left, a, a', right, rfl, rfl, ha, hLeft⟩ := ih hRest
          exact ⟨b :: left, a, a', right, rfl, rfl, ha, List.forall_mem_cons.mpr ⟨hb, hLeft⟩⟩

theorem modifyFirst_eq_none : modifyFirst f l = none ↔ ∀ a ∈ l, f a = none := by
  induction l with
  | nil => simp [modifyFirst]
  | cons b rest ih =>
      rw [modifyFirst, List.forall_mem_cons]
      cases hb : f b with
      | some b' => simp
      | none => simp [ih]

/-- One element was free and is a `new` one now. -/
def Filled (free new : β → Prop) (before after : List β) : Prop :=
  ∃ left old b right, before = left ++ old :: right ∧ after = left ++ b :: right ∧ free old ∧ new b

/-- The same, and it was the first free one. -/
def FilledFirst (free new : β → Prop) (before after : List β) : Prop :=
  ∃ left old b right, before = left ++ old :: right ∧ after = left ++ b :: right ∧
    (∀ x ∈ left, ¬ free x) ∧ free old ∧ new b

theorem FilledFirst.filled {free new : β → Prop} {before after : List β}
    (h : FilledFirst free new before after) : Filled free new before after := by
  obtain ⟨left, old, b, right, hBefore, hAfter, _, hFree, hNew⟩ := h
  exact ⟨left, old, b, right, hBefore, hAfter, hFree, hNew⟩

section Nested

variable {view : α → List β} {free new : β → Prop} (hNone : ∀ a, f a = none → ∀ x ∈ view a, ¬ free x)
include hNone

/-- A search that fails has seen no free element. -/
theorem modifyFirst_none_view (h : modifyFirst f l = none) : ∀ x ∈ l.flatMap view, ¬ free x := by
  intro x hx
  obtain ⟨a, ha, hView⟩ := List.mem_flatMap.mp hx
  exact hNone a (modifyFirst_eq_none.mp h a ha) x hView

/-- A search through arrays does to all their elements what it does to those of one array. -/
theorem modifyFirst_filledFirst
    (hf : ∀ a a', f a = some a' → FilledFirst free new (view a) (view a'))
    (h : modifyFirst f l = some l') : FilledFirst free new (l.flatMap view) (l'.flatMap view) := by
  obtain ⟨left, a, a', right, rfl, rfl, ha, hLeft⟩ := modifyFirst_eq_some h
  obtain ⟨before, old, b, after, hView, hView', hBefore, hFree, hNew⟩ := hf a a' ha
  refine ⟨left.flatMap view ++ before, old, b, after ++ right.flatMap view, ?_, ?_, ?_, hFree, hNew⟩
  · rw [List.flatMap_append, List.flatMap_cons, hView]
    simp only [List.append_assoc, List.cons_append]
  · rw [List.flatMap_append, List.flatMap_cons, hView']
    simp only [List.append_assoc, List.cons_append]
  · intro x hx
    rcases List.mem_append.mp hx with hx | hx
    · obtain ⟨c, hc, hView⟩ := List.mem_flatMap.mp hx
      exact hNone c (hLeft c hc) x hView
    · exact hBefore x hx

end Nested

end FirstPlace

import Mathlib.Logic.Function.Basic
import Mathlib.Data.List.Basic

/-! Stores into a memory, in the order in which they are made. -/
namespace Stores

variable {Addr Value : Type*} [DecidableEq Addr]

/-- The memory behind these stores. -/
def written (stores : List (Addr × Value)) (mem : Addr → Value) : Addr → Value :=
  stores.foldl (fun mem w => Function.update mem w.1 w.2) mem

/-- The addresses that are stored to. -/
abbrev targets (stores : List (Addr × Value)) : List Addr := stores.map Prod.fst

variable {stores more : List (Addr × Value)} {mem mem' : Addr → Value} {a : Addr} {v : Value}

@[simp] theorem written_nil : written [] mem = mem := rfl

@[simp] theorem written_cons : written ((a, v) :: stores) mem = written stores (Function.update mem a v) := rfl

theorem written_of_not_mem (h : a ∉ targets stores) : written stores mem a = mem a := by
  induction stores generalizing mem with
  | nil => rfl
  | cons w stores ih =>
      obtain ⟨hFirst, hRest⟩ := not_or.mp (mt List.mem_cons.mpr h)
      exact (ih hRest).trans (Function.update_of_ne hFirst _ _)

/-- What has been stored to does not depend on what has been there. -/
theorem written_congr (h : a ∈ targets stores ∨ mem a = mem' a) : written stores mem a = written stores mem' a := by
  induction stores generalizing mem mem' with
  | nil => exact h.resolve_left List.not_mem_nil
  | cons w stores ih =>
      apply ih
      dsimp only
      by_cases hw : a = w.1
      · rw [hw, Function.update_self, Function.update_self]
        exact Or.inr rfl
      · rw [Function.update_of_ne hw, Function.update_of_ne hw]
        exact h.imp_left fun hMem => (List.mem_cons.mp hMem).resolve_left hw

/-- The last store to an address is what is there in the end. -/
theorem written_of_last (h : a ∉ targets more) : written (stores ++ (a, v) :: more) mem a = v := by
  rw [written, List.foldl_append, List.foldl_cons]
  exact (written_of_not_mem h).trans (Function.update_self ..)

/-- A store to an address that no other store has is there in the end. -/
theorem written_of_nodup (hNodup : (targets stores).Nodup) (h : (a, v) ∈ stores) :
    written stores mem a = v := by
  induction stores generalizing mem with
  | nil => exact absurd h List.not_mem_nil
  | cons w stores ih =>
      obtain ⟨hFirst, hRest⟩ := List.nodup_cons.mp hNodup
      rcases List.mem_cons.mp h with rfl | h
      · rw [written_cons, written_of_not_mem hFirst, Function.update_self]
      · exact ih hRest h

end Stores

import Mathlib.Data.List.Basic
import Mathlib.Logic.Function.Basic

/-! Copying the cells of a memory one after the other. Where the ranges overlap, a cell must have been
read before it is written. -/
namespace CopyOrder

variable {Index Addr Value : Type*} [DecidableEq Addr]

/-- The cells with these indices are copied, in this order. -/
def copy (dst src : Index → Addr) (order : List Index) (mem : Addr → Value) : Addr → Value :=
  order.foldl (fun mem i => Function.update mem (dst i) (mem (src i))) mem

/-- Nothing is written that is still to be read, or that is a copy already. -/
def Safe (dst src : Index → Addr) (order : List Index) : Prop :=
  order.Pairwise fun i j => dst i ≠ src j ∧ dst j ≠ dst i

variable {dst src : Index → Addr} {order : List Index} {mem : Addr → Value} {i : Index} {a : Addr}

@[simp] theorem copy_nil : copy dst src [] mem = mem := rfl

@[simp] theorem copy_cons : copy dst src (i :: order) mem =
    copy dst src order (Function.update mem (dst i) (mem (src i))) := rfl

@[simp] theorem copy_concat : copy dst src (order ++ [i]) mem =
    Function.update (copy dst src order mem) (dst i) (copy dst src order mem (src i)) :=
  List.foldl_concat ..

/-- Only the destinations change. -/
theorem copy_of_ne (h : ∀ i ∈ order, dst i ≠ a) : copy dst src order mem a = mem a := by
  induction order generalizing mem with
  | nil => rfl
  | cons j order ih =>
      obtain ⟨hFirst, hRest⟩ := List.forall_mem_cons.mp h
      rw [copy_cons, ih hRest, Function.update_of_ne hFirst.symm]

/-- In a safe order every cell gets what its source has held before. -/
theorem Safe.copy (h : Safe dst src order) (hi : i ∈ order) : copy dst src order mem (dst i) = mem (src i) := by
  induction order generalizing mem with
  | nil => exact absurd hi List.not_mem_nil
  | cons j order ih =>
      obtain ⟨hFirst, hRest⟩ := List.pairwise_cons.mp h
      rw [copy_cons]
      rcases List.mem_cons.mp hi with rfl | hi
      · rw [copy_of_ne fun k hk => (hFirst k hk).2, Function.update_self]
      · rw [ih hRest hi, Function.update_of_ne (hFirst i hi).1.symm]

end CopyOrder

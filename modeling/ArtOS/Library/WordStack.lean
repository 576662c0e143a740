import Mathlib.Data.List.Induction
import Mathlib.Logic.Function.Basic

/-! A stack of words that grows downwards: numbered cells and the number of the
lowest cell in use. What has been pushed is read back from there upwards. -/

structure WordStack (Word : Type*) where
  cells : Nat → Word
  sp : Nat

namespace WordStack

variable {Word : Type*}

def push (s : WordStack Word) (w : Word) : WordStack Word :=
  ⟨Function.update s.cells (s.sp - 1) w, s.sp - 1⟩

/-- Push the words one after another. -/
def pushAll (s : WordStack Word) (words : List Word) : WordStack Word := words.foldl push s

/-- The `n` lowest words in use. -/
def top (s : WordStack Word) (n : Nat) : List Word := (List.range n).map fun i => s.cells (s.sp + i)

/-- A call returns: it has written anything below the stack pointer, and nothing above. -/
def clobber (s : WordStack Word) (junk : Nat → Word) : WordStack Word :=
  ⟨fun i => if i < s.sp then junk i else s.cells i, s.sp⟩

/-- The words in use are still in these cells. -/
def Kept (s : WordStack Word) (cells : Nat → Word) : Prop := ∀ i, s.sp ≤ i → cells i = s.cells i

variable {s : WordStack Word} {words : List Word} {w : Word} {n : Nat} {cells cells' : Nat → Word}
  {junk : Nat → Word}

@[simp] theorem pushAll_nil : s.pushAll [] = s := rfl

@[simp] theorem pushAll_cons : s.pushAll (w :: words) = (s.push w).pushAll words := rfl

@[simp] theorem push_sp : (s.push w).sp = s.sp - 1 := rfl

@[simp] theorem clobber_sp : (s.clobber junk).sp = s.sp := rfl

@[simp] theorem pushAll_sp : (s.pushAll words).sp = s.sp - words.length := by
  induction words generalizing s with
  | nil => rfl
  | cons w words ih =>
      rw [pushAll_cons, ih, push_sp, List.length_cons]
      omega

theorem Kept.refl (s : WordStack Word) : s.Kept s.cells := fun _ _ => rfl

theorem Kept.clobber (h : s.Kept cells) : s.Kept ((⟨cells, s.sp⟩ : WordStack Word).clobber junk).cells :=
  fun i hi => (if_neg (Nat.not_lt.mpr hi)).trans (h i hi)

theorem kept_clobber : s.Kept (s.clobber junk).cells := (Kept.refl s).clobber

/-- The cells above are as before. -/
theorem cells_pushAll (hRoom : words.length ≤ s.sp) {i : Nat} (hi : s.sp ≤ i) :
    (s.pushAll words).cells i = s.cells i := by
  induction words generalizing s with
  | nil => rfl
  | cons w words ih =>
      rw [List.length_cons] at hRoom
      refine (ih (s := s.push w) (by rw [push_sp]; omega) (by rw [push_sp]; omega)).trans ?_
      exact Function.update_of_ne (by omega) _ _

@[simp] theorem pushAll_pushAll {words' : List Word} :
    (s.pushAll words).pushAll words' = s.pushAll (words ++ words') := (List.foldl_append ..).symm

theorem pushAll_concat : s.pushAll (words ++ [w]) = (s.pushAll words).push w := by
  rw [← pushAll_pushAll]
  rfl

/-- The lowest word, and the words above it. -/
theorem top_push (hRoom : 0 < s.sp) : (s.push w).top (n + 1) = w :: s.top n := by
  rw [top, List.range_succ_eq_map, List.map_cons, List.map_map]
  refine List.cons_eq_cons.mpr ⟨Function.update_self _ _ _, List.map_congr_left fun i _ => ?_⟩
  have hUp : (s.push w).sp + i.succ = s.sp + i := by
    rw [push_sp]
    omega
  rw [Function.comp_apply, hUp, push]
  exact Function.update_of_ne (by omega) _ _

/-- The words that have been pushed, the last one first. -/
theorem top_pushAll (hRoom : words.length ≤ s.sp) :
    (s.pushAll words).top words.length = words.reverse := by
  induction words using List.reverseRecOn with
  | nil => rfl
  | append_singleton words w ih =>
      rw [List.length_append, List.length_singleton] at hRoom
      rw [pushAll_concat, List.length_append, List.length_singleton, List.reverse_concat, top_push,
        ih (by omega)]
      rw [pushAll_sp]
      omega

/-- The words are read back as long as the cells are kept. -/
theorem Kept.read {i : Nat} (h : (s.pushAll words).Kept cells) (hLength : words.length = n)
    (hRoom : n ≤ s.sp) (hi : words.reverse[i]? = some w) : cells (s.sp - n + i) = w := by
  subst hLength
  rw [← top_pushAll hRoom, top, List.getElem?_map] at hi
  obtain ⟨j, hj, rfl⟩ := Option.map_eq_some_iff.mp hi
  obtain ⟨_, rfl⟩ := List.getElem?_eq_some_iff.mp hj
  rw [List.getElem_range, pushAll_sp]
  exact h _ (by rw [pushAll_sp]; exact Nat.le_add_right _ _)

end WordStack

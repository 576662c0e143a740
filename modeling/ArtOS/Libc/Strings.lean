import Mathlib.Logic.Function.Basic
import Mathlib.Data.List.GetD
import ArtOS.Library.CString
import ArtOS.Library.Partial

/-! The string functions of the C library. What `strcpy` and `memset` write to is an object of its
own. -/
namespace ArtOS

open CString Partial

/-- The loop of `strlen`. -/
def strlenLoop (mem : Nat → BitVec 8) (str : Nat) : Nat → Nat → Option Nat
  | 0, _ => none
  | fuel + 1, len => if mem (str + len) ≠ 0 then strlenLoop mem str fuel (len + 1) else some len

def strlen (mem : Nat → BitVec 8) (fuel str : Nat) : Option Nat := strlenLoop mem str fuel 0

def memset (object : Nat → BitVec 8) (bufptr : Nat) (value : BitVec 8) (size : Nat) : Nat → BitVec 8 :=
  (List.range size).foldl (fun object i => Function.update object (bufptr + i) value) object

/-- `strcpy` stops in front of the zero that ends the string, but it looks for that zero only behind
the first character. -/
def strcpy (mem : Nat → BitVec 8) : Nat → (Nat → BitVec 8) → Nat → Nat → Option ((Nat → BitVec 8) × Nat)
  | 0, _, _, _ => none
  | fuel + 1, object, dest, src =>
      let object := Function.update object dest (mem src)
      if mem (src + 1) ≠ 0 then strcpy mem fuel object (dest + 1) (src + 1) else some (object, dest + 1)

/-- The loop of `strcmp`, with `i` and `failed`. -/
def strcmpLoop (one two : Nat → BitVec 8) (str1 str2 : Nat) : Nat → Nat → Option (Nat × Int)
  | 0, _ => none
  | fuel + 1, i =>
      if one (str1 + i) ≠ 0 ∧ two (str2 + i) ≠ 0 then
        if one (str1 + i) ≠ two (str2 + i) then some (i, 1)
        else strcmpLoop one two str1 str2 fuel (i + 1)
      else some (i, 0)

def strcmp (one two : Nat → BitVec 8) (fuel str1 str2 : Nat) : Option Int :=
  (strcmpLoop one two str1 str2 fuel 0).map fun (i, failed) =>
    if one (str1 + i) = 0 ∧ two (str2 + i) ≠ 0 ∨ one (str1 + i) ≠ 0 ∧ two (str2 + i) = 0 then 1
    else failed

/-- The first loop of `strncpy`; it counts the characters that are left, and `i`. -/
def strncpyLoop (mem : Nat → BitVec 8) (dest src : Nat) : Nat → Nat → (Nat → BitVec 8) →
    (Nat → BitVec 8) × Nat
  | 0, i, object => (object, i)
  | left + 1, i, object =>
      if mem (src + i) ≠ 0 then
        strncpyLoop mem dest src left (i + 1) (Function.update object (dest + i) (mem (src + i)))
      else (object, i)

def strncpy (mem : Nat → BitVec 8) (object : Nat → BitVec 8) (dest src len : Nat) : Nat → BitVec 8 :=
  let (object, i) := strncpyLoop mem dest src len 0 object
  memset object (dest + i) 0 (len - i)

/-- The end of `strncmp`. -/
def compareAt (one two : Nat → BitVec 8) (s1 s2 len i : Nat) : Int :=
  if i = len then 0 else if one (s1 + i) > two (s2 + i) then 1 else -1

/-- The loop of `strncmp`, and what comes behind it. -/
def strncmpLoop (one two : Nat → BitVec 8) (s1 s2 len : Nat) : Nat → Nat → Int
  | 0, i => compareAt one two s1 s2 len i
  | left + 1, i =>
      if one (s1 + i) = two (s2 + i) then
        if one (s1 + i) = 0 then 0 else strncmpLoop one two s1 s2 len left (i + 1)
      else compareAt one two s1 s2 len i

/-- The strings lie in two objects. -/
def strncmp (one two : Nat → BitVec 8) (s1 s2 len : Nat) : Int :=
  strncmpLoop one two s1 s2 len len 0

variable {mem : Nat → BitVec 8} {str len fuel fuel' : Nat} {s : List (BitVec 8)}

theorem strlenLoop_eq (h : Holds mem (str + len) s) (hFuel : s.length < fuel) :
    strlenLoop mem str fuel len = some (len + s.length) := by
  induction s generalizing len fuel with
  | nil =>
      obtain ⟨fuel, rfl⟩ := Nat.exists_eq_add_of_lt hFuel
      exact if_neg (not_not_intro h)
  | cons c s ih =>
      obtain ⟨fuel, rfl⟩ := Nat.exists_eq_add_of_lt hFuel
      have hNonzero : mem (str + len) ≠ 0 := h.1 ▸ h.2.1
      rw [strlenLoop, if_pos hNonzero, ih h.2.2 (by simp only [List.length_cons]; omega),
        List.length_cons, Nat.add_assoc, Nat.add_comm 1]

/-- `strlen` returns the length of the string. -/
theorem strlen_eq (h : Holds mem str s) (hFuel : s.length < fuel) : strlen mem fuel str = some s.length :=
  (strlenLoop_eq h hFuel).trans (congrArg some (Nat.zero_add _))

theorem strlenLoop_mono (h : fuel ≤ fuel') :
    Le (strlenLoop mem str fuel len) (strlenLoop mem str fuel' len) := by
  induction fuel generalizing fuel' len with
  | zero => exact le_none
  | succ fuel ih =>
      obtain ⟨fuel', rfl⟩ := Nat.exists_eq_add_of_le' (Nat.le_of_add_left_le h)
      exact Le.ite (ih (by omega)) Le.refl

variable {object one two : Nat → BitVec 8} {dest src str1 str2 size i n : Nat} {value c : BitVec 8}
variable {s₁ s₂ : List (BitVec 8)}

theorem memset_apply : memset object dest value size i =
    if dest ≤ i ∧ i < dest + size then value else object i := by
  induction size with
  | zero => exact (if_neg (by omega)).symm
  | succ size ih =>
      rw [memset] at ih ⊢
      rw [List.range_succ, List.foldl_concat, Function.update_apply, ih]
      by_cases hi : i = dest + size
      · rw [if_pos hi, if_pos (by omega)]
      · rw [if_neg hi]
        exact if_congr (by omega) rfl rfl

/-- The object with the characters of `s` from `dest` on. -/
def overwrite (object : Nat → BitVec 8) (dest : Nat) (s : List (BitVec 8)) : Nat → BitVec 8 := fun i =>
  if dest ≤ i ∧ i < dest + s.length then s.getD (i - dest) 0 else object i

theorem overwrite_nil : overwrite object dest [] = object := by
  funext i
  exact if_neg (by simp only [List.length_nil]; omega)

theorem overwrite_cons : overwrite (Function.update object dest c) (dest + 1) s =
    overwrite object dest (c :: s) := by
  funext i
  rw [overwrite, overwrite, Function.update_apply, List.length_cons]
  by_cases hRest : dest + 1 ≤ i ∧ i < dest + 1 + s.length
  · obtain ⟨k, rfl⟩ := Nat.exists_eq_add_of_le hRest.1
    have hIndex : dest + 1 + k - dest = k + 1 := by omega
    rw [if_pos hRest, if_pos (by omega), Nat.add_sub_cancel_left, hIndex, List.getD_cons_succ]
  · rw [if_neg hRest]
    by_cases hFirst : i = dest
    · rw [if_pos hFirst, if_pos (by omega), hFirst, Nat.sub_self, List.getD_cons_zero]
    · rw [if_neg hFirst, if_neg (by omega)]

/-- A string that is not empty is copied without its final zero. -/
theorem strcpy_eq (h : Holds mem src s) (hs : s ≠ []) (hFuel : s.length ≤ fuel) :
    strcpy mem fuel object dest src = some (overwrite object dest s, dest + s.length) := by
  induction s generalizing fuel object dest src with
  | nil => exact absurd rfl hs
  | cons c s ih =>
      obtain ⟨fuel, rfl⟩ := Nat.exists_eq_add_of_le' (Nat.le_of_add_left_le hFuel)
      rw [strcpy, h.1, ← overwrite_cons]
      cases s with
      | nil =>
          have hEnd : mem (src + 1) = 0 := h.2.2
          rw [if_neg (not_not_intro hEnd), overwrite_nil]
          rfl
      | cons d s =>
          have hNonzero : mem (src + 1) ≠ 0 := h.2.2.1 ▸ h.2.2.2.1
          rw [if_pos hNonzero, ih h.2.2 (List.cons_ne_nil d s) (Nat.le_of_succ_le_succ hFuel)]
          simp only [List.length_cons]
          congr 2
          omega

/-- What is copied to where there are zeros is the string. -/
theorem holds_overwrite (hNonzero : ∀ c ∈ s, c ≠ 0) (hEnd : object (dest + s.length) = 0) :
    Holds (overwrite object dest s) dest s := by
  refine holds_iff.mpr ⟨?_, ?_⟩
  · intro i c hc
    obtain ⟨hi, hGet⟩ := List.getElem?_eq_some_iff.mp hc
    rw [overwrite, if_pos (by omega), Nat.add_sub_cancel_left, List.getD_eq_getElem _ _ hi, hGet]
    exact ⟨rfl, hNonzero c (List.mem_of_getElem? hc)⟩
  · rw [overwrite, if_neg (by omega)]
    exact hEnd

/-- Another string in the object stays as it is. -/
theorem holds_overwrite_of_disjoint (h : Holds object i s₁)
    (hApart : i + s₁.length < dest ∨ dest + s.length ≤ i) : Holds (overwrite object dest s) i s₁ :=
  h.congr fun _ _ => if_neg (by omega)

/-- What `strcmp` makes of the place where its loop stops. -/
def failedAt (one two : Nat → BitVec 8) (str1 str2 i : Nat) (failed : Int) : Int :=
  if one (str1 + i) = 0 ∧ two (str2 + i) ≠ 0 ∨ one (str1 + i) ≠ 0 ∧ two (str2 + i) = 0 then 1 else failed

theorem strcmpLoop_eq (h₁ : Holds one (str1 + i) s₁) (h₂ : Holds two (str2 + i) s₂)
    (hFuel : s₁.length < fuel) : ∃ k failed, strcmpLoop one two str1 str2 fuel i = some (k, failed) ∧
      failedAt one two str1 str2 k failed = if s₁ = s₂ then 0 else 1 := by
  induction s₁ generalizing i fuel s₂ with
  | nil =>
      obtain ⟨fuel, rfl⟩ := Nat.exists_eq_add_of_lt hFuel
      have hEnd : one (str1 + i) = 0 := h₁
      refine ⟨i, 0, if_neg fun h => h.1 hEnd, ?_⟩
      cases s₂ with
      | nil =>
          have hEnd' : two (str2 + i) = 0 := h₂
          simp [failedAt, hEnd, hEnd']
      | cons d s₂ =>
          have hd : two (str2 + i) ≠ 0 := h₂.1 ▸ h₂.2.1
          rw [failedAt, if_pos (Or.inl ⟨hEnd, hd⟩), if_neg (List.cons_ne_nil d s₂).symm]
  | cons c s₁ ih =>
      obtain ⟨fuel, rfl⟩ := Nat.exists_eq_add_of_lt hFuel
      have hc : one (str1 + i) ≠ 0 := h₁.1 ▸ h₁.2.1
      cases s₂ with
      | nil =>
          have hEnd : two (str2 + i) = 0 := h₂
          refine ⟨i, 0, if_neg fun h => h.2 hEnd, ?_⟩
          rw [failedAt, if_pos (Or.inr ⟨hc, hEnd⟩), if_neg (List.cons_ne_nil c s₁)]
      | cons d s₂ =>
          have hd : two (str2 + i) ≠ 0 := h₂.1 ▸ h₂.2.1
          by_cases hSame : c = d
          · have hEq : ¬ one (str1 + i) ≠ two (str2 + i) := not_not_intro
              (h₁.1.trans (hSame.trans h₂.1.symm))
            obtain ⟨k, failed, hRun, hFailed⟩ := ih (i := i + 1) h₁.2.2 h₂.2.2 (Nat.lt_of_succ_lt_succ hFuel)
            refine ⟨k, failed, ?_, ?_⟩
            · rw [strcmpLoop, if_pos ⟨hc, hd⟩, if_neg hEq]
              exact hRun
            · rw [hFailed, hSame]
              exact if_congr (by simp) rfl rfl
          · have hNe : one (str1 + i) ≠ two (str2 + i) := fun h => hSame (h₁.1.symm.trans (h.trans h₂.1))
            refine ⟨i, 1, ?_, ?_⟩
            · rw [strcmpLoop, if_pos ⟨hc, hd⟩, if_pos hNe]
            · simp [failedAt, hSame]

/-- `strcmp` compares two strings. -/
theorem strcmp_eq (h₁ : Holds one str1 s₁) (h₂ : Holds two str2 s₂) (hFuel : s₁.length < fuel) :
    strcmp one two fuel str1 str2 = some (if s₁ = s₂ then 0 else 1) := by
  obtain ⟨k, failed, hRun, hFailed⟩ := strcmpLoop_eq (i := 0) h₁ h₂ hFuel
  rw [strcmp, hRun, ← hFailed]
  rfl

theorem strcpy_mono (h : fuel ≤ fuel') :
    Le (strcpy mem fuel object dest src) (strcpy mem fuel' object dest src) := by
  induction fuel generalizing fuel' object dest src with
  | zero => exact le_none
  | succ fuel ih =>
      obtain ⟨fuel', rfl⟩ := Nat.exists_eq_add_of_le' (Nat.le_of_add_left_le h)
      exact Le.ite (ih (by omega)) Le.refl

theorem strcmpLoop_mono (h : fuel ≤ fuel') :
    Le (strcmpLoop one two str1 str2 fuel i) (strcmpLoop one two str1 str2 fuel' i) := by
  induction fuel generalizing fuel' i with
  | zero => exact le_none
  | succ fuel ih =>
      obtain ⟨fuel', rfl⟩ := Nat.exists_eq_add_of_le' (Nat.le_of_add_left_le h)
      exact Le.ite (Le.ite Le.refl (ih (by omega))) Le.refl

theorem strcmp_mono (h : fuel ≤ fuel') :
    Le (strcmp one two fuel str1 str2) (strcmp one two fuel' str1 str2) :=
  Le.map (strcmpLoop_mono h)

theorem strncpyLoop_eq {left : Nat} (h : Holds mem (src + i) s) :
    strncpyLoop mem dest src left i object =
      (overwrite object (dest + i) (s.take left), i + (s.take left).length) := by
  induction left generalizing s i object with
  | zero =>
      rw [List.take_zero, overwrite_nil]
      rfl
  | succ left ih =>
      rw [strncpyLoop]
      cases s with
      | nil =>
          have hEnd : mem (src + i) = 0 := h
          rw [if_neg (not_not_intro hEnd), List.take_nil, overwrite_nil]
          rfl
      | cons c s =>
          have hNonzero : mem (src + i) ≠ 0 := h.1 ▸ h.2.1
          rw [if_pos hNonzero, ih (i := i + 1) h.2.2, h.1, ← Nat.add_assoc, overwrite_cons,
            List.take_succ_cons, List.length_cons, Nat.add_assoc i, Nat.add_comm 1]

/-- The field holds the characters that fit, and zeros behind them. -/
theorem strncpy_apply (h : Holds mem src s) : strncpy mem object dest src len i =
    if dest ≤ i ∧ i < dest + len then s.getD (i - dest) 0 else object i := by
  have hLoop : strncpyLoop mem dest src len 0 object =
      (overwrite object dest (s.take len), (s.take len).length) := by
    rw [strncpyLoop_eq (i := 0) h, Nat.zero_add, Nat.add_zero]
  rw [strncpy, hLoop]
  dsimp only
  rw [memset_apply, overwrite, List.length_take]
  by_cases hField : dest ≤ i ∧ i < dest + len
  · rw [if_pos hField]
    by_cases hChar : i - dest < s.length
    · rw [if_neg (by omega), if_pos (by omega), List.getD_eq_getElem?_getD, List.getD_eq_getElem?_getD,
        List.getElem?_take_of_lt (by omega)]
    · rw [if_pos (by omega), List.getD_eq_default _ _ (by omega)]
  · rw [if_neg hField, if_neg (by omega), if_neg (by omega)]

/-- A string that fits is in the field with its final zero. -/
theorem holds_strncpy (h : Holds mem src s) (hLength : s.length < len) :
    Holds (strncpy mem object dest src len) dest s := by
  refine holds_iff.mpr ⟨fun i c hc => ?_, ?_⟩
  · have hi := (List.getElem?_eq_some_iff.mp hc).1
    rw [strncpy_apply h, if_pos (by omega), Nat.add_sub_cancel_left, List.getD_eq_getElem?_getD, hc]
    exact ⟨rfl, ((holds_iff.mp h).1 i c hc).2⟩
  · rw [strncpy_apply h, if_pos (by omega), Nat.add_sub_cancel_left]
    exact List.getD_eq_default _ _ le_rfl

theorem compareAt_ne_zero (h : i ≠ len) : compareAt one two str1 str2 len i ≠ 0 := by
  rw [compareAt, if_neg h]
  split <;> decide

theorem strncmpLoop_eq_zero {left : Nat} (h : Holds one (str1 + i) s) (hLeft : s.length < left)
    (hLen : len = i + left) :
    strncmpLoop one two str1 str2 len left i = 0 ↔ Holds two (str2 + i) s := by
  induction s generalizing i left with
  | nil =>
      obtain ⟨left, rfl⟩ := Nat.exists_eq_add_of_lt hLeft
      have hEnd : one (str1 + i) = 0 := h
      rw [strncmpLoop, holds_nil, hEnd]
      by_cases hSame : two (str2 + i) = 0
      · rw [if_pos hSame.symm, if_pos rfl]
        exact iff_of_true rfl hSame
      · rw [if_neg (Ne.symm hSame)]
        exact iff_of_false (compareAt_ne_zero (by omega)) hSame
  | cons c s ih =>
      obtain ⟨left, rfl⟩ := Nat.exists_eq_add_of_lt hLeft
      have hc : one (str1 + i) ≠ 0 := h.1 ▸ h.2.1
      simp only [List.length_cons] at hLen
      rw [strncmpLoop, holds_cons]
      by_cases hSame : two (str2 + i) = c
      · rw [if_pos (h.1.trans hSame.symm), if_neg hc,
          ih (i := i + 1) h.2.2 (Nat.lt_of_succ_lt_succ hLeft) (by simp only [List.length_cons]; omega)]
        exact ⟨fun hRest => ⟨hSame, h.2.1, hRest⟩, fun hAll => hAll.2.2⟩
      · rw [if_neg fun hEq => hSame (hEq.symm.trans h.1)]
        exact iff_of_false (compareAt_ne_zero (by omega)) fun hAll => hSame hAll.1

/-- `strncmp` with a string that is shorter than the bound. -/
theorem strncmp_holds (h : Holds one str1 s) (hLength : s.length < len) :
    strncmp one two str1 str2 len = 0 ↔ Holds two str2 s :=
  strncmpLoop_eq_zero (i := 0) h hLength (Nat.zero_add len).symm

theorem strncmpLoop_comm {left : Nat} : strncmpLoop one two str1 str2 len left i = 0 ↔
    strncmpLoop two one str2 str1 len left i = 0 := by
  have hEnd : ∀ i, compareAt one two str1 str2 len i = 0 ↔ compareAt two one str2 str1 len i = 0 := by
    intro i
    by_cases hLen : i = len
    · rw [compareAt, compareAt, if_pos hLen, if_pos hLen]
    · exact iff_of_false (compareAt_ne_zero hLen) (compareAt_ne_zero hLen)
  induction left generalizing i with
  | zero => exact hEnd i
  | succ left ih =>
      rw [strncmpLoop, strncmpLoop]
      by_cases hSame : one (str1 + i) = two (str2 + i)
      · rw [if_pos hSame, if_pos hSame.symm, hSame]
        split
        · rfl
        · exact ih
      · rw [if_neg hSame, if_neg (Ne.symm hSame)]
        exact hEnd i

theorem strncmp_comm : strncmp one two str1 str2 len = 0 ↔ strncmp two one str2 str1 len = 0 :=
  strncmpLoop_comm

/-- `strncmp` compares two strings, the first of which is shorter than the bound. -/
theorem strncmp_eq_zero (h₁ : Holds one str1 s₁) (h₂ : Holds two str2 s₂) (hLength : s₁.length < len) :
    strncmp one two str1 str2 len = 0 ↔ s₁ = s₂ :=
  (strncmp_holds h₁ hLength).trans ⟨fun h => h.unique h₂, fun h => h ▸ h₂⟩

end ArtOS

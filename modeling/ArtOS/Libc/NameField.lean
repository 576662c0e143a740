import ArtOS.Libc.Strings

/-! Names in fields of a fixed length, as in the entries of a directory. `strncpy` leaves no zero behind a
name that fills its field, and `strncmp` looks at the byte behind the field before it looks at the length. -/
namespace ArtOS

open CString

/-- The first `n` characters; the zero at the end counts. -/
def firstChars (n : Nat) (s : List (BitVec 8)) : List (BitVec 8) := (s ++ [0]).take n

/-- What `strncmp` answers: 0 if the first `n` characters are the same, else the order of the first ones
that are not. -/
def Compared (n : Nat) (s t : List (BitVec 8)) (answer : Int) : Prop :=
  firstChars n s = firstChars n t ∧ answer = 0 ∨
    ∃ k x y, k < n ∧ firstChars k s = firstChars k t ∧ (s ++ [0])[k]? = some x ∧ (t ++ [0])[k]? = some y ∧
      x ≠ y ∧ answer = if y < x then 1 else -1

variable {one two : Nat → BitVec 8} {s1 s2 len left i n : Nat} {s t : List (BitVec 8)} {x y c : BitVec 8}
variable {answer : Int}

theorem compared_first (hx : (s ++ [0]).head? = some x) (hy : (t ++ [0]).head? = some y) (h : x ≠ y) :
    Compared (n + 1) s t (if y < x then 1 else -1) := by
  rw [List.head?_eq_getElem?] at hx hy
  exact Or.inr ⟨0, x, y, Nat.succ_pos n, rfl, hx, hy, h, rfl⟩

theorem Compared.cons (h : Compared n s t answer) : Compared (n + 1) (c :: s) (c :: t) answer := by
  rcases h with ⟨hSame, hAnswer⟩ | ⟨k, x, y, hk, hSame, hx, hy, hOther, hAnswer⟩
  · exact Or.inl ⟨congrArg (c :: ·) hSame, hAnswer⟩
  · exact Or.inr ⟨k + 1, x, y, Nat.succ_lt_succ hk, congrArg (c :: ·) hSame, hx, hy, hOther, hAnswer⟩

/-- The loop compares a field with a string. -/
theorem strncmpLoop_compared (hOne : ∀ j < left, one (s1 + (i + j)) = s.getD j 0) (hs : ∀ c ∈ s, c ≠ 0)
    (hTwo : Holds two (s2 + i) t) (hLen : len = i + left) :
    Compared left s t (strncmpLoop one two s1 s2 len left i) := by
  induction left generalizing i s t with
  | zero =>
      refine Or.inl ⟨rfl, ?_⟩
      have hEnd : i = len := by omega
      rw [strncmpLoop, compareAt, if_pos hEnd]
  | succ left ih =>
      have hFirst : one (s1 + i) = s.getD 0 0 := hOne 0 (Nat.succ_pos left)
      have hAt : compareAt one two s1 s2 len i = if two (s2 + i) < one (s1 + i) then 1 else -1 :=
        if_neg (by omega)
      rw [strncmpLoop, hAt, hFirst]
      cases s with
      | nil =>
          cases t with
          | nil =>
              have hZero : two (s2 + i) = 0 := hTwo
              rw [hZero]
              exact Or.inl ⟨rfl, rfl⟩
          | cons d t =>
              rw [hTwo.1, if_neg (show ¬ [].getD 0 0 = d from fun h => hTwo.2.1 h.symm)]
              exact compared_first rfl rfl (Ne.symm hTwo.2.1)
      | cons c s =>
          have hc : c ≠ 0 := hs c List.mem_cons_self
          rw [List.getD_cons_zero]
          cases t with
          | nil =>
              have hZero : two (s2 + i) = 0 := hTwo
              rw [hZero, if_neg hc]
              exact compared_first rfl rfl hc
          | cons d t =>
              rw [hTwo.1]
              by_cases hSame : c = d
              · rw [if_pos hSame, if_neg hc, hSame]
                refine Compared.cons (ih (i := i + 1) (fun j hj => ?_) (fun x hx => hs x
                  (List.mem_cons_of_mem c hx)) hTwo.2.2 (by omega))
                rw [show i + 1 + j = i + (j + 1) by omega]
                exact hOne (j + 1) (Nat.succ_lt_succ hj)
              · rw [if_neg hSame]
                exact compared_first rfl rfl hSame

/-- A name survives in its field, whatever lies behind: `strncpy` fills the field, and `strncmp` finds the
names that agree with the stored one as far as the field goes. -/
theorem strncpy_strncmp (memA memB object : Nat → BitVec 8) (buf srcA srcB n : Nat) (a b : List (BitVec 8))
    (ha : Holds memA srcA a) (hb : Holds memB srcB b) :
    (∀ i, strncpy memA object buf srcA n i =
      if buf ≤ i ∧ i < buf + n then a.getD (i - buf) 0 else object i) ∧
    (strncmp (strncpy memA object buf srcA n) memB buf srcB n = 0 ↔ firstChars n a = firstChars n b) ∧
    (firstChars n a ≠ firstChars n b → ∃ k x y, k < n ∧ firstChars k a = firstChars k b ∧
      (a ++ [0])[k]? = some x ∧ (b ++ [0])[k]? = some y ∧ x ≠ y ∧
        strncmp (strncpy memA object buf srcA n) memB buf srcB n = if y < x then 1 else -1) := by
  have hNonzero : ∀ c ∈ a, c ≠ 0 := by
    intro c hc
    obtain ⟨i, hi⟩ := List.getElem?_of_mem hc
    exact ((holds_iff.mp ha).1 i c hi).2
  have hField : ∀ j < n, strncpy memA object buf srcA n (buf + (0 + j)) = a.getD j 0 := by
    intro j hj
    rw [strncpy_apply ha, if_pos (by omega), Nat.zero_add, Nat.add_sub_cancel_left]
  have hCompared : Compared n a b (strncmp (strncpy memA object buf srcA n) memB buf srcB n) :=
    strncmpLoop_compared (i := 0) hField hNonzero hb (Nat.zero_add n).symm
  refine ⟨fun i => strncpy_apply ha, ?_, ?_⟩
  · rcases hCompared with ⟨hSame, hAnswer⟩ | ⟨k, x, y, hk, _, hx, hy, hOther, hAnswer⟩
    · exact iff_of_true hAnswer hSame
    · refine iff_of_false ?_ fun hSame => hOther ?_
      · rw [hAnswer]
        split <;> decide
      · have hAt := congrArg (·[k]?) hSame
        dsimp only [firstChars] at hAt
        rw [List.getElem?_take_of_lt hk, List.getElem?_take_of_lt hk, hx, hy] at hAt
        exact Option.some.inj hAt
  · intro hOther
    exact hCompared.resolve_left fun hSame => hOther hSame.1

def nameAb : List (BitVec 8) := [0x61, 0x62]

def nameAc : List (BitVec 8) := [0x61, 0x63]

/-- "ab" in a field for one character, and "ac". -/
theorem strncpy_strncmp_ab :
    (∀ i, strncpy (fun i => nameAb.getD i 0) (fun _ => 1) 8 0 1 i =
      if 8 ≤ i ∧ i < 8 + 1 then nameAb.getD (i - 8) 0 else 1) ∧
    (strncmp (strncpy (fun i => nameAb.getD i 0) (fun _ => 1) 8 0 1) (fun i => nameAc.getD i 0) 8 0 1 = 0 ↔
      firstChars 1 nameAb = firstChars 1 nameAc) ∧
    (firstChars 1 nameAb ≠ firstChars 1 nameAc → ∃ k x y, k < 1 ∧ firstChars k nameAb = firstChars k nameAc ∧
      (nameAb ++ [0])[k]? = some x ∧ (nameAc ++ [0])[k]? = some y ∧ x ≠ y ∧
        strncmp (strncpy (fun i => nameAb.getD i 0) (fun _ => 1) 8 0 1) (fun i => nameAc.getD i 0) 8 0 1 =
          if y < x then 1 else -1) :=
  strncpy_strncmp (fun i => nameAb.getD i 0) (fun i => nameAc.getD i 0) (fun _ => 1) 8 0 0 1 nameAb nameAc
    (holds_getD (by decide)) (holds_getD (by decide))

end ArtOS

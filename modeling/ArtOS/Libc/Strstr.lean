import ArtOS.Libc.Strings
import ArtOS.Library.Lowest

/-! `strstr`. Both strings lie in one memory; 0 is the null pointer. -/
namespace ArtOS

open CString Lowest

/-- The inner loop: behind the next `c`, or 0 at the end of the string. -/
def nextChar (mem : Nat → BitVec 8) (c : BitVec 8) : Nat → Nat → Option Nat
  | 0, _ => none
  | fuel + 1, s => if mem s = 0 then some 0 else if mem s = c then some (s + 1) else nextChar mem c fuel (s + 1)

/-- The outer loop, with the number of its rounds. -/
def strstrLoop (mem : Nat → BitVec 8) (c : BitVec 8) (find len fuel : Nat) : Nat → Nat → Option Nat
  | 0, _ => none
  | rounds + 1, s =>
      (nextChar mem c fuel s).bind fun s =>
        if s = 0 then some 0
        else if strncmp mem mem s find len ≠ 0 then strstrLoop mem c find len fuel rounds s
        else some (s - 1)

def strstr (mem : Nat → BitVec 8) (fuel s find : Nat) : Option Nat :=
  if s = 0 then some 0
  else if find = 0 then some 0
  else if mem find ≠ 0 then
    (strlen mem fuel (find + 1)).bind fun len => strstrLoop mem (mem find) (find + 1) len fuel fuel s
  else some s

/-- Where the string at `s` goes on with `needle`. -/
def occurrences (s : Nat) (text needle : List (BitVec 8)) : Set Nat :=
  {p | ∃ i, p = s + i ∧ needle <+: text.drop i}

variable {mem one two : Nat → BitVec 8} {s find fuel rounds len s1 s2 i left : Nat} {c : BitVec 8}
variable {text needle rest before after : List (BitVec 8)} {p : Nat}

/-- Two strings up to the length of the second one. -/
theorem strncmpLoop_start (hOne : Holds one (s1 + i) text) (hTwo : Holds two (s2 + i) rest)
    (hLeft : left = rest.length) (hLen : len = i + left) :
    strncmpLoop one two s1 s2 len left i = 0 ↔ rest <+: text := by
  induction rest generalizing i left text with
  | nil =>
      obtain rfl := hLeft
      have hEnd : i = len := hLen.symm
      refine iff_of_true ?_ List.nil_prefix
      rw [List.length_nil, strncmpLoop, compareAt, if_pos hEnd]
  | cons d rest ih =>
      obtain rfl := hLeft
      have hMore : i ≠ len := by
        rw [hLen, List.length_cons]
        omega
      rw [List.length_cons, strncmpLoop, hTwo.1]
      cases text with
      | nil =>
          have hZero : one (s1 + i) = 0 := hOne
          rw [hZero, if_neg (Ne.symm hTwo.2.1)]
          exact iff_of_false (compareAt_ne_zero hMore) fun h => List.cons_ne_nil d rest (List.prefix_nil.mp h)
      | cons c text =>
          rw [hOne.1, List.cons_prefix_cons]
          by_cases hSame : c = d
          · rw [if_pos hSame, if_neg hOne.2.1, and_iff_right hSame.symm]
            refine ih (i := i + 1) hOne.2.2 hTwo.2.2 rfl ?_
            rw [hLen, List.length_cons]
            omega
          · rw [if_neg hSame]
            exact iff_of_false (compareAt_ne_zero hMore) fun h => hSame h.1.symm

theorem strncmp_start (hOne : Holds one s1 text) (hTwo : Holds two s2 rest) :
    strncmp one two s1 s2 rest.length = 0 ↔ rest <+: text :=
  strncmpLoop_start (i := 0) hOne hTwo rfl (Nat.zero_add _).symm

/-- The inner loop stops behind the first `c`. -/
theorem nextChar_spec (h : Holds mem s text) (hFuel : text.length < fuel) :
    (c ∉ text ∧ nextChar mem c fuel s = some 0) ∨
      ∃ before after, text = before ++ c :: after ∧ c ∉ before ∧
        Holds mem (s + before.length + 1) after ∧ nextChar mem c fuel s = some (s + before.length + 1) := by
  induction text generalizing s fuel with
  | nil =>
      obtain ⟨fuel, rfl⟩ := Nat.exists_eq_succ_of_ne_zero (Nat.ne_zero_of_lt hFuel)
      exact Or.inl ⟨List.not_mem_nil, if_pos h⟩
  | cons d text ih =>
      obtain ⟨fuel, rfl⟩ := Nat.exists_eq_succ_of_ne_zero (Nat.ne_zero_of_lt hFuel)
      have hMore : mem s ≠ 0 := h.1 ▸ h.2.1
      rw [nextChar, if_neg hMore, h.1]
      by_cases hSame : d = c
      · rw [if_pos hSame]
        exact Or.inr ⟨[], text, by rw [hSame]; rfl, List.not_mem_nil, h.2.2, rfl⟩
      · rw [if_neg hSame]
        rcases ih h.2.2 (Nat.lt_of_succ_lt_succ hFuel) with ⟨hNone, hEnd⟩ | ⟨before, after, rfl, hNone, hAfter, hEnd⟩
        · exact Or.inl ⟨List.not_mem_cons_of_ne_of_not_mem (Ne.symm hSame) hNone, hEnd⟩
        · refine Or.inr ⟨d :: before, after, rfl, List.not_mem_cons_of_ne_of_not_mem (Ne.symm hSame) hNone, ?_, ?_⟩
          · rwa [List.length_cons, ← Nat.add_assoc, Nat.add_right_comm s]
          · rw [hEnd, List.length_cons, ← Nat.add_assoc, Nat.add_right_comm s]

theorem occurrences_eq_empty (hNone : c ∉ text) : occurrences s text (c :: rest) = ∅ := by
  refine Set.eq_empty_iff_forall_notMem.mpr ?_
  rintro p ⟨i, -, hPrefix⟩
  exact hNone (List.mem_of_mem_drop (hPrefix.subset List.mem_cons_self))

/-- An occurrence starts at the first `c`, or comes behind it. -/
theorem mem_occurrences (hNone : c ∉ before) : p ∈ occurrences s (before ++ c :: after) (c :: rest) ↔
    p = s + before.length ∧ rest <+: after ∨ p ∈ occurrences (s + before.length + 1) after (c :: rest) := by
  have hDrop : ∀ j, (before ++ c :: after).drop (before.length + j + 1) = after.drop j := by
    intro j
    simp [List.drop_append, Nat.add_assoc]
  constructor
  · rintro ⟨i, rfl, hPrefix⟩
    rcases Nat.lt_trichotomy i before.length with hi | rfl | hi
    · obtain ⟨d, tail, hd⟩ := List.exists_cons_of_ne_nil (mt List.drop_eq_nil_iff.mp (Nat.not_le.mpr hi))
      rw [List.drop_append_of_le_length hi.le, hd, List.cons_append, List.cons_prefix_cons] at hPrefix
      have hMem : d ∈ before := List.mem_of_mem_drop (hd ▸ List.mem_cons_self)
      exact absurd (hPrefix.1 ▸ hMem) hNone
    · rw [List.drop_left, List.cons_prefix_cons] at hPrefix
      exact Or.inl ⟨rfl, hPrefix.2⟩
    · obtain ⟨j, rfl⟩ := Nat.exists_eq_add_of_lt hi
      rw [hDrop] at hPrefix
      exact Or.inr ⟨j, by omega, hPrefix⟩
  · rintro (⟨rfl, hPrefix⟩ | ⟨j, rfl, hPrefix⟩)
    · refine ⟨before.length, rfl, ?_⟩
      rw [List.drop_left, List.cons_prefix_cons]
      exact ⟨rfl, hPrefix⟩
    · exact ⟨before.length + j + 1, by omega, by rwa [hDrop]⟩

theorem strstrLoop_finds (h : Holds mem s text) (hRest : Holds mem find rest) (hFuel : text.length < fuel)
    (hRounds : text.length < rounds) : ∃ r, strstrLoop mem c find rest.length fuel rounds s = some r ∧
      Finds (occurrences s text (c :: rest)) 0 r := by
  induction rounds generalizing s text with
  | zero => omega
  | succ rounds ih =>
      rw [strstrLoop]
      rcases nextChar_spec (c := c) h hFuel with ⟨hNone, hEnd⟩ | ⟨before, after, rfl, hNone, hAfter, hEnd⟩
      · rw [hEnd]
        exact ⟨0, rfl, Or.inr ⟨occurrences_eq_empty hNone, rfl⟩⟩
      · rw [hEnd, Option.bind_some, if_neg (Nat.succ_ne_zero _)]
        by_cases hPrefix : rest <+: after
        · rw [if_neg (not_not_intro ((strncmp_start hAfter hRest).mpr hPrefix))]
          refine ⟨s + before.length, rfl, Or.inl ⟨(mem_occurrences hNone).mpr (Or.inl ⟨rfl, hPrefix⟩), ?_⟩⟩
          intro p hp
          rcases (mem_occurrences hNone).mp hp with ⟨rfl, -⟩ | ⟨i, rfl, -⟩
          · exact Nat.le_refl _
          · omega
        · rw [if_pos (mt (strncmp_start hAfter hRest).mp hPrefix)]
          have hShorter : after.length < (before ++ c :: after).length := by
            rw [List.length_append, List.length_cons]
            omega
          have hSame : occurrences s (before ++ c :: after) (c :: rest) =
              occurrences (s + before.length + 1) after (c :: rest) :=
            Set.ext fun p => (mem_occurrences hNone).trans (or_iff_right fun hFirst => hPrefix hFirst.2)
          rw [hSame]
          exact ih hAfter (hShorter.trans hFuel) (by omega)

/-- `strstr` gives back the first place where the string goes on with the other one, and the null
pointer if there is none. -/
theorem strstr_finds (hText : Holds mem s text) (hNeedle : Holds mem find needle) (hs : s ≠ 0) (hFind : find ≠ 0)
    (hFuel : text.length < fuel) (hLess : needle.length < fuel) :
    ∃ r, strstr mem fuel s find = some r ∧ Finds (occurrences s text needle) 0 r := by
  rw [strstr, if_neg hs, if_neg hFind]
  cases needle with
  | nil =>
      have hEmpty : mem find = 0 := hNeedle
      rw [if_neg (not_not_intro hEmpty)]
      refine ⟨s, rfl, Or.inl ⟨⟨0, rfl, List.nil_prefix⟩, ?_⟩⟩
      rintro p ⟨i, rfl, -⟩
      exact Nat.le_add_right s i
  | cons c rest =>
      have hMore : mem find ≠ 0 := hNeedle.1 ▸ hNeedle.2.1
      rw [if_pos hMore, hNeedle.1, strlen_eq hNeedle.2.2 (Nat.lt_of_succ_lt hLess), Option.bind_some]
      exact strstrLoop_finds hText hNeedle.2.2 hFuel hFuel

/-- `"aab"` at 1 and `"ab"` at 5. -/
def aabMemory : Nat → BitVec 8 := fun a => [0, 0x61, 0x61, 0x62, 0, 0x61, 0x62].getD a 0

theorem strstr_finds_aab : strstr aabMemory 4 1 5 = some 2 ∧
    ∀ p ∈ occurrences 1 [0x61, 0x61, 0x62] [0x61, 0x62], 2 ≤ p := by
  obtain ⟨r, hRun, hFinds⟩ := strstr_finds
    (show Holds aabMemory 1 [0x61, 0x61, 0x62] from ⟨rfl, by decide, rfl, by decide, rfl, by decide, rfl⟩)
    (show Holds aabMemory 5 [0x61, 0x62] from ⟨rfl, by decide, rfl, by decide, rfl⟩) (by decide) (by decide)
    (show 3 < 4 by decide) (by decide)
  obtain rfl : r = 2 := Option.some.inj (hRun.symm.trans rfl)
  rcases hFinds with hLeast | ⟨-, hNull⟩
  · exact ⟨hRun, fun p hp => hLeast.2 hp⟩
  · cases hNull

end ArtOS

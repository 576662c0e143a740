import ArtOS.Libc.Concat
import ArtOS.Library.Word

/-! `strlcat`, with `strnlen` and `strlcpy`. A destination without a zero is left alone, and so is one of
length 0, for which `len - 1` is the largest word. -/
namespace ArtOS

open CString Stores

/-- The loop of `strnlen`, with the number of characters that are left and `i`. -/
def strnlenLoop (mem : Nat → BitVec 8) (s : Nat) : Nat → Nat → Nat
  | 0, i => i
  | left + 1, i => if mem (s + i) ≠ 0 then strnlenLoop mem s left (i + 1) else i

def strnlen (mem : Nat → BitVec 8) (s len : Nat) : Nat := strnlenLoop mem s len 0

/-- The loop of `strlcpy` and the store behind it. -/
def strlcpyLoop (mem : Nat → BitVec 8) (dest src : Nat) : Nat → Nat → List (Nat × BitVec 8)
  | 0, i => [(dest + i, 0)]
  | left + 1, i =>
      if mem (src + i) ≠ 0 then (dest + i, mem (src + i)) :: strlcpyLoop mem dest src left (i + 1)
      else [(dest + i, 0)]

/-- The stores and the result. -/
def strlcpy (mem : Nat → BitVec 8) (fuel dest src len : Nat) : Option (List (Nat × BitVec 8) × Nat) :=
  if len = 0 then (strlen mem fuel src).map fun n => ([], n)
  else (strlen mem fuel src).map fun n => (strlcpyLoop mem dest src (Word.sub len 1) 0, n)

def strlcat (mem : Nat → BitVec 8) (fuel : Nat) (object : Nat → BitVec 8) (dest src len : Nat) :
    Option (List (Nat × BitVec 8) × Nat) :=
  let destlen := strnlen object dest len
  if destlen > Word.sub len 1 then (strlen mem fuel src).map fun n => ([], Word.add destlen n)
  else
    (strlcpy mem fuel (dest + destlen) src (Word.sub len destlen)).map fun x =>
      (x.1, Word.add destlen x.2)

variable {mem object : Nat → BitVec 8} {dest src fuel len left i : Nat} {s t : List (BitVec 8)}

theorem strnlenLoop_le (mem : Nat → BitVec 8) (src left i : Nat) : strnlenLoop mem src left i ≤ i + left := by
  induction left generalizing i with
  | zero => exact le_rfl
  | succ left ih =>
      rw [strnlenLoop]
      split
      · have hRest := ih (i + 1)
        omega
      · omega

/-- The characters before the place where `strnlen` stops. -/
theorem strnlenLoop_chars {k : Nat} (hi : i ≤ k) (hk : k < strnlenLoop mem src left i) : mem (src + k) ≠ 0 := by
  induction left generalizing i with
  | zero =>
      rw [strnlenLoop] at hk
      omega
  | succ left ih =>
      rw [strnlenLoop] at hk
      split at hk
      next hChar =>
        rcases Nat.eq_or_lt_of_le hi with rfl | hi
        · exact hChar
        · exact ih hi hk
      next => omega

/-- It stops at a zero or at the end. -/
theorem strnlenLoop_end (mem : Nat → BitVec 8) (src left i : Nat) : strnlenLoop mem src left i = i + left ∨
    mem (src + strnlenLoop mem src left i) = 0 := by
  induction left generalizing i with
  | zero => exact Or.inl rfl
  | succ left ih =>
      rw [strnlenLoop]
      split
      next =>
        refine (ih (i := i + 1)).imp_left fun hEnd => hEnd.trans ?_
        omega
      next hZero => exact Or.inr (not_not.mp hZero)

theorem strnlen_le : strnlen mem src len ≤ len := by
  have h := strnlenLoop_le mem src len 0
  rwa [Nat.zero_add] at h

theorem strnlen_eq (h : Holds mem src s) : strnlen mem src len = min len s.length := by
  have hLe : strnlen mem src len ≤ len := strnlen_le
  have hHolds := holds_iff.mp h
  have hShort : strnlen mem src len ≤ s.length := by
    by_contra hLong
    exact strnlenLoop_chars (Nat.zero_le _) (Nat.lt_of_not_le hLong) hHolds.2
  rcases strnlenLoop_end mem src len 0 with hEnd | hZero
  · have hAll : strnlen mem src len = len := hEnd.trans (Nat.zero_add len)
    omega
  · have hStop : s.length ≤ strnlen mem src len := by
      by_contra hEarly
      have hi := Nat.lt_of_not_le hEarly
      obtain ⟨hChar, hNonzero⟩ := hHolds.1 _ _ (List.getElem?_eq_getElem hi)
      exact hNonzero (hChar.symm.trans hZero)
    omega

/-- The loop of `strlcpy` stores as many characters as fit, and a zero. -/
theorem strlcpyLoop_eq (h : Holds mem (src + i) s) :
    strlcpyLoop mem dest src left i =
      charStores (dest + i) (s.take left) ++ [(dest + i + (s.take left).length, 0)] := by
  induction left generalizing i s with
  | zero => rfl
  | succ left ih =>
      rw [strlcpyLoop]
      cases s with
      | nil =>
          have hEnd : mem (src + i) = 0 := h
          exact if_neg (not_not_intro hEnd)
      | cons c s =>
          have hNonzero : mem (src + i) ≠ 0 := h.1 ▸ h.2.1
          have hEnd : dest + (i + 1) + (s.take left).length = dest + i + ((s.take left).length + 1) := by omega
          rw [if_pos hNonzero, ih (i := i + 1) h.2.2, h.1, List.take_succ_cons, charStores, List.length_cons,
            List.cons_append, hEnd]
          rfl

theorem overwrite_update {a : Nat} {c : BitVec 8} (h : a < dest ∨ dest + s.length ≤ a) :
    overwrite (Function.update object a c) dest s = Function.update (overwrite object dest s) a c := by
  funext x
  rw [overwrite, Function.update_apply, Function.update_apply]
  by_cases hx : x = a
  · rw [if_pos hx, if_pos hx, if_neg (by omega)]
  · rw [if_neg hx, if_neg hx, overwrite]

/-- The stores of `strlcpy` behind a string. -/
theorem holds_appended (hs : ∀ i c, s[i]? = some c → object (dest + i) = c ∧ c ≠ 0)
    (ht : ∀ c ∈ t, c ≠ 0) :
    Holds (written (charStores (dest + s.length) t ++ [(dest + s.length + t.length, 0)]) object) dest
      (s ++ t) := by
  have hEnd : dest + s.length + t.length = dest + (s ++ t).length := by
    rw [List.length_append]
    omega
  rw [written, List.foldl_append]
  show Holds (Function.update (written (charStores (dest + s.length) t) object) _ 0) _ _
  rw [written_charStores, ← overwrite_update (Or.inr le_rfl), holds_overwrite_iff _ ht, hEnd,
    Function.update_self]
  intro i c hc
  have hi := (List.getElem?_eq_some_iff.mp hc).1
  rw [Function.update_of_ne (by omega)]
  exact hs i c hc

theorem targets_appended {a : Nat} (h : a ∈ targets (charStores dest t ++ [(dest + t.length, 0)])) :
    dest ≤ a ∧ a ≤ dest + t.length := by
  rw [targets, List.map_append] at h
  rcases List.mem_append.mp h with h | h
  · have hIn := mem_targets_charStores h
    omega
  · obtain rfl := List.mem_singleton.mp h
    exact ⟨Nat.le_add_right _ _, le_rfl⟩

/-- A destination without a zero. -/
theorem strlcat_full (hs : Holds mem src s) (h : strnlen object dest len = len) (hLen : len + s.length < 2 ^ 32) :
    strlcat mem (s.length + 1) object dest src len = some ([], len + s.length) := by
  have hSum : Word.add len s.length = len + s.length := Word.add_eq hLen
  have hStrlen : strlen mem (s.length + 1) src = some s.length := strlen_eq hs (Nat.lt_succ_self _)
  rw [strlcat, h]
  split
  next => rw [hStrlen, Option.map_some, hSum]
  next hFits =>
    have hZero : len = 0 := by
      by_contra hPos
      rw [Word.sub_eq (Nat.one_le_iff_ne_zero.mpr hPos) (by omega)] at hFits
      omega
    have hNone : Word.sub 0 0 = 0 := by decide
    rw [strlcpy, hZero, if_pos hNone, hStrlen, Option.map_some, Option.map_some]
    rw [hZero] at hSum
    rw [hSum]

/-- A destination with a zero. -/
theorem strlcat_terminated {old : List (BitVec 8)} (hs : Holds mem src s) (hOld : Holds object dest old)
    (hShort : old.length < len) (hLen : len + s.length < 2 ^ 32) :
    strlcat mem (s.length + 1) object dest src len =
      some (charStores (dest + old.length) (s.take (len - 1 - old.length)) ++
        [(dest + old.length + (s.take (len - 1 - old.length)).length, 0)], old.length + s.length) := by
  have hDest : strnlen object dest len = old.length := by
    rw [strnlen_eq hOld]
    exact Nat.min_eq_right hShort.le
  have hStrlen : strlen mem (s.length + 1) src = some s.length := strlen_eq hs (Nat.lt_succ_self _)
  have hRest : Word.sub len old.length = len - old.length := Word.sub_eq hShort.le (by omega)
  have hLeft : Word.sub (len - old.length) 1 = len - 1 - old.length := by
    rw [Word.sub_eq (by omega) (by omega)]
    omega
  rw [strlcat, hDest, Word.sub_eq (by omega) (by omega), if_neg (by omega), strlcpy, hRest, if_neg (by omega), hStrlen,
    hLeft, strlcpyLoop_eq (i := 0) hs, Option.map_some, Option.map_some, Word.add_eq (by omega), Nat.add_zero]

/-- `strlcat` keeps to the destination, counts what it would take, and leaves as much of it as fits. The
destination and the source are in one address space. -/
theorem strlcat_spec (mem object : Nat → BitVec 8) (dest src len : Nat) (s : List (BitVec 8))
    (hs : Holds mem src s) (hLen : len + s.length < 2 ^ 32) :
    ∃ stores ret, (∃ fuel, strlcat mem fuel object dest src len = some (stores, ret)) ∧
      (∀ a ∈ targets stores, dest ≤ a ∧ a < dest + len) ∧
      (∀ a, dest ≤ a → (∀ b, dest ≤ b → b ≤ a → object b ≠ 0) → written stores object a = object a) ∧
      (∀ old, Holds object dest old → ret = min len old.length + s.length) ∧
      ((∀ i < len, object (dest + i) ≠ 0) → ret = len + s.length) ∧
      ∀ old, Holds object dest old → old.length < len →
        Holds (written stores object) dest ((old ++ s).take (len - 1)) ∧
          ((old ++ s).take (len - 1) ≠ old ++ s ↔ len ≤ ret) := by
  have hNonzero : ∀ c ∈ s, c ≠ 0 := by
    intro c hc
    obtain ⟨i, hi⟩ := List.getElem?_of_mem hc
    exact ((holds_iff.mp hs).1 i c hi).2
  rcases Nat.lt_or_ge (strnlen object dest len) len with hShort | hFull
  · -- there is a zero within the destination
    obtain ⟨old, hOld, hSize⟩ : ∃ old, Holds object dest old ∧ old.length < len := by
      refine ⟨(List.range (strnlen object dest len)).map fun i => object (dest + i), holds_iff.mpr ⟨?_, ?_⟩, ?_⟩
      · intro i c hc
        obtain ⟨hi, hGet⟩ := List.getElem?_eq_some_iff.mp hc
        rw [List.length_map, List.length_range] at hi
        rw [List.getElem_map, List.getElem_range] at hGet
        exact ⟨hGet, hGet ▸ strnlenLoop_chars (Nat.zero_le i) hi⟩
      · rw [List.length_map, List.length_range]
        rcases strnlenLoop_end object dest len 0 with hEnd | hZero
        · rw [Nat.zero_add] at hEnd
          exact absurd hEnd (Nat.ne_of_lt hShort)
        · exact hZero
      · rw [List.length_map, List.length_range]
        exact hShort
    have hSame : ∀ t, Holds object dest t → t = old := fun t ht => ht.unique hOld
    have hTake : (old ++ s).take (len - 1) = old ++ s.take (len - 1 - old.length) := by
      rw [List.take_append, List.take_of_length_le (by omega)]
    have hChars := List.length_take_le (len - 1 - old.length) s
    refine ⟨_, _, ⟨_, strlcat_terminated hs hOld hSize hLen⟩, ?_, ?_, ?_, ?_, ?_⟩
    · intro a ha
      have hIn := targets_appended ha
      rw [List.length_take] at hIn
      omega
    · intro a ha hBefore
      apply written_of_not_mem
      intro hTarget
      have hIn := targets_appended hTarget
      exact hBefore (dest + old.length) (Nat.le_add_right _ _) hIn.1 (holds_iff.mp hOld).2
    · intro t ht
      rw [hSame t ht, Nat.min_eq_right hSize.le]
    · intro hAll
      exact absurd (holds_iff.mp hOld).2 (hAll old.length hSize)
    · intro t ht _
      rw [hSame t ht, hTake]
      refine ⟨holds_appended (holds_iff.mp hOld).1 fun c hc => hNonzero c (List.mem_of_mem_take hc), ?_⟩
      rw [Ne, List.append_cancel_left_eq, List.take_eq_self_iff]
      omega
  · have hAll : strnlen object dest len = len := le_antisymm strnlen_le hFull
    refine ⟨_, _, ⟨_, strlcat_full hs hAll hLen⟩, fun a ha => absurd ha List.not_mem_nil, fun a _ _ => rfl, ?_,
      fun _ => rfl, ?_⟩
    · intro t ht
      rw [← strnlen_eq ht, hAll]
    · intro t ht hShort
      rw [strnlen_eq ht, Nat.min_eq_right hShort.le] at hAll
      exact absurd hAll (Nat.ne_of_lt hShort)

/-- "b" behind "a", where there is room for one character only. -/
theorem strlcat_spec_full : ∃ stores ret,
    (∃ fuel, strlcat (unzeroed [0x62]) fuel (unzeroed [0x61]) 0 0 2 = some (stores, ret)) ∧
      (∀ a ∈ targets stores, 0 ≤ a ∧ a < 0 + 2) ∧
      (∀ a, 0 ≤ a → (∀ b, 0 ≤ b → b ≤ a → unzeroed [0x61] b ≠ 0) →
        written stores (unzeroed [0x61]) a = unzeroed [0x61] a) ∧
      (∀ old, Holds (unzeroed [0x61]) 0 old → ret = min 2 old.length + 1) ∧
      ((∀ i < 2, unzeroed [0x61] (0 + i) ≠ 0) → ret = 2 + 1) ∧
      ∀ old, Holds (unzeroed [0x61]) 0 old → old.length < 2 →
        Holds (written stores (unzeroed [0x61])) 0 ((old ++ [0x62]).take (2 - 1)) ∧
          ((old ++ [0x62]).take (2 - 1) ≠ old ++ [0x62] ↔ 2 ≤ ret) :=
  strlcat_spec (unzeroed [0x62]) (unzeroed [0x61]) 0 0 2 [0x62] (holds_unzeroed (by simp)) (by decide)

end ArtOS

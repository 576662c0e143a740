import ArtOS.Libc.Kprintf
import ArtOS.Libc.Strtol

/-! Numbers that `print_dec` and `print_hex` put down as text, read again by `strtoul`, and strings that
`atoi` and `strtol` read. -/
namespace ArtOS

open ByteMemory Kprintf Stores Strtol

namespace Strtol

variable {b d n k value acc : Nat} {text rest str : List (BitVec 8)} {ds : List Nat} {c : BitVec 8}

/-- These characters are these digits. -/
abbrev Spells (b : Nat) : List (BitVec 8) → List Nat → Prop :=
  List.Forall₂ fun c d => digit c = some d ∧ d < b

theorem digitsOf_spells (h : Spells b text ds) (rest : List (BitVec 8)) : digitsOf b (text ++ rest) = ds ++ digitsOf b rest := by
  induction h with
  | nil => rfl
  | cons hFirst _ ih =>
      rw [List.cons_append, digitsOf_more hFirst.1 (Nat.not_le_of_lt hFirst.2), ih, List.cons_append]

/-- A digit is no white space and no sign. -/
theorem digit_plain (h : digit c = some d) : ¬ Ctype.iswhitespace c ∧ c ≠ charMinus ∧ c ≠ charPlus := by
  have hAll : ∀ c : BitVec 8, (digit c).isSome → ¬ Ctype.iswhitespace c ∧ c ≠ charMinus ∧ c ≠ charPlus := by
    decide
  exact hAll c (h ▸ rfl)

/-- A text of digits is a number as a whole. -/
theorem numeral_spells (h : Spells b text ds) (hText : text ≠ []) (hb : b = 10 ∨ b = 16) :
    numeral b text = ⟨false, b, 0, ds⟩ := by
  cases h with
  | nil => exact absurd rfl hText
  | @cons c d text ds hFirst hRest =>
      obtain ⟨hSpace, hMinus, hPlus⟩ := digit_plain hFirst.1
      have hBody : (c :: text).dropWhile (fun c => decide (Ctype.iswhitespace c)) = c :: text :=
        List.dropWhile_cons_of_neg (by simpa using hSpace)
      have hBare : unsigned (c :: text) = c :: text := if_neg (by simp [hMinus, hPlus])
      have hPrefix : ¬ Prefixed b (c :: text) := by
        rintro ⟨hBase, -, hx⟩
        obtain rfl : b = 16 := by omega
        cases hRest with
        | nil => rcases hx with hx | hx <;> cases hx
        | cons hSecond =>
            obtain ⟨hDigit, hLess⟩ := hSecond
            rcases hx with hx | hx <;>
            · obtain rfl := Option.some.inj hx
              obtain rfl := Option.some.inj hDigit
              exact absurd hLess (by decide)
      have hDigits := digitsOf_spells (List.Forall₂.cons hFirst hRest) []
      rw [List.append_nil] at hDigits
      have hNonzero : b ≠ 0 := by omega
      simp [numeral, hBody, hBare, hPrefix, hNonzero, hDigits, digitsOf, hMinus]

theorem spells_replicate (hb : 0 < b) : Spells b (List.replicate k charZero) (List.replicate k 0) := by
  induction k with
  | zero => exact List.Forall₂.nil
  | succ k ih => exact List.Forall₂.cons ⟨rfl, hb⟩ ih

theorem value_replicate : Positional.value b (List.replicate k 0) 0 = 0 := by
  induction k with
  | zero => rfl
  | succ k ih => rw [List.replicate_succ, Positional.value_cons, Nat.zero_mul, ih]

theorem digit_digitChar (hd : d < 10) : digit (digitChar d) = some d := by
  have hAll : ∀ d < 10, digit (digitChar d) = some d := by decide
  exact hAll d hd

theorem digit_hexChar (hd : d < 16) : digit (hexChar d) = some d := by
  have hAll : ∀ d < 16, digit (hexChar d) = some d := by decide
  exact hAll d hd

theorem spells_fixed : ∃ ds, Spells 10 (fixed n value) ds ∧ Positional.value 10 ds 0 = value % 10 ^ n := by
  induction n generalizing value with
  | zero => exact ⟨[], List.Forall₂.nil, by simp [Nat.mod_one]⟩
  | succ n ih =>
      obtain ⟨ds, hSpells, hValue⟩ := @ih (value / 10)
      have hLast : value % 10 < 10 := Nat.mod_lt _ (by decide)
      refine ⟨ds ++ [value % 10], ?_, ?_⟩
      · exact List.rel_append hSpells (List.Forall₂.cons ⟨digit_digitChar hLast, hLast⟩ List.Forall₂.nil)
      · rw [Positional.value_append, hValue, Positional.value_cons, Positional.value_nil, Nat.pow_succ',
          Nat.mod_mul, Nat.mul_comm, Nat.add_comm]

/-- The characters that the last loop of `print_hex` stores. -/
def hexText (value : Nat) : Nat → List (BitVec 8)
  | 0 => []
  | i + 1 => hexChar (value >>> (i * 4) &&& 0xF) :: hexText value i

theorem hexLoop_eq {ptr : Nat} : hexLoop value n ptr = charStores ptr (hexText value n) := by
  induction n generalizing ptr with
  | zero => rfl
  | succ n ih => rw [hexLoop, hexText, charStores, ih]

@[simp] theorem length_hexText : (hexText value n).length = n := by
  induction n with
  | zero => rfl
  | succ n ih => rw [hexText, List.length_cons, ih]

theorem spells_hexText : ∃ ds, Spells 16 (hexText value n) ds ∧ ds.length = n ∧
    Positional.value 16 ds 0 = value % 16 ^ n := by
  induction n with
  | zero => exact ⟨[], List.Forall₂.nil, rfl, by simp [Nat.mod_one]⟩
  | succ n ih =>
      obtain ⟨ds, hSpells, hLength, hValue⟩ := ih
      have hFirst : value >>> (n * 4) &&& 0xF = value / 16 ^ n % 16 := by
        rw [Nat.shiftRight_eq_div_pow, Nat.mul_comm, Nat.pow_mul]
        exact Nat.and_two_pow_sub_one_eq_mod _ 4
      have hLess : value / 16 ^ n % 16 < 16 := Nat.mod_lt _ (by decide)
      refine ⟨value / 16 ^ n % 16 :: ds, ?_, by rw [List.length_cons, hLength], ?_⟩
      · rw [hexText, hFirst]
        exact List.Forall₂.cons ⟨digit_hexChar hLess, hLess⟩ hSpells
      · rw [Positional.value_cons, Nat.zero_mul, Nat.zero_add, Positional.value_eq_add, hLength, hValue,
          Nat.mod_pow_succ, Nat.mul_comm, Nat.add_comm]

/-- Bytes in the order of their addresses. -/
theorem liesAt_of_lies {mem : Nat → BitVec 8} {ptr : Nat} (h : Lies mem ptr text) :
    LiesAt (fun a => mem a.toNat) ptr text := by
  induction text generalizing ptr with
  | nil => exact fun _ _ hc => absurd hc (Option.some_ne_none _).symm
  | cons c text ih =>
      intro i c hc
      cases i with
      | zero =>
          rw [Int.natCast_zero, Int.add_zero]
          exact h.1.trans (Option.some.inj hc)
      | succ i =>
          have hNext := ih h.2 i c hc
          rwa [Int.natCast_add, Int.natCast_one, Int.add_assoc, Int.add_comm 1] at hNext

theorem charStores_append {ptr : Nat} :
    charStores ptr (text ++ rest) = charStores ptr text ++ charStores (ptr + text.length) rest := by
  induction text generalizing ptr with
  | nil => rfl
  | cons c text ih =>
      rw [List.cons_append, charStores, charStores, ih, List.length_cons, List.cons_append,
        Nat.add_assoc, Nat.add_comm 1]

theorem lies_charStores {buf : Nat → BitVec 8} {ptr : Nat} :
    Lies (written (charStores ptr text) buf) ptr text := by
  rw [written_charStores]
  apply lies_getD
  intro i hi
  rw [overwrite, if_pos (by omega), Nat.add_sub_cancel_left]

/-- A text of digits with a zero behind it. -/
theorem strtoul_spells {mem : Nat → BitVec 8} {ptr : Nat} {v : BitVec 32} (h : Spells b text ds)
    (hText : text ≠ []) (hb : b = 10 ∨ b = 16) (hLies : Lies mem ptr text)
    (hEnd : mem (ptr + text.length) = 0) (hValue : Positional.value b ds 0 = v.toNat) :
    ∃ fuel, strtoul (fun a => mem a.toNat) fuel ptr b = some (v, ((ptr + text.length : Nat) : Int)) := by
  have hWhole : Lies mem ptr (text ++ [0]) := lies_append.mpr ⟨hLies, hEnd, trivial⟩
  have hFits : (numeral b text).magnitude ≤ ulongMax := by
    rw [numeral_spells h hText hb]
    exact hValue.trans_le (Nat.le_sub_one_of_lt v.isLt)
  have hDigits : ds ≠ [] := by
    rintro rfl
    exact hText (List.forall₂_nil_right_iff.mp h)
  refine ⟨text.length + 1, ?_⟩
  rw [strtoul_eq (liesAt_of_lies hWhole) (Nat.lt_succ_self _), if_pos hFits, numeral_spells h hText hb]
  refine congrArg some (Prod.ext ?_ ?_)
  · show BitVec.ofInt 32 (Positional.value b ds 0) = v
    rw [hValue, BitVec.ofInt_natCast, BitVec.ofNat_toNat, BitVec.setWidth_eq]
  · show (ptr : Int) + (if ds = [] then 0 else 0 + ds.length : Nat) = (ptr + text.length : Nat)
    rw [if_neg hDigits, Nat.zero_add, ← h.length_eq, Int.natCast_add]

end Strtol

/-- What is printed is read back, with `endptr` behind its last digit, for every word and every width. -/
theorem printed_read (v : BitVec 32) (width ptr : Nat) :
    (∃ fuel stores ptr', Kprintf.printDec fuel v.toNat width ptr = some (stores, ptr') ∧
      ∀ buf : Nat → BitVec 8, written stores buf ptr' = 0 → ∃ fuel,
        strtoul (fun a => written stores buf a.toNat) fuel ptr 10 = some (v, (ptr' : Int))) ∧
    ∃ fuel stores ptr', printHex fuel v.toNat width ptr = some (stores, ptr') ∧
      ∀ buf : Nat → BitVec 8, written stores buf ptr' = 0 → ∃ fuel,
        strtoul (fun a => written stores buf a.toNat) fuel ptr 16 = some (v, (ptr' : Int)) := by
  constructor
  · obtain ⟨n, hn⟩ := isWidth_exists (exists_width v.isLt)
    have hLess : v.toNat < 10 ^ (width - n + n) :=
      Nat.lt_of_lt_of_le (lt_pow hn.fits) (Nat.pow_le_pow_right (by decide) (Nat.le_add_left _ _))
    obtain ⟨ds, hSpells, hValue⟩ := @spells_fixed (width - n + n) v.toNat
    rw [Nat.mod_eq_of_lt hLess] at hValue
    refine ⟨n, _, _, printDec_eq hn v.isLt le_rfl, fun buf hEnd => ?_⟩
    have hLies := @lies_printDec v.toNat n (width - n) ptr buf hn
    have hPos : 1 ≤ width - n + n := by have hOne := hn.pos; omega
    rw [← fixed_eq hPos hLess] at hLies
    have hText : fixed (width - n + n) v.toNat ≠ [] := by
      rw [← List.length_pos_iff, length_fixed]
      exact hPos
    obtain ⟨fuel, hRead⟩ := strtoul_spells hSpells hText (Or.inl rfl) hLies
      (by rwa [length_fixed, ← Nat.add_assoc]) hValue
    exact ⟨fuel, by rwa [length_fixed, ← Nat.add_assoc] at hRead⟩
  · have hWidth := isWidth_sixteen v
    have hLess : v.toNat < 16 ^ digitCount 16 v.toNat := by
      have hPow : 0 < 16 ^ digitCount 16 v.toNat := Nat.pow_pos (by decide)
      have hBound : bound 16 (digitCount 16 v.toNat) ≤ 16 ^ digitCount 16 v.toNat - 1 := Nat.mod_le _ _
      have hFits := hWidth.fits
      omega
    obtain ⟨i, hi⟩ : ∃ i, i = if (BitVec.ofNat 32 width).toInt = 0 then 8 else (BitVec.ofNat 32 width).toInt :=
      ⟨_, rfl⟩
    obtain ⟨k, hk⟩ : ∃ k, k = (i - digitCount 16 v.toNat).toNat := ⟨_, rfl⟩
    have hLoop : widthLoop 16 v.toNat widthRounds 1 0x0F = some (digitCount 16 v.toNat) :=
      widthLoop_first (by omega) (by omega) v.isLt hWidth (digitCount_le 16 v.toNat)
    have hCall : printHex widthRounds v.toNat width ptr = some
        (charStores ptr (List.replicate k charZero ++ hexText v.toNat (digitCount 16 v.toNat)),
          ptr + (List.replicate k charZero ++ hexText v.toNat (digitCount 16 v.toNat)).length) := by
      rw [printHex, hLoop, charStores_append, ← hexLoop_eq, List.length_append, List.length_replicate,
        length_hexText, ← Nat.add_assoc, hk, hi]
      rfl
    obtain ⟨ds, hSpells, -, hValue⟩ := @spells_hexText (digitCount 16 v.toNat) v.toNat
    have hAll := List.rel_append (spells_replicate (k := k) (by decide)) hSpells
    have hText : List.replicate k charZero ++ hexText v.toNat (digitCount 16 v.toNat) ≠ [] := by
      rw [← List.length_pos_iff, List.length_append, length_hexText]
      have hOne := hWidth.pos
      omega
    refine ⟨widthRounds, _, _, hCall, fun buf hEnd => ?_⟩
    refine strtoul_spells hAll hText (Or.inr rfl) lies_charStores hEnd ?_
    rw [Positional.value_append, value_replicate, hValue, Nat.mod_eq_of_lt hLess]

namespace Strtol

variable {mem : Int → BitVec 8} {s : Int} {fuel acc : Nat} {str : List (BitVec 8)}

/-- `atoi` has white space of its own, which is the same. -/
theorem iswhitespace_iff (c : BitVec 8) : ArtOS.iswhitespace c ↔ Ctype.iswhitespace c := by
  have hAll : ∀ c : BitVec 8, ArtOS.iswhitespace c ↔ Ctype.iswhitespace c := by decide
  exact hAll c

theorem skipSpace_eq_map : skipSpace mem fuel s = (skipWhitespace mem fuel s).map fun q => (mem q, q + 1) := by
  induction fuel generalizing s with
  | zero => rfl
  | succ fuel ih =>
      rw [skipSpace, skipWhitespace]
      by_cases hSpace : Ctype.iswhitespace (mem s)
      · rw [if_pos hSpace, if_pos ((iswhitespace_iff _).mpr hSpace), ih]
      · rw [if_neg hSpace, if_neg (mt (iswhitespace_iff _).mp hSpace), Option.map_some]

theorem isdigit_iff (c : BitVec 8) : ArtOS.isdigit c ↔ ∃ d, digit c = some d ∧ d < 10 := by
  have hAll : ∀ c : BitVec 8, ArtOS.isdigit c ↔ (digit c).any (fun d => decide (d < 10)) = true := by decide
  rw [hAll c, Option.any_eq_true]
  simp

theorem digit_word (hDigit : digit c = some d) (hd : d < 10) :
    c.signExtend 32 - 0x30 = BitVec.ofNat 32 d := by
  have hAll : ∀ c : BitVec 8, ArtOS.isdigit c → digit c = some (c.signExtend 32 - 0x30).toNat := by decide
  have hSame := hDigit.symm.trans (hAll c ((isdigit_iff c).mpr ⟨d, hDigit, hd⟩))
  rw [Option.some.inj hSame, BitVec.ofNat_toNat, BitVec.setWidth_eq]

/-- The loop of `atoi`, which counts below zero. -/
theorem readDigits_eq (acc : Nat) (h : LiesAt mem s (str ++ [0])) (hFuel : str.length < fuel) :
    readDigits mem fuel s (-BitVec.ofNat 32 acc) =
      some (-BitVec.ofNat 32 (Positional.value 10 (digitsOf 10 str) acc)) := by
  induction str generalizing s fuel acc with
  | nil =>
      obtain ⟨fuel, rfl⟩ := Nat.exists_eq_add_of_lt hFuel
      rw [readDigits, liesAt_first h]
      exact if_neg (by decide)
  | cons c str ih =>
      obtain ⟨fuel, rfl⟩ := Nat.exists_eq_succ_of_ne_zero (Nat.ne_zero_of_lt hFuel)
      rw [readDigits, liesAt_first h]
      by_cases hDigit : ArtOS.isdigit c
      · obtain ⟨d, hSome, hd⟩ := (isdigit_iff c).mp hDigit
        have hNext : 10 * -BitVec.ofNat 32 acc - BitVec.ofNat 32 d = -BitVec.ofNat 32 (acc * 10 + d) := by
          have hTen : (10 : BitVec 32) = BitVec.ofNat 32 10 := rfl
          rw [BitVec.ofNat_add, BitVec.ofNat_mul, hTen]
          ring
        rw [if_pos hDigit, digit_word hSome hd, hNext, ih _ (liesAt_tail h) (Nat.lt_of_succ_lt_succ hFuel),
          digitsOf_more hSome (Nat.not_le_of_lt hd), Positional.value_cons]
      · rw [if_neg hDigit]
        have hNone : digitsOf 10 (c :: str) = [] := by
          cases hSome : digit c with
          | none => exact digitsOf_none hSome
          | some d =>
              refine digitsOf_stop hSome (Nat.le_of_not_lt fun hd => hDigit ?_)
              exact (isdigit_iff c).mpr ⟨d, hSome, hd⟩
        rw [hNone, Positional.value_nil]

/-- `atoi` loses what does not fit into a word. -/
theorem atoi_eq (h : LiesAt mem s (str ++ [0])) (hFuel : str.length < fuel) :
    atoi mem fuel s = some (BitVec.ofInt 32 (numeral 10 str).toInt) := by
  have hWhole : Left mem s str s str := ⟨h, le_rfl, by simp⟩
  obtain ⟨q, hSkip, hBody⟩ := skipSpace_eq hWhole hFuel
  obtain ⟨q', hSign, hRest⟩ := hBody.unsigned
  have hSpace : skipWhitespace mem fuel s = some q := by
    rw [skipSpace_eq_map] at hSkip
    obtain ⟨r, hr, hPair⟩ := Option.map_eq_some_iff.mp hSkip
    rw [hr, show r = q by have hNext := congrArg Prod.snd hPair; dsimp only at hNext; omega]
  have hPlace : (if mem q = 0x2D ∨ mem q = 0x2B then q + 1 else q) = q' := by
    by_cases hc : mem q = charMinus ∨ mem q = charPlus
    · have hNext := congrArg Prod.snd ((if_pos hc).symm.trans hSign)
      exact (if_pos hc).trans (add_right_cancel hNext)
    · have hNext := congrArg Prod.snd ((if_neg hc).symm.trans hSign)
      exact (if_neg hc).trans (add_right_cancel hNext)
  have hDigits := readDigits_eq 0 hRest.lies (Nat.lt_of_le_of_lt hRest.le hFuel)
  have hBare : ¬ Prefixed 10 (unsigned (str.dropWhile fun c => decide (Ctype.iswhitespace c))) :=
    fun h => absurd h.1 (by decide)
  have hNeg : (numeral 10 str).neg = decide (mem q = 0x2D) :=
    decide_eq_decide.mpr (hBody.head (by decide))
  have hMagnitude : (numeral 10 str).magnitude =
      Positional.value 10 (digitsOf 10 (unsigned (str.dropWhile fun c => decide (Ctype.iswhitespace c)))) 0 := by
    simp [Numeral.magnitude, numeral, hBare]
  rw [atoi, hSpace, Option.bind_some]
  dsimp only
  rw [hPlace, show (0 : BitVec 32) = -BitVec.ofNat 32 0 from rfl, hDigits, Option.map_some, Numeral.toInt, hNeg,
    hMagnitude]
  by_cases hMinus : mem q = 0x2D
  · rw [if_pos hMinus, if_pos (decide_eq_true hMinus), BitVec.ofInt_neg, BitVec.ofInt_natCast]
  · rw [if_neg hMinus, if_neg (by simpa using hMinus), BitVec.neg_neg, BitVec.ofInt_natCast]

theorem ofInt_eq_iff {a b : Int} : BitVec.ofInt 32 a = BitVec.ofInt 32 b ↔ (2 ^ 32 : Int) ∣ a - b := by
  rw [← BitVec.toNat_inj, BitVec.toNat_ofInt, BitVec.toNat_ofInt]
  norm_num
  omega

/-- Both take the same number from the string, but `strtol` stops at the limits of a `long` where `atoi`
wraps round. -/
theorem atoi_strtol (h : LiesAt mem s (str ++ [0])) (hFuel : str.length < fuel) :
    ∃ v w, atoi mem fuel s = some v ∧ strtol mem fuel s 10 = some (w, s + (numeral 10 str).length) ∧
      v = BitVec.ofInt 32 (numeral 10 str).toInt ∧ w = BitVec.ofInt 32 (clamp (numeral 10 str).toInt) ∧
      (v = w ↔ (2 ^ 32 : Int) ∣ (numeral 10 str).toInt - clamp (numeral 10 str).toInt) :=
  ⟨_, _, atoi_eq h hFuel, strtol_eq h hFuel, rfl, rfl, ofInt_eq_iff⟩

theorem atoi_strtol_example :
    atoi (fun a => (ascii "4294967297" ++ [0]).getD a.toNat 0) 11 0 = some 1 ∧
      strtol (fun a => (ascii "4294967297" ++ [0]).getD a.toNat 0) 11 0 10 =
        some (BitVec.ofInt 32 longMax, 10) := by
  obtain ⟨v, w, hAtoi, hStrtol, hValue, hClamped, -⟩ :=
    atoi_strtol (liesAt_getD (ascii "4294967297")) (show (ascii "4294967297").length < 11 by decide)
  have hOne : v = 1 := hValue
  have hMax : w = BitVec.ofInt 32 longMax := hClamped
  rw [hOne] at hAtoi
  rw [hMax] at hStrtol
  exact ⟨hAtoi, hStrtol⟩

end Strtol

end ArtOS

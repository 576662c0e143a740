import ArtOS.Libc.Print
import ArtOS.Libc.Scanf
import ArtOS.Library.Positional

/-! `strtol` and `strtoul`, with the classes of characters of `ctype.h`. The base is not negative.
`endptr` is not null; where it is, it is not stored. -/
namespace ArtOS

namespace Ctype

def isascii (c : BitVec 8) : Prop := c ≤ 0x7F

def iswhitespace (c : BitVec 8) : Prop :=
  isascii c ∧ (c = 0x20 ∨ c = 0x0A ∨ c = 0x0D ∨ c = 0x09 ∨ c = 0x0B ∨ c = 0x0C)

def isdigit (c : BitVec 8) : Prop := isascii c ∧ 0x30 ≤ c ∧ c ≤ 0x39

def islower (c : BitVec 8) : Prop := isascii c ∧ 0x61 ≤ c ∧ c ≤ 0x7A

def isupper (c : BitVec 8) : Prop := isascii c ∧ 0x41 ≤ c ∧ c ≤ 0x5A

def isalpha (c : BitVec 8) : Prop := isupper c ∨ islower c

instance (c : BitVec 8) : Decidable (isascii c) := inferInstanceAs (Decidable (_ ≤ _))

instance (c : BitVec 8) : Decidable (iswhitespace c) := inferInstanceAs (Decidable (_ ∧ _))

instance (c : BitVec 8) : Decidable (isdigit c) := inferInstanceAs (Decidable (_ ∧ _))

instance (c : BitVec 8) : Decidable (islower c) := inferInstanceAs (Decidable (_ ∧ _))

instance (c : BitVec 8) : Decidable (isupper c) := inferInstanceAs (Decidable (_ ∧ _))

instance (c : BitVec 8) : Decidable (isalpha c) := inferInstanceAs (Decidable (_ ∨ _))

end Ctype

namespace Strtol

open Kprintf (charZero)

abbrev longMin : Int := -0x7FFFFFFF - 1

abbrev longMax : Int := 0x7FFFFFFF

abbrev ulongMax : Nat := 0xFFFFFFFF

def charMinus : BitVec 8 := 0x2D

def charPlus : BitVec 8 := 0x2B

section Model

variable (mem : Int → BitVec 8)

/-- The first loop: the character that it ends with, and `s` behind this one. -/
def skipSpace : Nat → Int → Option (BitVec 8 × Int)
  | 0, _ => none
  | fuel + 1, s => if Ctype.iswhitespace (mem s) then skipSpace fuel (s + 1) else some (mem s, s + 1)

/-- The variables in front of the digits. -/
structure Start where
  neg : Bool
  c : BitVec 8
  s : Int
  base : Nat
  deriving DecidableEq, Repr

def start (fuel : Nat) (nptr : Int) (base : Nat) : Option Start :=
  (skipSpace mem fuel nptr).map fun (c, s) =>
    let neg := c = charMinus
    let (c, s) := if c = charMinus ∨ c = charPlus then (mem s, s + 1) else (c, s)
    let (c, s, base) :=
      if (base = 0 ∨ base = 16) ∧ c = charZero ∧ (mem s = 0x78 ∨ mem s = 0x58) then
        (mem (s + 1), s + 2, 16)
      else (c, s, base)
    ⟨neg, c, s, if base = 0 then if c = charZero then 8 else 10 else base⟩

/-- What a character counts, if it is a digit or a letter. -/
def digit (c : BitVec 8) : Option Nat :=
  if ¬ Ctype.isascii c then none
  else if Ctype.isdigit c then some (c - 0x30).toNat
  else if Ctype.isalpha c then some (c - if Ctype.isupper c then 0x41 - 10 else 0x61 - 10).toNat
  else none

/-- The variables of the last loop. -/
structure Digits where
  acc : Nat
  any : Int
  s : Int
  deriving DecidableEq, Repr

/-- A digit is added, unless the number would pass the limit. -/
def Digits.add (cutoff cutlim base : Nat) (x : Digits) (d : Nat) : Digits :=
  if x.any < 0 ∨ cutoff < x.acc ∨ x.acc = cutoff ∧ cutlim < d then { x with any := -1 }
  else { x with acc := (x.acc * base + d) % 2 ^ 32, any := 1 }

def digitLoop (cutoff cutlim base : Nat) : Nat → BitVec 8 → Digits → Option Digits
  | 0, _, _ => none
  | fuel + 1, c, x =>
      match digit c with
      | none => some x
      | some d =>
          if base ≤ d then some x
          else
            digitLoop cutoff cutlim base fuel (mem x.s)
              { x.add cutoff cutlim base d with s := x.s + 1 }

def digits (limit fuel : Nat) (x : Start) : Option Digits :=
  digitLoop mem (limit / x.base) (limit % x.base) x.base fuel x.c ⟨0, 0, x.s⟩

/-- The value, and what is stored to `endptr`. -/
def strtol (fuel : Nat) (nptr : Int) (base : Nat) : Option (BitVec 32 × Int) :=
  (start mem fuel nptr base).bind fun x =>
    (digits mem (if x.neg then 0x80000000 else 0x7FFFFFFF) fuel x).map fun y =>
      let acc : BitVec 32 :=
        if y.any < 0 then if x.neg then BitVec.ofInt 32 longMin else BitVec.ofInt 32 longMax
        else if x.neg then -BitVec.ofNat 32 y.acc
        else BitVec.ofNat 32 y.acc
      (acc, if y.any ≠ 0 then y.s - 1 else nptr)

def strtoul (fuel : Nat) (nptr : Int) (base : Nat) : Option (BitVec 32 × Int) :=
  (start mem fuel nptr base).bind fun x =>
    (digits mem ulongMax fuel x).map fun y =>
      let acc : BitVec 32 :=
        if y.any < 0 then BitVec.ofNat 32 ulongMax
        else if x.neg then -BitVec.ofNat 32 y.acc
        else BitVec.ofNat 32 y.acc
      (acc, if y.any ≠ 0 then y.s - 1 else nptr)

end Model

/-- The digits in front of the first character that is none in this base. -/
def digitsOf (base : Nat) : List (BitVec 8) → List Nat
  | [] => []
  | c :: str =>
      match digit c with
      | none => []
      | some d => if base ≤ d then [] else d :: digitsOf base str

/-- How a string is to be read. -/
structure Numeral where
  neg : Bool
  base : Nat
  /-- The characters in front of the digits. -/
  offset : Nat
  digits : List Nat
  deriving DecidableEq, Repr

/-- The nearest number that a `long` can hold. -/
def clamp (v : Int) : Int := max longMin (min longMax v)

namespace Numeral

def magnitude (n : Numeral) : Nat := Positional.value n.base n.digits 0

def toInt (n : Numeral) : Int := if n.neg then -n.magnitude else n.magnitude

/-- How many characters are used up: all or none. -/
def length (n : Numeral) : Nat := if n.digits = [] then 0 else n.offset + n.digits.length

end Numeral

def unsigned (str : List (BitVec 8)) : List (BitVec 8) :=
  if str.head? = some charMinus ∨ str.head? = some charPlus then str.tail else str

/-- A `0x` in front of the digits. -/
def Prefixed (base : Nat) (str : List (BitVec 8)) : Prop :=
  (base = 0 ∨ base = 16) ∧ str.head? = some charZero ∧ (str[1]? = some 0x78 ∨ str[1]? = some 0x58)

instance (base : Nat) (str : List (BitVec 8)) : Decidable (Prefixed base str) :=
  inferInstanceAs (Decidable (_ ∧ _))

/-- White space, a sign, a prefix and digits. -/
def numeral (base : Nat) (str : List (BitVec 8)) : Numeral :=
  let body := str.dropWhile fun c => decide (Ctype.iswhitespace c)
  let bare := unsigned body
  let rest := if Prefixed base bare then bare.drop 2 else bare
  let base :=
    if Prefixed base bare then 16
    else if base = 0 then if bare.head? = some charZero then 8 else 10
    else base
  ⟨body.head? = some charMinus, base, str.length - rest.length, digitsOf base rest⟩

variable {mem : Int → BitVec 8} {p nptr : Int} {str : List (BitVec 8)} {c : BitVec 8}
variable {base limit fuel d : Nat} {x y : Digits}

section Text

theorem liesAt_drop {text : List (BitVec 8)} (h : LiesAt mem p text) (n : Nat) :
    LiesAt mem (p + n) (text.drop n) := by
  intro i c hc
  rw [List.getElem?_drop] at hc
  rw [Int.add_assoc, ← Int.natCast_add]
  exact h (n + i) c hc

theorem liesAt_first {text : List (BitVec 8)} (h : LiesAt mem p (c :: text)) : mem p = c := by
  have hFirst := h 0 c rfl
  rwa [Int.natCast_zero, Int.add_zero] at hFirst

theorem liesAt_head (h : LiesAt mem p (str ++ [0])) (hc : c ≠ 0) : str.head? = some c ↔ mem p = c := by
  cases str with
  | nil =>
      exact iff_of_false (Option.some_ne_none c).symm fun hp => hc (hp.symm.trans (liesAt_first h))
  | cons b str => rw [List.head?_cons, liesAt_first h, Option.some.injEq]

theorem liesAt_tail (h : LiesAt mem p (c :: str)) : LiesAt mem (p + 1) str := liesAt_drop h 1

end Text

/-- What the loop has read as a number, unless it has passed the limit. -/
def Digits.read (x : Digits) : Option Nat := if x.any < 0 then none else some x.acc

theorem read_eq_none (h : x.read = none) : x.any < 0 := by
  by_contra hAny
  exact Option.some_ne_none x.acc ((if_neg hAny).symm.trans h)

theorem read_eq_some {n : Nat} (h : x.read = some n) : ¬ x.any < 0 ∧ x.acc = n := by
  by_cases hAny : x.any < 0
  · exact absurd ((if_pos hAny).symm.trans h) (Option.some_ne_none n).symm
  · exact ⟨hAny, Option.some.inj ((if_neg hAny).symm.trans h)⟩

theorem digit_zero : digit 0 = none := rfl

theorem digitsOf_none (h : digit c = none) : digitsOf base (c :: str) = [] := by
  rw [digitsOf, h]

theorem digitsOf_stop (h : digit c = some d) (hd : base ≤ d) : digitsOf base (c :: str) = [] := by
  rw [digitsOf, h]
  exact if_pos hd

theorem digitsOf_more (h : digit c = some d) (hd : ¬ base ≤ d) :
    digitsOf base (c :: str) = d :: digitsOf base str := by
  rw [digitsOf, h]
  exact if_neg hd

theorem digitsOf_lt : ∀ d ∈ digitsOf base str, d < base := by
  induction str with
  | nil => exact fun _ h => absurd h List.not_mem_nil
  | cons c str ih =>
      rw [digitsOf]
      split
      · exact fun _ h => absurd h List.not_mem_nil
      · split
        · exact fun _ h => absurd h List.not_mem_nil
        next hLess =>
          intro d hd
          rcases List.mem_cons.mp hd with rfl | hd
          · exact Nat.lt_of_not_le hLess
          · exact ih d hd

theorem add_any : (x.add (limit / base) (limit % base) base d).any ≠ 0 := by
  rw [Digits.add]
  split
  · exact (by decide : (-1 : Int) ≠ 0)
  · exact (by decide : (1 : Int) ≠ 0)

/-- The word never overflows, as the limit is a word. -/
theorem read_add (hLimit : limit < 2 ^ 32) (hd : d < base) :
    (x.add (limit / base) (limit % base) base d).read = Positional.accumulate limit base x.read d := by
  by_cases hAny : x.any < 0
  · have hLost : x.read = none := if_pos hAny
    rw [Digits.add, if_pos (Or.inl hAny), hLost]
    rfl
  · have hRead : x.read = some x.acc := if_neg hAny
    have hStep : Positional.accumulate limit base (some x.acc) d =
        if Positional.Exceeds limit base x.acc d then none else some (x.acc * base + d) := rfl
    rw [hRead, hStep, Digits.add]
    by_cases hPast : Positional.Exceeds limit base x.acc d
    · have hLeave : x.any < 0 ∨ limit / base < x.acc ∨ x.acc = limit / base ∧ limit % base < d :=
        Or.inr hPast
      rw [if_pos hLeave, if_pos hPast]
      rfl
    · have hFits : x.acc * base + d ≤ limit :=
        Nat.le_of_not_lt (mt (Positional.exceeds_iff hd).mpr hPast)
      have hKeep : ¬ (x.any < 0 ∨ limit / base < x.acc ∨ x.acc = limit / base ∧ limit % base < d) :=
        not_or.mpr ⟨hAny, hPast⟩
      rw [if_neg hKeep, if_neg hPast, Nat.mod_eq_of_lt (Nat.lt_of_le_of_lt hFits hLimit)]
      rfl

/-- The loop stops behind the first character that is no digit. -/
theorem digitLoop_eq (base : Nat) (hLimit : limit < 2 ^ 32) (h : LiesAt mem p (str ++ [0]))
    (hFuel : str.length < fuel) (hs : x.s = p + 1) :
    ∃ y, digitLoop mem (limit / base) (limit % base) base fuel (mem p) x = some y ∧
      y.s = p + (digitsOf base str).length + 1 ∧
      y.read = (digitsOf base str).foldl (Positional.accumulate limit base) x.read ∧
      (y.any = 0 ↔ x.any = 0 ∧ digitsOf base str = []) := by
  induction str generalizing p fuel x with
  | nil =>
      obtain ⟨fuel, rfl⟩ := Nat.exists_eq_add_of_lt hFuel
      refine ⟨x, ?_, by simp [digitsOf, hs], rfl, by simp [digitsOf]⟩
      rw [liesAt_first h, digitLoop, digit_zero]
  | cons c str ih =>
      obtain ⟨fuel, rfl⟩ := Nat.exists_eq_succ_of_ne_zero (Nat.ne_zero_of_lt hFuel)
      rw [liesAt_first h, digitLoop]
      cases hDigit : digit c with
      | none => exact ⟨x, rfl, by simp [digitsOf_none hDigit, hs], by simp [digitsOf_none hDigit],
          by simp [digitsOf_none hDigit]⟩
      | some d =>
          by_cases hd : base ≤ d
          · exact ⟨x, if_pos hd, by simp [digitsOf_stop hDigit hd, hs], by simp [digitsOf_stop hDigit hd],
              by simp [digitsOf_stop hDigit hd]⟩
          · obtain ⟨y, hLoop, hEnd, hRead, hAny⟩ := ih
              (x := { x.add (limit / base) (limit % base) base d with s := x.s + 1 })
              (liesAt_tail h) (Nat.lt_of_succ_lt_succ hFuel) (by rw [hs])
            refine ⟨y, ?_, ?_, ?_, ?_⟩
            · rw [← hLoop, hs]
              exact if_neg hd
            · rw [hEnd, digitsOf_more hDigit hd, List.length_cons, Nat.cast_succ]
              omega
            · rw [hRead, digitsOf_more hDigit hd, List.foldl_cons, ← read_add hLimit (Nat.lt_of_not_le hd)]
              rfl
            · rw [hAny, digitsOf_more hDigit hd]
              exact iff_of_false (fun h => add_any h.1) fun h => List.cons_ne_nil _ _ h.2

/-- The string at `nptr` has been read as far as `q`. -/
structure Left (mem : Int → BitVec 8) (nptr : Int) (str : List (BitVec 8)) (q : Int)
    (rest : List (BitVec 8)) : Prop where
  lies : LiesAt mem q (rest ++ [0])
  le : rest.length ≤ str.length
  place : q = nptr + (str.length - rest.length : Nat)

variable {q : Int} {rest : List (BitVec 8)}

theorem Left.tail (h : Left mem nptr str q rest) (hRest : rest ≠ []) :
    Left mem nptr str (q + 1) rest.tail := by
  obtain ⟨c, rest, rfl⟩ := List.exists_cons_of_ne_nil hRest
  have hLe : rest.length + 1 ≤ str.length := h.le
  refine ⟨liesAt_tail h.lies, by rw [List.tail_cons]; omega, ?_⟩
  rw [h.place, List.tail_cons, List.length_cons]
  omega

theorem Left.head (h : Left mem nptr str q rest) (hc : c ≠ 0) : rest.head? = some c ↔ mem q = c :=
  liesAt_head h.lies hc

theorem ne_nil_of_head (h : rest.head? = some c) : rest ≠ [] := by
  rintro rfl
  exact absurd h (Option.some_ne_none c).symm

/-- The white space in front. -/
theorem skipSpace_eq (h : Left mem nptr str q rest) (hFuel : rest.length < fuel) :
    ∃ q', skipSpace mem fuel q = some (mem q', q' + 1) ∧
      Left mem nptr str q' (rest.dropWhile fun c => decide (Ctype.iswhitespace c)) := by
  induction rest generalizing q fuel with
  | nil =>
      obtain ⟨fuel, rfl⟩ := Nat.exists_eq_add_of_lt hFuel
      refine ⟨q, ?_, h⟩
      rw [skipSpace, liesAt_first h.lies]
      exact if_neg (by decide)
  | cons c rest ih =>
      obtain ⟨fuel, rfl⟩ := Nat.exists_eq_succ_of_ne_zero (Nat.ne_zero_of_lt hFuel)
      rw [skipSpace]
      by_cases hSpace : Ctype.iswhitespace c
      · rw [liesAt_first h.lies, if_pos hSpace,
          List.dropWhile_cons_of_pos (p := fun c => decide (Ctype.iswhitespace c)) (decide_eq_true hSpace)]
        exact ih (h.tail (List.cons_ne_nil c rest)) (Nat.lt_of_succ_lt_succ hFuel)
      · refine ⟨q, by rw [liesAt_first h.lies, if_neg hSpace], ?_⟩
        rw [List.dropWhile_cons_of_neg (by simpa using hSpace)]
        exact h

/-- The sign. -/
theorem Left.unsigned (h : Left mem nptr str q rest) :
    ∃ q', (if mem q = charMinus ∨ mem q = charPlus then (mem (q + 1), q + 1 + 1) else (mem q, q + 1)) =
      (mem q', q' + 1) ∧ Left mem nptr str q' (unsigned rest) := by
  have hSign : (rest.head? = some charMinus ∨ rest.head? = some charPlus) ↔
      (mem q = charMinus ∨ mem q = charPlus) :=
    or_congr (h.head (by decide)) (h.head (by decide))
  rw [Strtol.unsigned]
  by_cases hc : mem q = charMinus ∨ mem q = charPlus
  · have hHead := hSign.mpr hc
    refine ⟨q + 1, if_pos hc, ?_⟩
    rw [if_pos hHead]
    exact h.tail (hHead.elim ne_nil_of_head ne_nil_of_head)
  · refine ⟨q, if_neg hc, ?_⟩
    rw [if_neg (mt hSign.mp hc)]
    exact h

theorem Left.prefixed_iff (h : Left mem nptr str q rest) :
    Prefixed base rest ↔
      (base = 0 ∨ base = 16) ∧ mem q = charZero ∧ (mem (q + 1) = 0x78 ∨ mem (q + 1) = 0x58) := by
  rw [Prefixed, h.head (by decide)]
  refine and_congr_right fun _ => and_congr_right fun hZero => ?_
  have hHead : rest.head? = some charZero := (h.head (by decide)).mpr hZero
  have hNext := h.tail (ne_nil_of_head hHead)
  have hSecond : rest[1]? = rest.tail.head? := by
    rw [List.head?_eq_getElem?, List.getElem?_tail]
  rw [hSecond, hNext.head (by decide), hNext.head (by decide)]

/-- The prefix of a number in base 16. -/
theorem Left.bare (h : Left mem nptr str q rest) (base : Nat) :
    ∃ q', (if (base = 0 ∨ base = 16) ∧ mem q = charZero ∧ (mem (q + 1) = 0x78 ∨ mem (q + 1) = 0x58) then
        (mem (q + 1 + 1), q + 1 + 2, 16) else (mem q, q + 1, base)) =
      (mem q', q' + 1, if Prefixed base rest then 16 else base) ∧
      Left mem nptr str q' (if Prefixed base rest then rest.drop 2 else rest) := by
  by_cases hPrefix : Prefixed base rest
  · have hFirst := h.tail (ne_nil_of_head hPrefix.2.1)
    have hSecond : rest.tail ≠ [] := by
      intro hEnd
      have hAt : rest[1]? = none := by rw [← List.head?_tail, hEnd, List.head?_nil]
      rcases hPrefix.2.2 with hx | hx <;> exact Option.some_ne_none _ (hx.symm.trans hAt)
    refine ⟨q + 1 + 1, ?_, ?_⟩
    · rw [if_pos (h.prefixed_iff.mp hPrefix), if_pos hPrefix, Int.add_assoc (q + 1)]
      rfl
    · have hDrop : rest.drop 2 = rest.tail.tail := by
        rw [← List.drop_one, ← List.drop_one, List.drop_drop]
      rw [if_pos hPrefix, hDrop]
      exact hFirst.tail hSecond
  · refine ⟨q, ?_, ?_⟩
    · rw [if_neg (mt h.prefixed_iff.mpr hPrefix), if_neg hPrefix]
    · rw [if_neg hPrefix]
      exact h

theorem start_eq (base : Nat) (h : LiesAt mem nptr (str ++ [0])) (hFuel : str.length < fuel) :
    ∃ q rest, start mem fuel nptr base =
        some ⟨(numeral base str).neg, mem q, q + 1, (numeral base str).base⟩ ∧
      Left mem nptr str q rest ∧ (numeral base str).offset = str.length - rest.length ∧
      (numeral base str).digits = digitsOf (numeral base str).base rest := by
  have hWhole : Left mem nptr str nptr str := ⟨h, le_rfl, by simp⟩
  obtain ⟨q₁, hSkip, hBody⟩ := skipSpace_eq hWhole hFuel
  obtain ⟨q₂, hSign, hUnsigned⟩ := hBody.unsigned
  obtain ⟨q, hPrefix, hRest⟩ := hUnsigned.bare base
  refine ⟨q, _, ?_, hRest, rfl, rfl⟩
  have hNeg : (numeral base str).neg = decide (mem q₁ = charMinus) :=
    decide_eq_decide.mpr (hBody.head (by decide))
  have hBase : (numeral base str).base =
      if (if Prefixed base (unsigned (str.dropWhile fun c => decide (Ctype.iswhitespace c))) then 16 else base) = 0
      then if mem q = charZero then 8 else 10
      else if Prefixed base (unsigned (str.dropWhile fun c => decide (Ctype.iswhitespace c))) then 16 else base := by
    by_cases hPrefixed : Prefixed base (unsigned (str.dropWhile fun c => decide (Ctype.iswhitespace c)))
    · simp [numeral, hPrefixed]
    · have hZero := hRest.head (c := charZero) (by decide)
      rw [if_neg hPrefixed] at hZero
      simp [numeral, hPrefixed, hZero]
  rw [start, hSkip, Option.map_some]
  dsimp only
  rw [hSign]
  dsimp only
  rw [hPrefix, hNeg, hBase]

theorem clamp_eq {v : Int} (hMin : -0x80000000 ≤ v) (hMax : v ≤ 0x7FFFFFFF) : clamp v = v := by
  have hUpper : min longMax v = v := min_eq_right hMax
  rw [clamp, hUpper]
  exact max_eq_right hMin

theorem clamp_below {v : Int} (h : v ≤ -0x80000000) : clamp v = longMin := by
  have hUpper : min longMax v = v := min_eq_right (le_trans h (by decide))
  rw [clamp, hUpper]
  exact max_eq_left h

theorem clamp_above {v : Int} (h : 0x7FFFFFFF ≤ v) : clamp v = longMax := by
  have hUpper : min longMax v = longMax := min_eq_left h
  rw [clamp, hUpper]
  exact max_eq_right (by decide)

theorem base_pos : 0 < (numeral base str).base := by
  simp only [numeral]
  split_ifs <;> omega

/-- For a base at hand or to be found, the loop reads the digits. -/
theorem digits_eq (base : Nat) (hLimit : limit < 2 ^ 32) (h : LiesAt mem nptr (str ++ [0]))
    (hFuel : str.length < fuel) :
    ∃ x y, start mem fuel nptr base = some x ∧ digits mem limit fuel x = some y ∧
      x.neg = (numeral base str).neg ∧
      y.read = (if (numeral base str).magnitude ≤ limit then some (numeral base str).magnitude else none) ∧
      (if y.any ≠ 0 then y.s - 1 else nptr) = nptr + (numeral base str).length := by
  obtain ⟨q, rest, hStart, hRest, hOffset, hDigits⟩ := start_eq base h hFuel
  obtain ⟨y, hLoop, hEnd, hRead, hAny⟩ := digitLoop_eq (numeral base str).base
    (x := ⟨0, 0, q + 1⟩) hLimit hRest.lies (Nat.lt_of_le_of_lt hRest.le hFuel) rfl
  refine ⟨_, y, hStart, hLoop, rfl, ?_, ?_⟩
  · rw [hRead, ← hDigits]
    exact Positional.foldl_accumulate base_pos (hDigits ▸ digitsOf_lt) (Nat.zero_le limit)
  · rw [← hDigits] at hEnd hAny
    rw [Numeral.length]
    by_cases hNone : (numeral base str).digits = []
    · have hNothing : y.any = 0 := hAny.mpr ⟨rfl, hNone⟩
      simp [hNone, hNothing]
    · have hSome : y.any ≠ 0 := fun h => hNone (hAny.mp h).2
      rw [if_pos hSome, if_neg hNone, hEnd, hRest.place, hOffset]
      omega

/-- The number that the string denotes in this base, kept within the limits of a `long`, and the end of
its digits. -/
theorem strtol_eq (h : LiesAt mem nptr (str ++ [0])) (hFuel : str.length < fuel) :
    strtol mem fuel nptr base =
      some (BitVec.ofInt 32 (clamp (numeral base str).toInt),
        nptr + (numeral base str).length) := by
  have hLimit : (if (numeral base str).neg then 0x80000000 else 0x7FFFFFFF) < 2 ^ 32 := by
    split <;> decide
  obtain ⟨x, y, hStart, hDigits, hNeg, hRead, hEnd⟩ := digits_eq base hLimit h hFuel
  rw [strtol, hStart, Option.bind_some, hNeg, hDigits, Option.map_some]
  refine congrArg some (Prod.ext ?_ hEnd)
  rw [Numeral.toInt]
  by_cases hMinus : (numeral base str).neg = true
  · simp only [hMinus, if_true] at hRead ⊢
    by_cases hFits : (numeral base str).magnitude ≤ 0x80000000
    · obtain ⟨hAny, hAcc⟩ := read_eq_some (hRead.trans (if_pos hFits))
      rw [if_neg hAny, hAcc, clamp_eq (by omega) (by omega), BitVec.ofInt_neg, BitVec.ofInt_natCast]
    · have hAny := read_eq_none (hRead.trans (if_neg hFits))
      rw [if_pos hAny, clamp_below (by omega)]
  · have hPlus : (numeral base str).neg = false := Bool.eq_false_iff.mpr hMinus
    simp only [hPlus, Bool.false_eq_true, if_false] at hRead ⊢
    by_cases hFits : (numeral base str).magnitude ≤ 0x7FFFFFFF
    · obtain ⟨hAny, hAcc⟩ := read_eq_some (hRead.trans (if_pos hFits))
      rw [if_neg hAny, hAcc, clamp_eq (by omega) (by omega), BitVec.ofInt_natCast]
    · have hAny := read_eq_none (hRead.trans (if_neg hFits))
      rw [if_pos hAny, clamp_above (by omega)]

/-- Without a sign the value is kept below 2^32; a sign turns it round in the end. -/
theorem strtoul_eq (h : LiesAt mem nptr (str ++ [0])) (hFuel : str.length < fuel) :
    strtoul mem fuel nptr base =
      some (if (numeral base str).magnitude ≤ ulongMax then BitVec.ofInt 32 (numeral base str).toInt
        else BitVec.ofNat 32 ulongMax,
        nptr + (numeral base str).length) := by
  obtain ⟨x, y, hStart, hDigits, hNeg, hRead, hEnd⟩ :=
    digits_eq base (show ulongMax < 2 ^ 32 by decide) h hFuel
  rw [strtoul, hStart, Option.bind_some, hDigits, Option.map_some, hNeg]
  refine congrArg some (Prod.ext ?_ hEnd)
  by_cases hFits : (numeral base str).magnitude ≤ ulongMax
  · obtain ⟨hAny, hAcc⟩ := read_eq_some (hRead.trans (if_pos hFits))
    simp only [if_neg hAny, if_pos hFits, hAcc, Numeral.toInt]
    split
    · rw [BitVec.ofInt_neg, BitVec.ofInt_natCast]
    · rw [BitVec.ofInt_natCast]
  · have hAny := read_eq_none (hRead.trans (if_neg hFits))
    simp only [if_pos hAny, if_neg hFits]

/-- For every string and base both functions come back with the number that the string denotes as far
as its digits go, held at the limit that it passes, and with the end of these digits. -/
theorem string_read (h : LiesAt mem nptr (str ++ [0])) (hFuel : str.length < fuel) :
    strtol mem fuel nptr base =
        some (BitVec.ofInt 32 (clamp (numeral base str).toInt), nptr + (numeral base str).length) ∧
      strtoul mem fuel nptr base =
        some (if (numeral base str).magnitude ≤ ulongMax then BitVec.ofInt 32 (numeral base str).toInt
          else BitVec.ofNat 32 ulongMax,
          nptr + (numeral base str).length) :=
  ⟨strtol_eq h hFuel, strtoul_eq h hFuel⟩

theorem liesAt_getD (str : List (BitVec 8)) : LiesAt (fun a => (str ++ [0]).getD a.toNat 0) 0 (str ++ [0]) := by
  intro i c hc
  rw [Int.zero_add]
  show (str ++ [0]).getD i 0 = c
  rw [List.getD_eq_getElem?_getD, hc, Option.getD_some]

/-- The last hexadecimal digit passes the limit of a negative `long`, and not that of an
`unsigned long`. -/
theorem string_read_example :
    strtol (fun a => (ascii " -0x80000001;" ++ [0]).getD a.toNat 0) 20 0 0 = some (BitVec.ofInt 32 longMin, 12) ∧
      strtoul (fun a => (ascii " -0x80000001;" ++ [0]).getD a.toNat 0) 20 0 0 = some (0x7FFFFFFF, 12) := by
  exact string_read (liesAt_getD (ascii " -0x80000001;")) (by decide)

end Strtol
end ArtOS

import Mathlib.Data.Nat.Digits.Lemmas
import Mathlib.Tactic.IntervalCases
import ArtOS.Devices.Terminal
import ArtOS.Libc.Concat
import ArtOS.Library.ByteMemory
import ArtOS.Library.Word
import ArtOS.Tasks.Syscall

/-! Numbers as text: `print_dec` and `print_hex`, and `monWDec`. `print_dec` counts the digits with
a bound that does not fit into a word for ten of them, and `monWDec` divides an `int`. -/
namespace ArtOS.Kprintf

open ByteMemory Stores

abbrev uint32Max : Nat := 2 ^ 32 - 1

/-- The loop that counts the digits in base `b`; `i` is the largest number with `nWidth` digits, as a
word. -/
def widthLoop (b value : Nat) : Nat → Nat → Nat → Option Nat
  | 0, _, _ => none
  | fuel + 1, nWidth, i =>
      if value > i ∧ i < uint32Max then widthLoop b value fuel (nWidth + 1) ((i * b + (b - 1)) % 2 ^ 32)
      else some nWidth

def charZero : BitVec 8 := 0x30

def digitChar (d : Nat) : BitVec 8 := BitVec.ofNat 8 d + charZero

/-- The loop that stores the digits, the last one first; `i` of them are left. -/
def digitLoop (ptr : Nat) : Nat → Nat → List (Nat × BitVec 8)
  | 0, _ => []
  | i + 1, value => (ptr + i, digitChar (value % 10)) :: digitLoop ptr i (value / 10)

/-- The stores, and where `*ptr` is behind them. -/
def printDec (fuel value width ptr : Nat) : Option (List (Nat × BitVec 8) × Nat) :=
  (widthLoop 10 value fuel 1 9).map fun nWidth =>
    let printed := width - nWidth
    (charStores ptr (List.replicate printed charZero) ++ digitLoop (ptr + printed) nWidth value,
      ptr + printed + nWidth)

def hexChar (d : Nat) : BitVec 8 := (ascii "0123456789abcdef").getD d 0

/-- The last loop of `print_hex`; `i` digits are left. -/
def hexLoop (value : Nat) : Nat → Nat → List (Nat × BitVec 8)
  | 0, _ => []
  | i + 1, ptr => (ptr, hexChar (value >>> (i * 4) &&& 0xF)) :: hexLoop value i (ptr + 1)

/-- The width is compared as an `int`. -/
def printHex (fuel value width ptr : Nat) : Option (List (Nat × BitVec 8) × Nat) :=
  let width := (BitVec.ofNat 32 width).toInt
  let i := if width = 0 then 8 else width
  (widthLoop 16 value fuel 1 0x0F).map fun (nWidth : Nat) =>
    let printed := (i - nWidth).toNat
    (charStores ptr (List.replicate printed charZero) ++ hexLoop value nWidth (ptr + printed),
      ptr + printed + nWidth)

/-- The first loop of `monWDec`, with a signed number. -/
def monWDecLoop : Nat → Int → Option (List (BitVec 8))
  | 0, _ => none
  | fuel + 1, acc =>
      if 0 < acc then (monWDecLoop fuel (acc / 10)).map (digitChar (acc % 10).toNat :: ·) else some []

/-- The characters that `monWDec` puts on the screen; the second loop turns them round. -/
def monWDecText (fuel : Nat) (n : Nat) : Option (List (BitVec 8)) :=
  if n = 0 then some [charZero]
  else (monWDecLoop fuel (BitVec.ofNat 32 n).toInt).map List.reverse

def monWDec (fuel n : Nat) (t : Terminal) : Option Terminal := (monWDecText fuel n).map fun c => t.print c

/-- The decimal digits of a number. -/
def decimal (value : Nat) : List (BitVec 8) :=
  if value = 0 then [charZero] else ((Nat.digits 10 value).map digitChar).reverse

/-- With zeros before it up to this width. -/
def leftPadded (width : Nat) (s : List (BitVec 8)) : List (BitVec 8) :=
  List.replicate (width - s.length) charZero ++ s

/-- `print_dec` appends the padded digits, and nothing else. -/
def PrintsDec (value width ptr : Nat) (buf : Nat → BitVec 8) : Prop :=
  ∃ fuel stores ptr', printDec fuel value width ptr = some (stores, ptr') ∧
    Lies (written stores buf) ptr (leftPadded width (decimal value)) ∧
      ptr' = ptr + (leftPadded width (decimal value)).length ∧ ∀ a ∈ targets stores, ptr ≤ a ∧ a < ptr'

/-- `monWDec` puts the characters that `print_dec` appends without a width. -/
def PrintsSame (value ptr : Nat) (buf : Nat → BitVec 8) : Prop :=
  ∃ fuel stores ptr' text, printDec fuel value 0 ptr = some (stores, ptr') ∧
    monWDecText fuel value = some text ∧ ptr' = ptr + text.length ∧ Lies (written stores buf) ptr text

variable {b value width fuel n k ptr : Nat} {mem buf : Nat → BitVec 8} {s t : List (BitVec 8)}

/-- The largest number with `n` digits, as a word. -/
def bound (b n : Nat) : Nat := (b ^ n - 1) % 2 ^ 32

theorem bound_succ (hb : 0 < b) (n : Nat) : (bound b n * b + (b - 1)) % 2 ^ 32 = bound b (n + 1) := by
  have hPow : 0 < b ^ n := Nat.pow_pos hb
  have hNext : b ^ (n + 1) - 1 = (b ^ n - 1) * b + (b - 1) := by
    rw [Nat.pow_succ, Nat.sub_one_mul]
    have hLess : b ≤ b ^ n * b := Nat.le_mul_of_pos_left b hPow
    omega
  rw [bound, bound, hNext, Nat.add_mod, Nat.mod_mul_mod, ← Nat.add_mod]

/-- The width that the loop finds: no smaller one has a bound that is large enough. -/
structure IsWidth (b value n : Nat) : Prop where
  pos : 1 ≤ n
  fits : value ≤ bound b n
  least : ∀ m, 1 ≤ m → m < n → bound b m < value

theorem isWidth_exists (h : ∃ n, 1 ≤ n ∧ value ≤ bound b n) : ∃ n, IsWidth b value n := by
  classical
  refine ⟨Nat.find h, (Nat.find_spec h).1, (Nat.find_spec h).2, fun m hPos hm => ?_⟩
  have hNot := Nat.find_min h hm
  exact Nat.lt_of_not_le fun hFits => hNot ⟨hPos, hFits⟩

/-- The loop on its way to the width. -/
theorem widthLoop_eq (hb : 0 < b) (hValue : value < 2 ^ 32) (h : IsWidth b value n) (hk : 1 ≤ k) (hkn : k ≤ n)
    (hFuel : n < fuel + k) : widthLoop b value fuel k (bound b k) = some n := by
  have hMax : uint32Max = 2 ^ 32 - 1 := rfl
  induction fuel generalizing k with
  | zero => omega
  | succ fuel ih =>
      rw [widthLoop]
      rcases Nat.eq_or_lt_of_le hkn with rfl | hLess
      · exact if_neg fun hMore => absurd h.fits (Nat.not_le_of_lt hMore.1)
      · have hMore := h.least k hk hLess
        rw [if_pos ⟨hMore, by omega⟩, bound_succ hb]
        exact ih (Nat.le_add_left 1 k) hLess (by omega)

theorem widthLoop_first (hb : 2 ≤ b) (hSmall : b ≤ 2 ^ 32) (hValue : value < 2 ^ 32) (h : IsWidth b value n)
    (hFuel : n ≤ fuel) : widthLoop b value fuel 1 (b - 1) = some n := by
  have hFirst : b - 1 = bound b 1 := by
    rw [bound, Nat.pow_one, Nat.mod_eq_of_lt (by omega)]
  rw [hFirst]
  exact widthLoop_eq (by omega) hValue h le_rfl h.pos (by omega)

/-- The number of digits that the loop counts. -/
def digitCount (b value : Nat) : Nat :=
  ((List.range' 1 32).find? fun n => value ≤ bound b n).getD 0

theorem isWidth_digitCount (h : ∃ n, 1 ≤ n ∧ n ≤ 32 ∧ value ≤ bound b n) : IsWidth b value (digitCount b value) := by
  obtain ⟨n, hPos, hn, hFits⟩ := h
  have hSome : ((List.range' 1 32).find? fun n => value ≤ bound b n).isSome := by
    refine List.find?_isSome.mpr ⟨n, List.mem_range'_1.mpr ⟨hPos, by omega⟩, decide_eq_true hFits⟩
  obtain ⟨k, hk⟩ := Option.isSome_iff_exists.mp hSome
  rw [digitCount, hk, Option.getD_some]
  obtain ⟨hFits, hRange, hLeast⟩ := List.find?_range'_eq_some.mp hk
  refine ⟨(List.mem_range'_1.mp hRange).1, of_decide_eq_true hFits, ?_⟩
  intro m hm hLess
  have hNot := hLeast m hm hLess
  rw [Bool.not_eq_true', decide_eq_false_iff_not] at hNot
  exact Nat.lt_of_not_le hNot

/-- More rounds do not matter. -/
theorem widthLoop_mono {fuel' i : Nat} (h : fuel ≤ fuel') :
    Partial.Le (widthLoop b value fuel k i) (widthLoop b value fuel' k i) := by
  induction fuel generalizing fuel' k i with
  | zero => exact Partial.le_none
  | succ fuel ih =>
      obtain ⟨fuel', rfl⟩ := Nat.exists_eq_add_of_le' (Nat.le_of_add_left_le h)
      exact Partial.Le.ite (ih (by omega)) Partial.Le.refl

/-- The characters that the last loop stores. -/
def fixed : Nat → Nat → List (BitVec 8)
  | 0, _ => []
  | n + 1, value => fixed n (value / 10) ++ [digitChar (value % 10)]

@[simp] theorem length_fixed : (fixed n value).length = n := by
  induction n generalizing value with
  | zero => rfl
  | succ n ih => rw [fixed, List.length_append, ih, List.length_singleton]

theorem mem_targets_digitLoop {a : Nat} (h : a ∈ targets (digitLoop ptr n value)) : ptr ≤ a ∧ a < ptr + n := by
  induction n generalizing value with
  | zero => cases h
  | succ n ih =>
      rcases List.mem_cons.mp h with hLast | h
      · have hSame : a = ptr + n := hLast
        omega
      · have hRest := ih h
        omega

theorem lies_digitLoop : Lies (written (digitLoop ptr n value) mem) ptr (fixed n value) := by
  induction n generalizing value mem with
  | zero => trivial
  | succ n ih =>
      rw [digitLoop, written_cons, fixed, lies_append, length_fixed]
      refine ⟨ih, ?_, trivial⟩
      rw [written_of_not_mem, Function.update_self]
      intro hMem
      exact absurd (mem_targets_digitLoop hMem).2 (Nat.lt_irrefl _)

@[simp] theorem length_leftPadded : (leftPadded width s).length = max width s.length := by
  rw [leftPadded, List.length_append, List.length_replicate]
  omega

theorem replicate_leftPadded (h : s.length ≤ n) :
    List.replicate k charZero ++ leftPadded n s = leftPadded (k + n) s := by
  rw [leftPadded, leftPadded, ← List.append_assoc, List.replicate_append_replicate, Nat.add_sub_assoc h]

theorem decimal_digit (h : value < 10) : decimal value = [digitChar value] := by
  rw [decimal]
  split
  next hZero => rw [hZero]; rfl
  next hPos => rw [Nat.digits_of_lt 10 value hPos h]; rfl

theorem decimal_step (h : 10 ≤ value) : decimal value = decimal (value / 10) ++ [digitChar (value % 10)] := by
  have hPos : value ≠ 0 := by omega
  have hTens : value / 10 ≠ 0 := by omega
  rw [decimal, if_neg hPos, Nat.digits_def' (by omega) (Nat.pos_of_ne_zero hPos), decimal, if_neg hTens,
    List.map_cons, List.reverse_cons]

theorem length_decimal_le (hn : 1 ≤ n) (h : value < 10 ^ n) : (decimal value).length ≤ n := by
  rw [decimal]
  split
  · exact hn
  · rw [List.length_reverse, List.length_map]
    exact (Nat.digits_length_le_iff (by omega) value).mpr h

theorem lt_decimal : value < 10 ^ (decimal value).length := by
  rw [decimal]
  split
  next hZero => rw [hZero]; decide
  next =>
    rw [List.length_reverse, List.length_map]
    exact Nat.lt_base_pow_length_digits (by omega)

theorem decimal_pos : 1 ≤ (decimal value).length := by
  rw [decimal]
  split
  · exact le_rfl
  next hPos =>
    rw [List.length_reverse, List.length_map]
    exact List.length_pos_iff.mpr (Nat.digits_ne_nil_iff_ne_zero.mpr hPos)

/-- Enough digits show the number, with zeros before it. -/
theorem fixed_eq (hn : 1 ≤ n) (h : value < 10 ^ n) : fixed n value = leftPadded n (decimal value) := by
  induction n, hn using Nat.le_induction generalizing value with
  | base =>
      rw [decimal_digit (by omega), fixed, Nat.mod_eq_of_lt (by omega)]
      rfl
  | succ n hn ih =>
      have hTens : value / 10 < 10 ^ n := by
        rw [Nat.pow_succ] at h
        omega
      rw [fixed, ih hTens]
      rcases Nat.lt_or_ge value 10 with hDigit | hMore
      · have hZero : value / 10 = 0 := by omega
        have hOne : leftPadded n (decimal 0) = List.replicate n charZero := by
          rw [decimal, if_pos rfl, leftPadded, List.length_singleton, ← List.replicate_one,
            List.replicate_append_replicate, Nat.sub_add_cancel hn]
        rw [hZero, hOne, Nat.mod_eq_of_lt hDigit, decimal_digit hDigit]
        rfl
      · rw [decimal_step hMore, leftPadded, leftPadded, List.length_append, List.length_singleton,
          Nat.add_sub_add_right, List.append_assoc]

/-- There always is a width, as a power of ten is a multiple of the words in the end. -/
theorem bound_ten : bound 10 32 = uint32Max := by decide

theorem exists_width (h : value < 2 ^ 32) : ∃ n, 1 ≤ n ∧ value ≤ bound 10 n := by
  refine ⟨32, by omega, ?_⟩
  rw [bound_ten]
  exact Nat.le_sub_one_of_lt h

theorem lt_pow (h : value ≤ bound 10 n) : value < 10 ^ n := by
  have hPow : 0 < 10 ^ n := Nat.pow_pos (by omega)
  have hLe : bound 10 n ≤ 10 ^ n - 1 := Nat.mod_le _ _
  omega

theorem IsWidth.digits_le (h : IsWidth 10 value n) : (decimal value).length ≤ n :=
  length_decimal_le h.pos (lt_pow h.fits)

theorem IsWidth.le_iff (h : IsWidth 10 value n) : (∃ k, 1 ≤ k ∧ k ≤ width ∧ value ≤ bound 10 k) ↔ n ≤ width := by
  constructor
  · rintro ⟨k, hk, hWidth, hFits⟩
    by_contra hMore
    exact absurd hFits (Nat.not_le_of_lt (h.least k hk (by omega)))
  · intro hWidth
    exact ⟨n, h.pos, hWidth, h.fits⟩

theorem printDec_eq (h : IsWidth 10 value n) (hValue : value < 2 ^ 32) (hFuel : n ≤ fuel) :
    printDec fuel value width ptr =
      some (charStores ptr (List.replicate (width - n) charZero) ++ digitLoop (ptr + (width - n)) n value,
        ptr + (width - n) + n) := by
  rw [printDec, widthLoop_first (by omega) (by omega) hValue h hFuel]
  rfl

theorem fixed_eq_map : fixed n value =
    (List.range n).reverse.map fun k => BitVec.ofNat 8 (value / 10 ^ k % 10 + 0x30) := by
  induction n generalizing value with
  | zero => rfl
  | succ n ih =>
      have hTens : ∀ k, value / 10 / 10 ^ k = value / 10 ^ (k + 1) := by
        intro k
        rw [Nat.div_div_eq_div_mul, ← Nat.pow_succ']
      rw [fixed, ih, List.range_succ_eq_map, List.reverse_cons, List.map_append, ← List.map_reverse, List.map_map]
      simp only [hTens, List.map_singleton, Nat.pow_zero, Nat.div_one, Function.comp_def]
      rw [digitChar, charZero, ← BitVec.ofNat_add_ofNat]
      rfl

theorem decWidth_eq {v i : BitVec 32} (h : widthLoop 10 v.toNat fuel k i.toNat = some n) :
    decWidth v fuel k i = n := by
  induction fuel generalizing k i with
  | zero => cases h
  | succ fuel ih =>
      have hMax : i < BitVec.allOnes 32 ↔ i.toNat < uint32Max := by
        rw [BitVec.lt_def, BitVec.toNat_allOnes]
      rw [widthLoop] at h
      rw [decWidth]
      by_cases hMore : v.toNat > i.toNat ∧ i.toNat < uint32Max
      · rw [if_pos hMore] at h
        rw [if_pos ⟨BitVec.lt_def.mpr hMore.1, hMax.mpr hMore.2⟩]
        apply ih
        rw [BitVec.toNat_add, BitVec.toNat_mul]
        rw [Nat.mod_add_mod]
        exact h
      · rw [if_neg hMore] at h
        rw [if_neg fun hOther => hMore ⟨BitVec.lt_def.mp hOther.1, hMax.mp hOther.2⟩]
        exact Option.some.inj h

/-- The message about a system call has what `print_dec` stores. -/
theorem fixed_message {v : BitVec 32} (h : IsWidth 10 v.toNat n) (hn : n ≤ 32) : fixed n v.toNat = ArtOS.printDec v := by
  rw [ArtOS.printDec, decWidth_eq (widthLoop_first (by omega) (by omega) v.isLt h hn), fixed_eq_map]

/-- What `print_dec` stores: the digits up to the width that it found. -/
theorem lies_printDec (h : IsWidth 10 value n) :
    Lies (written (charStores ptr (List.replicate k charZero) ++ digitLoop (ptr + k) n value) mem) ptr
      (leftPadded (k + n) (decimal value)) := by
  rw [← replicate_leftPadded h.digits_le, ← fixed_eq h.pos (lt_pow h.fits), lies_append, List.length_replicate,
    written, List.foldl_append]
  refine ⟨?_, lies_digitLoop⟩
  show Lies (written (digitLoop (ptr + k) n value) (written (charStores ptr _) mem)) ptr _
  apply lies_getD
  intro i hi
  have hZeros := hi
  rw [List.length_replicate] at hZeros
  rw [written_of_not_mem, written_charStores, overwrite, if_pos (by omega), Nat.add_sub_cancel_left]
  intro hMem
  have hIn := mem_targets_digitLoop hMem
  omega

theorem targets_printDec {a : Nat}
    (h : a ∈ targets (charStores ptr (List.replicate k charZero) ++ digitLoop (ptr + k) n value)) :
    ptr ≤ a ∧ a < ptr + k + n := by
  rw [targets, List.map_append] at h
  rcases List.mem_append.mp h with h | h
  · have hIn := mem_targets_charStores h
    rw [List.length_replicate] at hIn
    omega
  · have hIn := mem_targets_digitLoop h
    omega

theorem printDec_mono {fuel' : Nat} (h : fuel ≤ fuel') :
    Partial.Le (printDec fuel value width ptr) (printDec fuel' value width ptr) :=
  Partial.Le.map (widthLoop_mono h)

theorem printDec_unique {x : List (Nat × BitVec 8) × Nat} (h : IsWidth 10 value n) (hValue : value < 2 ^ 32)
    (hCall : printDec fuel value width ptr = some x) :
    x = (charStores ptr (List.replicate (width - n) charZero) ++ digitLoop (ptr + (width - n)) n value,
      ptr + (width - n) + n) := by
  have hLarge := printDec_mono (Nat.le_max_left fuel n) _ hCall
  rw [printDec_eq h hValue (Nat.le_max_right _ _)] at hLarge
  exact (Option.some.inj hLarge).symm

/-- The width that `print_dec` finds is at most the one that is needed. -/
theorem printsDec_iff (h : IsWidth 10 value n) (hValue : value < 2 ^ 32) :
    PrintsDec value width ptr buf ↔ n ≤ max width (decimal value).length := by
  have hDigits := h.digits_le
  constructor
  · rintro ⟨fuel, stores, ptr', hCall, -, hPtr, -⟩
    have hEnd : ptr' = ptr + (width - n) + n := congrArg Prod.snd (printDec_unique h hValue hCall)
    rw [length_leftPadded] at hPtr
    omega
  · intro hn
    have hText : leftPadded width (decimal value) = leftPadded (width - n + n) (decimal value) := by
      rw [leftPadded, leftPadded]
      congr 2
      omega
    refine ⟨n, _, _, printDec_eq h hValue le_rfl, ?_, ?_, fun a ha => targets_printDec ha⟩
    · rw [hText]
      exact lies_printDec h
    · rw [length_leftPadded]
      omega

/-- The first loop of `monWDec` with a number that is not negative. -/
theorem monWDecLoop_eq (hFuel : value < fuel) :
    monWDecLoop fuel value = some ((Nat.digits 10 value).map digitChar) := by
  induction fuel generalizing value with
  | zero => omega
  | succ fuel ih =>
      rw [monWDecLoop]
      rcases Nat.eq_zero_or_pos value with rfl | hPos
      · rfl
      · have hTens : (value : Int) / 10 = ((value / 10 : Nat) : Int) := by omega
        have hLast : ((value : Int) % 10).toNat = value % 10 := by omega
        rw [if_pos (by omega), hTens, hLast, ih (by omega), Option.map_some, Nat.digits_def' (by omega) hPos,
          List.map_cons]

theorem monWDecLoop_mono {fuel' : Nat} {acc : Int} (h : fuel ≤ fuel') :
    Partial.Le (monWDecLoop fuel acc) (monWDecLoop fuel' acc) := by
  induction fuel generalizing fuel' acc with
  | zero => exact Partial.le_none
  | succ fuel ih =>
      obtain ⟨fuel', rfl⟩ := Nat.exists_eq_add_of_le' (Nat.le_of_add_left_le h)
      exact Partial.Le.ite (Partial.Le.map (ih (by omega))) Partial.Le.refl

/-- `monWDec` shows the numbers that are not negative as an `int`, and nothing for the others. -/
theorem monWDecText_eq (hValue : value < 2 ^ 32) (hFuel : value < fuel) :
    monWDecText fuel value = some (if value < 2 ^ 31 then decimal value else []) := by
  rw [monWDecText]
  by_cases hZero : value = 0
  · rw [if_pos hZero, hZero]
    rfl
  · rw [if_neg hZero]
    split
    next hSmall =>
      have hInt : (BitVec.ofNat 32 value).toInt = value := by
        rw [BitVec.toInt_eq_toNat_cond, BitVec.toNat_ofNat, Nat.mod_eq_of_lt hValue, if_pos (by omega)]
      rw [hInt, monWDecLoop_eq hFuel, Option.map_some, decimal, if_neg hZero]
    next hLarge =>
      have hInt : ¬ 0 < (BitVec.ofNat 32 value).toInt := by
        rw [BitVec.toInt_eq_toNat_cond, BitVec.toNat_ofNat, Nat.mod_eq_of_lt hValue, if_neg (by omega)]
        omega
      obtain ⟨fuel, rfl⟩ := Nat.exists_eq_add_of_lt hFuel
      rw [monWDecLoop, if_neg hInt]
      rfl

theorem monWDecText_unique {text : List (BitVec 8)} (hValue : value < 2 ^ 32)
    (hCall : monWDecText fuel value = some text) : text = if value < 2 ^ 31 then decimal value else [] := by
  have hLarge : monWDecText (max fuel (value + 1)) value = some text := by
    rw [monWDecText] at hCall ⊢
    exact Partial.Le.ite Partial.Le.refl (Partial.Le.map (monWDecLoop_mono (Nat.le_max_left _ _))) _ hCall
  rw [monWDecText_eq hValue (Nat.lt_of_lt_of_le (Nat.lt_succ_self _) (Nat.le_max_right _ _))] at hLarge
  exact (Option.some.inj hLarge).symm

/-- The digits of a number below `10 ^ 10 % 2 ^ 32`, and of no other one that is not negative, are as many
as `print_dec` counts. -/
theorem IsWidth.eq_digits_iff (h : IsWidth 10 value n) (hValue : value < 2 ^ 31) :
    n = (decimal value).length ↔ value < 1410065408 := by
  have hTen : bound 10 10 = 1410065407 := by decide
  have hDigits := h.digits_le
  have hPow : value < 10 ^ (decimal value).length := lt_decimal
  have hFew : (decimal value).length ≤ 10 := length_decimal_le (by omega) (by omega)
  constructor
  · intro hn
    have hFits := hn ▸ h.fits
    rcases Nat.eq_or_lt_of_le hFew with hAll | hLess
    · rw [hAll, hTen] at hFits
      omega
    · have hNine : 10 ^ (decimal value).length ≤ 10 ^ 9 := Nat.pow_le_pow_right (by omega) (by omega)
      omega
  · intro hSmall
    apply le_antisymm _ hDigits
    refine h.le_iff.mp ⟨_, decimal_pos, le_rfl, ?_⟩
    rcases Nat.eq_or_lt_of_le hFew with hAll | hLess
    · rw [hAll, hTen]
      omega
    · have hNine : 10 ^ (decimal value).length ≤ 10 ^ 9 := Nat.pow_le_pow_right (by omega) (by omega)
      rw [bound, Nat.mod_eq_of_lt (by omega)]
      omega

theorem printsSame_iff (h : IsWidth 10 value n) (hValue : value < 2 ^ 32) :
    PrintsSame value ptr buf ↔ value < 1410065408 := by
  have hPos := h.pos
  constructor
  · rintro ⟨fuel, stores, ptr', text, hCall, hText, hPtr, -⟩
    have hEnd : ptr' = ptr + (0 - n) + n := congrArg Prod.snd (printDec_unique h hValue hCall)
    have hLength : n = text.length := by omega
    rw [monWDecText_unique hValue hText] at hLength
    split at hLength
    next hSmall => exact (h.eq_digits_iff hSmall).mp hLength
    next =>
      rw [List.length_nil] at hLength
      omega
  · intro hSmall
    have hSigned : value < 2 ^ 31 := by omega
    have hn := (h.eq_digits_iff hSigned).mpr hSmall
    refine ⟨max n (value + 1), _, _, decimal value, printDec_eq h hValue (Nat.le_max_left _ _), ?_, ?_, ?_⟩
    · rw [monWDecText_eq hValue (Nat.lt_of_lt_of_le (Nat.lt_succ_self _) (Nat.le_max_right _ _)), if_pos hSigned]
    · omega
    · have hText : leftPadded (0 - n + n) (decimal value) = decimal value := by
        rw [leftPadded, hn, Nat.zero_sub, Nat.zero_add, Nat.sub_self]
        rfl
      exact hText ▸ lies_printDec h

/-- When the two show a number as it is: `print_dec` if it finds a width up to the one that is needed, and
`monWDec` the same characters below `10 ^ 10 % 2 ^ 32`. -/
theorem decimal_iff (value width ptr : Nat) (buf : Nat → BitVec 8) (hValue : value < 2 ^ 32) :
    (PrintsDec value width ptr buf ↔
      ∃ n, 1 ≤ n ∧ n ≤ max width (decimal value).length ∧ value ≤ (10 ^ n - 1) % 2 ^ 32) ∧
    (PrintsSame value ptr buf ↔ value < 1410065408) := by
  obtain ⟨n, hn⟩ := isWidth_exists (exists_width hValue)
  refine ⟨?_, printsSame_iff hn hValue⟩
  rw [printsDec_iff hn hValue]
  exact hn.le_iff.symm

/-- Two digits with a width of 5. -/
theorem decimal_iff_five : (PrintsDec 42 5 0 (fun _ => 0) ↔
      ∃ n, 1 ≤ n ∧ n ≤ max 5 (decimal 42).length ∧ 42 ≤ (10 ^ n - 1) % 2 ^ 32) ∧
    (PrintsSame 42 0 (fun _ => 0) ↔ 42 < 1410065408) :=
  decimal_iff 42 5 0 (fun _ => 0) (by decide)

/-- The largest word is shown with zeros before it, and by `monWDec` not at all. -/
theorem not_decimal : ¬ PrintsDec uint32Max 0 0 (fun _ => 0) ∧ ¬ PrintsSame uint32Max 0 (fun _ => 0) := by
  have hMax : uint32Max < 2 ^ 32 := by decide
  obtain ⟨n, hn⟩ := isWidth_exists (exists_width hMax)
  rw [printsDec_iff hn (by decide), printsSame_iff hn (by decide)]
  refine ⟨fun hLe => ?_, by decide⟩
  have hFits := hn.fits
  have hPos := hn.pos
  have hTen : n ≤ 10 := hLe.trans (max_le (by omega) (length_decimal_le (by omega) (by decide)))
  interval_cases n <;> exact absurd hFits (by decide)

end ArtOS.Kprintf

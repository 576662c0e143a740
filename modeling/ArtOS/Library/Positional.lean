import Mathlib.Algebra.Order.Ring.Nat
import Mathlib.Tactic.Ring

/-! Numbers from their digits, the most significant one first, and an accumulator that must not pass
a limit: whether a digit fits is decided without the number that it would give. -/
namespace Positional

variable {limit b acc d : Nat} {ds : List Nat}

/-- The number with these digits behind those of `acc`. -/
def value (b : Nat) (ds : List Nat) (acc : Nat) : Nat := ds.foldl (fun acc d => acc * b + d) acc

@[simp] theorem value_nil : value b [] acc = acc := rfl

@[simp] theorem value_cons : value b (d :: ds) acc = value b ds (acc * b + d) := rfl

theorem value_append {es : List Nat} : value b (ds ++ es) acc = value b es (value b ds acc) :=
  List.foldl_append

/-- Further digits never make a number smaller. -/
theorem le_value (hb : 0 < b) : acc ≤ value b ds acc := by
  induction ds generalizing acc with
  | nil => exact Nat.le_refl acc
  | cons d ds ih =>
      calc acc ≤ acc * b := Nat.le_mul_of_pos_right acc hb
        _ ≤ acc * b + d := Nat.le_add_right _ _
        _ ≤ value b ds (acc * b + d) := ih

theorem value_eq_add : value b ds acc = acc * b ^ ds.length + value b ds 0 := by
  induction ds generalizing acc with
  | nil => simp
  | cons d ds ih =>
      rw [value_cons, value_cons, ih, @ih (0 * b + d), List.length_cons]
      ring

/-- There is no room for the digit. -/
def Exceeds (limit b acc d : Nat) : Prop := limit / b < acc ∨ acc = limit / b ∧ limit % b < d

instance : Decidable (Exceeds limit b acc d) := inferInstanceAs (Decidable (_ ∨ _))

theorem exceeds_iff (hd : d < b) : Exceeds limit b acc d ↔ limit < acc * b + d := by
  have hSplit : limit / b * b + limit % b = limit := by
    rw [Nat.mul_comm]
    exact Nat.div_add_mod limit b
  have hMod : limit % b < b := Nat.mod_lt limit (by omega)
  rcases Nat.lt_trichotomy acc (limit / b) with hLess | hSame | hMore
  · have hRound : acc * b + b ≤ limit / b * b := by
      rw [← Nat.succ_mul]
      exact Nat.mul_le_mul_right b hLess
    refine iff_of_false ?_ (by omega)
    rintro (hMore | ⟨hSame, -⟩) <;> omega
  · rw [Exceeds, hSame]
    constructor
    · rintro (hMore | ⟨-, hDigit⟩) <;> omega
    · intro hPast
      exact Or.inr ⟨rfl, by omega⟩
  · have hRound : limit / b * b + b ≤ acc * b := by
      rw [← Nat.succ_mul]
      exact Nat.mul_le_mul_right b hMore
    exact iff_of_true (Or.inl hMore) (by omega)

/-- One digit. An accumulator that has passed the limit is lost. -/
def accumulate (limit b : Nat) (acc : Option Nat) (d : Nat) : Option Nat :=
  acc.bind fun acc => if Exceeds limit b acc d then none else some (acc * b + d)

theorem foldl_accumulate_none : ds.foldl (accumulate limit b) none = none := by
  induction ds with
  | nil => rfl
  | cons d ds ih => exact ih

theorem foldl_accumulate (hb : 0 < b) (hDigits : ∀ d ∈ ds, d < b) (hAcc : acc ≤ limit) :
    ds.foldl (accumulate limit b) (some acc) =
      if value b ds acc ≤ limit then some (value b ds acc) else none := by
  induction ds generalizing acc with
  | nil => rw [List.foldl_nil, value_nil, if_pos hAcc]
  | cons d ds ih =>
      have hFirst : accumulate limit b (some acc) d =
          if Exceeds limit b acc d then none else some (acc * b + d) := rfl
      rw [List.foldl_cons, value_cons, hFirst]
      by_cases hPast : Exceeds limit b acc d
      · have hLess := (exceeds_iff (hDigits d List.mem_cons_self)).mp hPast
        have hMore : ¬ value b ds (acc * b + d) ≤ limit :=
          Nat.not_le_of_lt (Nat.lt_of_lt_of_le hLess (le_value hb))
        rw [if_pos hPast, if_neg hMore, foldl_accumulate_none]
      · have hFits := Nat.le_of_not_lt (mt (exceeds_iff (hDigits d List.mem_cons_self)).mpr hPast)
        rw [if_neg hPast, ih (fun e he => hDigits e (List.mem_cons_of_mem _ he)) hFits]

end Positional

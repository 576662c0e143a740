import Mathlib.Logic.Basic
import Mathlib.Data.Option.Basic

/-! Results of computations that may not end. More fuel, or callees that end
more often, can add results but never change one. -/
namespace Partial

variable {α β : Type*}

/-- Where `x` has a result, `y` has the same one. -/
def Le (x y : Option α) : Prop := ∀ a, x = some a → y = some a

variable {x y : Option α} {f g : α → Option β}

theorem Le.refl : Le x x := fun _ h => h

theorem le_none : Le none y := fun _ h => absurd h (by simp)

theorem Le.bind (h : Le x y) (hf : ∀ a, Le (f a) (g a)) : Le (x.bind f) (y.bind g) := by
  intro b hb
  obtain ⟨a, ha, hfa⟩ := Option.bind_eq_some_iff.mp hb
  rw [h a ha, Option.bind_some]
  exact hf a b hfa

theorem Le.map {k : α → β} (h : Le x y) : Le (x.map k) (y.map k) := by
  intro b hb
  obtain ⟨a, ha, rfl⟩ := Option.map_eq_some_iff.mp hb
  rw [h a ha, Option.map_some]

theorem Le.ite {c : Prop} [Decidable c] {x' y' : Option α} (h : Le x y) (h' : Le x' y') :
    Le (if c then x else x') (if c then y else y') := by
  split
  · exact h
  · exact h'

/-- A computation that has the same result for any large fuel has no other one. -/
theorem Le.determined {f : Nat → Option α} {k : Nat} {P : α → Prop}
    (hMono : ∀ m n, m ≤ n → Le (f m) (f n)) (h : ∃ a, (∀ n, k ≤ n → f n = some a) ∧ P a) :
    (∃ n a, f n = some a) ∧ ∀ n a, f n = some a → P a := by
  obtain ⟨a, hRun, ha⟩ := h
  constructor
  · exact ⟨k, a, hRun k (Nat.le_refl k)⟩
  · intro n b hb
    have hLarge := hMono n (max n k) (Nat.le_max_left n k) b hb
    rw [hRun _ (Nat.le_max_right n k)] at hLarge
    exact Option.some.inj hLarge ▸ ha

/-- A loop has a result if each round has one, wherever the rounds before it lead. -/
theorem foldlM_rel {R : α → α → Prop} {step : α → β → Option α} (hRefl : ∀ a, R a a)
    (hTrans : ∀ {a b c}, R a b → R b c → R a c) (l : List β) {a : α}
    (hStep : ∀ x ∈ l, ∀ b, R a b → ∃ c, step b x = some c ∧ R b c) :
    ∃ b, l.foldlM step a = some b ∧ R a b := by
  induction l generalizing a with
  | nil => exact ⟨a, rfl, hRefl a⟩
  | cons x l ih =>
      obtain ⟨b, hFirst, hab⟩ := hStep x List.mem_cons_self a (hRefl a)
      obtain ⟨c, hRest, hbc⟩ := ih fun y hy d hbd =>
        hStep y (List.mem_cons_of_mem x hy) d (hTrans hab hbd)
      refine ⟨c, ?_, hTrans hab hbc⟩
      rw [List.foldlM_cons, hFirst]
      exact hRest

/-- What every round of a loop preserves, the loop preserves. -/
theorem foldlM_invariant {P : α → Prop} {step : α → β → Option α}
    (hStep : ∀ a x b, P a → step a x = some b → P b) {l : List β} {a b : α} (h : P a)
    (hLoop : l.foldlM step a = some b) : P b := by
  induction l generalizing a with
  | nil => exact Option.some.inj hLoop ▸ h
  | cons x l ih =>
      rw [List.foldlM_cons] at hLoop
      obtain ⟨c, hFirst, hRest⟩ := Option.bind_eq_some_iff.mp hLoop
      exact ih (hStep a x c h hFirst) hRest

/-- A loop over a range, with an invariant for each round. -/
theorem foldlM_range {P : Nat → α → Prop} {step : α → Nat → Option α} (n : Nat) {start : Nat} {a : α}
    (h : P start a) (hStep : ∀ k, start ≤ k → k < start + n → ∀ b, P k b →
      ∃ c, step b k = some c ∧ P (k + 1) c) :
    ∃ b, (List.range' start n).foldlM step a = some b ∧ P (start + n) b := by
  induction n generalizing start a with
  | zero => exact ⟨a, rfl, h⟩
  | succ n ih =>
      obtain ⟨b, hFirst, hb⟩ := hStep start (Nat.le_refl start) (by omega) a h
      obtain ⟨c, hRest, hc⟩ := ih hb fun k hLow hHigh => hStep k (by omega) (by omega)
      refine ⟨c, ?_, by rwa [Nat.add_right_comm] at hc⟩
      rw [List.range'_succ, List.foldlM_cons, hFirst]
      exact hRest

end Partial

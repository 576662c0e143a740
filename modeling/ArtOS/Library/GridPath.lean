import Mathlib.Logic.Basic
import Mathlib.Tactic.Ring

/-! Paths over the cells of a grid, the newest cell first: straight lines, and paths that never turn
back. -/
namespace Grid

inductive Direction where
  | up
  | down
  | left
  | right
  deriving DecidableEq, Repr

@[ext] structure Cell where
  x : Int
  y : Int
  deriving DecidableEq, Repr

namespace Direction

def opposite : Direction → Direction
  | up => down
  | down => up
  | left => right
  | right => left

def dx : Direction → Int
  | up | down => 0
  | left => -1
  | right => 1

def dy : Direction → Int
  | up => -1
  | down => 1
  | left | right => 0

end Direction

namespace Cell

/-- So many steps away; rows are counted from the top. -/
def advance (c : Cell) (d : Direction) (k : Nat) : Cell := ⟨c.x + k * d.dx, c.y + k * d.dy⟩

/-- The cells that `k` steps from here leave behind. -/
def ray (c : Cell) (d : Direction) : Nat → List Cell
  | 0 => []
  | k + 1 => c.advance d k :: ray c d k

/-- The way back from `a` to `b`, if it is a straight one. -/
def line (a b : Cell) : List Cell :=
  if a.x = b.x then
    if a.y < b.y then b.ray .up (b.y - a.y).toNat else b.ray .down (a.y - b.y).toNat
  else if a.y = b.y then
    if a.x < b.x then b.ray .left (b.x - a.x).toNat else b.ray .right (a.x - b.x).toNat
  else []

variable {c : Cell} {d d' : Direction} {k : Nat}

@[simp] theorem advance_zero (c : Cell) (d : Direction) : c.advance d 0 = c := by
  ext <;> simp [advance]

theorem advance_succ (c : Cell) (d : Direction) (k : Nat) : c.advance d (k + 1) = (c.advance d k).advance d 1 := by
  ext <;> simp only [advance, Nat.cast_add, Nat.cast_one] <;> ring

@[simp] theorem length_ray (c : Cell) (d : Direction) (k : Nat) : (c.ray d k).length = k := by
  induction k with
  | zero => rfl
  | succ k ih => rw [ray, List.length_cons, ih]

theorem line_advance (c : Cell) (d : Direction) (k : Nat) : line (c.advance d k) c = c.ray d k := by
  cases k with
  | zero => simp [line, ray]
  | succ k => cases d <;> simp [line, advance, Direction.dx, Direction.dy] <;> grind

/-- A step changes the colour of the cell, as on a chess board. -/
theorem advance_parity (c : Cell) (d : Direction) :
    (c.advance d 1).x + (c.advance d 1).y = c.x + c.y + 1 ∨ (c.advance d 1).x + (c.advance d 1).y = c.x + c.y - 1 := by
  cases d <;> simp [advance, Direction.dx, Direction.dy] <;> omega

/-- Two steps lead back only if the second one is back. -/
theorem advance_advance_ne (h : d' ≠ d.opposite) : (c.advance d 1).advance d' 1 ≠ c := by
  intro hBack
  obtain ⟨hx, hy⟩ := Cell.ext_iff.mp hBack
  apply h
  cases d <;> cases d' <;> simp [advance, Direction.dx, Direction.dy, Direction.opposite] at hx hy ⊢ <;> omega

end Cell

/-- A path whose last step went in direction `d`, and that never turns back. -/
inductive Way : Direction → List Cell → Prop
  | start (c : Cell) (d : Direction) : Way d [c]
  | step {c : Cell} {rest : List Cell} {d : Direction} (d' : Direction) (h : Way d (c :: rest))
      (hTurn : d' ≠ d.opposite) : Way d' (c.advance d' 1 :: c :: rest)

namespace Way

variable {c : Cell} {rest : List Cell} {d : Direction}

/-- To come back to a cell takes four steps. -/
theorem apart (h : Way d (c :: rest)) {i : Nat} (hi : i < 3) : rest[i]? ≠ some c := by
  cases h with
  | start => simp
  | @step c₁ rest₁ d₁ _ h₁ hTurn =>
      have hFirst := c₁.advance_parity d
      match i with
      | 0 =>
          intro hSame
          rw [← Option.some.inj hSame] at hFirst
          omega
      | 1 =>
          cases h₁ with
          | start => simp
          | @step c₂ rest₂ d₂ _ h₂ hTurn₂ =>
              intro hSame
              exact Cell.advance_advance_ne hTurn (Option.some.inj hSame).symm
      | 2 =>
          cases h₁ with
          | start => simp
          | @step c₂ rest₂ d₂ _ h₂ hTurn₂ =>
              cases h₂ with
              | start => simp
              | @step c₃ rest₃ d₃ _ h₃ hTurn₃ =>
                  intro hSame
                  have hSecond := (c₃.advance d₂ 1).advance_parity d₁
                  have hThird := c₃.advance_parity d₂
                  rw [← Option.some.inj hSame] at hFirst
                  omega

end Way
end Grid

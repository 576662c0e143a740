import ArtOS.Video.Snake

/-! The snake is where its head has been. The bends, and the array that is filled from them, are
compared with a game that keeps the visited cells. -/
namespace ArtOS

open Grid Grid.Cell

namespace Snake

/-- The cells from the bend `n` back to the first one. -/
def bendTrail (bend : Nat → Cell) : Nat → List Cell
  | 0 => []
  | n + 1 => line (bend (n + 1)) (bend n) ++ bendTrail bend n

/-- Where the head has been before, the newest cell first. -/
def older (s : Snake) : List Cell := line s.head (s.bend s.bendNo) ++ bendTrail s.bend s.bendNo

def trail (s : Snake) : List Cell := s.head :: s.older

/-- The entries that the loops make, as far as the length of the snake goes. -/
def push : List Cell → Snake → Option Snake
  | [], s => some s
  | c :: cells, s => if s.len < s.length then (s.put c).bind (push cells) else some s

def cellsFrom (cell : Int → Cell) : Nat → Int → List Cell
  | 0, _ => []
  | n + 1, i => cell i :: cellsFrom cell n (i + 1)

variable {s s' : Snake} {cells more : List Cell} {cell : Int → Cell} {n : Nat} {i j : Int} {c below : Cell}
variable {d : Direction} {k : Nat}

theorem put_eq (h : s.put c = some s') :
    s' = { s with body := Function.update s.body s.len c, len := s.len + 1 } := by
  rw [put] at h
  split at h
  · exact (Option.some.inj h).symm
  · cases h

theorem push_full (h : ¬ s.len < s.length) : push cells s = some s := by
  cases cells with
  | nil => rfl
  | cons c cells => exact if_neg h

theorem push_append : push (cells ++ more) s = (push cells s).bind (push more) := by
  induction cells generalizing s with
  | nil => rfl
  | cons c cells ih =>
      rw [List.cons_append, push, push]
      split
      · rw [Option.bind_assoc]
        exact congrArg _ (funext fun _ => ih)
      · rename_i hFull
        exact (push_full hFull).symm

/-- What the loops leave. -/
theorem push_spec (hLen : s.len ≤ s.length) (h : push cells s = some s') :
    ∃ body, s' = { s with body := body, len := s.len + min cells.length (s.length - s.len) } ∧
      (∀ i < s.len, body i = s.body i) ∧
      (∀ i < min cells.length (s.length - s.len), cells[i]? = some (body (s.len + i))) ∧
      ∀ i, s.len + min cells.length (s.length - s.len) ≤ i → body i = s.body i := by
  induction cells generalizing s with
  | nil =>
      obtain rfl := Option.some.inj h
      exact ⟨s.body, by simp, fun _ _ => rfl, fun i hi => by simp at hi, fun _ _ => rfl⟩
  | cons c cells ih =>
      rw [push] at h
      split at h
      · rename_i hRoom
        obtain ⟨s₁, hPut, hRest⟩ := Option.bind_eq_some_iff.mp h
        obtain rfl := put_eq hPut
        obtain ⟨body, rfl, hBefore, hCells, hBehind⟩ := ih (by exact hRoom) hRest
        have hMin : min (c :: cells).length (s.length - s.len) =
            min cells.length (s.length - (s.len + 1)) + 1 := by
          rw [List.length_cons]
          omega
        rw [hMin]
        refine ⟨body, ?_, fun i hi => ?_, fun i hi => ?_, fun i hi => ?_⟩
        · simp only [Snake.mk.injEq, true_and, and_true]
          omega
        · rw [hBefore i (Nat.lt_succ_of_lt hi)]
          exact Function.update_of_ne (Nat.ne_of_lt hi) _ _
        · cases i with
          | zero =>
              rw [Nat.add_zero, hBefore s.len (Nat.lt_succ_self _)]
              exact congrArg some (Function.update_self s.len c s.body).symm
          | succ i =>
              rw [List.getElem?_cons_succ, hCells i (Nat.lt_of_succ_lt_succ hi)]
              exact congrArg (fun j => some (body j)) (by simp only; omega)
        · rw [hBehind i (by simp only; omega)]
          exact Function.update_of_ne (by omega) _ _
      · rename_i hFull
        obtain rfl := Option.some.inj h
        have hNone : s.length - s.len = 0 := Nat.sub_eq_zero_of_le (Nat.not_lt.mp hFull)
        rw [hNone, Nat.min_zero]
        exact ⟨s.body, rfl, fun _ _ => rfl, fun i hi => absurd hi (Nat.not_lt_zero i), fun _ _ => rfl⟩

theorem push_isSome (hLength : s.length ≤ bodySize) : (push cells s).isSome := by
  induction cells generalizing s with
  | nil => rfl
  | cons c cells ih =>
      rw [push]
      split
      · rename_i hRoom
        rw [put, if_pos (Nat.lt_of_lt_of_le hRoom hLength)]
        exact ih hLength
      · rfl

/-- More entries than the array has. -/
theorem push_eq_none (hLen : s.len ≤ bodySize) (h : bodySize < s.len + min cells.length (s.length - s.len)) :
    push cells s = none := by
  induction cells generalizing s with
  | nil =>
      rw [List.length_nil, Nat.zero_min] at h
      exact absurd hLen (Nat.not_le.mpr h)
  | cons c cells ih =>
      rw [List.length_cons] at h
      have hRoom : s.len < s.length := by omega
      rw [push, if_pos hRoom, put]
      split
      · rename_i hSize
        refine ih (by exact hSize) ?_
        dsimp only
        omega
      · rfl

/-! The loops of the source. -/

theorem drawLoop_eq : drawLoop cell n i s = push (cellsFrom cell n i) s := by
  induction n generalizing i s with
  | zero => rfl
  | succ n ih =>
      rw [drawLoop, cellsFrom, push]
      exact if_congr Iff.rfl (congrArg _ (funext fun _ => ih)) rfl

theorem columnLoop_eq (h : s.len < s.length) : columnLoop cell n j s = push (cellsFrom cell n j) s := by
  induction n generalizing j s with
  | zero => rfl
  | succ n ih =>
      rw [columnLoop, cellsFrom, push, if_pos h]
      refine Option.bind_congr fun s₁ hPut => ?_
      obtain rfl := put_eq hPut
      split
      · rename_i hFull
        exact (push_full (Nat.not_lt.mpr (Nat.le_of_eq hFull.symm))).symm
      · rename_i hRoom
        exact ih (Nat.lt_of_le_of_ne h hRoom)

theorem rowLoop_eq : rowLoop cell n j s = push (cellsFrom cell n j) s := by
  induction n generalizing j s with
  | zero => rfl
  | succ n ih =>
      rw [rowLoop, cellsFrom, push]
      refine if_congr Iff.rfl (Option.bind_congr fun s₁ _ => ?_) rfl
      split
      · rename_i hFull
        exact (push_full (Nat.not_lt.mpr (Nat.le_of_eq hFull.symm))).symm
      · exact ih

/-- A loop that goes back from `a`, which is `k` steps away from `c`. -/
theorem cellsFrom_back {a : Cell} (hBack : ∀ i, cell i = ⟨a.x - i * d.dx, a.y - i * d.dy⟩)
    (ha : a = c.advance d k) : cellsFrom cell k 1 = c.ray d k ∧ cellsFrom cell (k + 1) 0 = a :: c.ray d k := by
  have hFrom : ∀ m n, n + m = k → cellsFrom cell n (m + 1 : Nat) = c.ray d n := by
    intro m n hSum
    induction n generalizing m with
    | zero => rfl
    | succ n ih =>
        have hCell : cell (m + 1 : Nat) = c.advance d n := by
          rw [hBack, ha, ← hSum]
          ext <;> simp only [Cell.advance, Nat.cast_add, Nat.cast_one] <;> ring
        rw [cellsFrom, ray, hCell]
        exact congrArg _ (ih (m + 1) (by omega))
  have hFirst : cell 0 = a := by simp [hBack]
  have hRest := hFrom 0 k (Nat.add_zero k)
  exact ⟨hRest, by rw [cellsFrom, hFirst]; exact congrArg _ hRest⟩

/-- One turn of the loop of `Bend`. -/
theorem strip_eq {a b : Cell} (h : s.len < s.length) :
    (if a.x = b.x then
      if a.y - b.y < 0 then columnLoop (fun j => ⟨a.x, a.y + j⟩) (-(a.y - b.y)).toNat 1 s
      else if a.y - b.y > 0 then columnLoop (fun j => ⟨a.x, a.y - j⟩) (a.y - b.y).toNat 1 s
      else some s
    else if a.y = b.y then
      if a.x - b.x < 0 then rowLoop (fun j => ⟨a.x + j, a.y⟩) (-(a.x - b.x)).toNat 1 s
      else if a.x - b.x > 0 then rowLoop (fun j => ⟨a.x - j, a.y⟩) (a.x - b.x).toNat 1 s
      else some s
    else some s) = push (line a b) s := by
  have hAhead (d : Direction) (k : Nat) (hx : a.x = b.x + k * d.dx) (hy : a.y = b.y + k * d.dy) :
      a = b.advance d k := Cell.ext hx hy
  rw [line]
  split
  · rename_i hColumn
    by_cases hUp : a.y < b.y
    · have ha := hAhead .up (b.y - a.y).toNat (by simp [Direction.dx, hColumn]) (by simp [Direction.dy]; omega)
      rw [if_pos hUp, if_pos (by omega), columnLoop_eq h, neg_sub]
      exact congrArg (push · s) (cellsFrom_back (fun i => by simp [Direction.dx, Direction.dy]) ha).1
    · rw [if_neg hUp, if_neg (by omega)]
      by_cases hDown : b.y < a.y
      · have ha := hAhead .down (a.y - b.y).toNat (by simp [Direction.dx, hColumn]) (by simp [Direction.dy]; omega)
        rw [if_pos (by omega), columnLoop_eq h]
        exact congrArg (push · s) (cellsFrom_back (fun i => by simp [Direction.dx, Direction.dy]) ha).1
      · have hNone : (a.y - b.y).toNat = 0 := by omega
        rw [if_neg (by omega), hNone]
        rfl
  · split
    · rename_i hRow
      by_cases hLeft : a.x < b.x
      · have ha := hAhead .left (b.x - a.x).toNat (by simp [Direction.dx]; omega) (by simp [Direction.dy, hRow])
        rw [if_pos hLeft, if_pos (by omega), rowLoop_eq, neg_sub]
        exact congrArg (push · s) (cellsFrom_back (fun i => by simp [Direction.dx, Direction.dy]) ha).1
      · have ha := hAhead .right (a.x - b.x).toNat (by simp [Direction.dx]; omega) (by simp [Direction.dy, hRow])
        rw [if_neg hLeft, if_neg (by omega), if_pos (by omega), rowLoop_eq]
        exact congrArg (push · s) (cellsFrom_back (fun i => by simp [Direction.dx, Direction.dy]) ha).1
    · rfl

/-- The first bend is neither in the row nor in the column of what is before the array. -/
def Apart (below : Cell) (s : Snake) : Prop := (s.bend 0).x ≠ below.x ∧ (s.bend 0).y ≠ below.y

theorem bendLoop_eq (hApart : Apart below s) (n : Nat) :
    bendLoop below (n + 1) s = push (bendTrail s.bend n) s := by
  induction n generalizing s with
  | zero =>
      have hLine : line (s.bend 0) (s.bendBefore below 0) = [] := by
        rw [line, bendBefore, if_neg hApart.1, if_neg hApart.2]
      rw [bendLoop]
      split
      · rename_i hRoom
        dsimp only
        rw [strip_eq hRoom, hLine]
        rfl
      · rfl
  | succ n ih =>
      rw [bendLoop]
      split
      · rename_i hRoom
        dsimp only
        rw [strip_eq hRoom, bendTrail, push_append]
        refine Option.bind_congr fun s₁ hPush => ?_
        obtain ⟨body, rfl, -⟩ := push_spec (Nat.le_of_lt hRoom) hPush
        exact ih hApart
      · rename_i hFull
        exact (push_full hFull).symm

/-- The head is on a straight line with the last bend. -/
def Straight (s : Snake) : Prop := ∃ k, s.head = (s.bend s.bendNo).advance s.direction k

/-- The common form of the four functions draws the trail. -/
theorem go_eq {moves : Bool} {distance : Int} {ahead : Cell} (hApart : Apart below s) (hLen : s.len ≤ s.length)
    (hCells : cellsFrom cell (distance + 1).toNat 0 = s.head :: line s.head (s.bend s.bendNo)) :
    s.go below moves cell distance ahead =
      (push s.trail s).map fun s => if moves then { s with head := ahead } else s := by
  rw [go, drawLoop_eq, hCells, trail, older, ← List.cons_append, push_append, Option.map_bind]
  refine Option.bind_congr fun s₁ hPush => ?_
  obtain ⟨body, rfl, -⟩ := push_spec hLen hPush
  exact congrArg _ (bendLoop_eq (s := { s with body := body, len := _ }) hApart s.bendNo)

theorem advance_eq {moves : Bool} (hApart : Apart below s) (hLen : s.len ≤ s.length) (hStraight : s.Straight) :
    s.advance below moves =
      (push s.trail s).map fun s' => if moves then { s' with head := s.head.advance s.direction 1 } else s' := by
  obtain ⟨k, hHead⟩ := hStraight
  have hLine : line s.head (s.bend s.bendNo) = (s.bend s.bendNo).ray s.direction k := by
    rw [hHead, line_advance]
  -- the loop of each function goes back from the head, and `ahead` is one step on
  have hGo {cell : Int → Cell} {distance : Int} {ahead : Cell} (hDistance : (distance + 1).toNat = k + 1)
      (hBack : ∀ i, cell i = ⟨s.head.x - i * s.direction.dx, s.head.y - i * s.direction.dy⟩)
      (hAhead : ahead = s.head.advance s.direction 1) : s.go below moves cell distance ahead =
        (push s.trail s).map fun s' => if moves then { s' with head := s.head.advance s.direction 1 } else s' := by
    rw [go_eq hApart hLen, hAhead]
    rw [hDistance, hLine]
    exact (cellsFrom_back hBack hHead).2
  have hx := congrArg Cell.x hHead
  have hy := congrArg Cell.y hHead
  rw [Snake.advance]
  cases hDirection : s.direction with
  | up =>
      simp only [hDirection, Cell.advance, Direction.dx, Direction.dy] at hx hy hGo ⊢
      exact hGo (by omega) (fun i => by ext <;> simp) (by ext <;> simp; omega)
  | down =>
      simp only [hDirection, Cell.advance, Direction.dx, Direction.dy] at hx hy hGo ⊢
      exact hGo (by omega) (fun i => by ext <;> simp) (by ext <;> simp)
  | left =>
      simp only [hDirection, Cell.advance, Direction.dx, Direction.dy] at hx hy hGo ⊢
      exact hGo (by omega) (fun i => by ext <;> simp) (by ext <;> simp; omega)
  | right =>
      simp only [hDirection, Cell.advance, Direction.dx, Direction.dy] at hx hy hGo ⊢
      exact hGo (by omega) (fun i => by ext <;> simp) (by ext <;> simp)

/-! The array `body`. -/

theorem clearLoop_apply {length left i : Nat} {body : Nat → Cell} (j : Nat) :
    clearLoop length left i body j =
      if i ≤ j ∧ j < i + left ∧ (i ≤ length → j ≤ length) then ⟨0, 0⟩ else body j := by
  induction left generalizing i body with
  | zero =>
      rw [clearLoop, if_neg]
      omega
  | succ left ih =>
      rw [clearLoop]
      split
      · rename_i hLast
        rw [Function.update_apply]
        exact if_congr (by omega) rfl rfl
      · rename_i hMore
        rw [ih, Function.update_apply, ← ite_or]
        exact if_congr (by omega) rfl rfl

theorem clear_body (s : Snake) {j : Nat} (hj : j < bodySize) (hLength : j ≤ s.length) :
    s.clear.body j = ⟨0, 0⟩ := by
  rw [clear]
  dsimp only
  rw [clearLoop_apply, if_pos]
  omega

theorem touches_true {left i : Nat} (h : s.touches left i = some true) :
    ∃ j, i ≤ j ∧ j < i + left ∧ j < bodySize ∧ s.body 0 = s.body j := by
  induction left generalizing i with
  | zero => cases h
  | succ left ih =>
      rw [touches] at h
      split at h
      · rename_i hSize
        split at h
        · rename_i hSame
          exact ⟨i, Nat.le_refl i, by omega, hSize, hSame⟩
        · obtain ⟨j, hFrom, hTo, hj⟩ := ih h
          exact ⟨j, by omega, by omega, hj⟩
      · cases h

theorem touches_false {left i : Nat} (h : s.touches left i = some false) (j : Nat) (hFrom : i ≤ j)
    (hTo : j < i + left) : s.body 0 ≠ s.body j := by
  induction left generalizing i with
  | zero => omega
  | succ left ih =>
      rw [touches] at h
      split at h
      · split at h
        · cases h
        · rename_i hOther
          rcases Nat.eq_or_lt_of_le hFrom with rfl | hLater
          · exact hOther
          · exact ih h hLater (by omega)
      · cases h

theorem touches_isSome {left i : Nat} (h : i + left ≤ bodySize) : (s.touches left i).isSome := by
  induction left generalizing i with
  | zero => rfl
  | succ left ih =>
      rw [touches, if_pos (by omega)]
      split
      · rfl
      · exact ih (by omega)

/-- One step from the corner does not lead away from the wall. -/
theorem atWall_corner (h : c = ⟨0, 0⟩) (d : Direction) : AtWall c ∧ AtWall (c.advance d 1) := by
  subst h
  cases d <;> decide

/-- What `ExitGame` finds out is whether the head is at the wall or on the rest of the snake: it is
enough to look at the entries from 4 on, and entries that are not filled do no harm. -/
theorem touches_iff {check : Bool} {ahead : Cell} (h : s.touches (s.length - 4) 4 = some check)
    (hPath : Way d (c :: cells)) (hLength : 4 ≤ s.length) (hAhead : ahead = c ∨ ahead = c.advance d 1)
    (hFilled : s.len = min (cells.length + 1) s.length) (hBody : ∀ i < s.len, (c :: cells)[i]? = some (s.body i))
    (hEmpty : ∀ i, s.len ≤ i → i < bodySize → i ≤ s.length → s.body i = ⟨0, 0⟩) :
    AtWall ahead ∨ check = true ↔ AtWall ahead ∨ c ∈ cells.take (s.length - 1) := by
  have hHead : s.body 0 = c := by
    have hFirst := hBody 0 (by omega)
    exact (Option.some.inj hFirst).symm
  by_cases hCorner : c = ⟨0, 0⟩
  · have hWall : AtWall ahead := by
      rcases hAhead with rfl | rfl
      · exact (atWall_corner hCorner d).1
      · exact (atWall_corner hCorner d).2
    exact iff_of_true (Or.inl hWall) (Or.inl hWall)
  refine or_congr_right ⟨fun hCheck => ?_, fun hMem => ?_⟩
  · rw [hCheck] at h
    obtain ⟨j, hFrom, hTo, hSize, hSame⟩ := touches_true h
    rw [hHead] at hSame
    by_cases hj : j < s.len
    · obtain ⟨i, rfl⟩ := Nat.exists_eq_succ_of_ne_zero (Nat.ne_of_gt (Nat.lt_of_lt_of_le (by decide) hFrom))
      have hCell := hBody (i + 1) hj
      rw [List.getElem?_cons_succ, ← hSame] at hCell
      refine List.mem_of_getElem? (i := i) ?_
      rw [List.getElem?_take, if_pos (by omega), hCell]
    · exact absurd (hSame.trans (hEmpty j (Nat.not_lt.mp hj) hSize (by omega))) hCorner
  · obtain ⟨i, hi⟩ := List.mem_iff_getElem?.mp hMem
    rw [List.getElem?_take] at hi
    split at hi
    · rename_i hNear
      have hFar : 3 ≤ i := Nat.not_lt.mp fun hNear => hPath.apart hNear hi
      have hLess : i < cells.length := (List.getElem?_eq_some_iff.mp hi).1
      have hCell := hBody (i + 1) (by omega)
      rw [List.getElem?_cons_succ, hi] at hCell
      cases hCheck : check with
      | true => rfl
      | false =>
          rw [hCheck] at h
          exact absurd (hHead.trans (Option.some.inj hCell)) (touches_false h (i + 1) (by omega) (by omega))
    · cases hi

end Snake

/-- The same game on the cells themselves: the snake is the newest part of the way of its head. -/
structure Game where
  head : Cell
  older : List Cell
  direction : Direction
  key : Option Direction
  length : Nat
  life : Int
  food : Cell
  next : RandSeed
  phase : Snake.Phase
  depth : Nat

namespace Game

open Snake

/-- What a snake eats makes it longer. -/
def feed (ticks : RandSeed) (g : Game) : Game :=
  if g.head = g.food then
    { g with length := g.length + 1, food := (newFood ticks).1, next := (newFood ticks).2 }
  else if g.food.x = 0 then { g with food := (newFood g.next).1, next := (newFood g.next).2 }
  else g

/-- The snake begins with five cells, of which it has been on none but the first. -/
def start (ticks : RandSeed) (key : Option Direction) (food : Cell) (next : RandSeed) : Game :=
  feed ticks ⟨⟨25, 20⟩, [], .right, key, 5, 3, food, next, .playing, 0⟩

def drawn (g : Game) : List Cell := (g.head :: g.older).take g.length

def moveOn (d : Direction) (g : Game) : Game :=
  { g with head := g.head.advance d 1, older := g.head :: g.older, direction := d }

def loopEnd (more : Bool) (g : Game) : Game := { g with phase := if more then .playing else .asking }

/-- It costs a life, and the snake starts anew; without lives it goes on as it is. -/
def caught (more : Bool) (g : Game) : Game :=
  let g := { g with life := g.life - 1 }
  if 0 ≤ g.life then
    { g with head := ⟨25, 20⟩, older := [], direction := .right, depth := g.depth + 1, phase := .playing }
  else g.loopEnd more

/-- A snake is caught if its head has been on the rest of it, or gets to the wall. -/
def frame (ticks : RandSeed) (moves more : Bool) (g : Game) : Game :=
  let g := g.feed ticks
  let bites := g.head ∈ g.drawn.tail
  let g := if moves then g.moveOn g.direction else g
  if AtWall g.head ∨ bites then g.caught more else g.loopEnd more

def keys (a c : BitVec 8) (more : Bool) (g : Game) : Game :=
  if a = 27 then
    if g.depth = 0 then { g with phase := .over } else { g with depth := g.depth - 1 }.loopEnd more
  else
    let g := { g with key := keyOf c g.key, phase := .playing }
    match g.key with
    | none => g
    | some d => if d ≠ g.direction ∧ d ≠ g.direction.opposite then g.moveOn d else g

def act (g : Game) : Input → Game
  | .arrow d => { g with key := some d }
  | .frame ticks moves more => g.frame ticks moves more
  | .keys a c more => g.keys a c more

end Game

namespace Snake

/-- The game that the variables stand for. -/
def game (s : Snake) : Game :=
  ⟨s.head, s.older, s.direction, s.key, s.length, s.life, s.food, s.next, s.phase, s.depth⟩

structure Inv (s : Snake) : Prop where
  straight : s.Straight
  path : Way s.direction s.trail
  first : s.bend 0 = ⟨25, 20⟩
  length : 5 ≤ s.length

variable {s s' : Snake} {below : Cell} {ticks : RandSeed} {moves more : Bool} {a c : BitVec 8}

/-- `Food` lets the way of the snake alone. -/
theorem feed_eq (ticks : RandSeed) (s : Snake) : ∃ length food next,
    s.feed ticks = { s with length := length, food := food, next := next } ∧ s.length ≤ length ∧
      s.game.feed ticks = { s.game with length := length, food := food, next := next } := by
  rw [feed, Game.feed, game]
  split
  · exact ⟨_, _, _, rfl, Nat.le_succ _, rfl⟩
  · split
    · exact ⟨_, _, _, rfl, Nat.le_refl _, rfl⟩
    · exact ⟨_, _, _, rfl, Nat.le_refl _, rfl⟩

/-- A step of the head adds a cell to the trail. -/
theorem older_ahead (h : s.Straight) :
    line (s.head.advance s.direction 1) (s.bend s.bendNo) = s.head :: line s.head (s.bend s.bendNo) := by
  obtain ⟨k, hHead⟩ := h
  rw [hHead, ← advance_succ, line_advance, line_advance, ray]

/-- And so does a turn. -/
theorem older_turn (s : Snake) (d : Direction) :
    line (s.head.advance d 1) s.head ++ bendTrail (Function.update s.bend (s.bendNo + 1) s.head) (s.bendNo + 1) =
      s.trail := by
  have hKept : ∀ n ≤ s.bendNo, bendTrail (Function.update s.bend (s.bendNo + 1) s.head) n = bendTrail s.bend n := by
    intro n hn
    induction n with
    | zero => rfl
    | succ n ih =>
        rw [bendTrail, bendTrail, ih (Nat.le_of_succ_le hn), Function.update_of_ne (by omega),
          Function.update_of_ne (by omega)]
  rw [line_advance, bendTrail, Function.update_self, Function.update_of_ne (Nat.succ_ne_self _).symm,
    hKept _ (Nat.le_refl _)]
  simp [ray, trail, older]

theorem opposite_ne (d : Direction) : d ≠ d.opposite := by cases d <;> decide

theorem Inv.ahead (h : s.Inv) : Inv { s with head := s.head.advance s.direction 1 } where
  straight := by
    obtain ⟨k, hHead⟩ := h.straight
    exact ⟨k + 1, (congrArg (·.advance s.direction 1) hHead).trans (advance_succ _ _ _).symm⟩
  path := by
    have hStep := Way.step s.direction h.path (opposite_ne _)
    have hTrail : trail { s with head := s.head.advance s.direction 1 } =
        s.head.advance s.direction 1 :: s.trail := by
      rw [trail, older, older_ahead h.straight]
      rfl
    exact hTrail ▸ hStep
  first := h.first
  length := h.length

theorem Inv.turn (h : s.Inv) {d : Direction} (hTurn : d ≠ s.direction.opposite) :
    Inv { s with
      bendNo := s.bendNo + 1
      bend := Function.update s.bend (s.bendNo + 1) s.head
      direction := d
      head := s.head.advance d 1 } where
  straight := ⟨1, by simp⟩
  path := by
    have hStep := Way.step d h.path hTurn
    rw [← trail, ← older_turn s d] at hStep
    rw [trail, older]
    dsimp only
    rw [Function.update_self]
    exact hStep
  first := (Function.update_of_ne (Nat.succ_ne_zero s.bendNo).symm s.head s.bend).trans h.first
  length := h.length

theorem Inv.anew (h : s.Inv) (life : Int) (depth : Nat) (phase : Phase) :
    Inv { s with
      life := life, head := ⟨25, 20⟩, bendNo := 0, direction := .right, depth := depth, phase := phase } where
  straight := ⟨0, by simp [h.first]⟩
  path := by
    rw [trail, older]
    dsimp only
    rw [h.first]
    exact Way.start _ _
  first := h.first
  length := h.length

/-- What is drawn in a frame, and what the head does. -/
theorem advance_spec {t : Snake} (hInv : t.Inv) (hApart : Apart below t) (hLen : t.len = 0)
    (h : t.advance below moves = some s') : ∃ (body : Nat → Cell) (ahead : Cell),
      s' = { t with body := body, len := min t.trail.length t.length, head := ahead } ∧
      ahead = (if moves then t.head.advance t.direction 1 else t.head) ∧
      (∀ i < min t.trail.length t.length, t.trail[i]? = some (body i)) ∧
      ∀ i, min t.trail.length t.length ≤ i → body i = t.body i := by
  rw [advance_eq hApart (hLen ▸ Nat.zero_le _) hInv.straight] at h
  obtain ⟨s₁, hPush, rfl⟩ := Option.map_eq_some_iff.mp h
  obtain ⟨body, rfl, -, hCells, hRest⟩ := push_spec (hLen ▸ Nat.zero_le _) hPush
  simp only [hLen, Nat.sub_zero, Nat.zero_add] at hCells hRest ⊢
  refine ⟨body, if moves then t.head.advance t.direction 1 else t.head, ?_, rfl, hCells, hRest⟩
  split <;> rfl

theorem Inv.refed (h : s.Inv) {length : Nat} (hLength : s.length ≤ length) (food : Cell) (next : RandSeed)
    (body : Nat → Cell) (len : Nat) :
    Inv { s with length := length, food := food, next := next, body := body, len := len } :=
  ⟨h.straight, h.path, h.first, h.length.trans hLength⟩

/-- The end of `ExitGame`, once it is known whether the snake is caught. -/
def caught (more : Bool) (s : Snake) : Snake :=
  let s := { s with life := s.life - 1 }
  if 0 ≤ s.life then
    { s with head := ⟨25, 20⟩, bendNo := 0, direction := .right, depth := s.depth + 1, phase := .playing }
  else s.loopEnd more

/-- The other variables. -/
theorem Inv.rest (h : s.Inv) (key : Option Direction) (life : Int) (phase : Phase) (depth : Nat) :
    Inv { s with key := key, life := life, phase := phase, depth := depth } :=
  ⟨h.straight, h.path, h.first, h.length⟩

theorem Inv.loopEnd (h : s.Inv) (more : Bool) : (s.loopEnd more).Inv := h.rest _ _ _ _

theorem Inv.caught (h : s.Inv) (more : Bool) : (s.caught more).Inv := by
  rw [Snake.caught]
  dsimp only
  split
  · exact h.anew _ _ _
  · exact h.rest _ _ _ _

theorem caught_body (more : Bool) (s : Snake) : (s.caught more).len = s.len ∧ (s.caught more).body = s.body := by
  rw [caught]
  dsimp only
  split <;> exact ⟨rfl, rfl⟩

theorem game_caught (h : s.Inv) (more : Bool) : (s.caught more).game = s.game.caught more := by
  rw [caught, Game.caught]
  dsimp only
  by_cases hLife : 0 ≤ s.life - 1
  · have hAnew : line ⟨25, 20⟩ (s.bend 0) = [] := by
      rw [h.first]
      rfl
    rw [if_pos hLife, if_pos (by exact hLife)]
    simp only [game, older, hAnew, bendTrail, List.append_nil]
  · rw [if_neg hLife, if_neg (by exact hLife)]
    rfl

theorem drawn_tail (g : Game) : g.drawn.tail = g.older.take (g.length - 1) := by
  rw [Game.drawn]
  cases g.length with
  | zero => rfl
  | succ n => rfl

/-- The head has moved, or not. -/
theorem Inv.moved (h : s.Inv) {ahead : Cell} (hAhead : ahead = if moves then s.head.advance s.direction 1 else s.head) :
    Inv { s with head := ahead } ∧
      game { s with head := ahead } = if moves then s.game.moveOn s.direction else s.game := by
  subst hAhead
  split
  · refine ⟨h.ahead, ?_⟩
    simp only [game, older, older_ahead h.straight]
    rfl
  · exact ⟨h, rfl⟩

theorem map_range_eq {cells : List Cell} {body : Nat → Cell} {n : Nat}
    (h : ∀ i < min cells.length n, cells[i]? = some (body i)) :
    (List.range (min cells.length n)).map body = cells.take n := by
  refine List.ext_getElem? fun i => ?_
  rw [List.getElem?_take, List.getElem?_map]
  by_cases hi : i < min cells.length n
  · rw [List.getElem?_range hi, if_pos (lt_min_iff.mp hi).2, h i hi]
    rfl
  · rw [List.getElem?_eq_none (by rw [List.length_range]; omega), Option.map_none]
    split
    · exact (List.getElem?_eq_none (by omega)).symm
    · rfl

/-- A frame as far as `ExitGame`. -/
theorem advance_refines (hInv : s.Inv) (hApart : Apart below s)
    (h : (s.feed ticks).clear.advance below moves = some s') :
    s'.Inv ∧ s'.game = (if moves then (s.game.feed ticks).moveOn s.direction else s.game.feed ticks) ∧
      (List.range s'.len).map s'.body = (s.game.feed ticks).drawn ∧
      ∀ check, s'.touches (s'.length - 4) 4 = some check →
        (AtWall s'.head ∨ check = true ↔ AtWall s'.head ∨ s.head ∈ (s.game.feed ticks).drawn.tail) := by
  obtain ⟨length, food, next, hFeed, hLonger, hGame⟩ := feed_eq ticks s
  rw [hFeed] at h
  have hFed := hInv.refed hLonger food next (clearLoop length bodySize 0 s.body) 0
  obtain ⟨body, ahead, rfl, hAhead, hCells, hRest⟩ := advance_spec hFed hApart rfl h
  obtain ⟨hMoved, hMovedGame⟩ := (hInv.refed hLonger food next body (min s.trail.length length)).moved hAhead
  rw [drawn_tail, hGame]
  refine ⟨hMoved, hMovedGame, map_range_eq hCells, fun check hTouches => ?_⟩
  refine touches_iff hTouches hInv.path (Nat.le_of_succ_le (hInv.length.trans hLonger)) ?_ rfl hCells
    fun i hi hSize hLength => (hRest i hi).trans (clear_body { s with length := length } hSize hLength)
  rw [hAhead]
  split
  · exact Or.inr rfl
  · exact Or.inl rfl

/-- A frame, of the array and of the game. -/
theorem frame_refines (hInv : s.Inv) (hApart : Apart below s) (h : s.frame below ticks moves more = some s') :
    s'.Inv ∧ s'.game = s.game.frame ticks moves more ∧
      (List.range s'.len).map s'.body = (s.game.feed ticks).drawn := by
  obtain ⟨s₁, hAdvance, hExit⟩ := Option.bind_eq_some_iff.mp h
  obtain ⟨hInv₁, hGame, hBody, hCaught⟩ := advance_refines hInv hApart hAdvance
  obtain ⟨check, hTouches, hEnd⟩ := Option.map_eq_some_iff.mp hExit
  obtain ⟨hHead, hDirection⟩ :
      (s.game.feed ticks).head = s.head ∧ (s.game.feed ticks).direction = s.direction := by
    obtain ⟨_, _, _, -, -, hFed⟩ := feed_eq ticks s
    rw [hFed]
    exact ⟨rfl, rfl⟩
  have hFrame : s.game.frame ticks moves more =
      if AtWall s₁.head ∨ s.head ∈ (s.game.feed ticks).drawn.tail then s₁.game.caught more
      else s₁.game.loopEnd more := by
    rw [hGame, Game.frame, hDirection, hHead]
    rw [← hGame]
    rfl
  have hDecided : (if AtWall s₁.head ∨ s.head ∈ (s.game.feed ticks).drawn.tail then s₁.caught more
      else s₁.loopEnd more) = s' :=
    (if_congr (hCaught check hTouches) rfl rfl).symm.trans hEnd
  rw [hFrame]
  split at hDecided
  · rename_i hCondition
    subst hDecided
    rw [if_pos hCondition, (caught_body more s₁).1, (caught_body more s₁).2]
    exact ⟨hInv₁.caught more, game_caught hInv₁ more, hBody⟩
  · rename_i hCondition
    subst hDecided
    rw [if_neg hCondition]
    exact ⟨hInv₁.loopEnd more, rfl, hBody⟩

/-- The keys that `Move` asks for. -/
theorem keys_refines (hInv : s.Inv) (h : s.keys a c more = some s') :
    s'.Inv ∧ s'.game = s.game.keys a c more := by
  rw [keys] at h
  rw [Game.keys]
  split at h
  · rename_i hEscape
    rw [if_pos hEscape]
    obtain rfl := Option.some.inj h
    by_cases hDepth : s.depth = 0
    · rw [if_pos hDepth, if_pos (by exact hDepth)]
      exact ⟨hInv.rest _ _ _ _, rfl⟩
    · rw [if_neg hDepth, if_neg (by exact hDepth)]
      exact ⟨hInv.rest _ _ _ _, rfl⟩
  · rename_i hOther
    rw [if_neg hOther]
    dsimp only at h ⊢
    have hKey : keyOf c s.game.key = keyOf c s.key := rfl
    rw [hKey]
    cases hd : keyOf c s.key with
    | none =>
        rw [hd] at h
        obtain rfl := Option.some.inj h
        exact ⟨hInv.rest _ _ _ _, rfl⟩
    | some d =>
        rw [hd] at h
        dsimp only at h ⊢
        by_cases hTurn : d ≠ s.direction ∧ d ≠ s.direction.opposite
        · rw [if_pos hTurn] at h
          rw [if_pos (by exact hTurn)]
          split at h
          · obtain rfl := Option.some.inj h
            refine ⟨(hInv.turn hTurn.2).rest _ _ _ _, ?_⟩
            simp only [game, older, Function.update_self, older_turn]
            rfl
          · cases h
        · rw [if_neg hTurn] at h
          rw [if_neg (by exact hTurn)]
          obtain rfl := Option.some.inj h
          exact ⟨hInv.rest _ _ _ _, rfl⟩

/-- What is in memory before the array `bend` is in line with the start neither way. -/
def Far (below : Cell) : Prop := below.x ≠ 25 ∧ below.y ≠ 20

instance (below : Cell) : Decidable (Far below) := inferInstanceAs (Decidable (_ ∧ _))

theorem Inv.apart (h : s.Inv) (hFar : Far below) : Apart below s := by
  rw [Apart, h.first]
  exact ⟨hFar.1.symm, hFar.2.symm⟩

/-- The game of the arrays is that of the cells. -/
theorem act_refines (hInv : s.Inv) (hFar : Far below) {input : Input} (h : s.act below input = some s') :
    s'.Inv ∧ s'.game = s.game.act input := by
  cases input with
  | arrow d =>
      obtain rfl := Option.some.inj h
      exact ⟨hInv.rest _ _ _ _, rfl⟩
  | frame ticks moves more =>
      obtain ⟨hInv', hGame, -⟩ := frame_refines hInv (hInv.apart hFar) h
      exact ⟨hInv', hGame⟩
  | keys a c more => exact keys_refines hInv h

theorem advance_isSome (moves : Bool) (hInv : s.Inv) (hApart : Apart below s) (hLen : s.len = 0)
    (hLength : s.length ≤ bodySize) :
    ∃ s', s.advance below moves = some s' ∧ s'.length = s.length := by
  have hSome : (s.advance below moves).isSome := by
    rw [advance_eq hApart (hLen ▸ Nat.zero_le _) hInv.straight, Option.isSome_map]
    exact push_isSome hLength
  obtain ⟨s', hAdvance⟩ := Option.isSome_iff_exists.mp hSome
  obtain ⟨body, ahead, rfl, -⟩ := advance_spec hInv hApart hLen hAdvance
  exact ⟨_, hAdvance, rfl⟩

/-- As long as the snake fits into its array, a frame writes and reads nothing behind it. -/
theorem frame_isSome (hInv : s.Inv) (hApart : Apart below s) (hLength : (s.game.feed ticks).length ≤ bodySize) :
    ∃ s', s.frame below ticks moves more = some s' := by
  obtain ⟨length, food, next, hFeed, hLonger, hGame⟩ := feed_eq ticks s
  rw [hGame] at hLength
  have hFed := hInv.refed hLonger food next (clearLoop length bodySize 0 s.body) 0
  obtain ⟨s₁, hAdvance, hSame⟩ := advance_isSome moves hFed hApart rfl hLength
  have hFour : 4 ≤ length := Nat.le_of_succ_le (hInv.length.trans hLonger)
  have hTouches : (s₁.touches (s₁.length - 4) 4).isSome := by
    refine touches_isSome ?_
    rw [hSame]
    exact (Nat.add_sub_of_le hFour).le.trans hLength
  obtain ⟨check, hCheck⟩ := Option.isSome_iff_exists.mp hTouches
  have hRun : (s.feed ticks).clear.advance below moves = some s₁ := by
    rw [hFeed]
    exact hAdvance
  rw [frame, hRun, Option.bind_some, exitGame, hCheck]
  exact ⟨_, rfl⟩

theorem advance_eq_none (moves : Bool) (hInv : s.Inv) (hApart : Apart below s) (hLen : s.len = 0)
    (hLength : bodySize < s.length) (hTrail : bodySize < s.trail.length) : s.advance below moves = none := by
  rw [advance_eq hApart (hLen ▸ Nat.zero_le _) hInv.straight, push_eq_none (hLen ▸ Nat.zero_le _), Option.map_none]
  rw [hLen, Nat.zero_add, Nat.sub_zero]
  exact lt_min hTrail hLength

/-- A snake that has outgrown the array is written behind it. -/
theorem frame_eq_none (hInv : s.Inv) (hApart : Apart below s) (hLength : bodySize < (s.game.feed ticks).length)
    (hTrail : bodySize < s.trail.length) : s.frame below ticks moves more = none := by
  obtain ⟨length, food, next, hFeed, hLonger, hGame⟩ := feed_eq ticks s
  rw [hGame] at hLength
  have hFed := hInv.refed hLonger food next (clearLoop length bodySize 0 s.body) 0
  have hRun : (s.feed ticks).clear.advance below moves = none := by
    rw [hFeed]
    exact advance_eq_none moves hFed hApart rfl hLength hTrail
  rw [frame, hRun]
  rfl

theorem keys_isSome (hBends : s.bendNo + 1 < bendSize) : ∃ s', s.keys a c more = some s' := by
  rw [keys]
  split
  · exact ⟨_, rfl⟩
  · dsimp only
    split
    · exact ⟨_, rfl⟩
    · split
      · exact ⟨_, rfl⟩
      · exact ⟨_, rfl⟩

/-- The variables at the start of a game; `bend_no` is not among those that are set. -/
def begun (s : Snake) : Snake :=
  { s with
    length := 5, head := ⟨25, 20⟩, direction := .right, life := 3, phase := .playing, depth := 0
    bend := Function.update s.bend 0 ⟨25, 20⟩ }

theorem snakeMain_eq (ticks : RandSeed) (s : Snake) : s.snakeMain ticks = s.begun.feed ticks := by
  rw [snakeMain, begun, feed, feed]
  dsimp only
  split
  · rfl
  · split
    · rfl
    · rfl

theorem begun_spec (hBends : s.bendNo = 0) :
    s.begun.Inv ∧ s.begun.game = ⟨⟨25, 20⟩, [], .right, s.key, 5, 3, s.food, s.next, .playing, 0⟩ := by
  have hOlder : s.begun.older = [] := by
    rw [older, begun]
    dsimp only
    rw [hBends, Function.update_self]
    rfl
  refine ⟨⟨⟨0, ?_⟩, ?_, Function.update_self 0 _ s.bend, Nat.le_refl 5⟩, ?_⟩
  · simp [begun, hBends]
  · rw [trail, hOlder]
    exact Way.start _ _
  · rw [game, hOlder]
    rfl

/-- `snakeMain` begins the game on the cells, provided that no bend is left from another game. -/
theorem snakeMain_refines (ticks : RandSeed) (hBends : s.bendNo = 0) :
    (s.snakeMain ticks).Inv ∧ (s.snakeMain ticks).game = Game.start ticks s.key s.food s.next := by
  obtain ⟨hInv, hGame⟩ := begun_spec hBends
  obtain ⟨length, food, next, hFeed, hLonger, hFed⟩ := feed_eq ticks s.begun
  rw [snakeMain_eq, Game.start, ← hGame, hFed, hFeed]
  exact ⟨hInv.refed hLonger food next _ _, rfl⟩

/-- These inputs lead from the beginning of a game, in which no bend has been made, to this state. -/
def Played (ticks : RandSeed) (s₀ : Snake) (steps : List (Cell × Input)) (s : Snake) : Prop :=
  s₀.bendNo = 0 ∧ (∀ x ∈ steps, Far x.1) ∧ steps.foldlM step (s₀.snakeMain ticks) = some s

/-- A run of the arrays is the run of the cells on the same inputs. -/
theorem run_refines {steps : List (Cell × Input)} (hInv : s.Inv) (hFar : ∀ x ∈ steps, Far x.1)
    (h : steps.foldlM step s = some s') : s'.Inv ∧ s'.game = (steps.map Prod.snd).foldl Game.act s.game := by
  induction steps generalizing s with
  | nil => exact Option.some.inj h ▸ ⟨hInv, rfl⟩
  | cons x steps ih =>
      obtain ⟨s₁, hFirst, hRest⟩ := Option.bind_eq_some_iff.mp (List.foldlM_cons.symm.trans h)
      rw [step] at hFirst
      split at hFirst
      · obtain ⟨hInv₁, hGame₁⟩ := act_refines hInv (hFar x (List.mem_cons_self ..)) hFirst
        obtain ⟨hInv', hGame⟩ := ih hInv₁ (fun y hy => hFar y (List.mem_cons_of_mem _ hy)) hRest
        rw [hGame₁] at hGame
        exact ⟨hInv', hGame⟩
      · cases hFirst

theorem Played.refines {s₀ : Snake} {steps : List (Cell × Input)} (h : Played ticks s₀ steps s) :
    s.Inv ∧ s.game = (steps.map Prod.snd).foldl Game.act (Game.start ticks s₀.key s₀.food s₀.next) := by
  obtain ⟨hBends, hFar, hRun⟩ := h
  obtain ⟨hInv, hGame⟩ := snakeMain_refines ticks hBends
  rw [← hGame]
  exact run_refines hInv hFar hRun

/-- In every run the bends and the array do what the same inputs do to the game on the cells: the way of
the head never turns back, and each frame draws the newest part of it. -/
theorem trail_drawn {t : RandSeed} {s₀ : Snake} {steps : List (Cell × Input)} (h : Played t s₀ steps s)
    (hFar : Far below) :
    s.game = (steps.map Prod.snd).foldl Game.act (Game.start t s₀.key s₀.food s₀.next) ∧
      Way s.direction (s.game.head :: s.game.older) ∧
      ∀ ticks moves more s', s.frame below ticks moves more = some s' →
        s'.game = s.game.frame ticks moves more ∧
          (List.range s'.len).map s'.body = (s.game.feed ticks).drawn := by
  obtain ⟨hInv, hGame⟩ := h.refines
  exact ⟨hGame, hInv.path, fun ticks moves more s' hFrame => (frame_refines hInv (hInv.apart hFar) hFrame).2⟩

def newGame : Snake :=
  ⟨0, 0, 0, none, 0, ⟨0, 0⟩, .right, fun _ => ⟨0, 0⟩, ⟨0, 0⟩, fun _ => ⟨0, 0⟩, 1, .over, 0⟩

/-- The snake goes one step, turns upwards, and has three cells then. -/
theorem trail_drawn_example : ∃ s₁ s₂,
    [(⟨0, 0⟩, Input.frame 8 true false), (⟨0, 0⟩, .keys 0 0x77 true)].foldlM step (newGame.snakeMain 7) = some s₁ ∧
      s₁.frame ⟨0, 0⟩ 9 true true = some s₂ ∧
      (List.range s₂.len).map s₂.body = [⟨26, 19⟩, ⟨26, 20⟩, ⟨25, 20⟩] := by
  obtain ⟨s₁, hRun⟩ : ∃ s₁, [((⟨0, 0⟩ : Cell), Input.frame 8 true false), (⟨0, 0⟩, .keys 0 0x77 true)].foldlM step
      (newGame.snakeMain 7) = some s₁ := ⟨_, rfl⟩
  have hPlayed : Played 7 newGame [(⟨0, 0⟩, .frame 8 true false), (⟨0, 0⟩, .keys 0 0x77 true)] s₁ :=
    ⟨rfl, by decide, hRun⟩
  obtain rfl := Option.some.inj hRun
  have hDrawn := ((trail_drawn hPlayed (by decide : Far ⟨0, 0⟩)).2.2 9 true true _ rfl).2
  exact ⟨_, _, rfl, rfl, hDrawn.trans (by decide)⟩

/-- The arrays are long enough for a snake of up to thirty cells with less than 500 bends. With
thirty-one cells a frame writes behind the array `body` if the head has come as far since the start. -/
theorem arrays_suffice {t : RandSeed} {s₀ : Snake} {steps : List (Cell × Input)} (h : Played t s₀ steps s)
    (hFar : Far below) (ticks : RandSeed) (moves more : Bool) :
    ((s.game.feed ticks).length ≤ bodySize → ∃ s', s.frame below ticks moves more = some s') ∧
      (bodySize < (s.game.feed ticks).length → bodySize < s.game.older.length + 1 →
        s.frame below ticks moves more = none) ∧
      (s.bendNo + 1 < bendSize → ∀ a c, ∃ s', s.keys a c more = some s') := by
  have hInv := h.refines.1
  exact ⟨frame_isSome hInv (hInv.apart hFar), frame_eq_none hInv (hInv.apart hFar),
    fun hBends a c => keys_isSome hBends⟩

theorem arrays_suffice_example : ∃ s', (newGame.snakeMain 7).frame ⟨0, 0⟩ 8 true true = some s' := by
  have hPlayed : Played 7 newGame [] (newGame.snakeMain 7) := ⟨rfl, by simp, rfl⟩
  exact (arrays_suffice hPlayed (by decide) 8 true true).1 (by decide)

end Snake
end ArtOS

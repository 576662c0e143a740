import ArtOS.Library.GridPath
import Mathlib.Data.BitVec

/-! The game of `video/snake.c` with `video/rand.c`, the screen apart. The snake is kept as its head
and the places at which it has turned; `body` is filled anew for every frame. -/
namespace ArtOS

open Grid

/-- The variable `next` of `rand.c`. -/
abbrev RandSeed := BitVec 32

def rand (next : RandSeed) : Nat × RandSeed :=
  let next := next * 1103515245 + 12345
  (next.toNat / 65536 % 32768, next)

namespace Snake

/-- Where `Move` is: in its loop, at its calls of `getChar`, or it has returned to `snakeMain`. -/
inductive Phase where
  | playing
  | asking
  | over
  deriving DecidableEq, Repr

end Snake

/-- The global variables. `depth` counts the calls of `Move` that wait in `ExitGame`. -/
structure Snake where
  length : Nat
  bendNo : Nat
  len : Nat
  key : Option Direction
  life : Int
  head : Cell
  direction : Direction
  bend : Nat → Cell
  food : Cell
  body : Nat → Cell
  next : RandSeed
  phase : Snake.Phase
  depth : Nat

namespace Snake

/-- The lengths of the arrays `body` and `bend`. -/
abbrev bodySize : Nat := 30
abbrev bendSize : Nat := 500

/-- `rand()%n`, moved away from the border. -/
def place (n : Nat) (next : RandSeed) : Int × RandSeed :=
  let (r, next) := rand next
  let r := r % n
  (if r ≤ 0 then r + 11 else r, next)

def newFood (next : RandSeed) : Cell × RandSeed :=
  let (x, next) := place 78 next
  let (y, next) := place 23 next
  (⟨x, y⟩, next)

/-- `Food`; the argument is what `get_clock_tick` returns. -/
def feed (ticks : RandSeed) (s : Snake) : Snake :=
  if s.head = s.food then
    let (food, next) := newFood ticks
    { s with length := s.length + 1, food := food, next := next }
  else if s.food.x = 0 then
    let (food, next) := newFood s.next
    { s with food := food, next := next }
  else s

/-- The loop at the beginning of a frame, with `left` entries of `body` left. -/
def clearLoop (length : Nat) : Nat → Nat → (Nat → Cell) → (Nat → Cell)
  | 0, _, body => body
  | left + 1, i, body =>
      let body := Function.update body i ⟨0, 0⟩
      if i = length then body else clearLoop length left (i + 1) body

def clear (s : Snake) : Snake := { s with len := 0, body := clearLoop s.length bodySize 0 s.body }

/-- The next entry of `body`; `none` stands for a write behind the array. -/
def put (c : Cell) (s : Snake) : Option Snake :=
  if s.len < bodySize then some { s with body := Function.update s.body s.len c, len := s.len + 1 } else none

/-- The loop of the four functions, while `i` is not greater than the distance. -/
def drawLoop (cell : Int → Cell) : Nat → Int → Snake → Option Snake
  | 0, _, s => some s
  | left + 1, i, s =>
      if s.len < s.length then (s.put (cell i)).bind (drawLoop cell left (i + 1)) else some s

/-- The loops of `Bend` over a column. -/
def columnLoop (cell : Int → Cell) : Nat → Int → Snake → Option Snake
  | 0, _, s => some s
  | left + 1, j, s =>
      (s.put (cell j)).bind fun s => if s.len = s.length then some s else columnLoop cell left (j + 1) s

/-- Those over a row look at `len` twice. -/
def rowLoop (cell : Int → Cell) : Nat → Int → Snake → Option Snake
  | 0, _, s => some s
  | left + 1, j, s =>
      if s.len < s.length then
        (s.put (cell j)).bind fun s => if s.len = s.length then some s else rowLoop cell left (j + 1) s
      else some s

section Frame

-- what is in memory before the array `bend`
variable (below : Cell)

/-- `bend[i - 1]`. -/
def bendBefore (s : Snake) : Nat → Cell
  | 0 => below
  | i + 1 => s.bend i

/-- The loop of `Bend` from the index `i` down; the argument is `i + 1`. -/
def bendLoop : Nat → Snake → Option Snake
  | 0, s => some s
  | i + 1, s =>
      if s.len < s.length then
        let a := s.bend i
        let b := s.bendBefore below i
        (if a.x = b.x then
          let diff := a.y - b.y
          if diff < 0 then columnLoop (fun j => ⟨a.x, a.y + j⟩) (-diff).toNat 1 s
          else if diff > 0 then columnLoop (fun j => ⟨a.x, a.y - j⟩) diff.toNat 1 s
          else some s
        else if a.y = b.y then
          let diff := a.x - b.x
          if diff < 0 then rowLoop (fun j => ⟨a.x + j, a.y⟩) (-diff).toNat 1 s
          else if diff > 0 then rowLoop (fun j => ⟨a.x - j, a.y⟩) diff.toNat 1 s
          else some s
        else some s).bind (bendLoop i)
      else some s

def drawBend (s : Snake) : Option Snake := bendLoop below (s.bendNo + 1) s

/-- The common form of the four functions. `moves` says that `isButtonPressed` is not 1. -/
def go (moves : Bool) (cell : Int → Cell) (distance : Int) (ahead : Cell) (s : Snake) : Option Snake :=
  (drawLoop cell (distance + 1).toNat 0 s).bind fun s =>
    (s.drawBend below).map fun s => if moves then { s with head := ahead } else s

def down (moves : Bool) (s : Snake) : Option Snake :=
  s.go below moves (fun i => ⟨s.head.x, s.head.y - i⟩) (s.head.y - (s.bend s.bendNo).y) ⟨s.head.x, s.head.y + 1⟩

def left (moves : Bool) (s : Snake) : Option Snake :=
  s.go below moves (fun i => ⟨s.head.x + i, s.head.y⟩) ((s.bend s.bendNo).x - s.head.x) ⟨s.head.x - 1, s.head.y⟩

def right (moves : Bool) (s : Snake) : Option Snake :=
  s.go below moves (fun i => ⟨s.head.x - i, s.head.y⟩) (s.head.x - (s.bend s.bendNo).x) ⟨s.head.x + 1, s.head.y⟩

def up (moves : Bool) (s : Snake) : Option Snake :=
  s.go below moves (fun i => ⟨s.head.x, s.head.y + i⟩) ((s.bend s.bendNo).y - s.head.y) ⟨s.head.x, s.head.y - 1⟩

def advance (moves : Bool) (s : Snake) : Option Snake :=
  match s.direction with
  | .right => s.right below moves
  | .left => s.left below moves
  | .down => s.down below moves
  | .up => s.up below moves

/-- The loop of `ExitGame`: whether an entry from `i` on is where the head is. -/
def touches (s : Snake) : Nat → Nat → Option Bool
  | 0, _ => some false
  | left + 1, i =>
      if i < bodySize then if s.body 0 = s.body i then some true else touches s left (i + 1) else none

/-- On the border, or behind it. -/
def AtWall (c : Cell) : Prop := c.x ≤ 0 ∨ 79 ≤ c.x ∨ c.y ≤ 0 ∨ 24 ≤ c.y

instance (c : Cell) : Decidable (AtWall c) := inferInstanceAs (Decidable (_ ∨ _ ∨ _ ∨ _))

/-- The condition of the loop of `Move`; `more` says that `isButtonPressed` is 0. -/
def loopEnd (more : Bool) (s : Snake) : Snake := { s with phase := if more then .playing else .asking }

/-- `ExitGame`, and how the loop goes on. Without a life left there is only a message. -/
def exitGame (more : Bool) (s : Snake) : Option Snake :=
  (s.touches (s.length - 4) 4).map fun check =>
    if AtWall s.head ∨ check = true then
      let s := { s with life := s.life - 1 }
      if 0 ≤ s.life then
        { s with head := ⟨25, 20⟩, bendNo := 0, direction := .right, depth := s.depth + 1, phase := .playing }
      else s.loopEnd more
    else s.loopEnd more

/-- Once through the loop of `Move`. -/
def frame (ticks : RandSeed) (moves more : Bool) (s : Snake) : Option Snake :=
  ((s.feed ticks).clear.advance below moves).bind (exitGame more)

end Frame

/-- The second `getChar`. -/
def keyOf (c : BitVec 8) (key : Option Direction) : Option Direction :=
  if c = 0x77 then some .up
  else if c = 0x73 then some .down
  else if c = 0x61 then some .left
  else if c = 0x64 then some .right
  else key

/-- `Move` behind its loop. The escape key leads back into the loop of the call that waits in
`ExitGame`, or out of the game. -/
def keys (a c : BitVec 8) (more : Bool) (s : Snake) : Option Snake :=
  if a = 27 then
    some (if s.depth = 0 then { s with phase := .over } else { s with depth := s.depth - 1 }.loopEnd more)
  else
    let s := { s with key := keyOf c s.key }
    match s.key with
    | none => some { s with phase := .playing }
    | some d =>
        if d ≠ s.direction ∧ d ≠ s.direction.opposite then
          if s.bendNo + 1 < bendSize then
            some { s with
              bendNo := s.bendNo + 1
              bend := Function.update s.bend (s.bendNo + 1) s.head
              direction := d
              head := s.head.advance d 1
              phase := .playing }
          else none
        else some { s with phase := .playing }

/-- What happens to the game: an arrow key, a frame, or the keys that `Move` asks for. The keyboard
interrupts at any time, so `moves` and `more` may be anything. -/
inductive Input where
  | arrow (d : Direction)
  | frame (ticks : RandSeed) (moves more : Bool)
  | keys (a c : BitVec 8) (more : Bool)

/-- Whether the game waits for such an input. -/
def Takes (s : Snake) : Input → Prop
  | .arrow _ => True
  | .frame _ _ _ => s.phase = .playing
  | .keys _ _ _ => s.phase = .asking

instance (s : Snake) : (input : Input) → Decidable (s.Takes input)
  | .arrow _ => inferInstanceAs (Decidable True)
  | .frame _ _ _ => inferInstanceAs (Decidable (_ = _))
  | .keys _ _ _ => inferInstanceAs (Decidable (_ = _))

def act (below : Cell) (s : Snake) : Input → Option Snake
  | .arrow d => some { s with key := some d }
  | .frame ticks moves more => s.frame below ticks moves more
  | .keys a c more => s.keys a c more

/-- One input, with what is before `bend` at that time. -/
def step (s : Snake) (x : Cell × Input) : Option Snake := if s.Takes x.2 then s.act x.1 x.2 else none

/-- `snakeMain` up to its call of `Move`. -/
def snakeMain (ticks : RandSeed) (s : Snake) : Snake :=
  let s := { s with length := 5, head := ⟨25, 20⟩, direction := .right }
  let s := s.feed ticks
  { s with life := 3, bend := Function.update s.bend 0 s.head, phase := .playing, depth := 0 }

end Snake
end ArtOS

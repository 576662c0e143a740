import ArtOS.Devices.Terminal
import ArtOS.Library.Transition

/-! `getChar` polls the variables that the keyboard interrupt writes. One step is one access of the
loop to them, and an interrupt may come in front of any step. -/
namespace ArtOS

/-- The keys up to the space bar; the rest of a table is zero but for the two keys of the keypad. -/
def keyTable (keys : List (BitVec 8)) : List (BitVec 8) :=
  keys ++ List.replicate 16 0 ++ [0x2D] ++ List.replicate 3 0 ++ [0x2B] ++ List.replicate 49 0

def kbdus : List (BitVec 8) := keyTable
  [0, 27, 0x31, 0x32, 0x33, 0x34, 0x35, 0x36, 0x37, 0x38, 0x39, 0x30, 0x2D, 0x3D, 0x08, 0x09,
    0x71, 0x77, 0x65, 0x72, 0x74, 0x79, 0x75, 0x69, 0x6F, 0x70, 0x5B, 0x5D, 0x0A, 0,
    0x61, 0x73, 0x64, 0x66, 0x67, 0x68, 0x6A, 0x6B, 0x6C, 0x3B, 0x27, 0x60, 0,
    0x5C, 0x7A, 0x78, 0x63, 0x76, 0x62, 0x6E, 0x6D, 0x2C, 0x2E, 0x2F, 0, 0x2A, 0, 0x20]

def kbdusS : List (BitVec 8) := keyTable
  [0, 27, 0x21, 0x40, 0x23, 0x24, 0x25, 0x5E, 0x26, 0x2A, 0x28, 0x29, 0x5F, 0x2B, 0x08, 0x09,
    0x51, 0x57, 0x45, 0x52, 0x54, 0x59, 0x55, 0x49, 0x4F, 0x50, 0x7B, 0x7D, 0x0A, 0,
    0x41, 0x53, 0x44, 0x46, 0x47, 0x48, 0x4A, 0x4B, 0x4C, 0x3A, 0x22, 0x7E, 0,
    0x7C, 0x5A, 0x58, 0x43, 0x56, 0x42, 0x4E, 0x4D, 0x3C, 0x3E, 0x3F, 0, 0x2A, 0, 0x20]

inductive ArrowKey where
  | up
  | down
  | left
  | right
deriving DecidableEq

/-- The functions that `upKey`, `downKey`, `leftKey` and `rightKey` point to. -/
structure ArrowHandlers where
  call : ArrowKey → Terminal → Terminal
  shiftKey : ∀ key t, (call key t).shiftKey = t.shiftKey

/-- The functions of `terminal.c`. -/
def ArrowHandlers.keyn : ArrowHandlers where
  call
    | .up => Terminal.upKeyn
    | .down => Terminal.downKeyn
    | .left => Terminal.leftKeyn
    | .right => Terminal.rightKeyn
  shiftKey := by
    intro key t
    cases key with
    | up =>
        simp only [Terminal.upKeyn]
        split <;> rfl
    | down =>
        simp only [Terminal.downKeyn]
        split <;> rfl
    | left =>
        simp only [Terminal.leftKeyn]
        split <;> split <;> rfl
    | right =>
        simp only [Terminal.rightKeyn]
        split <;> split <;> rfl

/-- Where a call of `getChar` stands; the places between `ifReleased` and `scroll` are those of
`getKbCode`. -/
inductive GetCharPc where
  | start
  | clearReady
  | whileTest
  | ifPressed
  | ifReleased
  | switchReleased
  | switchPressed
  | setShift (value : Bool)
  | toggleCaps
  | arrow (key : ArrowKey)
  | setReady
  | scroll
  | clearPressed
  | ifShift
  | table (shifted : Bool)
  | done (shifted : Bool) (index : BitVec 8)
deriving DecidableEq

/-- The shared variables, and what has happened during the call: the codes that were delivered, the
codes that the `switch` of `getKbCode` has seen, the last one first, and `shiftKey` when it began. -/
structure Keyboard where
  pc : GetCharPc
  terminal : Terminal
  scancode : BitVec 8
  isButtonPressed : Int
  isNextCharReady : Int
  delivered : List (BitVec 8)
  processed : List (BitVec 8)
  shiftBefore : Int

inductive KeyboardAct where
  | interrupt (code : BitVec 8)
  | poll
deriving DecidableEq

abbrev ShiftPress (code : BitVec 8) : Prop := code = 0x2A ∨ code = 0x36
abbrev ShiftRelease (code : BitVec 8) : Prop := code = 0xAA ∨ code = 0xB6

/-- The cases for a key that was released. -/
def releasedCase (code : BitVec 8) : GetCharPc :=
  if ShiftRelease code then .setShift false else .clearPressed

/-- The cases for a key that was pressed. -/
def pressedCase (code : BitVec 8) : GetCharPc :=
  if ShiftPress code then .setShift true
  else if code = 0x3A then .toggleCaps
  else if code = 0x48 then .arrow .up
  else if code = 0x50 then .arrow .down
  else if code = 0x4B then .arrow .left
  else if code = 0x4D then .arrow .right
  else if code = 0x38 ∨ code = 0x1D ∨ code = 0x5B ∨ code = 0x5C then .scroll
  else .setReady

namespace Keyboard

def keyboardHandler (code : BitVec 8) (s : Keyboard) : Keyboard :=
  { s with
    scancode := code
    isButtonPressed := 1
    delivered := code :: s.delivered }

/-- The next access of `getChar`. -/
def poll (handlers : ArrowHandlers) (s : Keyboard) : Option Keyboard :=
  match s.pc with
  | .start => some { s with isButtonPressed := 0, pc := .clearReady }
  | .clearReady => some { s with isNextCharReady := 0, pc := .whileTest }
  | .whileTest => some { s with pc := if s.isNextCharReady = 0 then .ifPressed else .ifShift }
  | .ifPressed => some { s with pc := if s.isButtonPressed = 1 then .ifReleased else .whileTest }
  | .ifReleased =>
      some { s with pc := if s.scancode &&& 0x80 ≠ 0 then .switchReleased else .switchPressed }
  | .switchReleased =>
      some { s with processed := s.scancode :: s.processed, pc := releasedCase s.scancode }
  | .switchPressed =>
      some { s with processed := s.scancode :: s.processed, pc := pressedCase s.scancode }
  | .setShift true => some { s with terminal := { s.terminal with shiftKey := 1 }, pc := .scroll }
  | .setShift false => some { s with terminal := { s.terminal with shiftKey := 0 }, pc := .clearPressed }
  | .toggleCaps =>
      let capsLock := if s.terminal.capsLock = 0 then 1
        else if s.terminal.capsLock = 1 then 0 else s.terminal.capsLock
      some { s with terminal := { s.terminal with capsLock := capsLock }, pc := .scroll }
  | .arrow key => some { s with terminal := handlers.call key s.terminal, pc := .scroll }
  | .setReady => some { s with isNextCharReady := 1, pc := .scroll }
  | .scroll => some { s with terminal := s.terminal.scroll, pc := .clearPressed }
  | .clearPressed => some { s with isButtonPressed := 0, pc := .whileTest }
  | .ifShift => some { s with pc := .table (s.terminal.shiftKey = 1) }
  | .table shifted => some { s with pc := .done shifted s.scancode }
  | .done _ _ => none

def act (handlers : ArrowHandlers) (s : Keyboard) : KeyboardAct → Option Keyboard
  | .interrupt code => some (s.keyboardHandler code)
  | .poll => s.poll handlers

/-- A call begins. -/
def Init (s : Keyboard) : Prop :=
  s.pc = .start ∧ s.delivered = [] ∧ s.processed = [] ∧ s.shiftBefore = s.terminal.shiftKey

/-- What `getChar` returns; there is nothing behind the tables. -/
def result (s : Keyboard) : Option (BitVec 8) :=
  match s.pc with
  | .done shifted index => (if shifted then kbdusS else kbdus)[index.toNat]?
  | _ => none

/-- Whether shift is held after these codes, the last one first. -/
def heldAfter (before : Int) : List (BitVec 8) → Prop
  | [] => before = 1
  | code :: codes => ShiftPress code ∨ ¬ ShiftRelease code ∧ heldAfter before codes

/-- What the caller of `getChar` relies on. -/
def HandedOff (s : Keyboard) : Prop := ∀ shifted index, s.pc = .done shifted index →
  index.toNat < 128 ∧ index ∈ s.delivered ∧ (∃ c, s.result = some c) ∧
    (shifted = true ↔ heldAfter s.shiftBefore s.processed)

end Keyboard
end ArtOS

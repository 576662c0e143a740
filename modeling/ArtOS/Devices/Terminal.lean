import Mathlib.Logic.Function.Basic
import Mathlib.Data.List.Basic
import ArtOS.Libc.Strings

/-! The text screen of `terminal.c`. `TRow` and `TColumn` are where the next entry goes, `cursorX` and
`cursorY` where the cursor stands. -/
namespace ArtOS

abbrev vgaWidth : Nat := 80
abbrev vgaHeight : Nat := 25

abbrev charBackspace : BitVec 8 := 0x08
abbrev charTab : BitVec 8 := 0x09
abbrev charNewline : BitVec 8 := 0x0A
abbrev charReturn : BitVec 8 := 0x0D
abbrev charSpace : BitVec 8 := 0x20
abbrev charPercent : BitVec 8 := 0x25

/-- The background colour in the upper four bits. -/
def vgaEntryColor (fg bg : BitVec 8) : BitVec 8 := fg ||| bg <<< 4

/-- A character and its colour, as the screen has them. -/
def vgaEntry (uc color : BitVec 8) : BitVec 16 := uc.setWidth 16 ||| color.setWidth 16 <<< 8

/-- The characters of a message. -/
def ascii (message : String) : List (BitVec 8) := message.toList.map fun c => BitVec.ofNat 8 c.toNat

/-- The variables of the terminal; `tBuffer` is the memory from `0xB8000` on, and `written` has the
indices of all the entries that were written, the last one first. -/
structure Terminal where
  tBuffer : Nat → BitVec 16
  written : List Nat
  tRow : Nat
  tColumn : Nat
  tColor : BitVec 8
  cursorX : BitVec 8
  cursorY : BitVec 8
  shiftKey : Int
  capsLock : Int

namespace Terminal

/-- The terminal before `monInit`. -/
def off : Terminal where
  tBuffer := fun _ => 0
  written := []
  tRow := 0
  tColumn := 0
  tColor := 0
  cursorX := 0
  cursorY := 0
  shiftKey := 0
  capsLock := 0

/-- One store into the text memory. -/
def write (t : Terminal) (index : Nat) (entry : BitVec 16) : Terminal :=
  { t with
    tBuffer := Function.update t.tBuffer index entry
    written := index :: t.written }

/-- A loop that writes `count` entries from `start` on. -/
def fill (entry : Terminal → Nat → BitVec 16) (start count : Nat) (t : Terminal) : Terminal :=
  (List.range' start count).foldl (fun t i => t.write i (entry t i)) t

/-- What an empty place of the screen shows. -/
def blank (t : Terminal) : BitVec 16 := vgaEntry charSpace t.tColor

/-- Rows 1 to 24 move up, and the last one becomes blank. -/
def scroll (t : Terminal) : Terminal :=
  if 25 ≤ t.cursorY then
    let t := t.fill (fun t i => t.tBuffer (i + 80)) (0 * 80) (24 * 80)
    let t := t.fill (fun t _ => t.blank) (24 * 80) (25 * 80 - 24 * 80)
    { t with cursorY := 24 }
  else t

/-- `mon_init`, row by row; the cursor ends at the top. -/
def monInit (t : Terminal) : Terminal :=
  let t := { t with tRow := 0, tColumn := 0, tColor := vgaEntryColor 7 0 }
  let t := (List.range vgaHeight).foldl (fun t y => t.fill (fun t _ => t.blank) (y * vgaWidth) vgaWidth) t
  { t with cursorX := 0, cursorY := 0 }

/-- A newline moves the place of the next entry and writes nothing. -/
def monPutEntryAt (c color : BitVec 8) (x y : Nat) (t : Terminal) : Terminal :=
  let index := y * vgaWidth + x
  if c = charNewline then
    let t := if t.tRow = vgaHeight - 1 then t.scroll else { t with tRow := t.tRow + 1 }
    { t with tColumn := 0 }
  else t.write index (vgaEntry c color)

/-- The second half of `monPutchar`. -/
def nextColumn (t : Terminal) : Terminal :=
  let t := { t with tColumn := t.tColumn + 1 }
  if t.tColumn = vgaWidth then
    let t := { t with tColumn := 0, tRow := t.tRow + 1 }
    if t.tRow = vgaHeight then { t.scroll with tRow := 24 } else t
  else t

/-- One entry at `(tColumn, tRow)`, and the place of the next one. -/
def monPutchar (c : BitVec 8) (t : Terminal) : Terminal :=
  (t.monPutEntryAt c t.tColor t.tColumn t.tRow).nextColumn

/-- The branches of `monPut`. A `char` has a sign. -/
def putKey (c : BitVec 8) (t : Terminal) : Terminal :=
  if c = charBackspace then
    let t := if t.cursorX = 0 then { t with cursorX := 80, cursorY := t.cursorY - 1 } else t
    let t := { t with tColumn := t.cursorX.toNat - 1, tRow := t.cursorY.toNat }
    let t := t.monPutchar charSpace
    { t with cursorX := t.cursorX - 1 }
  else if c = charTab then { t with cursorX := (t.cursorX + 8) &&& ~~~(8 - 1) }
  else if c = charReturn then { t with cursorX := 0 }
  else if c = charNewline then { t with cursorX := 0, cursorY := t.cursorY + 1 }
  else if charSpace.sle c then
    let upper := t.capsLock = 1 ∧ (0x61#8).sle c ∧ c.sle 0x7A#8
    let t := { t with tColumn := t.cursorX.toNat, tRow := t.cursorY.toNat }
    let t := if upper then t.monPutchar (c - 32) else t.monPutchar c
    { t with cursorX := t.cursorX + 1 }
  else t

/-- The wrap behind the branches. -/
def wrapLine (t : Terminal) : Terminal :=
  if 80 ≤ t.cursorX then { t with cursorX := 0, cursorY := t.cursorY + 1 } else t

/-- One character of the console: its branch, the wrap of the line, the scroll. -/
def monPut (c : BitVec 8) (t : Terminal) : Terminal := ((t.putKey c).wrapLine).scroll

/-- The loop of `mon_write` over the bytes from `data` on. -/
def monWrite (mem : Nat → BitVec 8) (data size : Nat) (t : Terminal) : Terminal :=
  (List.range size).foldl (fun t i => t.monPut (mem (data + i))) t

/-- The characters of a string, one by one. -/
def print (message : List (BitVec 8)) (t : Terminal) : Terminal :=
  message.foldl (fun t c => t.monPut c) t

/-- `mon_write_string`: without a zero in the memory there is no result. -/
def monWString (mem : Nat → BitVec 8) (fuel data : Nat) (t : Terminal) : Option Terminal :=
  (strlen mem fuel data).map fun size => t.monWrite mem data size

/-- At the upper edge the cursor comes back at the lower one. -/
def upKeyn (t : Terminal) : Terminal :=
  if t.cursorY = 0 then { t with cursorY := 24 } else { t with cursorY := t.cursorY - 1 }

def downKeyn (t : Terminal) : Terminal :=
  if t.cursorY = 24 then { t with cursorY := 0 } else { t with cursorY := t.cursorY + 1 }

/-- The wrap at column 79 comes before the step, so the cursor goes on to column 1. -/
def rightKeyn (t : Terminal) : Terminal :=
  let t := if t.cursorX = 79 then { t with cursorX := 0 } else t
  if t.shiftKey = 1 then { t with cursorX := (t.cursorX + 8) &&& ~~~(8 - 1) }
  else { t with cursorX := t.cursorX + 1 }

/-- The same on the left: from column 0 to 78. -/
def leftKeyn (t : Terminal) : Terminal :=
  let t := if t.cursorX = 0 then { t with cursorX := 79 } else t
  if t.shiftKey = 1 then { t with cursorX := (t.cursorX - 8) &&& ~~~(8 - 1) }
  else { t with cursorX := t.cursorX - 1 }

variable {t u : Terminal} {c : BitVec 8} {start count i : Nat}

/-- What a loop leaves that writes `g i` at each index `i`. -/
def filled (g : Nat → BitVec 16) (start count : Nat) (t : Terminal) : Terminal :=
  { t with
    tBuffer := fun i => if start ≤ i ∧ i < start + count then g i else t.tBuffer i
    written := (List.range' start count).reverse ++ t.written }

/-- Two loops, one behind the other, are one loop. -/
theorem filled_append {g : Nat → BitVec 16} {m n : Nat} :
    (t.filled g start m).filled g (start + m) n = t.filled g start (m + n) := by
  simp only [filled, ← List.range'_append_1, List.reverse_append, List.append_assoc]
  congr 1
  funext i
  by_cases hi : start ≤ i ∧ i < start + m
  · rw [if_pos hi, ite_self, if_pos (by omega)]
  · rw [if_neg hi]
    exact if_congr (by omega) rfl rfl

/-- A loop whose entries do not depend on what it has written; the induction is on `count`. -/
theorem fill_eq {entry : Terminal → Nat → BitVec 16} {g : Nat → BitVec 16}
    (h : ∀ n < count, entry (t.filled g start n) (start + n) = g (start + n)) :
    t.fill entry start count = t.filled g start count := by
  induction count with
  | zero =>
      have hSame : (fun i => if start ≤ i ∧ i < start + 0 then g i else t.tBuffer i) = t.tBuffer := by
        funext i
        rw [if_neg (by omega)]
      rw [filled, hSame]
      rfl
  | succ count ih =>
      have hFirst := ih fun n hn => h n (Nat.lt_succ_of_lt hn)
      rw [fill] at hFirst ⊢
      rw [List.range'_1_concat, List.foldl_concat, hFirst, h count (Nat.lt_succ_self count), write]
      simp only [filled, List.range'_1_concat, List.reverse_concat, List.cons_append]
      congr 1
      funext i
      rw [Function.update_apply]
      by_cases hi : i = start + count
      · rw [if_pos hi, hi, if_pos (by omega)]
      · rw [if_neg hi]
        exact if_congr (by omega) rfl rfl

/-- The screen one row up. -/
def scrolled (t : Terminal) : Terminal :=
  { (t.filled (fun i => t.tBuffer (i + 80)) 0 1920).filled (fun _ => t.blank) 1920 80 with
    cursorY := 24 }

/-- The screen behind a scroll, entry by entry. -/
theorem tBuffer_scrolled : t.scrolled.tBuffer i =
    if i < 1920 then t.tBuffer (i + 80) else if i < 2000 then t.blank else t.tBuffer i := by
  simp only [scrolled, filled]
  by_cases hCopied : i < 1920
  · rw [if_neg (by omega), if_pos (by omega), if_pos hCopied]
  · have hNot : ¬ (0 ≤ i ∧ i < 0 + 1920) := by omega
    rw [if_neg hCopied, if_neg hNot]
    exact if_congr (by omega) rfl rfl

theorem scroll_of_lt (h : t.cursorY.toNat < 25) : t.scroll = t :=
  if_neg (Nat.not_le_of_lt h)

/-- The copy reads 80 entries ahead of what it writes, so it moves the old rows. -/
theorem scroll_of_le (h : 25 ≤ t.cursorY) : t.scroll = t.scrolled := by
  have hCopy : t.fill (fun t i => t.tBuffer (i + 80)) 0 1920 =
      t.filled (fun i => t.tBuffer (i + 80)) 0 1920 := by
    apply fill_eq
    intro n _
    rw [filled]
    exact if_neg (by omega)
  have hBlank : ∀ u : Terminal, u.fill (fun t _ => t.blank) 1920 80 =
      u.filled (fun _ => u.blank) 1920 80 := by
    intro u
    exact fill_eq fun _ _ => rfl
  rw [scroll, if_pos h]
  simp only [Nat.zero_mul, Nat.reduceMul, Nat.reduceSub]
  rw [hCopy, hBlank]
  rfl

/-- The 25 loops of `monInit` write the whole screen, once. -/
theorem monInit_eq :
    t.monInit = { ({ t with tRow := 0, tColumn := 0, tColor := 7 } : Terminal).filled
      (fun _ => vgaEntry charSpace 7) 0 2000 with cursorX := 0, cursorY := 0 } := by
  have hRows : ∀ (n : Nat) (t : Terminal), (List.range n).foldl
      (fun t y => t.fill (fun t _ => t.blank) (y * vgaWidth) vgaWidth) t =
        t.filled (fun _ => t.blank) 0 (n * 80) := by
    intro n t
    induction n with
    | zero =>
        have hNone : t.fill (fun t _ => t.blank) 0 (0 * 80) = t.filled (fun _ => t.blank) 0 (0 * 80) :=
          fill_eq fun _ _ => rfl
        exact hNone
    | succ n ih =>
        rw [List.range_succ, List.foldl_concat, ih, Nat.succ_mul, ← filled_append, Nat.zero_add]
        exact fill_eq fun _ _ => rfl
  rw [monInit]
  dsimp only
  rw [hRows]
  rfl

theorem shiftKey_scroll : t.scroll.shiftKey = t.shiftKey := by
  by_cases hY : t.cursorY.toNat < 25
  · rw [scroll_of_lt hY]
  · rw [scroll_of_le (Nat.le_of_not_lt hY)]
    rfl

/-- With the cursor on the screen only the place of the next entry changes. -/
theorem nextColumn_eq (hY : t.cursorY.toNat < 25) :
    ∃ row column, t.nextColumn = { t with tRow := row, tColumn := column } := by
  rw [nextColumn]
  dsimp only
  split
  · have hScroll := scroll_of_lt (t := { t with tColumn := 0, tRow := t.tRow + 1 }) hY
    split
    · rw [hScroll]
      exact ⟨_, _, rfl⟩
    · exact ⟨_, _, rfl⟩
  · exact ⟨_, _, rfl⟩

/-- With the cursor on the screen `monPutchar` writes one entry. -/
theorem monPutchar_eq (hY : t.cursorY.toNat < 25) (hc : c ≠ charNewline) :
    ∃ row column, t.monPutchar c =
      { t.write (t.tRow * 80 + t.tColumn) (vgaEntry c t.tColor) with
        tRow := row, tColumn := column } := by
  rw [monPutchar, monPutEntryAt, if_neg hc]
  exact nextColumn_eq hY

/-- A printable character goes where the cursor stands. -/
theorem putKey_print (hc : charSpace.sle c) :
    t.putKey c =
      let d := if t.capsLock = 1 ∧ (0x61#8).sle c ∧ c.sle 0x7A#8 then c - 32 else c
      let u := { t with tColumn := t.cursorX.toNat, tRow := t.cursorY.toNat }.monPutchar d
      { u with cursorX := u.cursorX + 1 } := by
  have hKeys : c ≠ charBackspace ∧ c ≠ charTab ∧ c ≠ charReturn ∧ c ≠ charNewline := by
    refine ⟨?_, ?_, ?_, ?_⟩ <;> rintro rfl <;> exact absurd hc (by decide)
  rw [putKey, if_neg hKeys.1, if_neg hKeys.2.1, if_neg hKeys.2.2.1, if_neg hKeys.2.2.2, if_pos hc]
  dsimp only
  split <;> rfl

end Terminal
end ArtOS

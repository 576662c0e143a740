import Mathlib.Data.List.GetD
import ArtOS.Devices.Terminal

/-! What a string looks like on the screen: the layout of its rows, without a screen, and the last rows
of it, which `monWString` leaves in the memory of the terminal. -/
namespace ArtOS

open CString Partial

abbrev Row : Type := List (BitVec 8)

/-- The rows that are complete, and the one that is not. -/
structure Layout where
  full : List Row
  current : Row

namespace Layout

def feed (l : Layout) : Layout := ⟨l.full ++ [l.current], []⟩

def type (l : Layout) (c : BitVec 8) : Layout := { l with current := l.current ++ [c] }

/-- A row that gets its last character is complete at once. -/
def place (l : Layout) (c : BitVec 8) : Layout :=
  if c = charNewline then l.feed
  else if (l.type c).current.length = 80 then (l.type c).feed
  else l.type c

def rows (l : Layout) : List Row := l.full ++ [l.current]

/-- The last rows. -/
def window (l : Layout) : List Row := l.rows.drop (l.rows.length - 25)

/-- The character at a place of the window; there are blanks where the rows have nothing. -/
def cell (l : Layout) (y x : Nat) : BitVec 8 := (l.window.getD y []).getD x charSpace

end Layout

/-- The reference layout of a string. -/
def layout (s : List (BitVec 8)) : Layout := s.foldl Layout.place ⟨[], []⟩

/-- The characters of the reference layout. -/
def Printable (c : BitVec 8) : Prop := charSpace.toNat ≤ c.toNat ∧ c.toNat < 127

/-- The screen shows the window of the layout, in one colour, and the cursor stands behind the last
character. -/
structure Terminal.Shows (t : Terminal) (l : Layout) : Prop where
  cursorX : t.cursorX.toNat = l.current.length
  cursorY : t.cursorY.toNat + 1 = l.window.length
  screen : ∀ y < 25, ∀ x < 80,
    t.tBuffer (y * 80 + x) = vgaEntry (l.cell y x) t.tColor

variable {l : Layout} {t u : Terminal} {c : BitVec 8} {s : List (BitVec 8)} {x y : Nat}

namespace Layout

theorem length_rows : l.rows.length = l.full.length + 1 := by
  rw [rows, List.length_append, List.length_singleton]

theorem length_window : l.window.length = min (l.full.length + 1) 25 := by
  rw [window, List.length_drop, length_rows]
  omega

theorem getD_window : l.window.getD y [] = l.rows.getD (l.full.length - 24 + y) [] := by
  rw [window, List.getD_eq_getElem?_getD, List.getElem?_drop, length_rows, List.getD_eq_getElem?_getD]
  congr 3

theorem getD_concat {α : Type*} {l : List α} {a d : α} {n : Nat} :
    (l ++ [a]).getD n d = if n = l.length then a else l.getD n d := by
  rcases Nat.lt_trichotomy n l.length with hOld | hLast | hBehind
  · rw [if_neg hOld.ne, List.getD_append _ _ _ _ hOld]
  · rw [if_pos hLast, List.getD_append_right _ _ _ _ hLast.ge, hLast, Nat.sub_self]
    rfl
  · rw [if_neg hBehind.ne', List.getD_eq_default _ _ hBehind.le, List.getD_eq_default]
    rw [List.length_append, List.length_singleton]
    exact hBehind

theorem cell_eq : l.cell y x = (l.rows.getD (l.full.length - 24 + y) []).getD x charSpace := by
  rw [cell, getD_window]

/-- A line feed moves the window down as soon as it is full. -/
theorem cell_feed : l.feed.cell y x =
    if l.full.length < 24 then l.cell y x else if y < 24 then l.cell (y + 1) x else charSpace := by
  have hLength : l.feed.full.length = l.full.length + 1 := by
    rw [feed, List.length_append, List.length_singleton]
  have hRow : ∀ n, l.feed.rows.getD n [] = l.rows.getD n [] := by
    intro n
    show (l.rows ++ [[]]).getD n [] = l.rows.getD n []
    rw [getD_concat]
    by_cases hLast : n = l.rows.length
    · rw [if_pos hLast, List.getD_eq_default _ _ hLast.ge]
    · rw [if_neg hLast]
  rw [cell_eq, cell_eq, cell_eq, hRow, hLength]
  by_cases hFew : l.full.length < 24
  · have hIndex : l.full.length + 1 - 24 + y = l.full.length - 24 + y := by omega
    rw [if_pos hFew, hIndex]
  · have hIndex : l.full.length + 1 - 24 + y = l.full.length - 24 + (y + 1) := by omega
    rw [if_neg hFew, hIndex]
    by_cases hy : y < 24
    · rw [if_pos hy]
    · rw [if_neg hy, List.getD_eq_default l.rows]
      · rfl
      · rw [length_rows]
        omega

/-- A character goes to the end of the last row. -/
theorem cell_type : (l.type c).cell y x =
    if y + 1 = l.window.length ∧ x = l.current.length then c else l.cell y x := by
  have hIndex : y + 1 = min (l.full.length + 1) 25 ↔ l.full.length - 24 + y = l.full.length := by omega
  have hFull : (l.type c).full = l.full := rfl
  rw [cell_eq, cell_eq, length_window, rows, rows, getD_concat, getD_concat, hFull]
  by_cases hLast : l.full.length - 24 + y = l.full.length
  · rw [if_pos hLast, if_pos hLast, type]
    exact getD_concat.trans (if_congr (by rw [hIndex, and_iff_right hLast]) rfl rfl)
  · rw [if_neg hLast, if_neg hLast, if_neg fun h => hLast (hIndex.mp h.1)]

end Layout

namespace Terminal

/-- The cursor goes to the next line. -/
def lineFeed (t : Terminal) : Terminal := { t with cursorX := 0, cursorY := t.cursorY + 1 }.scroll

theorem Shows.feed (h : t.Shows l) : t.lineFeed.Shows l.feed := by
  have hY := h.cursorY
  rw [Layout.length_window] at hY
  have hDown : (t.cursorY + 1).toNat = t.cursorY.toNat + 1 := by bv_omega
  have hLength : l.feed.full.length = l.full.length + 1 := List.length_append
  by_cases hFew : l.full.length < 24
  · have hStill : t.lineFeed = { t with cursorX := 0, cursorY := t.cursorY + 1 } := by
      apply scroll_of_lt
      show (t.cursorY + 1).toNat < 25
      omega
    rw [hStill]
    refine ⟨rfl, ?_, ?_⟩
    · rw [Layout.length_window, hLength]
      show (t.cursorY + 1).toNat + 1 = _
      omega
    · intro y hy x hx
      rw [Layout.cell_feed, if_pos hFew]
      exact h.screen y hy x hx
  · have hScroll : t.lineFeed = { t with cursorX := 0, cursorY := t.cursorY + 1 }.scrolled := by
      apply scroll_of_le
      show 25 ≤ (t.cursorY + 1).toNat
      omega
    rw [hScroll]
    refine ⟨rfl, ?_, ?_⟩
    · rw [Layout.length_window, hLength]
      show 24 + 1 = _
      omega
    · intro y hy x hx
      rw [Layout.cell_feed, if_neg hFew, tBuffer_scrolled]
      by_cases hTop : y < 24
      · have hIndex : y * 80 + x + 80 = (y + 1) * 80 + x := by omega
        rw [if_pos (by omega), if_pos hTop, hIndex]
        exact h.screen (y + 1) (Nat.succ_lt_succ hTop) x hx
      · rw [if_neg (by omega), if_neg hTop, if_pos (by omega)]
        rfl

theorem Shows.type (h : t.Shows l) (hRow : l.current.length < 80) (hCaps : t.capsLock ≠ 1)
    (hc : charSpace.sle c) : (t.putKey c).Shows (l.type c) := by
  have hX := h.cursorX
  have hY := h.cursorY
  rw [Layout.length_window] at hY
  have hLine : t.cursorY.toNat < 25 := by omega
  have hNewline : c ≠ charNewline := by
    rintro rfl
    exact absurd hc (by decide)
  obtain ⟨row, column, hPut⟩ := monPutchar_eq
    (t := { t with tColumn := t.cursorX.toNat, tRow := t.cursorY.toNat }) hLine hNewline
  rw [putKey_print hc, if_neg fun h => hCaps h.1]
  dsimp only
  rw [hPut]
  refine ⟨?_, ?_, ?_⟩
  · have hRight : (t.cursorX + 1).toNat = t.cursorX.toNat + 1 := by bv_omega
    rw [Layout.type, List.length_append, List.length_singleton, ← hX]
    exact hRight
  · rw [Layout.length_window]
    exact hY
  · intro y hy x hx
    rw [Layout.cell_type, ← h.cursorY, ← hX]
    show Function.update t.tBuffer (t.cursorY.toNat * 80 + t.cursorX.toNat) (vgaEntry c t.tColor)
      (y * 80 + x) = _
    rw [Function.update_apply]
    by_cases hHere : y + 1 = t.cursorY.toNat + 1 ∧ x = t.cursorX.toNat
    · rw [if_pos hHere, if_pos (by omega)]
      rfl
    · rw [if_neg hHere, if_neg (by omega)]
      exact h.screen y hy x hx

/-- What holds between two characters. -/
structure Follows (t : Terminal) (l : Layout) : Prop where
  shown : t.Shows l
  row : l.current.length < 80
  capsLock : t.capsLock = 0

theorem capsLock_scroll : t.scroll.capsLock = t.capsLock := by
  by_cases hY : t.cursorY.toNat < 25
  · rw [scroll_of_lt hY]
  · rw [scroll_of_le (Nat.le_of_not_lt hY)]
    rfl

theorem capsLock_putKey (hY : t.cursorY.toNat < 25) (hc : charSpace.sle c) (hCaps : t.capsLock ≠ 1) :
    (t.putKey c).capsLock = t.capsLock := by
  have hNewline : c ≠ charNewline := by
    rintro rfl
    exact absurd hc (by decide)
  obtain ⟨row, column, hPut⟩ := monPutchar_eq
    (t := { t with tColumn := t.cursorX.toNat, tRow := t.cursorY.toNat }) hY hNewline
  rw [putKey_print hc, if_neg fun h => hCaps h.1]
  dsimp only
  rw [hPut]
  rfl

theorem printable_sle : ∀ c : BitVec 8, charSpace.toNat ≤ c.toNat ∧ c.toNat < 127 →
    charSpace.sle c ∧ c ≠ charNewline := by
  decide

/-- One character. -/
theorem Follows.monPut (h : t.Follows l) (hc : Printable c ∨ c = charNewline) :
    (t.monPut c).Follows (l.place c) := by
  obtain ⟨hShows, hRow, hCaps⟩ := h
  rcases hc with hPrint | rfl
  · obtain ⟨hSpace, hNewline⟩ := printable_sle c hPrint
    have hNot : t.capsLock ≠ 1 := by
      rw [hCaps]
      decide
    have hY := hShows.cursorY
    rw [Layout.length_window] at hY
    have hType := hShows.type hRow hNot hSpace
    have hKeep := capsLock_putKey (by omega) hSpace hNot
    have hX := hType.cursorX
    have hLength : (l.type c).current.length = l.current.length + 1 := List.length_append
    rw [Layout.place, if_neg hNewline, Terminal.monPut, wrapLine]
    by_cases hFull : (l.type c).current.length = 80
    · have hWrap : 80 ≤ (t.putKey c).cursorX := (hX.trans hFull).ge
      rw [if_pos hFull, if_pos hWrap]
      exact ⟨hType.feed, Nat.zero_lt_succ 79, capsLock_scroll.trans (hKeep.trans hCaps)⟩
    · have hStay : ¬ 80 ≤ (t.putKey c).cursorX := by
        show ¬ 80 ≤ (t.putKey c).cursorX.toNat
        omega
      have hLine := hType.cursorY
      rw [Layout.length_window] at hLine
      rw [if_neg hFull, if_neg hStay, scroll_of_lt (by omega)]
      exact ⟨hType, by omega, hKeep.trans hCaps⟩
  · exact ⟨hShows.feed, Nat.zero_lt_succ 79, capsLock_scroll.trans hCaps⟩

theorem Follows.print (h : t.Follows l) (hs : ∀ c ∈ s, Printable c ∨ c = charNewline) :
    (t.print s).Follows (s.foldl Layout.place l) := by
  induction s generalizing t l with
  | nil => exact h
  | cons c s ih =>
      exact ih (h.monPut (hs c List.mem_cons_self)) fun d hd => hs d (List.mem_cons_of_mem c hd)

/-- An empty screen shows the empty layout. -/
theorem monInit_shows : t.monInit.Shows (layout []) := by
  rw [monInit_eq]
  refine ⟨rfl, rfl, ?_⟩
  intro y hy x hx
  have hCell : (layout []).cell y x = charSpace := by
    rw [Layout.cell_eq]
    cases y <;> rfl
  rw [hCell]
  simp only [filled]
  exact if_pos (by omega)

/-- `monWrite` of a string prints its characters one by one. -/
theorem monWrite_eq {mem : Nat → BitVec 8} {data : Nat} (h : Holds mem data s) :
    t.monWrite mem data s.length = t.print s := by
  have hBytes : (List.range s.length).map (fun i => mem (data + i)) = s := by
    apply List.ext_getElem (by simp)
    intro i hi hi'
    rw [List.getElem_map, List.getElem_range]
    exact ((holds_iff.mp h).1 i _ (List.getElem?_eq_getElem hi')).1
  rw [monWrite, Terminal.print]
  conv_rhs => rw [← hBytes]
  rw [List.foldl_map]

/-- From the screen that `monInit` leaves, `monWString` shows the last rows of the layout. -/
theorem monWString_shows {mem : Nat → BitVec 8} {data : Nat} (hCaps : t.capsLock = 0)
    (hString : Holds mem data s) (hs : ∀ c ∈ s, Printable c ∨ c = charNewline) :
    (∃ fuel u, t.monInit.monWString mem fuel data = some u) ∧
      ∀ fuel u, t.monInit.monWString mem fuel data = some u → u.Shows (layout s) := by
  have hMono : ∀ m n, m ≤ n → Le (t.monInit.monWString mem m data) (t.monInit.monWString mem n data) :=
    fun _ _ h => Le.map (strlenLoop_mono h)
  refine Le.determined hMono (k := s.length + 1) ⟨t.monInit.monWrite mem data s.length, ?_, ?_⟩
  · intro n hn
    rw [monWString, strlen_eq hString hn]
    rfl
  · rw [monWrite_eq hString]
    have hStart : t.monInit.Follows (layout []) := by
      refine ⟨monInit_shows, Nat.zero_lt_succ 79, ?_⟩
      rw [monInit_eq]
      exact hCaps
    exact (hStart.print hs).shown

theorem monWString_shows_word : ∃ fuel u,
    off.monInit.monWString (fun a => [0x68, 0x0A, 0x69].getD a 0) fuel 0 = some u ∧
      u.Shows (layout [0x68, 0x0A, 0x69]) := by
  have hString : Holds (fun a => [0x68, 0x0A, 0x69].getD a 0) 0 [0x68, 0x0A, 0x69] :=
    ⟨rfl, by decide, rfl, by decide, rfl, by decide, rfl⟩
  have hChars : ∀ c ∈ [0x68, 0x0A, 0x69], Printable c ∨ c = charNewline := by
    intro c hc
    simp only [List.mem_cons, List.not_mem_nil, or_false] at hc
    rcases hc with rfl | rfl | rfl
    · exact Or.inl ⟨by decide, by decide⟩
    · exact Or.inr rfl
    · exact Or.inl ⟨by decide, by decide⟩
  obtain ⟨⟨fuel, u, hRun⟩, hShows⟩ := monWString_shows (t := off) rfl hString hChars
  exact ⟨fuel, u, hRun, hShows fuel u hRun⟩

end Terminal
end ArtOS

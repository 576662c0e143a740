import ArtOS.Devices.Terminal
import ArtOS.Library.Transition

/-! Where the cursor of the terminal can go, and what is written on the way. -/
namespace ArtOS

inductive TerminalKey where
  | put (c : BitVec 8)
  | up
  | down
  | left
  | right
deriving DecidableEq

/-- A call, with what the two keys are when it comes. -/
structure TerminalAct where
  shiftKey : Int
  capsLock : Int
  key : TerminalKey
deriving DecidableEq

namespace Terminal

/-- The arrow keys are followed by `scroll`, as in `getKbCode`. -/
def act (t : Terminal) (a : TerminalAct) : Terminal :=
  let t := { t with shiftKey := a.shiftKey, capsLock := a.capsLock }
  match a.key with
  | .put c => t.monPut c
  | .up => t.upKeyn.scroll
  | .down => t.downKeyn.scroll
  | .left => t.leftKeyn.scroll
  | .right => t.rightKeyn.scroll

def run (t : Terminal) (acts : List TerminalAct) : Terminal := acts.foldl act t

def Safe (t : Terminal) : Prop :=
  t.cursorX.toNat < 80 ∧ t.cursorY.toNat < 25 ∧ ∀ i ∈ t.written, i < 2000

/-- The steps that leave the cursor on the screen: no backspace in the upper left corner, and with
shift no step to the right from the last tab stop and none to the left from in front of the first. -/
def Stays (t : Terminal) (a : TerminalAct) : Prop :=
  match a.key with
  | .put c => ¬ (c = charBackspace ∧ t.cursorX = 0 ∧ t.cursorY = 0)
  | .left => ¬ (a.shiftKey = 1 ∧ 0 < t.cursorX.toNat ∧ t.cursorX.toNat < 8)
  | .right => ¬ (a.shiftKey = 1 ∧ 72 ≤ t.cursorX.toNat ∧ t.cursorX.toNat < 79)
  | _ => True

variable {t u : Terminal} {a : TerminalAct} {c : BitVec 8} {i : Nat}

theorem tabStop_le : ∀ x : BitVec 8, x.toNat < 80 → ((x + 8) &&& ~~~(8 - 1)).toNat ≤ 80 := by
  decide

theorem tabStop_right : ∀ x : BitVec 8, x.toNat < 79 →
    (((x + 8) &&& ~~~(8 - 1)).toNat < 80 ↔ ¬ 72 ≤ x.toNat) := by
  decide

theorem tabStop_left : ∀ x : BitVec 8, 0 < x.toNat → x.toNat < 80 →
    (((x - 8) &&& ~~~(8 - 1)).toNat < 80 ↔ ¬ x.toNat < 8) := by
  decide

/-- What the branches of `monPut` leave. -/
structure Near (t : Terminal) : Prop where
  cursor : t.cursorX.toNat < 80 ∧ t.cursorY.toNat ≤ 25 ∨ t.cursorX.toNat = 80 ∧ t.cursorY.toNat < 25
  written : ∀ i ∈ t.written, i < 2000

theorem Safe.near (h : Safe t) : Near t := ⟨Or.inl ⟨h.1, h.2.1.le⟩, h.2.2⟩

theorem mem_written_scroll : i ∈ t.scroll.written → i < 2000 ∨ i ∈ t.written := by
  by_cases hY : t.cursorY.toNat < 25
  · rw [scroll_of_lt hY]
    exact Or.inr
  · rw [scroll_of_le (Nat.le_of_not_lt hY)]
    simp only [scrolled, filled, List.mem_append, List.mem_reverse, List.mem_range'_1]
    rintro (hLast | hCopied | hOld)
    · exact Or.inl (by omega)
    · exact Or.inl (by omega)
    · exact Or.inr hOld

theorem written_scroll (h : i ∈ t.written) : i ∈ t.scroll.written := by
  by_cases hY : t.cursorY.toNat < 25
  · rw [scroll_of_lt hY]
    exact h
  · rw [scroll_of_le (Nat.le_of_not_lt hY)]
    simp only [scrolled, filled, List.mem_append]
    exact Or.inr (Or.inr h)

theorem written_nextColumn (h : i ∈ t.written) : i ∈ t.nextColumn.written := by
  rw [nextColumn]
  dsimp only
  split
  · split
    · exact written_scroll h
    · exact h
  · exact h

theorem cursorX_scroll : t.scroll.cursorX = t.cursorX := by
  by_cases hY : t.cursorY.toNat < 25
  · rw [scroll_of_lt hY]
  · rw [scroll_of_le (Nat.le_of_not_lt hY)]
    rfl

theorem cursorY_scroll : t.scroll.cursorY.toNat < 25 := by
  by_cases hY : t.cursorY.toNat < 25
  · rw [scroll_of_lt hY]
    exact hY
  · rw [scroll_of_le (Nat.le_of_not_lt hY), scrolled]
    exact Nat.lt_succ_self 24

theorem safe_scroll (h : ∀ i ∈ t.written, i < 2000) : Safe t.scroll ↔ t.cursorX.toNat < 80 := by
  constructor
  · intro hSafe
    rw [← cursorX_scroll]
    exact hSafe.1
  · intro hX
    refine ⟨cursorX_scroll.symm ▸ hX, cursorY_scroll, ?_⟩
    intro i hi
    rcases mem_written_scroll hi with hi | hi
    · exact hi
    · exact h i hi

theorem Near.safe (h : Near t) : Safe t.wrapLine.scroll := by
  rw [wrapLine]
  by_cases hX : 80 ≤ t.cursorX
  · rw [if_pos hX]
    apply (safe_scroll ?_).mpr
    · exact Nat.zero_lt_succ 79
    · exact h.written
  · rw [if_neg hX]
    exact (safe_scroll h.written).mpr (Nat.lt_of_not_le hX)

theorem written_wrapLine : t.wrapLine.written = t.written := by
  rw [wrapLine]
  split <;> rfl

/-- A write on the screen, behind which the cursor moves to `x`. -/
theorem near_put {x : BitVec 8} (h : ∀ i ∈ t.written, i < 2000) (hY : t.cursorY.toNat < 25)
    (hRow : t.tRow * 80 + t.tColumn < 2000) (hc : c ≠ charNewline) (hX : x.toNat ≤ 80) :
    Near { t.monPutchar c with cursorX := x } := by
  obtain ⟨row, column, hPut⟩ := monPutchar_eq hY hc
  rw [hPut]
  refine ⟨?_, ?_⟩
  · rcases Nat.lt_or_eq_of_le hX with hLess | hEnd
    · exact Or.inl ⟨hLess, hY.le⟩
    · exact Or.inr ⟨hEnd, hY⟩
  · intro i hi
    rcases List.mem_cons.mp hi with hNew | hOld
    · exact hNew ▸ hRow
    · exact h i hOld

theorem cursorX_monPutchar (hY : t.cursorY.toNat < 25) (hc : c ≠ charNewline) :
    (t.monPutchar c).cursorX = t.cursorX := by
  obtain ⟨row, column, hPut⟩ := monPutchar_eq hY hc
  rw [hPut]
  rfl

theorem Safe.putBackspace (h : Safe t) (hc : ¬ (t.cursorX = 0 ∧ t.cursorY = 0)) :
    Near (t.putKey charBackspace) := by
  obtain ⟨hX, hY, hWritten⟩ := h
  have hSpace : charSpace ≠ charNewline := by decide
  rw [putKey, if_pos rfl]
  by_cases hZero : t.cursorX = 0
  · rw [if_pos hZero]
    have hTop : (t.cursorY - 1).toNat < 24 := by
      have hNe : t.cursorY ≠ 0 := fun hy => hc ⟨hZero, hy⟩
      bv_omega
    have hRow := hTop.trans (Nat.lt_succ_self 24)
    refine near_put hWritten hRow ?_ hSpace ?_
    · show (t.cursorY - 1).toNat * 80 + 79 < 2000
      omega
    · rw [cursorX_monPutchar hRow hSpace]
      exact (by decide : (80 - 1 : BitVec 8).toNat ≤ 80)
  · rw [if_neg hZero]
    have hLeft : (t.cursorX - 1).toNat = t.cursorX.toNat - 1 := by bv_omega
    refine near_put hWritten hY ?_ hSpace ?_
    · show t.cursorY.toNat * 80 + (t.cursorX.toNat - 1) < 2000
      omega
    · rw [cursorX_monPutchar]
      · exact (hLeft.trans_le (Nat.sub_le _ _)).trans hX.le
      · exact hY
      · exact hSpace

/-- A printable character is not a newline, even if it becomes a capital letter. -/
theorem print_ne_newline : ∀ c : BitVec 8, charSpace.sle c → c ≠ charNewline ∧
    ((0x61#8).sle c → c - 32 ≠ charNewline) := by
  decide

theorem Safe.putPrint (h : Safe t) (hc : charSpace.sle c) : Near (t.putKey c) := by
  obtain ⟨hX, hY, hWritten⟩ := h
  obtain ⟨hKeep, hUpper⟩ := print_ne_newline c hc
  have hChar : (if t.capsLock = 1 ∧ (0x61#8).sle c ∧ c.sle 0x7A#8 then c - 32 else c) ≠
      charNewline := by
    split
    next h => exact hUpper h.2.1
    next => exact hKeep
  rw [putKey_print hc]
  refine near_put hWritten hY ?_ hChar ?_
  · show t.cursorY.toNat * 80 + t.cursorX.toNat < 2000
    omega
  · rw [cursorX_monPutchar]
    · have hRight : (t.cursorX + 1).toNat ≤ 80 := by bv_omega
      exact hRight
    · exact hY
    · exact hChar

/-- Every branch of `monPut` but a backspace in the corner. -/
theorem Safe.putKey (h : Safe t) (hc : ¬ (c = charBackspace ∧ t.cursorX = 0 ∧ t.cursorY = 0)) :
    Near (t.putKey c) := by
  by_cases hBack : c = charBackspace
  · rw [hBack]
    exact h.putBackspace fun hCorner => hc ⟨hBack, hCorner⟩
  by_cases hPrint : charSpace.sle c
  · exact h.putPrint hPrint
  obtain ⟨hX, hY, hWritten⟩ := h
  rw [Terminal.putKey, if_neg hBack, if_neg hPrint]
  by_cases hTab : c = charTab
  · rw [if_pos hTab]
    refine ⟨?_, hWritten⟩
    rcases Nat.lt_or_eq_of_le (tabStop_le t.cursorX hX) with hLess | hEnd
    · exact Or.inl ⟨hLess, hY.le⟩
    · exact Or.inr ⟨hEnd, hY⟩
  · rw [if_neg hTab]
    by_cases hReturn : c = charReturn
    · rw [if_pos hReturn]
      exact ⟨Or.inl ⟨Nat.zero_lt_succ 79, hY.le⟩, hWritten⟩
    · rw [if_neg hReturn]
      by_cases hNewline : c = charNewline
      · rw [if_pos hNewline]
        have hDown : (t.cursorY + 1).toNat ≤ 25 := by bv_omega
        exact ⟨Or.inl ⟨Nat.zero_lt_succ 79, hDown⟩, hWritten⟩
      · rw [if_neg hNewline]
        exact Safe.near ⟨hX, hY, hWritten⟩

/-- A backspace in the corner writes far behind the screen. -/
theorem not_safe_corner (hX : t.cursorX = 0) (hY : t.cursorY = 0) :
    ¬ Safe (t.monPut charBackspace) := by
  intro h
  have hMem : 20479 ∈ (t.putKey charBackspace).written := by
    rw [putKey, if_pos rfl, if_pos hX, hY]
    apply written_nextColumn
    rw [monPutEntryAt, if_neg (by decide)]
    have hIndex : (0 - 1 : BitVec 8).toNat * vgaWidth + ((80 : BitVec 8).toNat - 1) = 20479 := by decide
    exact List.mem_cons.mpr (Or.inl hIndex.symm)
  have hLess := h.2.2 20479 (written_scroll (written_wrapLine.symm ▸ hMem))
  omega

theorem monPut_safe_iff (h : Safe t) :
    Safe (t.monPut c) ↔ ¬ (c = charBackspace ∧ t.cursorX = 0 ∧ t.cursorY = 0) := by
  constructor
  · rintro hSafe ⟨rfl, hX, hY⟩
    exact not_safe_corner hX hY hSafe
  · intro hc
    exact (h.putKey hc).safe

theorem upKeyn_safe (h : Safe t) : Safe t.upKeyn.scroll := by
  have hKeep : t.upKeyn.cursorX = t.cursorX ∧ t.upKeyn.written = t.written := by
    rw [upKeyn]
    split <;> exact ⟨rfl, rfl⟩
  rw [safe_scroll (hKeep.2.symm ▸ h.2.2), hKeep.1]
  exact h.1

theorem downKeyn_safe (h : Safe t) : Safe t.downKeyn.scroll := by
  have hKeep : t.downKeyn.cursorX = t.cursorX ∧ t.downKeyn.written = t.written := by
    rw [downKeyn]
    split <;> exact ⟨rfl, rfl⟩
  rw [safe_scroll (hKeep.2.symm ▸ h.2.2), hKeep.1]
  exact h.1

theorem rightKeyn_safe_iff (h : Safe t) : Safe t.rightKeyn.scroll ↔
    ¬ (t.shiftKey = 1 ∧ 72 ≤ t.cursorX.toNat ∧ t.cursorX.toNat < 79) := by
  have hX := h.1
  have hWritten : t.rightKeyn.written = t.written := by
    rw [rightKeyn]
    split <;> split <;> rfl
  rw [safe_scroll (hWritten.symm ▸ h.2.2), rightKeyn]
  by_cases hEnd : t.cursorX = 79
  · rw [if_pos hEnd, hEnd]
    by_cases hShift : t.shiftKey = 1
    · rw [if_pos hShift]
      simp [hShift]
    · rw [if_neg hShift]
      simp [hShift]
  · rw [if_neg hEnd]
    have hLess : t.cursorX.toNat < 79 := by bv_omega
    by_cases hShift : t.shiftKey = 1
    · rw [if_pos hShift]
      exact (tabStop_right t.cursorX hLess).trans (by simp [hShift, hLess])
    · rw [if_neg hShift]
      have hRight : (t.cursorX + 1).toNat < 80 := by bv_omega
      exact iff_of_true hRight fun h => hShift h.1

theorem leftKeyn_safe_iff (h : Safe t) : Safe t.leftKeyn.scroll ↔
    ¬ (t.shiftKey = 1 ∧ 0 < t.cursorX.toNat ∧ t.cursorX.toNat < 8) := by
  have hX := h.1
  have hWritten : t.leftKeyn.written = t.written := by
    rw [leftKeyn]
    split <;> split <;> rfl
  rw [safe_scroll (hWritten.symm ▸ h.2.2), leftKeyn]
  by_cases hZero : t.cursorX = 0
  · rw [if_pos hZero, hZero]
    by_cases hShift : t.shiftKey = 1
    · rw [if_pos hShift]
      simp
    · rw [if_neg hShift]
      simp
  · rw [if_neg hZero]
    have hPos : 0 < t.cursorX.toNat := by bv_omega
    by_cases hShift : t.shiftKey = 1
    · rw [if_pos hShift]
      exact (tabStop_left t.cursorX hPos hX).trans (by simp [hShift, hPos])
    · rw [if_neg hShift]
      have hLeft : (t.cursorX - 1).toNat < 80 := by bv_omega
      exact iff_of_true hLeft fun h => hShift h.1

/-- One step. -/
theorem act_safe_iff (h : Safe t) : Safe (t.act a) ↔ Stays t a := by
  obtain ⟨shiftKey, capsLock, key⟩ := a
  have hKeys : Safe { t with shiftKey := shiftKey, capsLock := capsLock } := h
  cases key with
  | put c => exact monPut_safe_iff hKeys
  | up => exact iff_of_true (upKeyn_safe hKeys) trivial
  | down => exact iff_of_true (downKeyn_safe hKeys) trivial
  | left => exact leftKeyn_safe_iff hKeys
  | right => exact rightKeyn_safe_iff hKeys

theorem monInit_safe (h : t.written = []) : Safe t.monInit := by
  rw [monInit_eq]
  refine ⟨Nat.zero_lt_succ 79, Nat.zero_lt_succ 24, ?_⟩
  intro i hi
  simp only [filled, h, List.append_nil, List.mem_reverse, List.mem_range'_1] at hi
  omega

/-- From `monInit` on the cursor is on the screen, and nothing else was written, as long as each step
is one of those that keep it there; the first one that is not breaks it. -/
theorem run_safe_iff (h : t.written = []) (acts : List TerminalAct) :
    (∀ n, Safe (t.monInit.run (acts.take n))) ↔
      ∀ n a, acts[n]? = some a → Stays (t.monInit.run (acts.take n)) a :=
  Transition.foldl_forall_iff (fun _ _ => act_safe_iff) (monInit_safe h) acts

instance : Decidable (Stays t a) :=
  match a with
  | ⟨_, _, .put _⟩ => inferInstanceAs (Decidable (¬ _))
  | ⟨_, _, .left⟩ => inferInstanceAs (Decidable (¬ _))
  | ⟨_, _, .right⟩ => inferInstanceAs (Decidable (¬ _))
  | ⟨_, _, .up⟩ => inferInstanceAs (Decidable True)
  | ⟨_, _, .down⟩ => inferInstanceAs (Decidable True)

/-- A letter and a newline, a tab and a backspace, the arrows to both sides with shift, a backspace over
the end of a line, and then from the top to the last line and one further. -/
def someKeys : List TerminalAct :=
  [⟨0, 0, .put 0x41⟩, ⟨0, 0, .put charNewline⟩, ⟨0, 0, .put charTab⟩, ⟨0, 0, .put charBackspace⟩, ⟨1, 0, .right⟩,
    ⟨1, 0, .left⟩, ⟨0, 0, .put charBackspace⟩, ⟨0, 0, .up⟩, ⟨0, 0, .put charNewline⟩, ⟨0, 0, .left⟩, ⟨0, 0, .down⟩]

theorem run_safe_iff_keys :
    (List.range 12).Forall fun n => Safe (off.monInit.run (someKeys.take n)) := by
  refine List.forall_iff_forall_mem.mpr fun n _ => (run_safe_iff rfl someKeys).mpr (fun n a ha => ?_) n
  have hAll : ∀ n (hn : n < someKeys.length), Stays (off.monInit.run (someKeys.take n)) someKeys[n] := by
    decide
  obtain ⟨hn, rfl⟩ := List.getElem?_eq_some_iff.mp ha
  exact hAll n hn

/-- A backspace as the first character. -/
theorem run_not_safe : ¬ ∀ (t : Terminal) (acts : List TerminalAct), t.written = [] →
    ∀ n, Safe (t.monInit.run (acts.take n)) := by
  intro h
  have hCorner : off.monInit.cursorX = 0 ∧ off.monInit.cursorY = 0 := by
    rw [monInit_eq]
    exact ⟨rfl, rfl⟩
  have hSafe := h off [⟨0, 0, .put charBackspace⟩] rfl 1
  rw [run, List.take_succ_cons, List.foldl_cons, List.take_nil, List.foldl_nil, act] at hSafe
  exact not_safe_corner (t := { off.monInit with shiftKey := 0, capsLock := 0 }) hCorner.1 hCorner.2 hSafe

end Terminal
end ArtOS

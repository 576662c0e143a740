import ArtOS.Devices.Terminal
import ArtOS.Library.Stores

/-! `mgets`, which reads a line from the keyboard. It goes back with every backspace, and it looks at
its variable `rd` before it has got a character. -/
namespace ArtOS

open Stores

/-- What `mgets` has done: its stores, the keys that are left, and the screen. -/
structure Gets where
  stores : List (Int × BitVec 8)
  keys : List (BitVec 8)
  terminal : Terminal

def Gets.behind (store : Int × BitVec 8) (y : Gets) : Gets := { y with stores := store :: y.stores }

/-- The loop of `mgets`. Without a key it waits for ever. -/
def mgetsLoop : List (BitVec 8) → Int → Terminal → Option Gets
  | [], _, _ => none
  | rd :: keys, ptr, t =>
      if rd = charNewline then some ⟨[(ptr, 0)], keys, t⟩
      else if rd = charBackspace then
        (mgetsLoop keys (ptr - 1) (t.monPut rd)).map (Gets.behind (ptr, charSpace))
      else (mgetsLoop keys (ptr + 1) (t.monPut rd)).map (Gets.behind (ptr, rd))

/-- `rd` is what the variable holds at first. The returned value is `s`. -/
def mgets (rd : BitVec 32) (s : Int) (keys : List (BitVec 8)) (t : Terminal) : Option Gets :=
  if rd = 10 then some ⟨[(s, 0)], keys, t⟩
  else (mgetsLoop keys s t).map (Gets.behind (s, rd.setWidth 8))

/-- A line after one more key. -/
def editKey (line : List (BitVec 8)) (c : BitVec 8) : List (BitVec 8) :=
  if c = charBackspace then line.dropLast else line ++ [c]

/-- A line after these keys. -/
def edit (line : List (BitVec 8)) (chars : List (BitVec 8)) : List (BitVec 8) := chars.foldl editKey line

/-- With `n` characters at first, every backspace comes when a character is left. -/
def Covered : Nat → List (BitVec 8) → Prop
  | _, [] => True
  | n, c :: chars => if c = charBackspace then 0 < n ∧ Covered (n - 1) chars else Covered (n + 1) chars

instance decidableCovered : ∀ n chars, Decidable (Covered n chars)
  | _, [] => inferInstanceAs (Decidable True)
  | n, c :: chars =>
      have := decidableCovered (n - 1) chars
      have := decidableCovered (n + 1) chars
      inferInstanceAs (Decidable (if c = charBackspace then 0 < n ∧ Covered (n - 1) chars else
        Covered (n + 1) chars))

/-- The characters lie in memory from `s` on. -/
def LiesAt (mem : Int → BitVec 8) (s : Int) (text : List (BitVec 8)) : Prop :=
  ∀ (i : Nat) c, text[i]? = some c → mem (s + i) = c

/-- The line is read into its buffer. -/
def GetsLine (rd : BitVec 32) (s : Int) (size : Nat) (chars rest : List (BitVec 8)) (t : Terminal)
    (mem : Int → BitVec 8) : Prop :=
  ∃ y, mgets rd s (chars ++ charNewline :: rest) t = some y ∧
    (∀ a ∈ targets y.stores, s ≤ a ∧ a < s + size) ∧
    LiesAt (written y.stores mem) s (edit [] chars ++ [0])

variable {mem : Int → BitVec 8} {s ptr a : Int} {line chars rest keys : List (BitVec 8)} {c : BitVec 8}
variable {t : Terminal} {y : Gets} {n size : Nat} {rd : BitVec 32}

theorem liesAt_append : LiesAt mem s (line ++ [c]) ↔ LiesAt mem s line ∧ mem (s + line.length) = c := by
  constructor
  · intro h
    refine ⟨fun i d hi => h i d ?_, h line.length c ?_⟩
    · rw [List.getElem?_append_left (List.getElem?_eq_some_iff.mp hi).1, hi]
    · rw [List.getElem?_append_right le_rfl, Nat.sub_self]
      rfl
  · rintro ⟨hLine, hLast⟩ i d hi
    by_cases hIn : i < line.length
    · exact hLine i d (by rwa [List.getElem?_append_left hIn] at hi)
    · rw [List.getElem?_append_right (Nat.le_of_not_lt hIn), List.getElem?_singleton] at hi
      split at hi
      next hEnd =>
        rw [show i = line.length by omega, hLast]
        exact Option.some.inj hi
      next => cases hi

/-- A store behind the line. -/
theorem LiesAt.update (h : LiesAt mem s line) (c : BitVec 8) :
    LiesAt (Function.update mem (s + line.length) c) s line := by
  intro i d hi
  have hIn := (List.getElem?_eq_some_iff.mp hi).1
  rw [Function.update_of_ne (by omega)]
  exact h i d hi

theorem LiesAt.dropLast (h : LiesAt mem s line) : LiesAt mem s line.dropLast := by
  intro i d hi
  have hIn := (List.getElem?_eq_some_iff.mp hi).1
  rw [List.length_dropLast] at hIn
  rw [List.dropLast_eq_take, List.getElem?_take_of_lt (by omega)] at hi
  exact h i d hi

theorem mgetsLoop_newline : mgetsLoop (charNewline :: keys) ptr t = some ⟨[(ptr, 0)], keys, t⟩ := rfl

theorem mgetsLoop_backspace : mgetsLoop (charBackspace :: keys) ptr t =
    (mgetsLoop keys (ptr - 1) (t.monPut charBackspace)).map (Gets.behind (ptr, charSpace)) := rfl

theorem mgetsLoop_char (hNewline : c ≠ charNewline) (hBackspace : c ≠ charBackspace) :
    mgetsLoop (c :: keys) ptr t =
      (mgetsLoop keys (ptr + 1) (t.monPut c)).map (Gets.behind (ptr, c)) := by
  rw [mgetsLoop, if_neg hNewline, if_neg hBackspace]

/-- The loop stores to its pointer whatever comes. -/
theorem mgetsLoop_first (h : mgetsLoop keys ptr t = some y) : ptr ∈ targets y.stores := by
  cases keys with
  | nil => cases h
  | cons c keys =>
      rw [mgetsLoop] at h
      split at h
      · cases h
        exact List.mem_cons_self
      · split at h
        · obtain ⟨z, _, rfl⟩ := Option.map_eq_some_iff.mp h
          exact List.mem_cons_self
        · obtain ⟨z, _, rfl⟩ := Option.map_eq_some_iff.mp h
          exact List.mem_cons_self

/-- The loop ends with the line, and takes that from the keys. -/
theorem mgetsLoop_ends (h : charNewline ∉ chars) :
    ∃ y, mgetsLoop (chars ++ charNewline :: rest) ptr t = some y ∧ y.keys = rest := by
  induction chars generalizing ptr t with
  | nil => exact ⟨_, mgetsLoop_newline, rfl⟩
  | cons c chars ih =>
      obtain ⟨hFirst, hRest⟩ := not_or.mp (mt List.mem_cons.mpr h)
      by_cases hBack : c = charBackspace
      · rw [hBack, List.cons_append, mgetsLoop_backspace]
        obtain ⟨z, hLoop, hKeys⟩ : ∃ z, mgetsLoop (chars ++ charNewline :: rest) (ptr - 1)
            (t.monPut charBackspace) = some z ∧ z.keys = rest := ih hRest
        exact ⟨_, congrArg (Option.map _) hLoop, hKeys⟩
      · rw [List.cons_append, mgetsLoop_char (Ne.symm hFirst) hBack]
        obtain ⟨z, hLoop, hKeys⟩ : ∃ z, mgetsLoop (chars ++ charNewline :: rest) (ptr + 1) (t.monPut c) =
            some z ∧ z.keys = rest := ih hRest
        exact ⟨_, congrArg (Option.map _) hLoop, hKeys⟩

/-- The line is in front of the pointer. -/
theorem mgetsLoop_line (hChars : charNewline ∉ chars) (hCovered : Covered line.length chars)
    (hLine : LiesAt mem s line) (h : mgetsLoop (chars ++ charNewline :: rest) (s + line.length) t = some y) :
    (∀ a ∈ targets y.stores, s ≤ a ∧ a ≤ s + line.length + chars.length) ∧
      LiesAt (written y.stores mem) s (edit line chars ++ [0]) := by
  induction chars generalizing line mem t y with
  | nil =>
      cases h
      refine ⟨fun a ha => ?_, liesAt_append.mpr ⟨hLine.update 0, Function.update_self ..⟩⟩
      obtain rfl : a = s + line.length := List.mem_singleton.mp ha
      constructor <;> simp
  | cons c chars ih =>
      obtain ⟨hFirst, hRest⟩ := not_or.mp (mt List.mem_cons.mpr hChars)
      by_cases hBack : c = charBackspace
      · rw [hBack, List.cons_append, mgetsLoop_backspace] at h
        obtain ⟨z, hLoop, rfl⟩ := Option.map_eq_some_iff.mp h
        rw [Covered, if_pos hBack] at hCovered
        obtain ⟨hPos, hCovered⟩ := hCovered
        have hLength : (line.dropLast.length : Int) = line.length - 1 := by
          rw [List.length_dropLast]
          omega
        rw [← List.length_dropLast] at hCovered
        rw [show s + line.length - 1 = s + line.dropLast.length by omega] at hLoop
        obtain ⟨hBounds, hLies⟩ := ih hRest hCovered (hLine.update charSpace).dropLast hLoop
        refine ⟨?_, ?_⟩
        · intro a ha
          rw [List.length_cons]
          rcases List.mem_cons.mp ha with rfl | ha
          · dsimp only
            omega
          · have hBound := hBounds a ha
            omega
        · have hEdit : edit line (c :: chars) = edit line.dropLast chars := by
            rw [edit, List.foldl_cons, editKey, if_pos hBack]
            rfl
          rw [hEdit]
          exact hLies
      · rw [List.cons_append, mgetsLoop_char (Ne.symm hFirst) hBack] at h
        obtain ⟨z, hLoop, rfl⟩ := Option.map_eq_some_iff.mp h
        rw [Covered, if_neg hBack] at hCovered
        have hLength : (line ++ [c]).length = line.length + 1 := List.length_append
        rw [← hLength] at hCovered
        rw [show s + line.length + 1 = s + (line ++ [c]).length by omega] at hLoop
        have hMore : LiesAt (Function.update mem (s + line.length) c) s (line ++ [c]) :=
          liesAt_append.mpr ⟨hLine.update c, Function.update_self ..⟩
        obtain ⟨hBounds, hLies⟩ := ih hRest hCovered hMore hLoop
        refine ⟨?_, ?_⟩
        · intro a ha
          rw [List.length_cons]
          rcases List.mem_cons.mp ha with rfl | ha
          · dsimp only
            omega
          · have hBound := hBounds a ha
            omega
        · have hEdit : edit line (c :: chars) = edit (line ++ [c]) chars := by
            rw [edit, List.foldl_cons, editKey, if_neg hBack]
            rfl
          rw [hEdit]
          exact hLies

/-- A backspace too many takes the pointer out of the buffer. -/
theorem mgetsLoop_underflow (hChars : charNewline ∉ chars) (hCovered : ¬ Covered n chars)
    (h : mgetsLoop (chars ++ charNewline :: rest) (s + n) t = some y) : s - 1 ∈ targets y.stores := by
  induction chars generalizing n t y with
  | nil => exact absurd trivial hCovered
  | cons c chars ih =>
      obtain ⟨hFirst, hRest⟩ := not_or.mp (mt List.mem_cons.mpr hChars)
      by_cases hBack : c = charBackspace
      · rw [hBack, List.cons_append, mgetsLoop_backspace] at h
        obtain ⟨z, hLoop, rfl⟩ := Option.map_eq_some_iff.mp h
        rw [Covered, if_pos hBack] at hCovered
        apply List.mem_cons_of_mem
        by_cases hPos : 0 < n
        · rw [show s + (n : Int) - 1 = s + (n - 1 : Nat) by omega] at hLoop
          exact ih hRest (fun hTail => hCovered ⟨hPos, hTail⟩) hLoop
        · rw [show s + (n : Int) - 1 = s - 1 by omega] at hLoop
          exact mgetsLoop_first hLoop
      · rw [List.cons_append, mgetsLoop_char (Ne.symm hFirst) hBack] at h
        obtain ⟨z, hLoop, rfl⟩ := Option.map_eq_some_iff.mp h
        rw [Covered, if_neg hBack] at hCovered
        rw [show s + (n : Int) + 1 = s + (n + 1 : Nat) by omega] at hLoop
        exact List.mem_cons_of_mem _ (ih hRest hCovered hLoop)

/-- What is stored in front of the loop. -/
theorem mgets_of_ne (h : rd ≠ 10) (keys : List (BitVec 8)) : mgets rd s keys t =
    (mgetsLoop keys s t).map (Gets.behind (s, rd.setWidth 8)) := if_neg h

/-- The characters of a line have come from the keyboard. -/
theorem mem_edit (h : c ∈ edit line chars) : c ∈ line ∨ c ∈ chars := by
  induction chars generalizing line with
  | nil => exact Or.inl h
  | cons d chars ih =>
      rcases ih h with hLine | hChars
      · rw [editKey] at hLine
        split at hLine
        · exact Or.inl (List.mem_of_mem_dropLast hLine)
        · rcases List.mem_append.mp hLine with hLine | hNew
          · exact Or.inl hLine
          · exact Or.inr (List.mem_singleton.mp hNew ▸ List.mem_cons_self)
      · exact Or.inr (List.mem_cons_of_mem _ hChars)

/-- With `rd` at 10 the line is not read. -/
theorem getsLine_unread (hChars : ∀ c ∈ chars, c ≠ charNewline ∧ c ≠ 0) (hSize : 0 < size) :
    GetsLine 10 s size chars rest t mem ↔ edit [] chars = [] := by
  have hGets : mgets 10 s (chars ++ charNewline :: rest) t = some ⟨[(s, 0)], chars ++ charNewline :: rest, t⟩ :=
    if_pos rfl
  have hZero : written [(s, 0)] mem s = 0 := Function.update_self ..
  constructor
  · rintro ⟨y, hSome, _, hLies⟩
    cases hGets.symm.trans hSome
    cases hEdit : edit [] chars with
    | nil => rfl
    | cons c line =>
        have hFirst : written [(s, 0)] mem (s + (0 : Nat)) = c := hLies 0 c (by rw [hEdit]; rfl)
        rw [Int.natCast_zero, Int.add_zero, hZero] at hFirst
        have hMem : c ∈ chars :=
          (mem_edit (hEdit ▸ List.mem_cons_self)).resolve_left List.not_mem_nil
        exact absurd hFirst.symm (hChars c hMem).2
  · intro hEdit
    refine ⟨_, hGets, fun a ha => ?_, ?_⟩
    · obtain rfl : a = s := List.mem_singleton.mp ha
      constructor <;> omega
    · rw [hEdit, List.nil_append]
      intro i c hi
      rw [List.getElem?_singleton] at hi
      split at hi
      next hStart =>
        rw [hStart, Int.natCast_zero, Int.add_zero, hZero]
        exact Option.some.inj hi
      next => cases hi

/-- The line and the accesses of a call that reads one. -/
theorem mgets_line (h : rd ≠ 10) (hChars : charNewline ∉ chars) (hCovered : Covered 0 chars) :
    ∃ y, mgets rd s (chars ++ charNewline :: rest) t = some y ∧ y.keys = rest ∧
      (∀ a ∈ targets y.stores, s ≤ a ∧ a ≤ s + chars.length) ∧
      LiesAt (written y.stores mem) s (edit [] chars ++ [0]) := by
  obtain ⟨z, hLoop, hKeys⟩ : ∃ z, mgetsLoop (chars ++ charNewline :: rest) s t = some z ∧ z.keys = rest :=
    mgetsLoop_ends hChars
  have hStart : mgetsLoop (chars ++ charNewline :: rest) (s + ([] : List (BitVec 8)).length) t = some z := by
    rw [List.length_nil, Int.natCast_zero, Int.add_zero, hLoop]
  have hEmpty : LiesAt (Function.update mem s (rd.setWidth 8)) s [] := fun i c hi => by cases hi
  have hCovered' : Covered ([] : List (BitVec 8)).length chars := hCovered
  obtain ⟨hBounds, hLies⟩ := mgetsLoop_line hChars hCovered' hEmpty hStart
  refine ⟨_, (mgets_of_ne h _).trans (congrArg (Option.map _) hLoop), hKeys, fun a ha => ?_, hLies⟩
  rcases List.mem_cons.mp ha with rfl | ha
  · omega
  · simpa using hBounds a ha

theorem mgets_underflow (h : rd ≠ 10) (hChars : charNewline ∉ chars) (hCovered : ¬ Covered 0 chars)
    (hGets : mgets rd s (chars ++ charNewline :: rest) t = some y) : s - 1 ∈ targets y.stores := by
  rw [mgets_of_ne h] at hGets
  obtain ⟨z, hLoop, rfl⟩ := Option.map_eq_some_iff.mp hGets
  have hStart : mgetsLoop (chars ++ charNewline :: rest) (s + (0 : Nat)) t = some z := by
    rw [Int.natCast_zero, Int.add_zero, hLoop]
  exact List.mem_cons_of_mem _ (mgetsLoop_underflow hChars hCovered hStart)

theorem getsLine_read (h : rd ≠ 10) (hChars : charNewline ∉ chars) (hSize : chars.length < size) :
    GetsLine rd s size chars rest t mem ↔ Covered 0 chars := by
  constructor
  · rintro ⟨y, hGets, hBounds, _⟩
    by_contra hCovered
    have hBound := hBounds _ (mgets_underflow h hChars hCovered hGets)
    omega
  · intro hCovered
    obtain ⟨y, hGets, _, hBounds, hLies⟩ := mgets_line h hChars hCovered
    refine ⟨y, hGets, fun a ha => ?_, hLies⟩
    have hBound := hBounds a ha
    omega

/-- The line is read into its buffer exactly if `rd` happens not to be a newline and every backspace has a
character to delete, or if it is one and the line is empty. -/
theorem getsLine_iff (rd : BitVec 32) (s : Int) (rest : List (BitVec 8)) (t : Terminal)
    (mem : Int → BitVec 8) (hChars : ∀ c ∈ chars, c ≠ charNewline ∧ c ≠ 0) (hSize : chars.length < size) :
    GetsLine rd s size chars rest t mem ↔
      (rd = 10 → edit [] chars = []) ∧ (rd ≠ 10 → Covered 0 chars) := by
  by_cases h : rd = 10
  · rw [h, getsLine_unread hChars (Nat.zero_lt_of_lt hSize)]
    simp
  · rw [getsLine_read h (fun hMem => (hChars _ hMem).1 rfl) hSize]
    exact ⟨fun hCovered => ⟨fun hTen => absurd hTen h, fun _ => hCovered⟩, fun hBoth => hBoth.2 h⟩

/-- An "a", a backspace and a "b". -/
theorem getsLine_ab : GetsLine 0 0 4 [0x61, charBackspace, 0x62] [] Terminal.off fun _ => 0 :=
  (getsLine_iff 0 0 [] Terminal.off (fun _ => 0) (by decide) (by decide)).mpr
    ⟨fun h => absurd h (by decide), fun _ => by decide⟩

/-- A backspace at the start of the line. -/
theorem not_getsLine : ¬ ∀ (rd : BitVec 32) (s : Int) (size : Nat) (chars rest : List (BitVec 8))
    (t : Terminal) (mem : Int → BitVec 8), (∀ c ∈ chars, c ≠ charNewline ∧ c ≠ 0) → chars.length < size →
      GetsLine rd s size chars rest t mem := by
  intro hAll
  have hLine := hAll 0 0 2 [charBackspace] [] Terminal.off (fun _ => 0) (by decide) (by decide)
  rw [getsLine_read (by decide) (by decide) (by decide)] at hLine
  exact absurd hLine.1 (by decide)

end ArtOS

import ArtOS.Devices.Keyboard

/-! Which character `getChar` hands over, whenever the interrupts come. -/
namespace ArtOS.Keyboard

/-- The accesses that do not go wrong: the `switch` does not see a shift code of the other kind than
the test in front of it, and the last code that came before the table is read is that of a key that was
pressed. -/
def Clean (s : Keyboard) (a : KeyboardAct) : Prop := a = .poll →
  match s.pc with
  | .switchPressed => ¬ ShiftRelease s.scancode
  | .switchReleased => ¬ ShiftPress s.scancode
  | .table _ => ∀ code ∈ s.delivered.head?, code.toNat < 128
  | _ => True

instance (s : Keyboard) (a : KeyboardAct) : Decidable (Clean s a) := by
  unfold Clean
  cases s.pc <;> infer_instance

abbrev Step (handlers : ArrowHandlers) (may : Keyboard → KeyboardAct → Prop) (s t : Keyboard) : Prop :=
  ∃ a, may s a ∧ s.act handlers a = some t

/-- The states of a call whose steps `may` happen. -/
abbrev Reachable (handlers : ArrowHandlers) (may : Keyboard → KeyboardAct → Prop) : Keyboard → Prop :=
  Transition.Reachable Init (Step handlers may)

/-- The places where no code need have come. -/
def Early : GetCharPc → Prop
  | .start | .clearReady | .whileTest | .ifPressed => True
  | _ => False

/-- Whether shift is held, or is about to be. -/
def Held (s : Keyboard) : Prop :=
  match s.pc with
  | .setShift value => value = true
  | _ => s.terminal.shiftKey = 1

structure Sound (s : Keyboard) : Prop where
  code : ∀ c ∈ s.delivered.head?, s.scancode = c
  pressed : s.pc ≠ .start → s.isButtonPressed = 1 → s.delivered ≠ []
  ready : s.pc ≠ .start → s.pc ≠ .clearReady → s.isNextCharReady ≠ 0 → s.delivered ≠ []
  busy : ¬ Early s.pc → s.delivered ≠ []
  shift : Held s ↔ heldAfter s.shiftBefore s.processed
  table : ∀ shifted, s.pc = .table shifted → (shifted = true ↔ s.terminal.shiftKey = 1)
  done : HandedOff s

variable {handlers : ArrowHandlers} {s t : Keyboard} {code : BitVec 8} {pc : GetCharPc}

theorem Init.sound (h : Init s) : Sound s := by
  obtain ⟨hPc, hDelivered, hProcessed, hShift⟩ := h
  refine ⟨?_, ?_, ?_, ?_, ?_, ?_, ?_⟩
  · simp [hDelivered]
  · exact fun hStart => absurd hPc hStart
  · exact fun hStart => absurd hPc hStart
  · exact fun hEarly => absurd (hPc ▸ trivial) hEarly
  · rw [Held, hPc, hProcessed, hShift]
    exact Iff.rfl
  · simp [hPc]
  · intro shifted index hDone
    simp [hPc] at hDone

theorem Sound.interrupt (h : Sound s) : Sound (s.keyboardHandler code) := by
  refine ⟨?_, ?_, ?_, ?_, h.shift, h.table, ?_⟩
  · rintro c ⟨⟩
    rfl
  · exact fun _ _ => List.cons_ne_nil _ _
  · exact fun _ _ _ => List.cons_ne_nil _ _
  · exact fun _ => List.cons_ne_nil _ _
  · intro shifted index hDone
    obtain ⟨hIndex, hMem, hResult, hShift⟩ := h.done shifted index hDone
    exact ⟨hIndex, List.mem_cons_of_mem _ hMem, hResult, hShift⟩

/-- Steps between the places where nothing is handed over yet. -/
theorem Sound.goto (h : Sound s) (hCode : t.scancode = s.scancode) (hDelivered : t.delivered = s.delivered)
    (hPressed : t.isButtonPressed = 1 → s.delivered ≠ [])
    (hReady : t.pc ≠ .clearReady → t.isNextCharReady ≠ 0 → s.delivered ≠ [])
    (hBusy : ¬ Early t.pc → s.delivered ≠ []) (hShift : Held t ↔ heldAfter t.shiftBefore t.processed)
    (hTable : ∀ shifted, t.pc ≠ .table shifted) (hDone : ∀ shifted index, t.pc ≠ .done shifted index) :
    Sound t where
  code := by
    rw [hCode, hDelivered]
    exact h.code
  pressed := fun _ hp => hDelivered ▸ hPressed hp
  ready := fun _ hp hr => hDelivered ▸ hReady hp hr
  busy := fun hp => hDelivered ▸ hBusy hp
  shift := hShift
  table := fun shifted hp => absurd hp (hTable shifted)
  done := fun shifted index hp => absurd hp (hDone shifted index)

/-- The same, once a code has come. -/
theorem Sound.inside (h : Sound s) (hBusy : ¬ Early s.pc) (hCode : t.scancode = s.scancode)
    (hDelivered : t.delivered = s.delivered) (hShift : Held t ↔ heldAfter t.shiftBefore t.processed)
    (hTable : ∀ shifted, t.pc ≠ .table shifted) (hDone : ∀ shifted index, t.pc ≠ .done shifted index) :
    Sound t :=
  have hCame := h.busy hBusy
  h.goto hCode hDelivered (fun _ => hCame) (fun _ _ => hCame) (fun _ => hCame) hShift hTable hDone

theorem held_of_other (h : ∀ value, s.pc ≠ .setShift value) : Held s ↔ s.terminal.shiftKey = 1 := by
  rw [Held]
  cases hPc : s.pc with
  | setShift value => exact absurd hPc (h value)
  | _ => exact Iff.rfl

/-- The cases stay inside `getKbCode`. -/
theorem pressedCase_inner (code : BitVec 8) : ¬ Early (pressedCase code) ∧ (∀ shifted, pressedCase code ≠ .table shifted) ∧
    ∀ shifted index, pressedCase code ≠ .done shifted index := by
  unfold pressedCase
  split_ifs <;> simp [Early]

theorem releasedCase_inner (code : BitVec 8) : ¬ Early (releasedCase code) ∧ (∀ shifted, releasedCase code ≠ .table shifted) ∧
    ∀ shifted index, releasedCase code ≠ .done shifted index := by
  unfold releasedCase
  split_ifs <;> simp [Early]

theorem held_pressedCase (hPc : s.pc = pressedCase code) (hClean : ¬ ShiftRelease code) :
    Held s ↔ ShiftPress code ∨ ¬ ShiftRelease code ∧ s.terminal.shiftKey = 1 := by
  by_cases hPress : ShiftPress code
  · rw [Held, hPc, pressedCase, if_pos hPress]
    exact iff_of_true rfl (Or.inl hPress)
  · have hOther : ∀ value, s.pc ≠ .setShift value := by
      intro value
      rw [hPc]
      unfold pressedCase
      split_ifs <;> simp
    rw [held_of_other hOther, or_iff_right hPress, and_iff_right hClean]

theorem held_releasedCase (hPc : s.pc = releasedCase code) (hClean : ¬ ShiftPress code) :
    Held s ↔ ShiftPress code ∨ ¬ ShiftRelease code ∧ s.terminal.shiftKey = 1 := by
  rw [or_iff_right hClean]
  by_cases hRelease : ShiftRelease code
  · rw [Held, hPc, releasedCase, if_pos hRelease]
    exact iff_of_false Bool.false_ne_true fun h => h.1 hRelease
  · have hOther : ∀ value, s.pc ≠ .setShift value := by
      intro value
      rw [hPc, releasedCase, if_neg hRelease]
      simp
    rw [held_of_other hOther, and_iff_right hRelease]

/-- Where no shift key is about to be stored, what `shiftKey` says decides. -/
theorem Sound.shift_eq (h : Sound s) (hPc : ∀ value, s.pc ≠ .setShift value) :
    s.terminal.shiftKey = 1 ↔ heldAfter s.shiftBefore s.processed :=
  (held_of_other hPc).symm.trans h.shift

/-- Both flags are cleared before a code counts. -/
theorem Sound.clearFlags (h : Sound s) (hPc : s.pc = .start ∨ s.pc = .clearReady)
    (hRun : s.poll handlers = some t) : Sound t := by
  rw [Keyboard.poll] at hRun
  rcases hPc with hPc | hPc
  · rw [hPc] at hRun
    obtain rfl := Option.some.inj hRun
    exact h.goto rfl rfl (by simp) (by simp) (by simp [Early]) (h.shift_eq (by simp [hPc])) (by simp) (by simp)
  · have hPressed := h.pressed
    rw [hPc] at hRun hPressed
    obtain rfl := Option.some.inj hRun
    exact h.goto rfl rfl (hPressed (by simp)) (by simp) (by simp [Early]) (h.shift_eq (by simp [hPc]))
      (by simp) (by simp)

/-- The two tests of the loop: they are passed only when a code has come. -/
theorem Sound.loopTest (h : Sound s) (hPc : s.pc = .whileTest ∨ s.pc = .ifPressed)
    (hRun : s.poll handlers = some t) : Sound t := by
  have hPressed : s.isButtonPressed = 1 → s.delivered ≠ [] :=
    h.pressed (by rcases hPc with hPc | hPc <;> simp [hPc])
  have hReady : s.isNextCharReady ≠ 0 → s.delivered ≠ [] :=
    h.ready (by rcases hPc with hPc | hPc <;> simp [hPc]) (by rcases hPc with hPc | hPc <;> simp [hPc])
  have hShift := h.shift_eq (by rcases hPc with hPc | hPc <;> simp [hPc])
  rw [Keyboard.poll] at hRun
  rcases hPc with hPc | hPc
  · rw [hPc] at hRun
    obtain rfl := Option.some.inj hRun
    by_cases hNext : s.isNextCharReady = 0
    · simp only [if_pos hNext]
      exact h.goto rfl rfl hPressed (fun _ => hReady) (by simp [Early]) hShift (by simp) (by simp)
    · simp only [if_neg hNext]
      exact h.goto rfl rfl hPressed (fun _ => hReady) (fun _ => hReady hNext) hShift (by simp) (by simp)
  · rw [hPc] at hRun
    obtain rfl := Option.some.inj hRun
    by_cases hButton : s.isButtonPressed = 1
    · simp only [if_pos hButton]
      exact h.goto rfl rfl hPressed (fun _ => hReady) (fun _ => hPressed hButton) hShift (by simp) (by simp)
    · simp only [if_neg hButton]
      exact h.goto rfl rfl hPressed (fun _ => hReady) (by simp [Early]) hShift (by simp) (by simp)

/-- Each `switch` reads `scancode` again, and must see a code of its own kind. -/
theorem Sound.switch (h : Sound s) (hPc : s.pc = .switchReleased ∨ s.pc = .switchPressed)
    (hClean : Clean s .poll) (hRun : s.poll handlers = some t) : Sound t := by
  have hClean := hClean rfl
  rw [Keyboard.poll] at hRun
  rcases hPc with hPc | hPc
  · rw [hPc] at hRun hClean
    obtain rfl := Option.some.inj hRun
    obtain ⟨_, hTable, hDone⟩ := releasedCase_inner s.scancode
    refine h.inside (hPc ▸ id) rfl rfl ?_ hTable hDone
    rw [heldAfter, ← h.shift_eq (by simp [hPc])]
    exact held_releasedCase rfl hClean
  · rw [hPc] at hRun hClean
    obtain rfl := Option.some.inj hRun
    obtain ⟨_, hTable, hDone⟩ := pressedCase_inner s.scancode
    refine h.inside (hPc ▸ id) rfl rfl ?_ hTable hDone
    rw [heldAfter, ← h.shift_eq (by simp [hPc])]
    exact held_pressedCase rfl hClean

/-- `shiftKey` gets the value that the `switch` has decided on. -/
theorem Sound.setShift {value : Bool} (h : Sound s) (hPc : s.pc = .setShift value)
    (hRun : s.poll handlers = some t) : Sound t := by
  have hShift := h.shift
  rw [Held, hPc] at hShift
  rw [Keyboard.poll, hPc] at hRun
  cases value with
  | true =>
      obtain rfl := Option.some.inj hRun
      refine h.inside (hPc ▸ id) rfl rfl ?_ (by simp) (by simp)
      exact iff_of_true rfl (hShift.mp rfl)
  | false =>
      obtain rfl := Option.some.inj hRun
      refine h.inside (hPc ▸ id) rfl rfl ?_ (by simp) (by simp)
      exact iff_of_false zero_ne_one fun hHeld => Bool.false_ne_true (hShift.mpr hHeld)

/-- The table that is read is the one for the shift key as it was tested. -/
theorem Sound.ifShift (h : Sound s) (hPc : s.pc = .ifShift) (hRun : s.poll handlers = some t) :
    Sound t := by
  have hCame := h.busy (hPc ▸ id)
  rw [Keyboard.poll, hPc] at hRun
  obtain rfl := Option.some.inj hRun
  refine ⟨h.code, fun _ _ => hCame, fun _ _ _ => hCame, fun _ => hCame, h.shift_eq (by simp [hPc]), ?_,
    by simp [HandedOff]⟩
  rintro shifted ⟨⟩
  exact decide_eq_true_iff

/-- The index is the last code that came, and it lies in the table when that code is a press. -/
theorem Sound.readTable {shifted : Bool} (h : Sound s) (hPc : s.pc = .table shifted)
    (hClean : Clean s .poll) (hRun : s.poll handlers = some t) : Sound t := by
  have hClean := hClean rfl
  have hCame := h.busy (hPc ▸ id)
  have hShift := h.shift_eq (by simp [hPc])
  rw [Keyboard.poll] at hRun
  rw [hPc] at hRun hClean
  obtain rfl := Option.some.inj hRun
  refine ⟨h.code, fun _ _ => hCame, fun _ _ _ => hCame, fun _ => hCame, hShift, by simp, ?_⟩
  rintro _ _ ⟨⟩
  obtain ⟨code, codes, hCodes⟩ := List.exists_cons_of_ne_nil hCame
  have hLast : code ∈ s.delivered.head? := by rw [hCodes]; rfl
  have hCode : s.scancode = code := h.code code hLast
  have hIndex : s.scancode.toNat < 128 := hCode ▸ hClean code hLast
  refine ⟨hIndex, ?_, ?_, (h.table shifted hPc).trans hShift⟩
  · rw [hCode, hCodes]
    exact List.mem_cons_self
  · have hLength : (if shifted = true then kbdusS else kbdus).length = 128 := by
      cases shifted <;> rfl
    exact ⟨_, List.getElem?_eq_getElem (hLength.symm ▸ hIndex)⟩

theorem Sound.poll (h : Sound s) (hClean : Clean s .poll) (hRun : s.poll handlers = some t) : Sound t := by
  cases hPc : s.pc with
  | start => exact h.clearFlags (Or.inl hPc) hRun
  | clearReady => exact h.clearFlags (Or.inr hPc) hRun
  | whileTest => exact h.loopTest (Or.inl hPc) hRun
  | ifPressed => exact h.loopTest (Or.inr hPc) hRun
  | switchReleased => exact h.switch (Or.inl hPc) hClean hRun
  | switchPressed => exact h.switch (Or.inr hPc) hClean hRun
  | setShift value => exact h.setShift hPc hRun
  | ifShift => exact h.ifShift hPc hRun
  | table shifted => exact h.readTable hPc hClean hRun
  | done shifted index =>
      rw [Keyboard.poll, hPc] at hRun
      cases hRun
  -- the rest of `getKbCode` has no say in which character it is
  | ifReleased =>
      have hShift := h.shift_eq (by simp [hPc])
      rw [Keyboard.poll, hPc] at hRun
      obtain rfl := Option.some.inj hRun
      by_cases hBit : s.scancode &&& 0x80 ≠ 0
      · simp only [if_pos hBit]
        exact h.inside (hPc ▸ id) rfl rfl hShift (by simp) (by simp)
      · simp only [if_neg hBit]
        exact h.inside (hPc ▸ id) rfl rfl hShift (by simp) (by simp)
  | toggleCaps | setReady | clearPressed =>
      have hShift := h.shift_eq (by simp [hPc])
      rw [Keyboard.poll, hPc] at hRun
      obtain rfl := Option.some.inj hRun
      exact h.inside (hPc ▸ id) rfl rfl hShift (by simp) (by simp)
  | arrow key =>
      have hShift := h.shift_eq (by simp [hPc])
      rw [Keyboard.poll, hPc] at hRun
      obtain rfl := Option.some.inj hRun
      refine h.inside (hPc ▸ id) rfl rfl ?_ (by simp) (by simp)
      rw [Held, handlers.shiftKey]
      exact hShift
  | scroll =>
      have hShift := h.shift_eq (by simp [hPc])
      rw [Keyboard.poll, hPc] at hRun
      obtain rfl := Option.some.inj hRun
      refine h.inside (hPc ▸ id) rfl rfl ?_ (by simp) (by simp)
      rw [Held, Terminal.shiftKey_scroll]
      exact hShift

theorem Sound.act {a : KeyboardAct} (h : Sound s) (hClean : Clean s a) (hRun : s.act handlers a = some t) :
    Sound t := by
  cases a with
  | interrupt code =>
      obtain rfl := Option.some.inj hRun
      exact h.interrupt
  | poll => exact h.poll hClean hRun

/-- In a call whose accesses do not go wrong, the character is the one of a key that was pressed during
the call, with the shift key as the codes left it. -/
theorem reachable_handedOff (h : Reachable handlers Clean s) : HandedOff s := by
  have hSound : Sound s := h.invariant (fun _ hInit => hInit.sound) fun _ _ hSound hStep => by
    obtain ⟨a, hClean, hRun⟩ := hStep
    exact hSound.act hClean hRun
  exact hSound.done

/-- A call of `getChar`, with a terminal that was never used. -/
def call : Keyboard where
  pc := .start
  terminal := Terminal.off
  scancode := 0
  isButtonPressed := 0
  isNextCharReady := 0
  delivered := []
  processed := []
  shiftBefore := 0

/-- Actions that are all allowed. -/
def tryAct (may : Keyboard → KeyboardAct → Prop) [∀ s a, Decidable (may s a)] (s : Keyboard)
    (a : KeyboardAct) : Option Keyboard :=
  if may s a then s.act ArrowHandlers.keyn a else none

theorem reachable_tryAct {may : Keyboard → KeyboardAct → Prop} [∀ s a, Decidable (may s a)]
    {actions : List KeyboardAct} (h : actions.foldlM (tryAct may) call = some s) :
    Reachable ArrowHandlers.keyn may s := by
  have hStart : Reachable ArrowHandlers.keyn may call :=
    Transition.Reachable.of_init ⟨rfl, rfl, rfl, rfl⟩
  refine hStart.perform ?_ h
  intro s a t hAct
  rw [tryAct] at hAct
  split at hAct
  next hMay => exact ⟨a, hMay, hAct⟩
  next => exact absurd hAct (by simp)

/-- The key `a`, up to the place where the table is read. -/
def keyA : List KeyboardAct :=
  List.replicate 2 .poll ++ .interrupt 0x1E :: List.replicate 9 .poll

theorem reachable_handedOff_keyA : ∃ s : Keyboard, s.result = some 0x61 ∧ s.HandedOff := by
  have hView : ((keyA ++ [KeyboardAct.poll]).foldlM (tryAct Clean) call).map result =
      some (some (0x61 : BitVec 8)) := by
    decide
  obtain ⟨s, hRun, hResult⟩ := Option.map_eq_some_iff.mp hView
  exact ⟨s, hResult, reachable_handedOff (reachable_tryAct hRun)⟩

/-- The key is released before the table is read. -/
theorem reachable_not_handedOff :
    ¬ ∀ handlers s, Reachable handlers (fun _ _ => True) s → s.HandedOff := by
  intro h
  have hView : ((keyA ++ [KeyboardAct.interrupt 0x9E, KeyboardAct.poll]).foldlM
      (tryAct fun _ _ => True) call).map pc = some (.done false 0x9E) := by
    decide
  obtain ⟨s, hRun, hPc⟩ := Option.map_eq_some_iff.mp hView
  have hIndex := (h _ s (reachable_tryAct hRun) false 0x9E hPc).1
  exact absurd hIndex (by decide)

end ArtOS.Keyboard

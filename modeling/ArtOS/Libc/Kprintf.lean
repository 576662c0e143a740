import ArtOS.Libc.Print
import ArtOS.Library.Transition

/-! `vasprintf` as `kprintf` calls it, with a buffer of 256 bytes. Nothing looks for the end of the format
behind a percent sign, or for the end of the buffer. -/
namespace ArtOS.Kprintf

open ByteMemory CString Stores

abbrev kprintfBuffer : Nat := 256

abbrev charS : BitVec 8 := 0x73
abbrev charC : BitVec 8 := 0x63
abbrev charX : BitVec 8 := 0x78
abbrev charD : BitVec 8 := 0x64

/-- The loops that count digits have ended after so many rounds. -/
abbrev widthRounds : Nat := 32

def isWidthDigit (c : BitVec 8) : Prop := (0x30#8).sle c ∧ c.sle 0x39#8

instance (c : BitVec 8) : Decidable (isWidthDigit c) := inferInstanceAs (Decidable (_ ∧ _))

def nextWidth (argWidth : Nat) (c : BitVec 8) : Nat := (argWidth * 10 + (c.toNat - 0x30)) % 2 ^ 32

def nullText : List (BitVec 8) := ascii "(null)"

/-- Where the call is: in the loop over the format, in the loop over the digits of a width, or in the copy
of a string, which is at `s` in its object. -/
inductive Phase
  | next
  | width (argWidth : Nat)
  | string (object : Nat → BitVec 8) (s : Nat)
  | finished

/-- `b` counts from the start of the buffer, and `arg` the arguments that were taken. `reads` has the
addresses at which the format was read. -/
structure Formatter where
  f : Nat
  b : Nat
  arg : Nat
  phase : Phase
  reads : List Nat
  stores : List (Nat × BitVec 8)

namespace Formatter

def start (fmt : Nat) : Formatter := ⟨fmt, 0, 0, .next, [], []⟩

def put (c : BitVec 8) (x : Formatter) : Formatter :=
  { x with b := x.b + 1, stores := x.stores ++ [(x.b, c)] }

/-- The `f++` of the loop over the format. -/
def advance (x : Formatter) : Formatter := { x with f := x.f + 1, phase := .next }

def takeArg (x : Formatter) : Formatter := { x with arg := x.arg + 1 }

/-- Behind a call of `print_dec` or `print_hex`. -/
def printed (r : List (Nat × BitVec 8) × Nat) (x : Formatter) : Formatter :=
  { x with b := r.2, stores := x.stores ++ r.1 }

section Step

variable (mem : Nat → BitVec 8) (args : Nat → BitVec 32)

/-- The `switch`. -/
def convert (argWidth : Nat) (x : Formatter) : Option Formatter :=
  let c := mem x.f
  let v := args x.arg
  if c = charS then
    some { x.takeArg with
      phase := if v = 0 then .string (fun i => nullText.getD i 0) 0 else .string mem v.toNat }
  else if c = charC then some (x.takeArg.put (v.setWidth 8)).advance
  else if c = charX then
    (printHex widthRounds v.toNat argWidth x.b).map fun r => (x.takeArg.printed r).advance
  else if c = charD then
    (printDec widthRounds v.toNat argWidth x.b).map fun r => (x.takeArg.printed r).advance
  else if c = charPercent then some (x.put charPercent).advance
  else some (x.put c).advance

def step (x : Formatter) : Option Formatter :=
  match x.phase with
  | .next =>
      let x := { x with reads := x.reads ++ [x.f] }
      let c := mem x.f
      if c = 0 then some { x with stores := x.stores ++ [(x.b, 0)], phase := .finished }
      else if c ≠ charPercent then some (x.put c).advance
      else some { x with f := x.f + 1, phase := .width 0 }
  | .width argWidth =>
      let x := { x with reads := x.reads ++ [x.f] }
      let c := mem x.f
      if isWidthDigit c then some { x with f := x.f + 1, phase := .width (nextWidth argWidth c) }
      else x.convert mem args argWidth
  | .string object s =>
      if object s ≠ 0 then some { x.put (object s) with phase := .string object (s + 1) }
      else some x.advance
  | .finished => none

abbrev Steps : Formatter → Formatter → Prop := Relation.ReflTransGen fun x y => x.step mem args = some y

/-- Every state of the call has read the format up to its zero at most, and written into the buffer
only. -/
def Safe (fmt length : Nat) : Prop :=
  ∀ x, Steps mem args (start fmt) x →
    (∀ a ∈ x.reads, fmt ≤ a ∧ a ≤ fmt + length) ∧ ∀ a ∈ targets x.stores, a < kprintfBuffer

end Step
end Formatter

/-- What a format consists of. The width is a word; a directive that is cut off has nothing behind its
percent sign and its digits. -/
inductive Piece where
  | literal (c : BitVec 8)
  | directive (argWidth : Nat) (c : BitVec 8)
  | cut
  deriving DecidableEq

/-- The pieces of a format, or of what is left of it within the width of a directive. -/
def pieces : Option Nat → List (BitVec 8) → List Piece
  | none, [] => []
  | some _, [] => [.cut]
  | none, c :: s => if c ≠ charPercent then .literal c :: pieces none s else pieces (some 0) s
  | some argWidth, c :: s =>
      if isWidthDigit c then pieces (some (nextWidth argWidth c)) s else .directive argWidth c :: pieces none s

namespace Piece

/-- Whether it takes an argument. -/
def Takes : Piece → Prop
  | .directive _ c => c = charS ∨ c = charC ∨ c = charX ∨ c = charD
  | _ => False

instance : DecidablePred Takes
  | .directive _ _ => inferInstanceAs (Decidable (_ ∨ _))
  | .literal _ => inferInstanceAs (Decidable False)
  | .cut => inferInstanceAs (Decidable False)

/-- What `print_hex` makes of a width. -/
def hexWidth (argWidth : Nat) : Nat :=
  if argWidth = 0 then 8 else if argWidth < 2 ^ 31 then argWidth else 0

/-- The number of characters, with the argument `v`, and the string `s` if it points to one. -/
def size (v : BitVec 32) (s : List (BitVec 8)) : Piece → Nat
  | .literal _ => 1
  | .directive argWidth c =>
      if c = charS then (if v = 0 then nullText else s).length
      else if c = charX then max (hexWidth argWidth) (digitCount 16 v.toNat)
      else if c = charD then max argWidth (digitCount 10 v.toNat)
      else 1
  | .cut => 0

/-- The argument of a string directive is `NULL`, or it points to `s`. -/
def Matches (mem : Nat → BitVec 8) (v : BitVec 32) (s : List (BitVec 8)) : Piece → Prop
  | .directive _ c => c = charS → v = 0 ∨ Holds mem v.toNat s
  | _ => True

end Piece

/-- The number of characters, from the argument `k` on. -/
def outputLength (args : Nat → BitVec 32) (strings : Nat → List (BitVec 8)) : Nat → List Piece → Nat
  | _, [] => 0
  | k, p :: ps =>
      p.size (args k) (strings k) + outputLength args strings (if p.Takes then k + 1 else k) ps

/-- The arguments match the format. -/
def ArgsMatch (mem : Nat → BitVec 8) (args : Nat → BitVec 32) (strings : Nat → List (BitVec 8)) :
    Nat → List Piece → Prop
  | _, [] => True
  | k, p :: ps =>
      p.Matches mem (args k) (strings k) ∧ ArgsMatch mem args strings (if p.Takes then k + 1 else k) ps

section Sizes

variable {value width ptr n i : Nat} {v : BitVec 32}

theorem isWidth_ten (v : BitVec 32) : IsWidth 10 v.toNat (digitCount 10 v.toNat) := by
  refine isWidth_digitCount ⟨32, by omega, le_rfl, ?_⟩
  rw [bound_ten]
  exact Nat.le_sub_one_of_lt v.isLt

theorem isWidth_sixteen (v : BitVec 32) : IsWidth 16 v.toNat (digitCount 16 v.toNat) := by
  have hEight : bound 16 8 = 2 ^ 32 - 1 := by decide
  refine isWidth_digitCount ⟨8, by omega, by omega, ?_⟩
  rw [hEight]
  exact Nat.le_sub_one_of_lt v.isLt

theorem digitCount_le (b v : Nat) : digitCount b v ≤ widthRounds := by
  rw [digitCount]
  cases hFind : (List.range' 1 32).find? fun n => v ≤ bound b n with
  | none => exact Nat.zero_le _
  | some n =>
      have hRange := List.mem_range'_1.mp (List.mem_of_find?_eq_some hFind)
      show n ≤ 32
      omega

theorem printDec_size (argWidth ptr : Nat) (v : BitVec 32) :
    ∃ stores, printDec widthRounds v.toNat argWidth ptr =
        some (stores, ptr + max argWidth (digitCount 10 v.toNat)) ∧
      ∀ a ∈ targets stores, a < ptr + max argWidth (digitCount 10 v.toNat) := by
  have hEnd : ptr + (argWidth - digitCount 10 v.toNat) + digitCount 10 v.toNat =
      ptr + max argWidth (digitCount 10 v.toNat) := by omega
  rw [← hEnd]
  exact ⟨_, printDec_eq (isWidth_ten v) v.isLt (digitCount_le 10 v.toNat), fun a ha => (targets_printDec ha).2⟩

theorem mem_targets_hexLoop {a : Nat} (h : a ∈ targets (hexLoop value n ptr)) : ptr ≤ a ∧ a < ptr + n := by
  induction n generalizing ptr with
  | zero => cases h
  | succ n ih =>
      rcases List.mem_cons.mp h with hFirst | h
      · have hSame : a = ptr := hFirst
        omega
      · have hRest := ih h
        omega

theorem printHex_size (argWidth ptr : Nat) (v : BitVec 32) (hWidth : argWidth < 2 ^ 32) :
    ∃ stores, printHex widthRounds v.toNat argWidth ptr =
        some (stores, ptr + max (Piece.hexWidth argWidth) (digitCount 16 v.toNat)) ∧
      ∀ a ∈ targets stores, a < ptr + max (Piece.hexWidth argWidth) (digitCount 16 v.toNat) := by
  have hSigned : (BitVec.ofNat 32 argWidth).toInt =
      if argWidth < 2 ^ 31 then (argWidth : Int) else (argWidth : Int) - 2 ^ 32 := by
    rw [BitVec.toInt_eq_toNat_cond, BitVec.toNat_ofNat, Nat.mod_eq_of_lt hWidth]
    split <;> split <;> omega
  obtain ⟨i, hi⟩ : ∃ i, i = if (BitVec.ofNat 32 argWidth).toInt = 0 then 8 else (BitVec.ofNat 32 argWidth).toInt :=
    ⟨_, rfl⟩
  have hEnd : ptr + (i - digitCount 16 v.toNat).toNat + digitCount 16 v.toNat =
      ptr + max (Piece.hexWidth argWidth) (digitCount 16 v.toNat) := by
    rw [hSigned] at hi
    rw [Piece.hexWidth]
    split at hi <;> split at hi <;> split <;> omega
  have hLoop : widthLoop 16 v.toNat widthRounds 1 0x0F = some (digitCount 16 v.toNat) :=
    widthLoop_first (by omega) (by omega) v.isLt (isWidth_sixteen v) (digitCount_le 16 v.toNat)
  have hCall : printHex widthRounds v.toNat argWidth ptr = some
      (charStores ptr (List.replicate (i - digitCount 16 v.toNat).toNat charZero) ++
        hexLoop v.toNat (digitCount 16 v.toNat) (ptr + (i - digitCount 16 v.toNat).toNat),
        ptr + (i - digitCount 16 v.toNat).toNat + digitCount 16 v.toNat) := by
    rw [printHex, hLoop, hi]
    rfl
  rw [← hEnd]
  refine ⟨_, hCall, fun a ha => ?_⟩
  rw [targets, List.map_append] at ha
  rcases List.mem_append.mp ha with ha | ha
  · have hIn := mem_targets_charStores ha
    rw [List.length_replicate] at hIn
    omega
  · exact (mem_targets_hexLoop ha).2

end Sizes

namespace Formatter

variable {mem : Nat → BitVec 8} {args : Nat → BitVec 32} {strings : Nat → List (BitVec 8)}
variable {x y : Formatter} {s : List (BitVec 8)} {fmt n size : Nat}

/-- One piece behind: all the stores on the way are before the new end of the text. -/
structure Moves (x y : Formatter) (size : Nat) : Prop where
  f : y.f = x.f + 1
  b : y.b = x.b + size
  reads : y.reads = x.reads ++ [x.f]
  stores : ∃ new, y.stores = x.stores ++ new ∧ ∀ a ∈ targets new, a < x.b + size

/-- The call is over. It has read up to `last`, and the text with its zero is in the buffer. -/
structure Ends (x y : Formatter) (last length : Nat) : Prop where
  finished : y.phase = .finished
  reads : ∀ a ∈ y.reads, a ∈ x.reads ∨ x.f ≤ a ∧ a ≤ last
  stores : ∀ a ∈ targets y.stores, a ∈ targets x.stores ∨ a ≤ x.b + length
  zero : x.b + length ∈ targets y.stores

theorem Moves.ends {z : Formatter} {last length : Nat} (h : x.Moves y size) (hEnds : y.Ends z last length)
    (hLast : x.f ≤ last) : x.Ends z last (size + length) := by
  obtain ⟨new, hStores, hNew⟩ := h.stores
  refine ⟨hEnds.finished, fun a ha => ?_, fun a ha => ?_, ?_⟩
  · rcases hEnds.reads a ha with hOld | hRange
    · rw [h.reads, List.mem_append, List.mem_singleton] at hOld
      refine hOld.imp_right ?_
      rintro rfl
      exact ⟨le_rfl, hLast⟩
    · rw [h.f] at hRange
      exact Or.inr ⟨by omega, hRange.2⟩
  · rcases hEnds.stores a ha with hOld | hRange
    · rw [hStores, targets, List.map_append] at hOld
      refine (List.mem_append.mp hOld).imp_right fun hTarget => ?_
      have hLess := hNew a hTarget
      omega
    · rw [h.b] at hRange
      exact Or.inr (by omega)
  · have hZero := hEnds.zero
    rwa [h.b, Nat.add_assoc] at hZero

/-- The copy of a string. -/
theorem steps_string {object : Nat → BitVec 8} {p : Nat} (h : Holds object p s) (hPhase : x.phase = .string object p) :
    Steps mem args x { x with
      f := x.f + 1
      b := x.b + s.length
      phase := .next
      stores := x.stores ++ charStores x.b s } := by
  induction s generalizing x p with
  | nil =>
      have hEnd : object p = 0 := h
      refine Relation.ReflTransGen.single ?_
      rw [step, hPhase]
      dsimp only
      rw [if_neg (not_not_intro hEnd), advance, charStores, List.append_nil]
      rfl
  | cons c s ih =>
      have hChar : object p ≠ 0 := h.1 ▸ h.2.1
      have hStep : x.step mem args = some { x.put (object p) with phase := .string object (p + 1) } := by
        rw [step, hPhase]
        exact if_pos hChar
      refine Relation.ReflTransGen.head hStep ?_
      have hRest := ih (x := { x.put (object p) with phase := .string object (p + 1) }) h.2.2 rfl
      rw [put, h.1] at hRest
      simp only [List.append_assoc, List.singleton_append] at hRest
      rw [charStores, List.length_cons, ← Nat.add_assoc, Nat.add_right_comm, put, h.1]
      exact hRest

/-- One store of a character. -/
theorem moves_put (c : BitVec 8) (k : Nat) :
    x.Moves ({ x with reads := x.reads ++ [x.f], arg := k }.put c).advance 1 := by
  refine ⟨rfl, rfl, rfl, [(x.b, c)], rfl, fun a ha => ?_⟩
  obtain rfl := List.mem_singleton.mp ha
  exact Nat.lt_succ_self _

/-- The stores of a number. -/
theorem moves_printed {stores : List (Nat × BitVec 8)} (h : ∀ a ∈ targets stores, a < x.b + size) (k : Nat) :
    x.Moves ({ x with reads := x.reads ++ [x.f], arg := k }.printed (stores, x.b + size)).advance size :=
  ⟨rfl, rfl, rfl, stores, rfl, h⟩

/-- A directive, which also may have the zero behind the format for its character. -/
theorem steps_directive {argWidth : Nat} (hPhase : x.phase = .width argWidth) (hWidth : argWidth < 2 ^ 32)
    (hDigit : ¬ isWidthDigit (mem x.f))
    (hMatch : (Piece.directive argWidth (mem x.f)).Matches mem (args x.arg) s) :
    ∃ y, Steps mem args x y ∧ y.phase = .next ∧
      y.arg = (if (Piece.directive argWidth (mem x.f)).Takes then x.arg + 1 else x.arg) ∧
        x.Moves y ((Piece.directive argWidth (mem x.f)).size (args x.arg) s) := by
  have hStep : x.step mem args = ({ x with reads := x.reads ++ [x.f] } : Formatter).convert mem args argWidth := by
    rw [step, hPhase]
    exact if_neg hDigit
  have hNull : ∀ c ∈ nullText, c ≠ 0 := by decide
  rw [convert] at hStep
  simp only [Piece.size]
  by_cases hS : mem x.f = charS
  · obtain ⟨object, p, hString, hHolds⟩ : ∃ object p, (if args x.arg = 0 then Phase.string (fun i => nullText.getD i 0) 0
        else .string mem (args x.arg).toNat) = .string object p ∧
          Holds object p (if args x.arg = 0 then nullText else s) := by
      by_cases hZero : args x.arg = 0
      · simp only [if_pos hZero]
        exact ⟨_, _, rfl, holds_getD hNull⟩
      · simp only [if_neg hZero]
        exact ⟨_, _, rfl, (hMatch hS).resolve_left hZero⟩
    have hFirst : x.step mem args =
        some { ({ x with reads := x.reads ++ [x.f] } : Formatter).takeArg with phase := .string object p } := by
      rw [hStep, if_pos hS, ← hString]
    have hTakes : (Piece.directive argWidth (mem x.f)).Takes := Or.inl hS
    rw [if_pos hS, if_pos hTakes]
    refine ⟨_, Relation.ReflTransGen.head hFirst (steps_string hHolds rfl), rfl, rfl, ?_⟩
    exact ⟨rfl, rfl, rfl, _, rfl, fun a ha => (mem_targets_charStores ha).2⟩
  rw [if_neg hS] at hStep ⊢
  by_cases hC : mem x.f = charC
  · have hX : mem x.f ≠ charX := by rw [hC]; decide
    have hD : mem x.f ≠ charD := by rw [hC]; decide
    rw [if_neg hX, if_neg hD]
    exact ⟨_, Relation.ReflTransGen.single (hStep.trans (if_pos hC)), rfl, (if_pos (Or.inr (Or.inl hC))).symm,
      moves_put _ _⟩
  rw [if_neg hC] at hStep
  by_cases hX : mem x.f = charX
  · obtain ⟨stores, hCall, hStores⟩ := printHex_size argWidth x.b (args x.arg) hWidth
    rw [if_pos hX] at hStep ⊢
    dsimp only at hStep
    rw [hCall, Option.map_some] at hStep
    exact ⟨_, Relation.ReflTransGen.single hStep, rfl, (if_pos (Or.inr (Or.inr (Or.inl hX)))).symm,
      moves_printed hStores _⟩
  rw [if_neg hX] at hStep ⊢
  by_cases hD : mem x.f = charD
  · obtain ⟨stores, hCall, hStores⟩ := printDec_size argWidth x.b (args x.arg)
    rw [if_pos hD] at hStep ⊢
    dsimp only at hStep
    rw [hCall, Option.map_some] at hStep
    exact ⟨_, Relation.ReflTransGen.single hStep, rfl, (if_pos (Or.inr (Or.inr (Or.inr hD)))).symm,
      moves_printed hStores _⟩
  rw [if_neg hD] at hStep ⊢
  have hTakes : ¬ (Piece.directive argWidth (mem x.f)).Takes := by
    rintro (h | h | h | h)
    · exact hS h
    · exact hC h
    · exact hX h
    · exact hD h
  split at hStep
  · exact ⟨_, Relation.ReflTransGen.single hStep, rfl, (if_neg hTakes).symm, moves_put _ _⟩
  · exact ⟨_, Relation.ReflTransGen.single hStep, rfl, (if_neg hTakes).symm, moves_put _ _⟩

/-- Where the call is when this is left of a width. -/
def phaseOf : Option Nat → Phase
  | none => .next
  | some argWidth => .width argWidth

theorem nextWidth_lt (argWidth : Nat) (c : BitVec 8) : nextWidth argWidth c < 2 ^ 32 := Nat.mod_lt _ (by decide)

/-- The step behind the last character of the format. -/
theorem step_end (hPhase : x.phase = .next) (hEnd : mem x.f = 0) :
    x.step mem args = some { x with
      reads := x.reads ++ [x.f]
      stores := x.stores ++ [(x.b, 0)]
      phase := .finished } := by
  rw [step, hPhase]
  exact if_pos hEnd

/-- Whatever there is in the loop over the format, it is read. -/
theorem step_next (hPhase : x.phase = .next) : ∃ y, x.step mem args = some y ∧ x.f ∈ y.reads := by
  have hRead : x.f ∈ x.reads ++ [x.f] := List.mem_append_right _ (List.mem_singleton.mpr rfl)
  rw [step, hPhase]
  dsimp only
  split
  · exact ⟨_, rfl, hRead⟩
  · split
    · exact ⟨_, rfl, hRead⟩
    · exact ⟨_, rfl, hRead⟩

/-- A step that only reads. -/
theorem moves_read (phase : Phase) : x.Moves { x with f := x.f + 1, reads := x.reads ++ [x.f], phase := phase } 0 :=
  ⟨rfl, rfl, rfl, [], (List.append_nil _).symm, fun _ ha => absurd ha List.not_mem_nil⟩

/-- The next character of the format: what is left of the pieces behind it. -/
theorem steps_char {c : BitVec 8} {mode : Option Nat} (hPhase : x.phase = phaseOf mode)
    (hMode : ∀ argWidth, mode = some argWidth → argWidth < 2 ^ 32) (hChar : mem x.f = c) (hNonzero : c ≠ 0)
    (hMatch : ArgsMatch mem args strings x.arg (pieces mode (c :: s))) :
    ∃ y mode' size, Steps mem args x y ∧ y.phase = phaseOf mode' ∧ x.Moves y size ∧
      (∀ argWidth, mode' = some argWidth → argWidth < 2 ^ 32) ∧
      (.cut ∈ pieces mode (c :: s) ↔ .cut ∈ pieces mode' s) ∧
      outputLength args strings x.arg (pieces mode (c :: s)) =
        size + outputLength args strings y.arg (pieces mode' s) ∧
      ArgsMatch mem args strings y.arg (pieces mode' s) := by
  cases mode with
  | none =>
      rw [pieces] at hMatch ⊢
      have hZero : mem x.f ≠ 0 := hChar ▸ hNonzero
      by_cases hLiteral : c ≠ charPercent
      · have hStep : x.step mem args = some (({ x with reads := x.reads ++ [x.f] } : Formatter).put c).advance := by
          rw [step, hPhase, phaseOf]
          dsimp only
          rw [if_neg hZero, hChar, if_pos hLiteral]
        rw [if_pos hLiteral] at hMatch ⊢
        refine ⟨_, none, 1, Relation.ReflTransGen.single hStep, rfl, moves_put c x.arg, by simp, ?_, ?_, hMatch.2⟩
        · exact ⟨fun h => (List.mem_cons.mp h).resolve_left (by simp), List.mem_cons_of_mem _⟩
        · rfl
      · have hStep : x.step mem args =
            some { x with f := x.f + 1, reads := x.reads ++ [x.f], phase := .width 0 } := by
          rw [step, hPhase, phaseOf]
          dsimp only
          rw [if_neg hZero, hChar, if_neg hLiteral]
        rw [if_neg hLiteral] at hMatch ⊢
        refine ⟨_, some 0, 0, Relation.ReflTransGen.single hStep, rfl, moves_read _, ?_, Iff.rfl, ?_, hMatch⟩
        · rintro _ ⟨⟩
          decide
        · exact (Nat.zero_add _).symm
  | some argWidth =>
      rw [pieces] at hMatch ⊢
      by_cases hDigit : isWidthDigit c
      · have hStep : x.step mem args = some { x with
            f := x.f + 1
            reads := x.reads ++ [x.f]
            phase := .width (nextWidth argWidth c) } := by
          rw [step, hPhase, phaseOf]
          dsimp only
          rw [hChar, if_pos hDigit]
        rw [if_pos hDigit] at hMatch ⊢
        refine ⟨_, some _, 0, Relation.ReflTransGen.single hStep, rfl, moves_read _, ?_, Iff.rfl, ?_, hMatch⟩
        · rintro _ ⟨⟩
          exact nextWidth_lt argWidth c
        · exact (Nat.zero_add _).symm
      · rw [if_neg hDigit] at hMatch ⊢
        rw [← hChar] at hDigit hMatch ⊢
        obtain ⟨y, hSteps, hPhase', hArg, hMoves⟩ :=
          steps_directive hPhase (hMode argWidth rfl) hDigit hMatch.1
        refine ⟨y, none, _, hSteps, hPhase', hMoves, by simp, ?_, ?_, ?_⟩
        · exact ⟨fun h => (List.mem_cons.mp h).resolve_left (by simp), List.mem_cons_of_mem _⟩
        · rw [hArg]
          rfl
        · rw [hArg]
          exact hMatch.2

/-- The call on what is left of the format: it ends, or it reads behind the zero. -/
theorem steps_format {mode : Option Nat} (h : Holds mem x.f s) (hPhase : x.phase = phaseOf mode)
    (hMode : ∀ argWidth, mode = some argWidth → argWidth < 2 ^ 32)
    (hMatch : ArgsMatch mem args strings x.arg (pieces mode s)) :
    ∃ y, Steps mem args x y ∧
      (.cut ∉ pieces mode s → x.Ends y (x.f + s.length) (outputLength args strings x.arg (pieces mode s))) ∧
      (.cut ∈ pieces mode s → x.f + s.length + 1 ∈ y.reads) := by
  induction s generalizing x mode with
  | nil =>
      have hEnd : mem x.f = 0 := h
      cases mode with
      | none =>
          refine ⟨_, Relation.ReflTransGen.single (step_end hPhase hEnd), fun _ => ⟨rfl, ?_, ?_, ?_⟩, ?_⟩
          · intro a ha
            refine (List.mem_append.mp ha).imp_right fun hLast => ?_
            obtain rfl := List.mem_singleton.mp hLast
            exact ⟨le_rfl, le_rfl⟩
          · intro a ha
            rw [targets, List.map_append] at ha
            refine (List.mem_append.mp ha).imp_right fun hLast => ?_
            obtain rfl := List.mem_singleton.mp hLast
            exact le_rfl
          · rw [targets, List.map_append]
            exact List.mem_append_right _ (List.mem_singleton.mpr rfl)
          · exact fun hCut => absurd hCut List.not_mem_nil
      | some argWidth =>
          -- the zero is taken for the character of the directive, and the loop goes on behind it
          have hDigit : ¬ isWidthDigit (mem x.f) := by
            rw [hEnd]
            decide
          have hZero : (Piece.directive argWidth (mem x.f)).Matches mem (args x.arg) (strings x.arg) := by
            rw [hEnd]
            exact fun hString => absurd hString (by decide)
          obtain ⟨y, hSteps, hNext, -, hMoves⟩ := steps_directive hPhase (hMode argWidth rfl) hDigit hZero
          obtain ⟨z, hStep, hRead⟩ := step_next hNext
          refine ⟨z, hSteps.tail hStep, fun hWhole => absurd (List.mem_singleton.mpr rfl) hWhole, fun _ => ?_⟩
          rwa [hMoves.f] at hRead
  | cons c s ih =>
      obtain ⟨y, mode', size, hSteps, hPhase', hMoves, hMode', hCut, hLength, hMatch'⟩ :=
        steps_char hPhase hMode h.1 h.2.1 hMatch
      have hRest : Holds mem y.f s := hMoves.f ▸ h.2.2
      obtain ⟨z, hRun, hEnds, hBehind⟩ := ih hRest hPhase' hMode' hMatch'
      have hLast : y.f + s.length = x.f + (c :: s).length := by
        rw [hMoves.f, List.length_cons]
        omega
      rw [hLast] at hEnds hBehind
      refine ⟨z, hSteps.trans hRun, fun hWhole => ?_, fun hPart => hBehind (hCut.mp hPart)⟩
      rw [hLength]
      exact hMoves.ends (hEnds (mt hCut.mpr hWhole)) (Nat.le_add_right _ _)

/-- Nothing that was read or stored is forgotten. -/
structure Before (x y : Formatter) : Prop where
  reads : x.reads <+: y.reads
  stores : x.stores <+: y.stores

theorem before_convert {argWidth : Nat} (h : x.convert mem args argWidth = some y) : x.Before y := by
  rw [convert] at h
  dsimp only at h
  split at h
  · cases h
    exact ⟨List.prefix_rfl, List.prefix_rfl⟩
  split at h
  · cases h
    exact ⟨List.prefix_rfl, List.prefix_append _ _⟩
  split at h
  · obtain ⟨r, -, rfl⟩ := Option.map_eq_some_iff.mp h
    exact ⟨List.prefix_rfl, List.prefix_append _ _⟩
  split at h
  · obtain ⟨r, -, rfl⟩ := Option.map_eq_some_iff.mp h
    exact ⟨List.prefix_rfl, List.prefix_append _ _⟩
  split at h
  · cases h
    exact ⟨List.prefix_rfl, List.prefix_append _ _⟩
  · cases h
    exact ⟨List.prefix_rfl, List.prefix_append _ _⟩

theorem before_step (h : x.step mem args = some y) : x.Before y := by
  rw [step] at h
  cases hPhase : x.phase with
  | next =>
      rw [hPhase] at h
      dsimp only at h
      split at h
      · cases h
        exact ⟨List.prefix_append _ _, List.prefix_append _ _⟩
      · split at h
        · cases h
          exact ⟨List.prefix_append _ _, List.prefix_append _ _⟩
        · cases h
          exact ⟨List.prefix_append _ _, List.prefix_rfl⟩
  | width argWidth =>
      rw [hPhase] at h
      dsimp only at h
      split at h
      · cases h
        exact ⟨List.prefix_append _ _, List.prefix_rfl⟩
      · have hConvert := before_convert h
        exact ⟨(List.prefix_append _ _).trans hConvert.reads, hConvert.stores⟩
  | string object s =>
      rw [hPhase] at h
      dsimp only at h
      split at h
      · cases h
        exact ⟨List.prefix_rfl, List.prefix_append _ _⟩
      · cases h
        exact ⟨List.prefix_rfl, List.prefix_rfl⟩
  | finished =>
      rw [hPhase] at h
      cases h

theorem before_steps (h : Steps mem args x y) : x.Before y := by
  induction h with
  | refl => exact ⟨List.prefix_rfl, List.prefix_rfl⟩
  | tail _ hStep ih =>
      have hLast := before_step hStep
      exact ⟨ih.reads.trans hLast.reads, ih.stores.trans hLast.stores⟩

/-- A state from which the call does not go on has the accesses of all the others. -/
theorem safe_of_finished {length : Nat} (hSteps : Steps mem args (start fmt) y) (hEnd : y.phase = .finished)
    (hReads : ∀ a ∈ y.reads, fmt ≤ a ∧ a ≤ fmt + length) (hStores : ∀ a ∈ targets y.stores, a < kprintfBuffer) :
    Safe mem args fmt length := by
  intro x hx
  have hStop : ∀ u, y.step mem args ≠ some u := by
    intro u hStep
    rw [step, hEnd] at hStep
    cases hStep
  have hUnique : Relator.RightUnique fun x y : Formatter => x.step mem args = some y :=
    fun _ _ _ hy hz => Option.some.inj (hy.symm.trans hz)
  have hBefore := before_steps (Transition.run_to_end hUnique hStop hSteps hx)
  exact ⟨fun a ha => hReads a (hBefore.reads.subset ha),
    fun a ha => hStores a ((hBefore.stores.map Prod.fst).subset ha)⟩

theorem fits_of_safe (hFmt : Holds mem fmt s) (hArgs : ArgsMatch mem args strings 0 (pieces none s))
    (hSafe : Safe mem args fmt s.length) :
    .cut ∉ pieces none s ∧ outputLength args strings 0 (pieces none s) ≤ 255 := by
  have hPhase : (start fmt).phase = phaseOf none := rfl
  obtain ⟨y, hSteps, hEnds, hBehind⟩ := steps_format (x := start fmt) hFmt hPhase (by simp) hArgs
  have hFirst : (start fmt).f = fmt ∧ (start fmt).b = 0 := ⟨rfl, rfl⟩
  obtain ⟨hReads, hStores⟩ := hSafe y hSteps
  have hWhole : .cut ∉ pieces none s := by
    intro hCut
    have hRead := hReads _ (hBehind hCut)
    omega
  have hLast := hStores _ (hEnds hWhole).zero
  rw [hFirst.2, Nat.zero_add] at hLast
  exact ⟨hWhole, Nat.le_of_lt_succ hLast⟩

theorem safe_of_fits (hFmt : Holds mem fmt s) (hArgs : ArgsMatch mem args strings 0 (pieces none s))
    (hWhole : .cut ∉ pieces none s) (hLength : outputLength args strings 0 (pieces none s) ≤ 255) :
    Safe mem args fmt s.length := by
  have hPhase : (start fmt).phase = phaseOf none := rfl
  obtain ⟨y, hSteps, hEnds, -⟩ := steps_format (x := start fmt) hFmt hPhase (by simp) hArgs
  have hEnd := hEnds hWhole
  refine safe_of_finished hSteps hEnd.finished (fun a ha => ?_) (fun a ha => ?_)
  · exact (hEnd.reads a ha).resolve_left List.not_mem_nil
  · have hLess : a ≤ 0 + outputLength args strings 0 (pieces none s) :=
      (hEnd.stores a ha).resolve_left List.not_mem_nil
    have hBuffer : kprintfBuffer = 256 := rfl
    omega

/-- When `kprintf` keeps to its format and to its buffer: no directive is cut off by the end of the format,
and all that is printed fits with its zero. -/
theorem kprintf_safe_iff (mem : Nat → BitVec 8) (args : Nat → BitVec 32) (strings : Nat → List (BitVec 8))
    (fmt : Nat) (s : List (BitVec 8)) (hFmt : Holds mem fmt s)
    (hArgs : ArgsMatch mem args strings 0 (pieces none s)) :
    Safe mem args fmt s.length ↔
      .cut ∉ pieces none s ∧ outputLength args strings 0 (pieces none s) ≤ 255 :=
  ⟨fits_of_safe hFmt hArgs, fun h => safe_of_fits hFmt hArgs h.1 h.2⟩

/-- "%5d" with the number 42. -/
theorem kprintf_safe_iff_five :
    Safe (fun i => [charPercent, 0x35, charD].getD i 0) (fun _ => 42) 0 3 ↔
      .cut ∉ pieces none [charPercent, 0x35, charD] ∧
        outputLength (fun _ => 42) (fun _ => []) 0 (pieces none [charPercent, 0x35, charD]) ≤ 255 :=
  kprintf_safe_iff _ (fun _ => 42) (fun _ => []) 0 [charPercent, 0x35, charD] (holds_getD (by simp))
    ⟨fun h => absurd h (by decide), trivial⟩

/-- "%" makes it read on, and "%256d" leaves no room for the zero. -/
theorem not_kprintf_safe :
    ¬ Safe (fun i => [charPercent].getD i 0) (fun _ => 0) 0 1 ∧
      ¬ Safe (fun i => [charPercent, 0x32, 0x35, 0x36, charD].getD i 0) (fun _ => 0) 0 5 := by
  constructor
  · intro h
    have hArgs : ArgsMatch (fun i => [charPercent].getD i 0) (fun _ => 0) (fun _ => []) 0
        (pieces none [charPercent]) := ⟨trivial, trivial⟩
    exact absurd (fits_of_safe (holds_getD (by simp)) hArgs h).1 (by decide)
  · intro h
    have hArgs : ArgsMatch (fun i => [charPercent, 0x32, 0x35, 0x36, charD].getD i 0) (fun _ => 0) (fun _ => []) 0
        (pieces none [charPercent, 0x32, 0x35, 0x36, charD]) := ⟨fun h => absurd h (by decide), trivial⟩
    exact absurd (fits_of_safe (holds_getD (by simp)) hArgs h).2 (by decide)

end Formatter

end ArtOS.Kprintf

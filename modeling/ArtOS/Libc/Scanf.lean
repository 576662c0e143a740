import ArtOS.Libc.Gets

/-! `kscanf`. It takes one pointer from its arguments, it steps over directives only, and an integer is
stored as one of 64 bits. -/
namespace ArtOS

open Stores

/-- The memory, the keys that are still to come, and the screen. -/
structure Console where
  mem : Int → BitVec 8
  keys : List (BitVec 8)
  terminal : Terminal

section Atoi

variable (mem : Int → BitVec 8)

def isdigit (ch : BitVec 8) : Prop := ch.signExtend 32 - 0x30 < 10

def iswhitespace (ch : BitVec 8) : Prop := ch = charSpace ∨ ch.signExtend 32 - 0x09 < 5

instance (ch : BitVec 8) : Decidable (isdigit ch) := inferInstanceAs (Decidable (_ < _))

instance (ch : BitVec 8) : Decidable (iswhitespace ch) := inferInstanceAs (Decidable (_ ∨ _))

def skipWhitespace : Nat → Int → Option Int
  | 0, _ => none
  | fuel + 1, s => if iswhitespace (mem s) then skipWhitespace fuel (s + 1) else some s

/-- The loop over the digits. It counts below zero. -/
def readDigits : Nat → Int → BitVec 32 → Option (BitVec 32)
  | 0, _, _ => none
  | fuel + 1, s, n =>
      if isdigit (mem s) then readDigits fuel (s + 1) (10 * n - ((mem s).signExtend 32 - 0x30)) else some n

def atoi (fuel : Nat) (s : Int) : Option (BitVec 32) :=
  (skipWhitespace mem fuel s).bind fun s =>
    let neg := mem s = 0x2D
    let s := if mem s = 0x2D ∨ mem s = 0x2B then s + 1 else s
    (readDigits mem fuel s 0).map fun n => if neg then n else -n

end Atoi

/-- The bytes of a variable. -/
def bytesOf {w : Nat} (count : Nat) (v : BitVec w) : List (BitVec 8) :=
  (List.range count).map fun i => v.extractLsb' (8 * i) 8

namespace Console

/-- `read_str`, which returns 0. -/
def readStr (rd : BitVec 32) (varAddr : Int) (x : Console) : Option Console :=
  (mgets rd varAddr x.keys x.terminal).map fun y => ⟨written y.stores x.mem, y.keys, y.terminal⟩

/-- A store of these bytes. -/
def store (addr : Int) (bytes : List (BitVec 8)) (x : Console) : Console :=
  { x with mem := written (bytes.zipIdx.map fun b => (addr + (b.2 : Int), b.1)) x.mem }

/-- `read_int`, with its variable `buff` at this address. -/
def readInt (rd : BitVec 32) (fuel : Nat) (buff varAddr : Int) (x : Console) :
    Option (Console × BitVec 32) :=
  (x.readStr rd buff).bind fun x =>
    (atoi x.mem fuel buff).map fun value =>
      let temp := value.signExtend 64
      if temp = -1 then (x, -1) else (x.store varAddr (bytesOf 8 temp), 0)

/-- The loop of `kscanf`; `rd n` is what `mgets` finds in its variable in the call number `n`. -/
def kscanfLoop (rd : Nat → BitVec 32) (destAddr buff : Int) :
    Nat → List (BitVec 8) → Nat → BitVec 32 → Console → Option (Console × BitVec 32)
  | 0, _, _, _, _ => none
  | _ + 1, [], _, ret, x => some (x, ret)
  | fuel + 1, [c], n, ret, x => kscanfLoop rd destAddr buff fuel [c] n ret x
  | fuel + 1, c :: k :: str, n, ret, x =>
      if c ≠ charPercent then kscanfLoop rd destAddr buff fuel (c :: k :: str) n ret x
      else if k = 0x64 then
        (x.readInt (rd n) fuel buff destAddr).bind fun (x, ret) =>
          if ret = -1 then some ({ x with terminal := x.terminal.print (ascii "scanf: error in input!!") }, ret)
          else kscanfLoop rd destAddr buff fuel str (n + 1) ret x
      else if k = 0x73 then
        (x.readStr (rd n) destAddr).bind fun x => kscanfLoop rd destAddr buff fuel str (n + 1) 0 x
      else kscanfLoop rd destAddr buff fuel str n ret x

/-- `destAddr` is the first argument behind the format. -/
def kscanf (rd : Nat → BitVec 32) (destAddr buff : Int) (fuel : Nat) (format : List (BitVec 8))
    (x : Console) : Option (Console × BitVec 32) :=
  kscanfLoop rd destAddr buff fuel format 0 0 x

end Console

inductive Directive where
  | d
  | s

def Directive.text : Directive → List (BitVec 8)
  | .d => [charPercent, 0x64]
  | .s => [charPercent, 0x73]

inductive FormatItem where
  | literal (c : BitVec 8) (h : c ≠ charPercent ∧ c ≠ 0)
  | directive (k : Directive)

def FormatItem.text : FormatItem → List (BitVec 8)
  | .literal c _ => [c]
  | .directive k => k.text

def FormatItem.directive? : FormatItem → Option Directive
  | .literal _ _ => none
  | .directive k => some k

abbrev formatText (items : List FormatItem) : List (BitVec 8) := items.flatMap FormatItem.text

abbrev directives (items : List FormatItem) : List Directive := items.filterMap FormatItem.directive?

/-- The keys of a line, without the newline. -/
structure InputLine where
  chars : List (BitVec 8)
  valid : ∀ c ∈ chars, c ≠ charNewline ∧ c ≠ 0

def InputLine.line (l : InputLine) : List (BitVec 8) := edit [] l.chars

/-- The integer that a line stands for. -/
def intValue (line : List (BitVec 8)) : BitVec 32 :=
  (atoi (fun a => line.getD a.toNat 0) (line.length + 1) 0).getD 0

/-- What is to be stored for a line. -/
def Directive.content (l : InputLine) : Directive → List (BitVec 8)
  | .d => bytesOf 4 (intValue l.line)
  | .s => l.line ++ [0]

/-- The length of a destination: an integer, or a buffer for all that is typed. -/
def Directive.Room (l : InputLine) (size : Nat) : Directive → Prop
  | .d => size = 4
  | .s => l.chars.length < size

/-- The destinations lie apart from each other and from `buff`, and each has room for its line. -/
structure Destinations (ks : List Directive) (lines : Nat → InputLine) (buff : Int) (dest : Nat → Int)
    (size : Nat → Nat) : Prop where
  room : ∀ (i : Nat) (k : Directive), ks[i]? = some k → k.Room (lines i) (size i)
  apart : ∀ i j, i < j → j < ks.length → dest i + size i ≤ dest j ∨ dest j + size j ≤ dest i
  buffer : ∀ i < ks.length, buff + 5 ≤ dest i ∨ dest i + size i ≤ buff

/-- The keys of the first `n` lines. -/
def lineKeys (lines : Nat → InputLine) (n : Nat) : List (BitVec 8) :=
  (List.range n).flatMap fun i => (lines i).chars ++ [charNewline]

/-- Wherever the destinations are, the call comes back, has taken one line for each directive, has stored
what each of them stands for, and has changed nothing else. -/
def Scans (rd : Nat → BitVec 32) (lines : Nat → InputLine) (items : List FormatItem) : Prop :=
  ∀ (mem : Int → BitVec 8) (t : Terminal) (extra : List (BitVec 8)) (buff : Int) (dest : Nat → Int)
    (size : Nat → Nat), Destinations (directives items) lines buff dest size →
    ∃ fuel y ret, Console.kscanf rd (dest 0) buff fuel (formatText items)
        ⟨mem, lineKeys lines (directives items).length ++ extra, t⟩ = some (y, ret) ∧
      y.keys = extra ∧
      (∀ (i : Nat) (k : Directive), (directives items)[i]? = some k → LiesAt y.mem (dest i) (k.content (lines i))) ∧
      ∀ a, (∀ i < (directives items).length, ¬ (dest i ≤ a ∧ a < dest i + size i)) →
        ¬ (buff ≤ a ∧ a < buff + 5) → y.mem a = mem a

theorem mgetsLoop_near {keys : List (BitVec 8)} {ptr : Int} {t : Terminal} {y : Gets}
    (h : mgetsLoop keys ptr t = some y) :
    (∀ a ∈ targets y.stores, ptr - keys.length ≤ a ∧ a ≤ ptr + keys.length) ∧
      y.keys.length ≤ keys.length := by
  induction keys generalizing ptr t y with
  | nil => cases h
  | cons c keys ih =>
      have hOn : ∀ {ptr' : Int} {b : BitVec 8} {z : Gets}, ptr - 1 ≤ ptr' → ptr' ≤ ptr + 1 →
          mgetsLoop keys ptr' (t.monPut c) = some z →
          (∀ a ∈ targets (z.behind (ptr, b)).stores, ptr - (c :: keys).length ≤ a ∧
            a ≤ ptr + (c :: keys).length) ∧ (z.behind (ptr, b)).keys.length ≤ (c :: keys).length := by
        intro ptr' b z hLow hHigh hLoop
        obtain ⟨hNear, hKeys⟩ := ih hLoop
        rw [List.length_cons]
        refine ⟨fun a ha => ?_, hKeys.trans (Nat.le_succ _)⟩
        rcases List.mem_cons.mp ha with rfl | ha
        · omega
        · have hBound := hNear a ha
          omega
      rw [mgetsLoop] at h
      split at h
      · cases h
        refine ⟨fun a ha => ?_, Nat.le_succ _⟩
        obtain rfl : a = ptr := List.mem_singleton.mp ha
        omega
      · split at h
        · obtain ⟨z, hLoop, rfl⟩ := Option.map_eq_some_iff.mp h
          exact hOn le_rfl (by omega) hLoop
        · obtain ⟨z, hLoop, rfl⟩ := Option.map_eq_some_iff.mp h
          exact hOn (by omega) le_rfl hLoop

theorem mgets_near {rd : BitVec 32} {keys : List (BitVec 8)} {s : Int} {t : Terminal} {y : Gets}
    (h : mgets rd s keys t = some y) :
    (∀ a ∈ targets y.stores, s - keys.length ≤ a ∧ a ≤ s + keys.length) ∧ y.keys.length ≤ keys.length := by
  rw [mgets] at h
  split at h
  · cases h
    refine ⟨fun a ha => ?_, le_rfl⟩
    obtain rfl : a = s := List.mem_singleton.mp ha
    omega
  · obtain ⟨z, hLoop, rfl⟩ := Option.map_eq_some_iff.mp h
    obtain ⟨hNear, hKeys⟩ := mgetsLoop_near hLoop
    refine ⟨fun a ha => ?_, hKeys⟩
    rcases List.mem_cons.mp ha with rfl | ha
    · omega
    · exact hNear a ha

/-- Stores from `addr` on. -/
theorem mem_targets_zipIdx {bytes : List (BitVec 8)} {addr a : Int} {n : Nat}
    (h : a ∈ targets ((bytes.zipIdx n).map fun b => (addr + (b.2 : Int), b.1))) :
    addr + n ≤ a ∧ a < addr + n + bytes.length := by
  induction bytes generalizing n with
  | nil => cases h
  | cons b bytes ih =>
      rw [List.zipIdx_cons, List.map_cons, targets, List.map_cons, List.mem_cons] at h
      rw [List.length_cons]
      rcases h with rfl | h
      · omega
      · have hRest := ih h
        omega

theorem written_zipIdx {bytes : List (BitVec 8)} {addr : Int} {n i : Nat} {c : BitVec 8}
    {mem : Int → BitVec 8} (h : bytes[i]? = some c) :
    written ((bytes.zipIdx n).map fun b => (addr + (b.2 : Int), b.1)) mem (addr + (n + i : Nat)) = c := by
  induction bytes generalizing n i mem with
  | nil => cases h
  | cons b bytes ih =>
      rw [List.zipIdx_cons, List.map_cons, written_cons]
      cases i with
      | zero =>
          obtain rfl := Option.some.inj h
          rw [written_of_not_mem, Nat.add_zero, Function.update_self]
          intro hMem
          have hRange := mem_targets_zipIdx hMem
          omega
      | succ i =>
          rw [show n + (i + 1) = n + 1 + i by omega]
          exact ih h

namespace Console

variable {rd : Nat → BitVec 32} {dest buff addr a : Int} {fuel n : Nat} {ret : BitVec 32} {c : BitVec 8}
variable {str bytes : List (BitVec 8)} {x y : Console}

theorem store_of_outside (h : a < addr ∨ addr + bytes.length ≤ a) : (x.store addr bytes).mem a = x.mem a := by
  apply written_of_not_mem
  intro hMem
  have hRange := mem_targets_zipIdx hMem
  omega

/-- Neither is near the place where a line of that many keys is stored. -/
def Far (addr : Int) (keys : Nat) (a : Int) : Prop := a < addr - keys ∨ addr + keys < a

theorem readStr_frame {rd : BitVec 32} (h : x.readStr rd addr = some y) :
    y.keys.length ≤ x.keys.length ∧ ∀ a, Far addr x.keys.length a → y.mem a = x.mem a := by
  obtain ⟨z, hGets, rfl⟩ := Option.map_eq_some_iff.mp h
  obtain ⟨hNear, hKeys⟩ := mgets_near hGets
  refine ⟨hKeys, fun a hFar => written_of_not_mem fun hMem => ?_⟩
  have hBound := hNear a hMem
  rcases hFar with hFar | hFar <;> omega

theorem length_bytesOf {w : Nat} (count : Nat) (v : BitVec w) : (bytesOf count v).length = count := by
  rw [bytesOf, List.length_map, List.length_range]

/-- What `read_int` comes to. -/
theorem readInt_cases {rd : BitVec 32} (h : x.readInt rd fuel buff addr = some (y, ret)) :
    ∃ z, x.readStr rd buff = some z ∧ (y = z ∧ ret = -1 ∨
      ∃ value : BitVec 32, y = z.store addr (bytesOf 8 (value.signExtend 64)) ∧ ret = 0) := by
  obtain ⟨z, hRead, hRest⟩ := Option.bind_eq_some_iff.mp h
  obtain ⟨value, _, hEq⟩ := Option.map_eq_some_iff.mp hRest
  refine ⟨z, hRead, ?_⟩
  dsimp only at hEq
  split at hEq
  · cases hEq
    exact Or.inl ⟨rfl, rfl⟩
  · cases hEq
    exact Or.inr ⟨value, rfl, rfl⟩

theorem readInt_frame {rd : BitVec 32} (h : x.readInt rd fuel buff dest = some (y, ret)) :
    y.keys.length ≤ x.keys.length ∧
      ∀ a, Far dest 8 a → Far buff x.keys.length a → y.mem a = x.mem a := by
  obtain ⟨z, hRead, ⟨rfl, _⟩ | ⟨value, rfl, _⟩⟩ := readInt_cases h
  · obtain ⟨hKeys, hFrame⟩ := readStr_frame hRead
    exact ⟨hKeys, fun a _ hFar => hFrame a hFar⟩
  · obtain ⟨hKeys, hFrame⟩ := readStr_frame hRead
    refine ⟨hKeys, fun a hDest hFar => ?_⟩
    rw [store_of_outside, hFrame a hFar]
    rw [length_bytesOf]
    rcases hDest with hDest | hDest
    · exact Or.inl (by omega)
    · exact Or.inr (by omega)

theorem Far.mono {keys keys' : Nat} (h : Far addr keys a) (hLe : keys' ≤ keys) : Far addr keys' a := by
  rcases h with h | h
  · exact Or.inl (by omega)
  · exact Or.inr (by omega)

/-- The loop stores near its one destination and near `buff`. -/
theorem kscanfLoop_frame {ret' : BitVec 32} (h : kscanfLoop rd dest buff fuel str n ret x = some (y, ret'))
    {keys : Nat} (hKeys : x.keys.length ≤ keys) (hDest : Far dest (keys + 8) a) (hBuff : Far buff keys a) :
    y.mem a = x.mem a := by
  induction fuel generalizing str n ret x with
  | zero => cases h
  | succ fuel ih =>
      cases str with
      | nil =>
          cases h
          rfl
      | cons c str =>
          cases str with
          | nil => exact ih h hKeys
          | cons k str =>
              rw [kscanfLoop] at h
              split_ifs at h with hLiteral hInt hStr
              · exact ih h hKeys
              · obtain ⟨⟨z, ret''⟩, hRead, hRest⟩ := Option.bind_eq_some_iff.mp h
                obtain ⟨hLess, hFrame⟩ := readInt_frame hRead
                have hSame := hFrame a (hDest.mono (by omega)) (hBuff.mono hKeys)
                dsimp only at hRest
                split_ifs at hRest with hError
                · cases hRest
                  exact hSame
                · exact (ih hRest (hLess.trans hKeys)).trans hSame
              · obtain ⟨z, hRead, hRest⟩ := Option.bind_eq_some_iff.mp h
                obtain ⟨hLess, hFrame⟩ := readStr_frame hRead
                exact (ih hRest (hLess.trans hKeys)).trans (hFrame a (hDest.mono (by omega)))
              · exact ih h hKeys

/-- A literal holds the loop for ever. -/
theorem kscanfLoop_literal (h : c ≠ charPercent) : kscanfLoop rd dest buff fuel (c :: str) n ret x = none := by
  induction fuel with
  | zero => rfl
  | succ fuel ih =>
      cases str with
      | nil => exact ih
      | cons k str =>
          rw [kscanfLoop, if_pos h]
          exact ih

end Console

section Layout

/-- The first byte that a directive stores. -/
def firstByte (k : Directive) (l : InputLine) : BitVec 8 := (k.content l).headD 0

theorem content_first {mem : Int → BitVec 8} {a : Int} {k : Directive} {l : InputLine}
    (h : LiesAt mem a (k.content l)) : mem a = firstByte k l := by
  have hFirst : (k.content l)[0]? = some (firstByte k l) := by
    rw [firstByte]
    cases k with
    | d => rfl
    | s =>
        rw [Directive.content]
        cases l.line <;> rfl
  have hAt := h 0 _ hFirst
  rwa [Int.natCast_zero, Int.add_zero] at hAt

/-- The bytes behind an integer are those of its sign. -/
theorem sign_byte (value : BitVec 32) :
    (bytesOf 8 (value.signExtend 64))[4]? = some (if value.msb then 0xFF else 0) := by
  have hByte : (bytesOf 8 (value.signExtend 64))[4]? = some ((value.signExtend 64).extractLsb' 32 8) := rfl
  rw [hByte]
  refine congrArg some (BitVec.eq_of_getLsbD_eq fun i hi => ?_)
  rw [BitVec.getLsbD_extractLsb', BitVec.getLsbD_signExtend, if_neg (by omega), decide_eq_true hi,
    decide_eq_true (show 32 + i < 64 by omega), Bool.true_and, Bool.true_and]
  cases value.msb with
  | false => exact BitVec.getLsbD_zero.symm
  | true =>
      have hOnes : (0xFF : BitVec 8) = BitVec.allOnes 8 := rfl
      rw [if_pos rfl, hOnes, BitVec.getLsbD_allOnes, decide_eq_true hi]

variable {lines : Nat → InputLine} {items : List FormatItem} {ks : List Directive}

theorem length_lineKeys {n i : Nat} (h : i < n) :
    (lines i).chars.length + 1 ≤ (lineKeys lines n).length := by
  induction n with
  | zero => cases h
  | succ n ih =>
      rw [lineKeys, List.range_succ, List.flatMap_append, List.length_append, List.flatMap_singleton,
        List.length_append, List.length_singleton]
      rcases Nat.lt_succ_iff_lt_or_eq.mp h with hLess | rfl
      · exact (ih hLess).trans (Nat.le_add_right _ _)
      · exact Nat.le_add_left _ _

/-- Destinations with more room between them than all keys take. -/
def farDest (lines : Nat → InputLine) (count i : Nat) : Int :=
  ((i + 1) * ((lineKeys lines count).length + 20) : Nat)

def farSize (lines : Nat → InputLine) (ks : List Directive) (i : Nat) : Nat :=
  match ks[i]? with
  | some .s => (lines i).chars.length + 1
  | _ => 4

theorem farSize_le {i : Nat} (h : i < ks.length) :
    farSize lines ks i ≤ (lineKeys lines ks.length).length + 20 := by
  have hLine : (lines i).chars.length + 1 ≤ (lineKeys lines ks.length).length := length_lineKeys h
  rw [farSize]
  split <;> omega

theorem farDestinations (ks : List Directive) (lines : Nat → InputLine) :
    Destinations ks lines 0 (farDest lines ks.length) (farSize lines ks) := by
  obtain ⟨room, hRoom⟩ : ∃ room, room = (lineKeys lines ks.length).length + 20 := ⟨_, rfl⟩
  have hDest : ∀ i, farDest lines ks.length i = ((i + 1) * room : Nat) := fun i => by rw [hRoom, farDest]
  refine ⟨fun i k hk => ?_, fun i j hLess hj => Or.inl ?_, fun i hi => Or.inl ?_⟩
  · cases k with
    | d =>
        show farSize lines ks i = 4
        rw [farSize, hk]
    | s =>
        show _ < farSize lines ks i
        rw [farSize, hk]
        exact Nat.lt_succ_self _
  · have hSize : farSize lines ks i ≤ (lineKeys lines ks.length).length + 20 := farSize_le (hLess.trans hj)
    have hStep : (i + 1 + 1) * room ≤ (j + 1) * room := Nat.mul_le_mul_right room (Nat.succ_le_succ hLess)
    rw [Nat.succ_mul] at hStep
    rw [hDest, hDest]
    omega
  · have hStep : 1 * room ≤ (i + 1) * room := Nat.mul_le_mul_right room (Nat.succ_le_succ (Nat.zero_le i))
    rw [hDest]
    omega

variable {rd : Nat → BitVec 32}

/-- What a call that does as it should comes to with far destinations. -/
theorem Scans.far (h : Scans rd lines items) (mem : Int → BitVec 8) : ∃ fuel y ret,
    Console.kscanf rd (farDest lines (directives items).length 0) 0 fuel (formatText items)
        ⟨mem, lineKeys lines (directives items).length, Terminal.off⟩ = some (y, ret) ∧
      y.keys = [] ∧
      (∀ (i : Nat) (k : Directive), (directives items)[i]? = some k →
        y.mem (farDest lines (directives items).length i) = firstByte k (lines i)) ∧
      ∀ a, 5 ≤ a → (∀ i < (directives items).length, a < farDest lines (directives items).length i ∨
        farDest lines (directives items).length i + farSize lines (directives items) i ≤ a) →
          y.mem a = mem a := by
  obtain ⟨fuel, y, ret, hRun, hKeys, hContent, hFrame⟩ := h mem Terminal.off [] 0 _ _ (farDestinations _ lines)
  rw [List.append_nil] at hRun
  refine ⟨fuel, y, ret, hRun, hKeys, fun i k hk => content_first (hContent i k hk), fun a ha hOut => ?_⟩
  refine hFrame a (fun i hi hIn => ?_) (fun hIn => by omega)
  rcases hOut i hi with hLow | hHigh <;> omega

theorem add_one_ne (b : BitVec 8) : b + 1 ≠ b := by
  intro h
  have hNat := congrArg BitVec.toNat h
  rw [BitVec.toNat_add] at hNat
  have hOne : BitVec.toNat (1 : BitVec 8) = 1 := rfl
  have hLess := b.isLt
  omega

theorem farDest_zero (count : Nat) : farDest lines count 0 = (lineKeys lines count).length + 20 := by
  rw [farDest]
  omega

theorem farDest_one (count : Nat) : farDest lines count 1 = 2 * ((lineKeys lines count).length + 20) := by
  rw [farDest]
  omega

/-- Only the first argument is stored to. -/
theorem Scans.few (h : Scans rd lines items) : (directives items).length < 2 := by
  by_contra hMany
  obtain ⟨k, hk⟩ : ∃ k, (directives items)[1]? = some k :=
    ⟨_, List.getElem?_eq_getElem (by omega)⟩
  obtain ⟨fuel, y, ret, hRun, _, hContent, _⟩ := h.far fun _ => firstByte k (lines 1) + 1
  have hSecond := hContent 1 k hk
  rw [Console.kscanfLoop_frame hRun le_rfl] at hSecond
  · exact add_one_ne _ hSecond
  · rw [farDest_zero, farDest_one]
    exact Or.inr (by dsimp only; omega)
  · rw [farDest_one]
    exact Or.inr (by dsimp only; omega)

/-- The format does not start with a literal. -/
theorem not_scans_literal {c : BitVec 8} {hc : c ≠ charPercent ∧ c ≠ 0} :
    ¬ Scans rd lines (.literal c hc :: items) := by
  intro h
  obtain ⟨fuel, y, ret, hRun, _⟩ := h.far fun _ => 0
  have hNone := Console.kscanfLoop_literal hc.1 |>.symm.trans hRun
  cases hNone

/-- Where the loop comes to an end behind a directive, that has been the last item. -/
theorem Scans.last {k : Directive} {dest buff : Int} {fuel n : Nat} {ret : BitVec 32} {x : Console}
    {r : Console × BitVec 32} (h : Scans rd lines (.directive k :: items))
    (hRun : Console.kscanfLoop rd dest buff fuel (formatText items) n ret x = some r) : items = [] := by
  cases items with
  | nil => rfl
  | cons item items =>
      cases item with
      | literal c hc =>
          have hNone := (Console.kscanfLoop_literal hc.1).symm.trans hRun
          cases hNone
      | directive k' =>
          have hFew := h.few
          exact absurd hFew (Nat.not_lt_of_le (Nat.le_add_left 2 _))

/-- An integer takes more memory than its destination has, or it is taken for an error. -/
theorem not_scans_d : ¬ Scans rd lines (.directive .d :: items) := by
  intro h
  obtain ⟨count, hCount⟩ : ∃ count, count = (directives (.directive .d :: items)).length := ⟨_, rfl⟩
  obtain ⟨dest, hDest⟩ : ∃ dest, dest = farDest lines count 0 := ⟨_, rfl⟩
  have hFar := hDest.trans (farDest_zero count)
  obtain ⟨fuel, y, ret, hRun, _, hContent, hFrame⟩ := h.far fun a =>
    if a = dest then firstByte .d (lines 0) + 1 else 0x55
  have hFirst := hContent 0 .d rfl
  rw [← hCount] at hRun hFirst hFrame
  rw [← hDest] at hRun hFirst
  cases fuel with
  | zero => cases hRun
  | succ fuel =>
      obtain ⟨⟨z, ret'⟩, hRead, hRest⟩ := Option.bind_eq_some_iff.mp hRun
      obtain ⟨x, hStr, ⟨rfl, rfl⟩ | ⟨value, rfl, rfl⟩⟩ := Console.readInt_cases hRead
      · have hSame : z.mem dest = firstByte .d (lines 0) + 1 :=
          ((Console.readStr_frame hStr).2 dest (Or.inr (by dsimp only; omega))).trans (if_pos rfl)
        obtain rfl : _ = y := (Prod.ext_iff.mp (Option.some.inj hRest)).1
        exact add_one_ne _ (hSame.symm.trans hFirst)
      · obtain rfl := h.last hRest
        cases fuel with
        | zero => cases hRest
        | succ fuel =>
            obtain rfl : _ = y := (Prod.ext_iff.mp (Option.some.inj hRest)).1
            have hBehind : (x.store dest (bytesOf 8 (value.signExtend 64))).mem (dest + (0 + 4 : Nat)) =
              if value.msb then 0xFF else 0 := written_zipIdx (sign_byte value)
            have hOutside : ∀ i < count, dest + (0 + 4 : Nat) < farDest lines count i ∨
                farDest lines count i + farSize lines (directives [.directive .d]) i ≤ dest + (0 + 4 : Nat) := by
              intro i hi
              have hOne : count = 1 := hCount
              obtain rfl : i = 0 := by omega
              rw [← hDest]
              exact Or.inr le_rfl
            have hOut := (hFrame _ (by omega) hOutside).trans (if_neg (by omega))
            have hSign := hBehind.symm.trans hOut
            split at hSign <;> exact absurd hSign (by decide)

theorem lineKeys_one : lineKeys lines 1 = (lines 0).chars ++ [charNewline] := by
  simp [lineKeys]

theorem InputLine.noNewline (l : InputLine) : charNewline ∉ l.chars := fun hMem => (l.valid _ hMem).1 rfl

/-- A single string is read like any line. -/
theorem Scans.covered (h : Scans rd lines [.directive .s]) : rd 0 ≠ 10 ∧ Covered 0 (lines 0).chars := by
  obtain ⟨dest, hDest⟩ : ∃ dest, dest = farDest lines 1 0 := ⟨_, rfl⟩
  have hFar := hDest.trans (farDest_zero 1)
  -- What the call stores does not depend on the memory.
  have hCall : ∀ mem, ∃ g, mgets (rd 0) dest (lineKeys lines 1) Terminal.off = some g ∧ g.keys = [] ∧
      ∀ a, 5 ≤ a → a < dest → written g.stores mem a = mem a := by
    intro mem
    obtain ⟨fuel, y, ret, hRun, hKeys, _, hFrame⟩ := h.far mem
    cases fuel with
    | zero => cases hRun
    | succ fuel =>
        obtain ⟨z, hRead, hRest⟩ := Option.bind_eq_some_iff.mp hRun
        obtain ⟨g, hGets, rfl⟩ := Option.map_eq_some_iff.mp hRead
        cases fuel with
        | zero => cases hRest
        | succ fuel =>
            obtain rfl : _ = y := (Prod.ext_iff.mp (Option.some.inj hRest)).1
            rw [hDest]
            refine ⟨g, hGets, hKeys, fun a hLow hHigh => hFrame a hLow fun i hi => Or.inl ?_⟩
            obtain rfl : i = 0 := Nat.lt_one_iff.mp hi
            exact hHigh
  obtain ⟨g, hGets, hKeys, _⟩ := hCall fun _ => 0
  have hRd : rd 0 ≠ 10 := by
    intro hTen
    rw [mgets, if_pos hTen] at hGets
    cases hGets
    rw [lineKeys_one] at hKeys
    simp at hKeys
  refine ⟨hRd, ?_⟩
  by_contra hCovered
  rw [lineKeys_one] at hGets
  have hBelow := mgets_underflow hRd (lines 0).noNewline hCovered hGets
  obtain ⟨g', hGets', _, hFrame⟩ := hCall fun _ => written g.stores (fun _ => 0) (dest - 1) + 1
  rw [lineKeys_one, hGets] at hGets'
  obtain rfl := Option.some.inj hGets'
  have hSame := hFrame (dest - 1) (by omega) (by omega)
  rw [written_congr (Or.inl hBelow)] at hSame
  exact add_one_ne _ hSame.symm

theorem scans_s (hRd : rd 0 ≠ 10) (hCovered : Covered 0 (lines 0).chars) :
    Scans rd lines [.directive .s] := by
  intro mem t extra buff dest size hDest
  have hRoom : (lines 0).chars.length < size 0 := hDest.room 0 .s rfl
  have hKeys : lineKeys lines 1 ++ extra = (lines 0).chars ++ charNewline :: extra := by
    rw [lineKeys_one, List.append_assoc, List.singleton_append]
  obtain ⟨g, hGets, hLeft, hBounds, hLies⟩ : ∃ g,
      mgets (rd 0) (dest 0) ((lines 0).chars ++ charNewline :: extra) t = some g ∧ g.keys = extra ∧
        (∀ a ∈ targets g.stores, dest 0 ≤ a ∧ a ≤ dest 0 + (lines 0).chars.length) ∧
          LiesAt (written g.stores mem) (dest 0) (edit [] (lines 0).chars ++ [0]) :=
    mgets_line hRd (lines 0).noNewline hCovered
  have hRead : Console.readStr (rd 0) (dest 0) ⟨mem, lineKeys lines 1 ++ extra, t⟩ =
      some ⟨written g.stores mem, g.keys, g.terminal⟩ := by
    rw [hKeys]
    exact congrArg (Option.map _) hGets
  refine ⟨2, ⟨written g.stores mem, g.keys, g.terminal⟩, 0, congrArg (Option.bind · _) hRead, hLeft, ?_, ?_⟩
  · intro i k hk
    cases i with
    | zero =>
        obtain rfl : Directive.s = k := Option.some.inj hk
        exact hLies
    | succ i => cases hk
  · intro a hOut _
    apply written_of_not_mem
    intro hMem
    have hBound := hBounds a hMem
    exact hOut 0 Nat.one_pos ⟨hBound.1, by omega⟩

theorem scans_nil : Scans rd lines [] := by
  intro mem t extra buff dest size _
  refine ⟨1, ⟨mem, extra, t⟩, 0, rfl, rfl, fun i k hk => ?_, fun _ _ _ => rfl⟩
  cases hk

/-- Nothing comes behind a single string. -/
theorem Scans.s_alone (h : Scans rd lines (.directive .s :: items)) : items = [] := by
  obtain ⟨fuel, y, ret, hRun, _⟩ := h.far fun _ => 0
  cases fuel with
  | zero => cases hRun
  | succ fuel =>
      obtain ⟨z, _, hRest⟩ := Option.bind_eq_some_iff.mp hRun
      exact h.last hRest

/-- `kscanf` does as it should for the empty format and for a single `%s`. -/
theorem scans_iff (rd : Nat → BitVec 32) (lines : Nat → InputLine) (items : List FormatItem) :
    Scans rd lines items ↔
      items = [] ∨ items = [.directive .s] ∧ rd 0 ≠ 10 ∧ Covered 0 (lines 0).chars := by
  constructor
  · intro h
    cases items with
    | nil => exact Or.inl rfl
    | cons item items =>
        cases item with
        | literal c hc => exact absurd h not_scans_literal
        | directive k =>
            cases k with
            | d => exact absurd h not_scans_d
            | s =>
                obtain rfl := h.s_alone
                exact Or.inr ⟨rfl, h.covered⟩
  · rintro (rfl | ⟨rfl, hRd, hCovered⟩)
    · exact scans_nil
    · exact scans_s hRd hCovered

/-- A format with one integer, and the line "7". -/
theorem not_scans : ¬ ∀ (rd : Nat → BitVec 32) (lines : Nat → InputLine) (items : List FormatItem),
    Scans rd lines items :=
  fun hAll => not_scans_d (hAll (fun _ => 0) (fun _ => ⟨[0x37], by decide⟩) [.directive .d])

end Layout

end ArtOS

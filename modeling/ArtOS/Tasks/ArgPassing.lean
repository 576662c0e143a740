import ArtOS.Library.WordMemory
import ArtOS.Tasks.LoaderAccess
import Mathlib.Data.List.TakeWhile

/-! The arguments of a new task: `create_user_task` packs the strings into a block, `load_task` pushes
them on the stack of the task. The task finds them there again. -/
namespace ArtOS

open ByteMemory CString WordMemory

/-- The addresses that are written. -/
def Access.bytes : Access → Set Nat
  | .map .. => ∅
  | .write addr len => span addr len

namespace Loader

/-- A kernel of which only the memory matters. -/
def memory : Loader (Nat → BitVec 8) where
  getPages _ mem := (mem, 0)
  pageMap _ _ _ _ mem := (mem, 0)
  write addr bytes mem := WordMemory.write mem addr bytes
  vmaAdd _ _ _ mem := (mem, 0)
  heapArea mem := (mem, true)
  setHeap _ mem := mem

/-- The word at this address. -/
def readWord (mem : Nat → BitVec 8) (addr : Nat) : Nat := load32 (window mem addr) 0

/-- The string at this address. -/
def HoldsString (mem : Nat → BitVec 8) (addr : Nat) (s : List (BitVec 8)) : Prop :=
  Holds (window mem addr) 0 s

/-- What the task finds at its stack pointer, and what has been written for it. -/
structure Passed (strings : List (List (BitVec 8))) (stack : Nat) (mem : Nat → BitVec 8)
    (log : List Access) (pointer : Nat) : Prop where
  argc : readWord mem pointer = strings.length
  argv : ∀ i (hi : i < strings.length),
    HoldsString mem (readWord mem (Word.add (readWord mem (Word.add pointer 4)) (4 * i)))
      (strings.get ⟨i, hi⟩)
  envp : readWord mem (Word.add pointer 8) = 0
  inside : ∀ a ∈ log, a.bytes ⊆ span stack defaultStackSize
  apart : log.Pairwise fun a b => Disjoint a.bytes b.bytes

variable {State : Type} (m : Loader State) {mem : Nat → BitVec 8} {stack off base addr idx : Nat}
variable {strings : List (List (BitVec 8))} {buffer : List (BitVec 8)} {words : List Nat} {s : State}
variable {log : List Access}

/-- Words stored one behind the other. -/
def pushWords : Nat → List Nat → State → State
  | _, [], s => s
  | addr, v :: words, s => pushWords (Word.add addr 4) words (m.write addr (word v) s)

/-- Where the strings start in the buffer. -/
def starts : Nat → List (List (BitVec 8)) → List Nat
  | _, [] => []
  | idx, x :: strings => idx :: starts (idx + x.length + 1) strings

/-- The strings as `create_user_task` packs them. -/
def packed (strings : List (List (BitVec 8))) : List (BitVec 8) := strings.flatMap fun x => x ++ [0]

theorem packed_cons (x : List (BitVec 8)) : packed (x :: strings) = x ++ 0 :: packed strings := by
  rw [packed, List.flatMap_cons, List.append_assoc]
  rfl

theorem length_starts : (starts idx strings).length = strings.length := by
  induction strings generalizing idx with
  | nil => rfl
  | cons x strings ih => exact congrArg (· + 1) ih

theorem word_eq (n : Nat) : word n = bytes32 n := by
  simp [word, bytes32, byte, Nat.shiftRight_eq_div_pow, List.range_succ]

theorem length_word (n : Nat) : (word n).length = 4 := by
  rw [word, List.length_map, List.length_range]

/-- Behind a string and its zero the next one starts. -/
theorem nextString_eq {x rest : List (BitVec 8)} (hx : 0 ∉ x) (h : buffer.drop idx = x ++ 0 :: rest) :
    nextString buffer idx = idx + x.length + 1 := by
  have hTake : (x ++ 0 :: rest).takeWhile (fun c : BitVec 8 => c ≠ 0) = x := by
    rw [List.takeWhile_append_of_pos]
    · simp
    · intro c hc
      exact decide_eq_true fun hZero => hx (hZero ▸ hc)
  rw [nextString, h, hTake]

/-- The loop over the arguments stores a pointer to each string of the buffer. -/
theorem pushPointers_packed {rest : List (BitVec 8)} (hStrings : ∀ x ∈ strings, 0 ∉ x)
    (hBuffer : buffer.drop idx = packed strings ++ rest) :
    (m.pushPointers buffer base strings.length addr idx s).1 =
      m.pushWords addr ((starts idx strings).map (Word.add base)) s := by
  induction strings generalizing addr idx s with
  | nil => rfl
  | cons x strings ih =>
      rw [packed_cons, List.append_assoc, List.cons_append] at hBuffer
      have hNext := nextString_eq (hStrings x List.mem_cons_self) hBuffer
      rw [List.length_cons, pushPointers, hNext, starts, List.map_cons, pushWords]
      apply ih fun y hy => hStrings y (List.mem_cons_of_mem _ hy)
      have hDrop : buffer.drop (idx + x.length + 1) = (buffer.drop idx).drop (x.length + 1) := by
        rw [List.drop_drop, Nat.add_assoc]
      rw [hDrop, hBuffer, ← List.drop_drop, List.drop_left]
      rfl

/-- Each string lies where it starts. -/
theorem holds_starts {f : Nat → BitVec 8} {rest : List (BitVec 8)} (idx : Nat) (hStrings : ∀ x ∈ strings, 0 ∉ x)
    (h : Lies f (base + idx) (packed strings ++ rest)) {i : Nat} (hi : i < strings.length) :
    Holds f (base + (starts idx strings).get ⟨i, length_starts ▸ hi⟩) (strings.get ⟨i, hi⟩) := by
  induction strings generalizing idx i with
  | nil => exact absurd hi (Nat.not_lt_zero i)
  | cons x strings ih =>
      rw [packed_cons, List.append_assoc, List.cons_append] at h
      cases i with
      | zero =>
          exact h.holds fun c hc hZero => hStrings x List.mem_cons_self (hZero ▸ hc)
      | succ i =>
          have hTail := (lies_append.mp h).2.2
          have hShift : base + idx + x.length + 1 = base + (idx + x.length + 1) := by omega
          rw [hShift] at hTail
          exact ih _ (fun y hy => hStrings y (List.mem_cons_of_mem _ hy)) hTail
            (Nat.lt_of_succ_lt_succ hi)

theorem write_memory {bytes : List (BitVec 8)} : memory.logged.write addr bytes (mem, log) =
    (WordMemory.write mem addr bytes, .write addr bytes.length :: log) := rfl

/-- One word is pushed below what lies there already. -/
theorem lies_word (mem : Nat → BitVec 8) (stack v : Nat) (hEnd : off + 4 ≤ 2 ^ 32) :
    Lies (window (WordMemory.write mem (Word.add stack off) (word v)) stack) off (bytes32 v) ∧
      ∀ k, off + 4 ≤ k → k < 2 ^ 32 →
        window (WordMemory.write mem (Word.add stack off) (word v)) stack k = window mem stack k := by
  have hLength := length_word v
  refine ⟨word_eq v ▸ lies_write (by omega), ?_⟩
  intro k hFrom hk
  exact window_write_of_outside (by omega) hk (by omega)

/-- The words lie one behind the other, and nothing behind them has changed. -/
theorem pushWords_lies (mem : Nat → BitVec 8) (stack : Nat) (log : List Access)
    (hEnd : off + 4 * words.length ≤ 2 ^ 32) :
    ∃ mem', memory.logged.pushWords (Word.add stack off) words (mem, log) =
        (mem', ((List.range words.length).map
          fun i => Access.write (Word.add stack (off + 4 * i)) 4).reverse ++ log) ∧
      Lies (window mem' stack) off (words.flatMap bytes32) ∧
      ∀ k, k < off ∨ off + 4 * words.length ≤ k → k < 2 ^ 32 →
        window mem' stack k = window mem stack k := by
  induction words generalizing off mem log with
  | nil => exact ⟨mem, rfl, trivial, fun _ _ _ => rfl⟩
  | cons v words ih =>
      rw [List.length_cons] at hEnd
      have hLength := length_word v
      obtain ⟨hWord, _⟩ := lies_word mem stack v (by omega : off + 4 ≤ 2 ^ 32)
      obtain ⟨mem', hPush, hWords, hSame⟩ := ih (WordMemory.write mem (Word.add stack off) (word v))
        (.write (Word.add stack off) (word v).length :: log) (by omega : off + 4 + 4 * words.length ≤ _)
      refine ⟨mem', ?_, ?_, ?_⟩
      · have hStep : memory.logged.pushWords (Word.add stack off) (v :: words) (mem, log) =
            memory.logged.pushWords (Word.add (Word.add stack off) 4) words
              (WordMemory.write mem (Word.add stack off) (word v),
                .write (Word.add stack off) (word v).length :: log) := rfl
        rw [hStep, add_add, hPush, hLength, List.length_cons, List.range_succ_eq_map, List.map_cons,
          List.map_map, List.reverse_cons, List.append_assoc]
        refine congrArg (Prod.mk mem') (congrArg₂ (· ++ ·) (congrArg List.reverse ?_) rfl)
        apply List.map_congr_left
        intro i _
        exact congrArg (fun o => Access.write (Word.add stack o) 4) (by simp only [Nat.succ_eq_add_one]; omega)
      · rw [List.flatMap_cons, lies_append]
        refine ⟨lies_congr ?_ hWord, hWords⟩
        intro k hFrom hTo
        exact hSame k (Or.inl hTo) (by simp only [bytes32, List.length_cons, List.length_nil] at hTo; omega)
      · intro k hOut hk
        rw [List.length_cons] at hOut
        rw [hSame k (by omega) hk]
        exact window_write_of_outside (by omega) hk (by omega)

/-- The offsets and lengths of what is pushed for `n` arguments, the last one first. -/
def pushes (n : Nat) : List (Nat × Nat) :=
  [(12276 - 4 * n, 4), (12280 - 4 * n, 4), (12284 - 4 * n, 4), (12288 - 4 * n, 4)] ++
    (((List.range n).map fun i => (12292 - 4 * n + 4 * i, 4)).reverse ++ [(12292, 4084), (16376, 4)])

theorem readWord_add : readWord mem (Word.add stack off) = load32 (window mem stack) off := by
  rw [readWord, load32, window_add, window_add, window_add, window_add]
  rfl

theorem holdsString_add {x : List (BitVec 8)} :
    HoldsString mem (Word.add stack off) x ↔ Holds (window mem stack) off x := by
  have hShift : ∀ k, Holds (window mem (Word.add stack off)) k x ↔ Holds (window mem stack) (off + k) x := by
    induction x with
    | nil =>
        intro k
        rw [holds_nil, holds_nil, window_add]
    | cons c x ih =>
        intro k
        rw [holds_cons, holds_cons, window_add, ih (k + 1), Nat.add_assoc]
  exact hShift 0

section Image

variable {args : LoadArgs} {behind : Nat → BitVec 8} {n below : Nat}

theorem length_bufferOf : (bufferOf args behind).length = maxArgs := by
  rw [bufferOf, List.length_map, List.length_range]

/-- The four words below the pointers: the end of the empty environment, `envp`, `argv` and `argc`. -/
def pushHead (stack below argc argv : Nat) (s : State) : State :=
  m.write (Word.add stack below) (word argc)
    (m.write (Word.add stack (below + 4)) (word argv)
      (m.write (Word.add stack (below + 8)) (word 0) (m.write (Word.add stack (below + 12)) (word 0) s)))

/-- While the offsets stay above the bottom of the stack, `load_task` pushes the strings, the pointers to
them, and the four words. -/
theorem pushArgs_eq (hEnvc : args.envc = 0) (hArgc : args.argc = n) (hFew : n ≤ 3069) :
    m.pushArgs args behind stack s =
      (m.pushHead stack (12276 - 4 * n) n (Word.add stack (12292 - 4 * n))
        (m.pushPointers (bufferOf args behind) (Word.add stack 12292) n (Word.add stack (12292 - 4 * n)) 0
          (m.write (Word.add stack 12292) (bufferOf args behind)
            (m.write (Word.add stack 16376) (List.replicate 4 0) s))).1,
        Word.add stack (12276 - 4 * n)) := by
  have hBelow : ∀ a b c, b ≤ a → a < 2 ^ 32 → c = a - b → Word.sub a b = c :=
    fun a b c hb ha hc => (Word.sub_eq hb ha).trans hc.symm
  have hPointers : Word.sub (defaultStackSize - 8 - maxArgs) (n * 4) = 12292 - 4 * n :=
    (Word.sub_eq (show n * 4 ≤ 12292 by omega) (by decide)).trans (congrArg (12292 - ·) (Nat.mul_comm n 4))
  have hEnv : Word.sub (12292 - 4 * n) ((0 + 1) * 4) = 12276 - 4 * n + 12 := by
    apply hBelow <;> omega
  have hNull : Word.add (12276 - 4 * n + 12) (0 * 4) = 12276 - 4 * n + 12 := Word.add_eq (by omega)
  have hEnvp : Word.sub (12276 - 4 * n + 12) 4 = 12276 - 4 * n + 8 := by
    apply hBelow <;> omega
  have hArgv : Word.sub (12276 - 4 * n + 8) 4 = 12276 - 4 * n + 4 := by
    apply hBelow <;> omega
  have hArray : Word.add (12276 - 4 * n + 4) (8 + (0 + 1) * 4) = 12292 - 4 * n := by
    rw [Word.add_eq (by omega)]
    omega
  have hArgcAt : Word.sub (12276 - 4 * n + 4) 4 = 12276 - 4 * n := by
    apply hBelow <;> omega
  have hStrings : Word.add stack (defaultStackSize - 8 - maxArgs) = Word.add stack 12292 := rfl
  have hEnd : Word.add stack (defaultStackSize - 8) = Word.add stack 16376 := rfl
  rw [pushArgs]
  dsimp only
  rw [hEnvc, hArgc, hPointers, hEnv, hNull, hEnvp, hArgv, hArray, hArgcAt, hStrings, hEnd, pushHead]
  simp only [pushPointers, if_pos]

/-- The buffer lies on the stack, and below it the pointers to its strings. -/
theorem pushStrings_lies {rest : List (BitVec 8)} (hArgc : n = strings.length) (hFew : n ≤ 3069)
    (hStrings : ∀ x ∈ strings, 0 ∉ x) (hLength : buffer.length = maxArgs)
    (hBuffer : buffer = packed strings ++ rest) :
    ∃ mem', (memory.logged.pushPointers buffer (Word.add stack 12292) n
        (Word.add stack (12292 - 4 * n)) 0 (memory.logged.write (Word.add stack 12292) buffer
          (memory.logged.write (Word.add stack 16376) (List.replicate 4 0) (mem, [])))).1 =
        (mem', ((List.range n).map fun i => Access.write (Word.add stack (12292 - 4 * n + 4 * i)) 4).reverse ++
          [.write (Word.add stack 12292) 4084, .write (Word.add stack 16376) 4]) ∧
      Lies (window mem' stack) (12292 - 4 * n)
        (((starts 0 strings).map (Word.add (Word.add stack 12292))).flatMap bytes32) ∧
      Lies (window mem' stack) 12292 (packed strings ++ rest) := by
  have hWords : ((starts 0 strings).map (Word.add (Word.add stack 12292))).length = n := by
    rw [List.length_map, length_starts, hArgc]
  have hSize : buffer.length = 4084 := hLength
  have hDrop : buffer.drop 0 = packed strings ++ rest := List.drop_zero.trans hBuffer
  obtain ⟨mem₁, hMem₁⟩ : ∃ mem₁, mem₁ = WordMemory.write
    (WordMemory.write mem (Word.add stack 16376) (List.replicate 4 0)) (Word.add stack 12292) buffer := ⟨_, rfl⟩
  have hPacked : Lies (window mem₁ stack) 12292 (packed strings ++ rest) := by
    rw [hMem₁, ← hBuffer]
    exact lies_write (by omega)
  obtain ⟨mem', hPush, hLies, hSame⟩ := pushWords_lies mem₁ stack
    [.write (Word.add stack 12292) 4084, .write (Word.add stack 16376) 4]
    (by omega : 12292 - 4 * n + 4 * ((starts 0 strings).map (Word.add (Word.add stack 12292))).length ≤ 2 ^ 32)
  rw [hWords] at hPush hSame
  refine ⟨mem', ?_, hLies, ?_⟩
  · have hStart : memory.logged.write (Word.add stack 12292) buffer
        (memory.logged.write (Word.add stack 16376) (List.replicate 4 0) (mem, [])) =
          (mem₁, [.write (Word.add stack 12292) 4084, .write (Word.add stack 16376) 4]) := by
      simp only [write_memory, hMem₁, hSize, List.length_replicate]
    rw [hStart, ← hPush, hArgc]
    exact pushPointers_packed _ hStrings hDrop
  · refine lies_congr ?_ hPacked
    intro k hFrom hTo
    rw [← hBuffer, hSize] at hTo
    exact hSame k (Or.inr (by omega)) (by omega)

/-- Each of the four words is where it was stored, and nothing above them has changed. -/
theorem pushHead_lies (mem : Nat → BitVec 8) (log : List Access) (argc argv : Nat)
    (hEnd : below + 16 ≤ 2 ^ 32) :
    ∃ mem', memory.logged.pushHead stack below argc argv (mem, log) =
        (mem', .write (Word.add stack below) 4 :: .write (Word.add stack (below + 4)) 4 ::
          .write (Word.add stack (below + 8)) 4 :: .write (Word.add stack (below + 12)) 4 :: log) ∧
      Lies (window mem' stack) below (bytes32 argc) ∧
      Lies (window mem' stack) (below + 4) (bytes32 argv) ∧
      Lies (window mem' stack) (below + 8) (bytes32 0) ∧
      ∀ k, below + 16 ≤ k → k < 2 ^ 32 → window mem' stack k = window mem stack k := by
  have hFour : ∀ v, (bytes32 v).length = 4 := fun _ => rfl
  obtain ⟨_, hNull⟩ := lies_word mem stack 0 (by omega : below + 12 + 4 ≤ 2 ^ 32)
  generalize hMem₁ : WordMemory.write mem (Word.add stack (below + 12)) (word 0) = mem₁ at hNull
  obtain ⟨hEnvp, hEnvpSame⟩ := lies_word mem₁ stack 0 (by omega : below + 8 + 4 ≤ 2 ^ 32)
  generalize hMem₂ : WordMemory.write mem₁ (Word.add stack (below + 8)) (word 0) = mem₂ at hEnvp hEnvpSame
  obtain ⟨hArgv, hArgvSame⟩ := lies_word mem₂ stack argv (by omega : below + 4 + 4 ≤ 2 ^ 32)
  generalize hMem₃ : WordMemory.write mem₂ (Word.add stack (below + 4)) (word argv) = mem₃ at hArgv hArgvSame
  obtain ⟨hArgc, hArgcSame⟩ := lies_word mem₃ stack argc (by omega : below + 4 ≤ 2 ^ 32)
  refine ⟨_, ?_, hArgc, ?_, ?_, ?_⟩
  · simp only [pushHead, write_memory, length_word, hMem₁, hMem₂, hMem₃]
  · refine lies_congr ?_ hArgv
    intro k hFrom hTo
    rw [hFour] at hTo
    exact hArgcSame k (by omega) (by omega)
  · refine lies_congr ?_ hEnvp
    intro k hFrom hTo
    rw [hFour] at hTo
    rw [hArgcSame k (by omega) (by omega), hArgvSame k (by omega) (by omega)]
  · intro k hFrom hk
    rw [hArgcSame k (by omega) hk, hArgvSame k (by omega) hk, hEnvpSame k (by omega) hk,
      hNull k (by omega) hk]

theorem length_words (words : List Nat) : (words.flatMap bytes32).length = 4 * words.length := by
  induction words with
  | nil => rfl
  | cons v words ih =>
      have hFour : (bytes32 v).length = 4 := rfl
      rw [List.flatMap_cons, List.length_append, ih, hFour, List.length_cons]
      omega

/-- What `load_task` pushes when it stays above the bottom of the stack. -/
theorem pushArgs_image {rest : List (BitVec 8)} (hEnvc : args.envc = 0)
    (hArgc : args.argc = strings.length) (hFew : strings.length ≤ 3069)
    (hStrings : ∀ x ∈ strings, 0 ∉ x) (hBuffer : bufferOf args behind = packed strings ++ rest) :
    ∃ mem', memory.logged.pushArgs args behind stack (mem, []) =
        ((mem', (pushes strings.length).map fun x => .write (Word.add stack x.1) x.2),
          Word.add stack (12276 - 4 * strings.length)) ∧
      Lies (window mem' stack) (12276 - 4 * strings.length) (bytes32 strings.length) ∧
      Lies (window mem' stack) (12280 - 4 * strings.length)
        (bytes32 (Word.add stack (12292 - 4 * strings.length))) ∧
      Lies (window mem' stack) (12284 - 4 * strings.length) (bytes32 0) ∧
      Lies (window mem' stack) (12292 - 4 * strings.length)
        (((starts 0 strings).map (Word.add (Word.add stack 12292))).flatMap bytes32) ∧
      Lies (window mem' stack) 12292 (packed strings ++ rest) := by
  obtain ⟨n, hn⟩ : ∃ n, n = strings.length := ⟨_, rfl⟩
  rw [← hn] at hFew ⊢
  obtain ⟨mem₁, hPush, hPointers, hPacked⟩ :=
    pushStrings_lies hn hFew hStrings length_bufferOf hBuffer
  obtain ⟨mem', hHead, hCount, hArgv, hEnvp, hSame⟩ := pushHead_lies mem₁
    (((List.range n).map fun i => Access.write (Word.add stack (12292 - 4 * n + 4 * i)) 4).reverse ++
      [.write (Word.add stack 12292) 4084, .write (Word.add stack 16376) 4])
    n (Word.add stack (12292 - 4 * n)) (by omega : 12276 - 4 * n + 16 ≤ 2 ^ 32)
  have hOffsets : 12276 - 4 * n + 4 = 12280 - 4 * n ∧ 12276 - 4 * n + 8 = 12284 - 4 * n ∧
      12276 - 4 * n + 12 = 12288 - 4 * n ∧ 12276 - 4 * n + 16 = 12292 - 4 * n := by omega
  rw [hOffsets.1] at hHead hArgv
  rw [hOffsets.2.1] at hHead hEnvp
  rw [hOffsets.2.2.1] at hHead
  rw [hOffsets.2.2.2] at hSame
  refine ⟨mem', ?_, hCount, hArgv, hEnvp, ?_, ?_⟩
  · rw [pushArgs_eq _ hEnvc (hArgc.trans hn.symm) hFew, hPush, hHead, pushes, List.map_append,
      List.map_append, List.map_reverse, List.map_map]
    rfl
  · refine lies_congr ?_ hPointers
    intro k hFrom hTo
    rw [length_words, List.length_map, length_starts, ← hn] at hTo
    exact hSame k hFrom (by omega)
  · refine lies_congr ?_ hPacked
    intro k hFrom hTo
    have hSize : (bufferOf args behind).length = 4084 := length_bufferOf
    rw [← hBuffer, hSize] at hTo
    exact hSame k (by omega) (by omega)

end Image

/-- What is pushed lies on the stack, in pieces that do not overlap. -/
theorem pushes_within {n : Nat} (hFew : n ≤ 3069) : (∀ x ∈ pushes n, x.1 + x.2 ≤ 16384) ∧
    (pushes n).Pairwise fun x y => x.1 + x.2 ≤ y.1 ∨ y.1 + y.2 ≤ x.1 := by
  have hPointer : ∀ x ∈ ((List.range n).map fun i => (12292 - 4 * n + 4 * i, 4)).reverse,
      12292 - 4 * n ≤ x.1 ∧ x.1 + x.2 ≤ 12292 := by
    intro x hx
    obtain ⟨i, hi, rfl⟩ := List.mem_map.mp (List.mem_reverse.mp hx)
    have hLess := List.mem_range.mp hi
    show _ ≤ 12292 - 4 * n + 4 * i ∧ 12292 - 4 * n + 4 * i + 4 ≤ _
    omega
  refine ⟨?_, ?_⟩
  · intro x hx
    simp only [pushes, List.mem_append, List.mem_cons, List.not_mem_nil, or_false] at hx
    rcases hx with (rfl | rfl | rfl | rfl) | hx | rfl | rfl
    · show 12276 - 4 * n + 4 ≤ _
      omega
    · show 12280 - 4 * n + 4 ≤ _
      omega
    · show 12284 - 4 * n + 4 ≤ _
      omega
    · show 12288 - 4 * n + 4 ≤ _
      omega
    · exact (hPointer x hx).2.trans (by decide)
    · decide
    · decide
  · rw [pushes, List.pairwise_append, List.pairwise_append]
    refine ⟨?_, ⟨?_, by simp, ?_⟩, ?_⟩
    · simp
      omega
    · rw [List.pairwise_reverse, List.pairwise_map]
      refine List.pairwise_lt_range.imp ?_
      intro i j hLess
      show _ + 4 ≤ _ ∨ 12292 - 4 * n + 4 * i + 4 ≤ 12292 - 4 * n + 4 * j
      omega
    · intro x hx y hy
      have hBound := hPointer x hx
      simp only [List.mem_cons, List.not_mem_nil, or_false] at hy
      rcases hy with rfl | rfl
      · exact Or.inl hBound.2
      · exact Or.inl (hBound.2.trans (by decide))
    · intro x hx y hy
      have hLow : x.1 + x.2 ≤ 12292 - 4 * n := by
        simp only [List.mem_cons, List.not_mem_nil, or_false] at hx
        rcases hx with rfl | rfl | rfl | rfl <;> simp only <;> omega
      refine Or.inl (hLow.trans ?_)
      rcases List.mem_append.mp hy with hy | hy
      · exact (hPointer y hy).1
      · simp only [List.mem_cons, List.not_mem_nil, or_false] at hy
        rcases hy with rfl | rfl <;> simp only <;> omega

section Block

variable {args : LoadArgs} {behind : Nat → BitVec 8}

/-- All of the strings are in the buffer. -/
theorem bufferOf_packed (behind : Nat → BitVec 8) (hBuffer : args.buffer = packed strings) (hFits : (packed strings).length ≤ maxArgs) :
    ∃ rest, bufferOf args behind = packed strings ++ rest := by
  refine ⟨(bufferOf args behind).drop (packed strings).length, ?_⟩
  rw [← List.take_append_drop (packed strings).length (bufferOf args behind)]
  refine congrArg₂ (· ++ ·) ?_ (by rw [List.take_append_drop])
  apply List.ext_getElem
  · rw [List.length_take, bufferOf, List.length_map, List.length_range, Nat.min_eq_left hFits]
  · intro i hi hi'
    rw [List.getElem_take]
    simp only [bufferOf, hBuffer, List.getElem_map, List.getElem_range]
    exact List.getD_eq_getElem _ _ hi'

/-- The arguments arrive when there are at most 3069 of them. -/
theorem passed_of_few (hEnvc : args.envc = 0) (hArgc : args.argc = strings.length)
    (hFew : strings.length ≤ 3069) (hStrings : ∀ x ∈ strings, 0 ∉ x)
    (hBuffer : args.buffer = packed strings) (hFits : (packed strings).length ≤ maxArgs) :
    Passed strings stack (memory.logged.pushArgs args behind stack (mem, [])).1.1
      (memory.logged.pushArgs args behind stack (mem, [])).1.2
      (memory.logged.pushArgs args behind stack (mem, [])).2 := by
  obtain ⟨rest, hRest⟩ := bufferOf_packed behind hBuffer hFits
  obtain ⟨mem', hPush, hCount, hArgv, hEnvp, hPointers, hText⟩ :=
    pushArgs_image hEnvc hArgc hFew hStrings hRest
  obtain ⟨hWithin, hApart⟩ := pushes_within hFew
  have hStep : 12276 - 4 * strings.length + 4 = 12280 - 4 * strings.length ∧
      12276 - 4 * strings.length + 8 = 12284 - 4 * strings.length := by omega
  rw [hPush]
  dsimp only
  refine ⟨?_, fun i hi => ?_, ?_, ?_, ?_⟩
  · rw [readWord_add]
    exact load32_lies (by omega) hCount
  · have hIndex : i < ((starts 0 strings).map (Word.add (Word.add stack 12292))).length := by
      rw [List.length_map, length_starts]
      exact hi
    have hWord := load32_words hPointers hIndex (by
      rw [List.get_eq_getElem, List.getElem_map]
      exact Word.add_lt)
    rw [List.get_eq_getElem, List.getElem_map] at hWord
    have hArray : readWord mem' (Word.add (Word.add stack (12276 - 4 * strings.length)) 4) =
        Word.add stack (12292 - 4 * strings.length) := by
      rw [add_add, hStep.1, readWord_add]
      exact load32_lies Word.add_lt hArgv
    rw [hArray, add_add, readWord_add, hWord, add_add, holdsString_add]
    exact holds_starts 0 hStrings hText hi
  · rw [add_add, hStep.2, readWord_add]
    exact load32_lies (by decide) hEnvp
  · intro a ha
    obtain ⟨x, hx, rfl⟩ := List.mem_map.mp ha
    have hEnd := hWithin x hx
    rintro y ⟨i, hi, rfl⟩
    exact ⟨x.1 + i, show x.1 + i < 16384 by omega, add_add⟩
  · rw [List.pairwise_map]
    refine hApart.imp_of_mem ?_
    intro x y hx hy hOrder
    have hEnd := hWithin x hx
    have hEnd' := hWithin y hy
    exact span_disjoint (by omega) (by omega) hOrder

/-- With more of them the number of arguments is pushed below the bottom of the stack. -/
theorem few_of_inside (hEnvc : args.envc = 0) (hArgc : args.argc = strings.length)
    (hFits : strings.length ≤ maxArgs)
    (hInside : ∀ a ∈ (memory.logged.pushArgs args behind stack (mem, [])).1.2,
      a.bytes ⊆ span stack defaultStackSize) : strings.length ≤ 3069 := by
  have hFits' : strings.length ≤ 4084 := hFits
  by_contra hMany
  obtain ⟨off, hOff⟩ : ∃ off, off = Word.sub (Word.sub (Word.sub (Word.sub
    (Word.sub (defaultStackSize - 8 - maxArgs) (strings.length * 4)) ((0 + 1) * 4)) 4) 4) 4 := ⟨_, rfl⟩
  have hLast : ∃ rest, (memory.logged.pushArgs args behind stack (mem, [])).1.2 =
      .write (Word.add stack off) 4 :: rest := by
    rw [hOff, ← hArgc, ← hEnvc]
    exact ⟨_, rfl⟩
  obtain ⟨rest, hLog⟩ := hLast
  have hPiece : Access.bytes (.write (Word.add stack off) 4) ⊆ span stack defaultStackSize :=
    hInside _ (hLog ▸ List.mem_cons_self)
  obtain ⟨k, hk, hSame⟩ := hPiece
    (show Word.add (Word.add stack off) 0 ∈ span (Word.add stack off) 4 from ⟨0, by decide, rfl⟩)
  have hValue : off = 2 ^ 32 + 12276 - 4 * strings.length := by
    rw [hOff, show defaultStackSize - 8 - maxArgs = 12292 from rfl]
    simp only [Word.sub]
    omega
  have hk' : k < 16384 := hk
  rw [add_add] at hSame
  have hEq := add_inj (by omega) (by omega) hSame
  omega

/-- The arguments arrive, in pieces that lie apart on the stack, exactly when there are at most 3069 of
them. -/
theorem passed_iff_few (hEnvc : args.envc = 0) (hArgc : args.argc = strings.length)
    (hStrings : ∀ x ∈ strings, 0 ∉ x) (hBuffer : args.buffer = packed strings)
    (hFits : (packed strings).length ≤ maxArgs) :
    Passed strings stack (memory.logged.pushArgs args behind stack (mem, [])).1.1
      (memory.logged.pushArgs args behind stack (mem, [])).1.2
      (memory.logged.pushArgs args behind stack (mem, [])).2 ↔ strings.length ≤ 3069 := by
  constructor
  · intro hPassed
    exact few_of_inside hEnvc hArgc ((length_le_flatMap strings).trans hFits) hPassed.inside
  · intro hFew
    exact passed_of_few hEnvc hArgc hFew hStrings hBuffer hFits

end Block

/-- The block that `create_user_task` fills. -/
theorem createUserTask_block {kernelEnd offset file : Nat} {s s' : TaskRun}
    {argv : List (List (BitVec 8))} {heap : HeapAnswer} {ret : Int} (hArgv : argv ≠ [])
    (hSize : ((argv.map cString).map fun x => x.length + 1).sum < maxArgs) (hBlock : heap.block = some addr)
    (hCreate : s.createUserTask kernelEnd offset (some (file, .file)) (some argv) heap = some (s', ret)) :
    s'.loadArgs addr = ⟨file, (argv.map cString).length, 0, packed (argv.map cString)⟩ := by
  have hMax : maxArgs < 2 ^ 32 := by decide
  have hLength : (argv.map cString).length ≠ 0 := by
    rw [List.length_map]
    exact fun hZero => hArgv (List.length_eq_zero_iff.mp hZero)
  unfold TaskRun.createUserTask at hCreate
  dsimp only [Option.getD_some] at hCreate
  rw [if_neg hLength, Nat.mod_eq_of_lt (hSize.trans hMax), if_neg (Nat.not_le_of_lt hSize), hBlock] at hCreate
  obtain ⟨s₁, _, hFill⟩ := Option.bind_eq_some_iff.mp hCreate
  dsimp only at hFill
  split at hFill
  · cases hFill
  · obtain ⟨x, _, hEnd⟩ := Option.map_eq_some_iff.mp hFill
    cases hEnd
    exact Function.update_self ..

theorem length_packed (strings : List (List (BitVec 8))) : (packed strings).length = (strings.map fun x => x.length + 1).sum := by
  rw [packed, List.length_flatMap]
  exact congrArg List.sum (List.map_congr_left fun x _ => List.length_append)

/-- What `create_user_task` packs arrives on the stack exactly when there are at most 3069 strings. -/
theorem arguments_passed_iff {kernelEnd offset file : Nat} {s s' : TaskRun}
    {argv : List (List (BitVec 8))} {heap : HeapAnswer} {ret : Int} (hArgv : argv ≠ [])
    (hSize : ((argv.map cString).map fun x => x.length + 1).sum < maxArgs) (hBlock : heap.block = some addr)
    (hCreate : s.createUserTask kernelEnd offset (some (file, .file)) (some argv) heap = some (s', ret))
    (behind mem : Nat → BitVec 8) (stack : Nat) :
    Passed (argv.map cString) stack
      (memory.logged.pushArgs (s'.loadArgs addr) behind stack (mem, [])).1.1
      (memory.logged.pushArgs (s'.loadArgs addr) behind stack (mem, [])).1.2
      (memory.logged.pushArgs (s'.loadArgs addr) behind stack (mem, [])).2 ↔ argv.length ≤ 3069 := by
  have hLoad := createUserTask_block hArgv hSize hBlock hCreate
  have hStrings : ∀ x ∈ argv.map cString, 0 ∉ x := by
    intro x hx hZero
    obtain ⟨y, _, rfl⟩ := List.mem_map.mp hx
    exact absurd (List.mem_takeWhile_imp hZero) (by decide)
  have hLength : (argv.map cString).length = argv.length := List.length_map ..
  rw [hLoad, ← hLength]
  refine passed_iff_few ?_ ?_ hStrings ?_ (length_packed _ ▸ hSize.le) <;> rfl

/-- A block at 0x300000. -/
def oneBlock : HeapAnswer := ⟨[], some 0x300000⟩

def roomyRun : TaskRun := ⟨TaskRun.roomyStart, [], fun _ => ⟨0, 0, 0, []⟩⟩

/-- Creating the first task from the node 1 succeeds. -/
theorem roomyRun_create (argv : List (List (BitVec 8))) (hArgv : argv ≠ [])
    (hSize : ((argv.map cString).map fun x => x.length + 1).sum < maxArgs) :
    ∃ s', roomyRun.createUserTask 0x1FF000 0x4000 (some (1, .file)) (some argv) oneBlock = some (s', 0) := by
  have hMax : maxArgs < 2 ^ 32 := by decide
  have hLength : (argv.map cString).length ≠ 0 := by
    rw [List.length_map]
    exact fun hZero => hArgv (List.length_eq_zero_iff.mp hZero)
  have hFits : ((argv.map cString).flatMap fun x => x ++ [0]).length < maxArgs :=
    (length_packed (argv.map cString)).symm ▸ hSize
  obtain ⟨a, hOwning⟩ := TaskRun.roomyStart_initial.owning
  have hSlot : TaskRun.roomyStart.kernel.newSlot (userEntry 0x4000) normalPrio = some 1 := by decide
  obtain ⟨r', hCreate, _⟩ := TaskRun.create_newTask hOwning (TaskRun.roomyStart_initial.exiting _) hSlot
    TaskRun.roomyStart_room 0x300000
  have hMalloc : roomyRun.kmalloc 0x1FF000 oneBlock =
      some { roomyRun with blocks := [0x300000] } := rfl
  unfold TaskRun.createUserTask
  dsimp only [Option.getD_some]
  rw [if_neg hLength, Nat.mod_eq_of_lt (hSize.trans hMax), if_neg (Nat.not_le_of_lt hSize), hMalloc,
    Option.bind_some]
  have hBlock : oneBlock.block = some 0x300000 := rfl
  simp only [hBlock, if_neg (Nat.not_lt_of_lt hFits)]
  have hPages : roomyRun.pages.createTaskRet 0x1FF000 (userEntry 0x4000) 0x300000 normalPrio =
      some (r', 0) := hCreate
  rw [hPages]
  exact ⟨_, rfl⟩

/-- One argument, and a stack at 0xA0002000. -/
theorem arguments_passed_one : ∃ s', roomyRun.createUserTask 0x1FF000 0x4000 (some (1, .file))
      (some [[0x61]]) oneBlock = some (s', 0) ∧
    Passed [[0x61]] 0xA0002000
      (memory.logged.pushArgs (s'.loadArgs 0x300000) 0 0xA0002000 (0, [])).1.1
      (memory.logged.pushArgs (s'.loadArgs 0x300000) 0 0xA0002000 (0, [])).1.2
      (memory.logged.pushArgs (s'.loadArgs 0x300000) 0 0xA0002000 (0, [])).2 := by
  obtain ⟨s', hCreate⟩ := roomyRun_create [[0x61]] (by simp) (by decide)
  refine ⟨s', hCreate, ?_⟩
  exact (arguments_passed_iff (by simp) (by decide) rfl hCreate 0 0 0xA0002000).mpr (by decide)

/-- 3070 empty arguments fit into the block, but not on the stack. -/
theorem arguments_not_passed : ¬ ∀ (s s' : TaskRun) (argv : List (List (BitVec 8))) (ret : Int)
    (behind mem : Nat → BitVec 8) (stack : Nat), argv ≠ [] →
      ((argv.map cString).map fun x => x.length + 1).sum < maxArgs →
        s.createUserTask 0x1FF000 0x4000 (some (1, .file)) (some argv) oneBlock = some (s', ret) →
          Passed (argv.map cString) stack
            (memory.logged.pushArgs (s'.loadArgs 0x300000) behind stack (mem, [])).1.1
            (memory.logged.pushArgs (s'.loadArgs 0x300000) behind stack (mem, [])).1.2
            (memory.logged.pushArgs (s'.loadArgs 0x300000) behind stack (mem, [])).2 := by
  intro h
  have hMap : (List.replicate 3070 ([] : List (BitVec 8))).map cString = List.replicate 3070 [] := by
    rw [List.map_replicate]
    rfl
  have hSize : (((List.replicate 3070 ([] : List (BitVec 8))).map cString).map
      fun x => x.length + 1).sum < maxArgs := by
    rw [hMap, List.map_replicate, List.sum_replicate_nat]
    decide
  have hArgv : List.replicate 3070 ([] : List (BitVec 8)) ≠ [] := by
    rw [ne_eq, List.replicate_eq_nil_iff]
    decide
  obtain ⟨s', hCreate⟩ := roomyRun_create _ hArgv hSize
  have hPassed := h roomyRun s' _ 0 0 0 0xA0002000 hArgv hSize hCreate
  have hLoad := createUserTask_block hArgv hSize rfl hCreate
  rw [hLoad, hMap] at hPassed
  have hFew := few_of_inside rfl rfl (by rw [List.length_replicate]; decide) hPassed.inside
  rw [List.length_replicate] at hFew
  exact absurd hFew (by decide)

end Loader
end ArtOS

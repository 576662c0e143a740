import ArtOS.Tasks.Syscall

/-! Sequences of `sys_read`. The characters go through `addToBuffer`, which has a length and a position
of its own. -/
namespace ArtOS

/-- A call of `sys_read`, with the memory of the task that makes it. -/
structure ReadCall where
  mem : BitVec 32 → BitVec 8
  fd : BitVec 32
  buf : BitVec 32
  len : BitVec 32

namespace SyscallState

variable {Input : Type} (getChar : GetChar Input)

def readBy (call : ReadCall) (s : SyscallState Input) : SyscallState Input × BitVec 32 :=
  sysRead getChar call.fd call.buf call.len { s with mem := call.mem, accessed := [] }

/-- The next characters that `getChar` delivers. -/
def deliver : Nat → Input → Terminal → List (BitVec 8)
  | 0, _, _ => []
  | n + 1, input, terminal =>
      let (c, input, terminal) := getChar input terminal
      c :: deliver n input terminal

/-- What the calls are given. -/
def delivered : SyscallState Input → List ReadCall → List (BitVec 8)
  | _, [] => []
  | s, call :: rest =>
      deliver getChar call.len.toNat s.input s.terminal ++ delivered (s.readBy getChar call).1 rest

/-- What the tasks find in their buffers: as many characters as a call says. -/
def stored : SyscallState Input → List ReadCall → List (BitVec 8)
  | _, [] => []
  | s, call :: rest =>
      let (s, ret) := s.readBy getChar call
      (List.range ret.toNat).map (fun i => s.mem (call.buf + BitVec.ofNat 32 i)) ++ stored s rest

/-- A call writes within its buffer, and it does not return more than the length of that. -/
structure Bounded (s : SyscallState Input) (call : ReadCall) : Prop where
  writes : ∀ addr ∈ (s.readBy getChar call).1.accessed,
    ∃ i < call.len.toNat, addr = call.buf + BitVec.ofNat 32 i
  returns : (s.readBy getChar call).2.toNat ≤ call.len.toNat

def AllBounded : SyscallState Input → List ReadCall → Prop
  | _, [] => True
  | s, call :: rest => s.Bounded getChar call ∧ AllBounded (s.readBy getChar call).1 rest

/-- The calls hand on what is delivered. -/
structure Hands (s : SyscallState Input) (calls : List ReadCall) : Prop where
  bounded : s.AllBounded getChar calls
  stream : s.stored getChar calls = s.delivered getChar calls

variable {getChar} {s : SyscallState Input} {call : ReadCall} {calls : List ReadCall}

theorem length_deliver (n : Nat) (input : Input) (terminal : Terminal) :
    (deliver getChar n input terminal).length = n := by
  induction n generalizing input terminal with
  | zero => rfl
  | succ n ih => exact congrArg (· + 1) (ih _ _)

theorem readBy_returns (h : call.fd ≠ 0) : (s.readBy getChar call).2 = 1 + call.len := by
  rw [readBy, sysRead, if_neg h]

/-- A call says one character more than it has been asked for, and none if that number is too great. -/
theorem returns_zero (h : call.fd ≠ 0) (hBounded : s.Bounded getChar call) :
    (s.readBy getChar call).2.toNat = 0 ∧ 0 < call.len.toNat := by
  have hReturns := hBounded.returns
  have hLength := call.len.isLt
  rw [readBy_returns h, BitVec.toNat_add, show BitVec.toNat (1 : BitVec 32) = 1 from rfl] at hReturns ⊢
  omega

theorem stored_nil (hFd : ∀ call ∈ calls, call.fd ≠ 0) (h : s.AllBounded getChar calls) :
    s.stored getChar calls = [] := by
  induction calls generalizing s with
  | nil => rfl
  | cons call rest ih =>
      obtain ⟨hCall, hRest⟩ := List.forall_mem_cons.mp hFd
      rw [stored]
      dsimp only
      rw [ih hRest h.2, List.append_nil, (returns_zero hCall h.1).1]
      rfl

/-- No call does what it should. -/
theorem hands_iff (getChar : GetChar Input) (s : SyscallState Input) (calls : List ReadCall)
    (hFd : ∀ call ∈ calls, call.fd ≠ 0) : s.Hands getChar calls ↔ calls = [] := by
  constructor
  · rintro ⟨hBounded, hStream⟩
    cases calls with
    | nil => rfl
    | cons call rest =>
        have hPos := (returns_zero (hFd call List.mem_cons_self) hBounded.1).2
        have hLength := congrArg List.length hStream
        rw [stored_nil hFd hBounded, delivered, List.length_append, length_deliver, List.length_nil] at hLength
        omega
  · rintro rfl
    exact ⟨trivial, rfl⟩

/-- A keyboard with one key. -/
def oneKey : GetChar Unit := fun input terminal => (0x61, input, terminal)

/-- A call for no characters says that there is one. -/
theorem not_hands_empty : ¬ quiet.Hands oneKey [⟨fun _ => 0, 1, 0x20000000, 0⟩] := by
  rw [hands_iff oneKey quiet [⟨fun _ => 0, 1, 0x20000000, 0⟩] (by simp)]
  exact List.cons_ne_nil _ _

/-- A call for one character says that there are two. -/
theorem not_hands : ¬ ∀ (getChar : GetChar Unit) (s : SyscallState Unit) (calls : List ReadCall),
    (∀ call ∈ calls, call.fd ≠ 0) → s.Hands getChar calls := by
  intro hAll
  have hHands := hAll oneKey quiet [⟨fun _ => 0, 1, 0x20000000, 1⟩] (by simp)
  exact absurd hHands.bounded.1.returns (by decide)

end SyscallState
end ArtOS

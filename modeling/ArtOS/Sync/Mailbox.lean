import ArtOS.Config
import ArtOS.Library.Counting
import ArtOS.Library.Ring
import ArtOS.Library.Transition

/-! The bounded mailbox of `include/mailbox.h`, used by any number of tasks at
once. A semaphore operation is one step, and so is a body that runs under
`wlock` or `rlock`; a task can be stopped between any two of its steps. -/
namespace ArtOS

/-- `mailbox_##name##_t`; the two semaphores are their exact counts. -/
structure Mailbox (Mail : Type*) where
  buffer : Nat → Mail
  wpos : Nat
  rpos : Nat
  mails : Nat
  boxes : Nat

/-- Where a task stands in its operation: outside, or in front of the write,
of the `sem_post(&m->mails)` that follows it, of the read, or of the
`sem_post(&m->boxes)` that follows that. -/
inductive MailboxPc (Mail : Type*) where
  | idle
  | write (mail : Mail)
  | postMails
  | read
  | postBoxes
  deriving DecidableEq

/-- The task owes the mailbox a box: one it is going to fill, or one it has emptied. -/
def MailboxPc.holdsBox {Mail : Type*} : MailboxPc Mail → Bool
  | write _ | postBoxes => true
  | idle | postMails | read => false

/-- The task owes the mailbox a mail: one it has not announced, or not fetched yet. -/
def MailboxPc.holdsMail {Mail : Type*} : MailboxPc Mail → Bool
  | postMails | read => true
  | idle | write _ | postBoxes => false

/-- The calls with a mailbox and a place for the mail; a `NULL` is refused in front of all steps. -/
inductive MailboxCall (Mail : Type*) where
  | post (mail : Mail)
  | trypost (mail : Mail)
  | fetch
  | tryfetch
  deriving DecidableEq

/-- `sem_trywait` on an exact semaphore: the new count and the result. -/
def semTrywaitCount (value : Nat) : Nat × Int :=
  if 0 < value then (value - 1, 0) else (value, -ecanceled)

variable {Mail Tid : Type*}

namespace Mailbox

/-- `mailbox_##name##_init`, with the mail that `memset` leaves in every slot. -/
def init (zero : Mail) : Mailbox Mail where
  buffer _ := zero
  wpos := 0
  rpos := 0
  mails := 0
  boxes := mailboxSize

/-- The body of `post` and `trypost` under `wlock`. -/
def put (m : Mailbox Mail) (mail : Mail) : Mailbox Mail :=
  { m with buffer := Function.update m.buffer m.wpos mail, wpos := (m.wpos + 1) % mailboxSize }

/-- The body of `fetch` and `tryfetch` under `rlock`, with the mail it copies. -/
def take (m : Mailbox Mail) : Mailbox Mail × Mail :=
  ({ m with rpos := (m.rpos + 1) % mailboxSize }, m.buffer m.rpos)

/-- The first semaphore operation of a call: the task goes on, or the call
returns at once with a code. `sem_wait` has no result while it blocks. -/
def begin (m : Mailbox Mail) : MailboxCall Mail → Option (Mailbox Mail × (MailboxPc Mail ⊕ Int))
  | .post mail =>
      if 0 < m.boxes then some ({ m with boxes := m.boxes - 1 }, .inl (.write mail)) else none
  | .trypost mail =>
      match semTrywaitCount m.boxes with
      | (boxes, ret) =>
          if ret ≠ 0 then some ({ m with boxes := boxes }, .inr (-ebusy))
          else some ({ m with boxes := boxes }, .inl (.write mail))
  | .fetch => if 0 < m.mails then some ({ m with mails := m.mails - 1 }, .inl .read) else none
  | .tryfetch =>
      match semTrywaitCount m.mails with
      | (mails, ret) =>
          if ret ≠ 0 then some ({ m with mails := mails }, .inr (-einval))
          else some ({ m with mails := mails }, .inl .read)

/-- A call gets a credit and goes on, or it returns an error and changes nothing. -/
theorem begin_spec {m m' : Mailbox Mail} {request : MailboxCall Mail}
    {outcome : MailboxPc Mail ⊕ Int} (h : m.begin request = some (m', outcome)) :
    (∃ code, outcome = .inr code ∧ code ≠ 0 ∧ m' = m) ∨
      (∃ mail, outcome = .inl (.write mail) ∧ m'.boxes + 1 = m.boxes ∧
        m' = { m with boxes := m'.boxes }) ∨
      (outcome = .inl .read ∧ m'.mails + 1 = m.mails ∧ m' = { m with mails := m'.mails }) := by
  cases request with
  | post mail =>
      simp only [begin, Option.ite_none_right_eq_some, Option.some.injEq, Prod.mk.injEq] at h
      obtain ⟨hPos, rfl, rfl⟩ := h
      exact .inr (.inl ⟨mail, rfl, Nat.sub_add_cancel hPos, rfl⟩)
  | trypost mail =>
      by_cases hPos : 0 < m.boxes
      · simp only [begin, semTrywaitCount, hPos, if_true, ne_eq, not_true_eq_false, if_false,
          Option.some.injEq, Prod.mk.injEq] at h
        obtain ⟨rfl, rfl⟩ := h
        exact .inr (.inl ⟨mail, rfl, Nat.sub_add_cancel hPos, rfl⟩)
      · simp only [begin, semTrywaitCount, hPos, if_false] at h
        obtain ⟨rfl, rfl⟩ := Prod.mk.inj (Option.some.inj h)
        exact .inl ⟨-ebusy, rfl, by decide, rfl⟩
  | fetch =>
      simp only [begin, Option.ite_none_right_eq_some, Option.some.injEq, Prod.mk.injEq] at h
      obtain ⟨hPos, rfl, rfl⟩ := h
      exact .inr (.inr ⟨rfl, Nat.sub_add_cancel hPos, rfl⟩)
  | tryfetch =>
      by_cases hPos : 0 < m.mails
      · simp only [begin, semTrywaitCount, hPos, if_true, ne_eq, not_true_eq_false, if_false,
          Option.some.injEq, Prod.mk.injEq] at h
        obtain ⟨rfl, rfl⟩ := h
        exact .inr (.inr ⟨rfl, Nat.sub_add_cancel hPos, rfl⟩)
      · simp only [begin, semTrywaitCount, hPos, if_false] at h
        obtain ⟨rfl, rfl⟩ := Prod.mk.inj (Option.some.inj h)
        exact .inl ⟨-einval, rfl, by decide, rfl⟩

end Mailbox

/-- A mailbox in use: where every task stands, the mails written and read so
far in the order of the accesses, and the slots that hold an unread mail. -/
structure MailboxRun (Tid Mail : Type*) where
  box : Mailbox Mail
  pc : Tid → MailboxPc Mail
  written : List Mail
  read : List Mail
  unread : Nat → Bool

namespace MailboxRun

def start (Tid : Type*) (zero : Mail) : MailboxRun Tid Mail where
  box := Mailbox.init zero
  pc _ := .idle
  written := []
  read := []
  unread _ := false

section Steps

variable [DecidableEq Tid]

/-- Task `t` calls an operation; a code is returned if the call ends at once. -/
def call (r : MailboxRun Tid Mail) (t : Tid) (request : MailboxCall Mail) :
    Option (MailboxRun Tid Mail × Option Int) :=
  (r.box.begin request).map fun
    | (box, .inl pc) => ({ r with box := box, pc := Function.update r.pc t pc }, none)
    | (box, .inr code) => ({ r with box := box }, some code)

/-- Task `t` has run the body of a `post`. -/
def wrote (r : MailboxRun Tid Mail) (t : Tid) (mail : Mail) : MailboxRun Tid Mail :=
  { r with
    box := r.box.put mail
    pc := Function.update r.pc t .postMails
    written := r.written ++ [mail]
    unread := Function.update r.unread r.box.wpos true }

/-- Task `t` has run the body of a `fetch`. -/
def took (r : MailboxRun Tid Mail) (t : Tid) : MailboxRun Tid Mail :=
  { r with
    box := r.box.take.1
    pc := Function.update r.pc t .postBoxes
    read := r.read ++ [r.box.take.2]
    unread := Function.update r.unread r.box.rpos false }

/-- Task `t` takes the next step of the operation it is in. -/
def resume (r : MailboxRun Tid Mail) (t : Tid) : Option (MailboxRun Tid Mail × Option Int) :=
  match r.pc t with
  | .idle => none
  | .write mail => some (r.wrote t mail, none)
  | .postMails =>
      some ({ r with
        box := { r.box with mails := r.box.mails + 1 }
        pc := Function.update r.pc t .idle }, some 0)
  | .read => some (r.took t, none)
  | .postBoxes =>
      some ({ r with
        box := { r.box with boxes := r.box.boxes + 1 }
        pc := Function.update r.pc t .idle }, some 0)

/-- One step of one task: it starts an operation or goes on with the one it is in. -/
def Step (r r' : MailboxRun Tid Mail) : Prop :=
  ∃ t, (r.pc t = .idle ∧ ∃ request code, r.call t request = some (r', code)) ∨
    ∃ code, r.resume t = some (r', code)

abbrev Reachable (zero : Mail) : MailboxRun Tid Mail → Prop :=
  Transition.Reachable (fun r => r = start Tid zero) Step

end Steps

def boxesHeld [Fintype Tid] (r : MailboxRun Tid Mail) : Nat :=
  Counting.count r.pc fun pc => pc.holdsBox

def mailsHeld [Fintype Tid] (r : MailboxRun Tid Mail) : Nat :=
  Counting.count r.pc fun pc => pc.holdsMail

/-- The ring as its readers may see it: only unread slots have a content. -/
def slot (r : MailboxRun Tid Mail) (j : Nat) : Option Mail :=
  if r.unread j then some (r.box.buffer j) else none

/-- The unread mails are the tail of the log of writes. Each of them is counted
by `mails` or held by a task, and so is each box without a mail by `boxes`. -/
structure Inv [Fintype Tid] (r : MailboxRun Tid Mail) : Prop where
  ring : Ring.Holds mailboxSize r.slot r.written r.read.length
  wpos : r.box.wpos = r.written.length % mailboxSize
  rpos : r.box.rpos = r.read.length % mailboxSize
  fifo : r.read <+: r.written
  mails : r.box.mails + r.mailsHeld + r.read.length = r.written.length
  boxes : r.box.boxes + r.boxesHeld + r.written.length = r.read.length + mailboxSize

variable [Fintype Tid] {r r' : MailboxRun Tid Mail} {t : Tid}

theorem start_inv (zero : Mail) : (start Tid zero).Inv := by
  have hMails : (start Tid zero).mailsHeld = 0 :=
    Counting.count_eq_zero_iff.mpr fun _ => Bool.false_ne_true
  have hBoxes : (start Tid zero).boxesHeld = 0 :=
    Counting.count_eq_zero_iff.mpr fun _ => Bool.false_ne_true
  refine ⟨Ring.Holds.start fun j _ => rfl, rfl, rfl, List.nil_prefix, ?_, ?_⟩
  · rw [hMails]
    rfl
  · rw [hBoxes]
    rfl

/-- A writer has a slot to write to. -/
theorem Inv.room (h : r.Inv) {mail : Mail} (hWrite : r.pc t = .write mail) :
    r.written.length < r.read.length + mailboxSize := by
  have hHeld : 0 < r.boxesHeld := Counting.count_pos_iff.mpr ⟨t, by rw [hWrite]; rfl⟩
  have hBoxes := h.boxes
  omega

/-- A reader has a mail to read. -/
theorem Inv.full (h : r.Inv) (hRead : r.pc t = .read) : r.read.length < r.written.length := by
  have hHeld : 0 < r.mailsHeld := Counting.count_pos_iff.mpr ⟨t, by rw [hRead]; rfl⟩
  have hMails := h.mails
  omega

/-- A reader gets the oldest unread mail. -/
theorem Inv.take_eq (h : r.Inv) (hRead : r.pc t = .read) :
    r.unread r.box.rpos = true ∧ r.written[r.read.length]? = some r.box.take.2 := by
  have hFull := h.full hRead
  have hSlot := h.ring.get (by decide) le_rfl (List.getElem?_eq_getElem hFull)
  rw [← h.rpos, slot] at hSlot
  split at hSlot
  · next hUnread => exact ⟨hUnread, by rw [List.getElem?_eq_getElem hFull, Mailbox.take, hSlot]⟩
  · exact absurd hSlot (by simp)

variable [DecidableEq Tid]

/-- Both ledgers when one task moves. -/
theorem held_move (r' : MailboxRun Tid Mail) {pc : MailboxPc Mail}
    (hPc : r'.pc = Function.update r.pc t pc) :
    r'.boxesHeld + (if (r.pc t).holdsBox then 1 else 0) =
        r.boxesHeld + (if pc.holdsBox then 1 else 0) ∧
      r'.mailsHeld + (if (r.pc t).holdsMail then 1 else 0) =
        r.mailsHeld + (if pc.holdsMail then 1 else 0) := by
  rw [boxesHeld, mailsHeld, hPc]
  exact ⟨Counting.count_update t pc, Counting.count_update t pc⟩

/-- The steps that only move credits: at the start and at the end of a call. -/
theorem Inv.credit {box : Mailbox Mail} {pc : MailboxPc Mail} (h : r.Inv)
    (hSame : box.buffer = r.box.buffer ∧ box.wpos = r.box.wpos ∧ box.rpos = r.box.rpos)
    (hBoxes : box.boxes + (if pc.holdsBox then 1 else 0) =
      r.box.boxes + (if (r.pc t).holdsBox then 1 else 0))
    (hMails : box.mails + (if pc.holdsMail then 1 else 0) =
      r.box.mails + (if (r.pc t).holdsMail then 1 else 0)) :
    Inv { r with box := box, pc := Function.update r.pc t pc } := by
  obtain ⟨hBuffer, hWpos, hRpos⟩ := hSame
  obtain ⟨hBox, hMail⟩ := held_move (r := r) (t := t)
    { r with box := box, pc := Function.update r.pc t pc } rfl
  refine ⟨?_, hWpos.trans h.wpos, hRpos.trans h.rpos, h.fifo, ?_, ?_⟩
  · have hSlot : slot { r with box := box, pc := Function.update r.pc t pc } = r.slot := by
      funext j
      simp only [slot, hBuffer]
    rw [hSlot]
    exact h.ring
  · have hOld := h.mails
    simp only
    omega
  · have hOld := h.boxes
    simp only
    omega

theorem Inv.call {request : MailboxCall Mail} {code : Option Int} (h : r.Inv)
    (hIdle : r.pc t = .idle) (hCall : r.call t request = some (r', code)) : r'.Inv := by
  obtain ⟨⟨box, outcome⟩, hBegin, hResult⟩ := Option.map_eq_some_iff.mp hCall
  rcases Mailbox.begin_spec hBegin with ⟨code, rfl, _, rfl⟩ | ⟨mail, rfl, hTaken, hRest⟩ |
    ⟨rfl, hTaken, hRest⟩ <;> obtain ⟨rfl, rfl⟩ := Prod.mk.inj hResult
  · exact h
  · rw [hRest]
    exact h.credit ⟨rfl, rfl, rfl⟩ (by simpa [hIdle, MailboxPc.holdsBox] using hTaken)
      (by simp [hIdle, MailboxPc.holdsMail])
  · rw [hRest]
    exact h.credit ⟨rfl, rfl, rfl⟩ (by simp [hIdle, MailboxPc.holdsBox])
      (by simpa [hIdle, MailboxPc.holdsMail] using hTaken)

/-- A writer turns its box into an unread mail. -/
theorem Inv.wrote {mail : Mail} (h : r.Inv) (hWrite : r.pc t = .write mail) :
    (r.wrote t mail).Inv := by
  obtain ⟨hBox, hMail⟩ := held_move (r := r) (t := t) (r.wrote t mail) rfl
  simp only [hWrite, MailboxPc.holdsBox, MailboxPc.holdsMail, if_true, Bool.false_eq_true,
    if_false] at hBox hMail
  have hSlot : (r.wrote t mail).slot = Function.update r.slot r.box.wpos (some mail) := by
    funext j
    by_cases hj : j = r.box.wpos <;> simp [slot, MailboxRun.wrote, Mailbox.put, hj]
  have hLength : (r.wrote t mail).written.length = r.written.length + 1 := List.length_append
  refine ⟨?_, ?_, h.rpos, h.fifo.trans (List.prefix_append _ _), ?_, ?_⟩
  · rw [hSlot, h.wpos]
    exact h.ring.push (h.room hWrite) mail
  · simp [MailboxRun.wrote, Mailbox.put, h.wpos]
  · have hOld := h.mails
    show r.box.mails + _ + r.read.length = _
    omega
  · have hOld := h.boxes
    show r.box.boxes + _ + _ = r.read.length + _
    omega

theorem Inv.took (h : r.Inv) (hRead : r.pc t = .read) : (r.took t).Inv := by
  obtain ⟨hBox, hMail⟩ := held_move (r := r) (t := t) (r.took t) rfl
  simp only [hRead, MailboxPc.holdsBox, MailboxPc.holdsMail, if_true, Bool.false_eq_true,
    if_false] at hBox hMail
  have hSlot : (r.took t).slot = Function.update r.slot r.box.rpos none := by
    funext j
    by_cases hj : j = r.box.rpos <;> simp [slot, MailboxRun.took, Mailbox.take, hj]
  have hLength : (r.took t).read.length = r.read.length + 1 := List.length_append
  have hNext := (h.take_eq hRead).2
  refine ⟨?_, h.wpos, ?_, ?_, ?_, ?_⟩
  · rw [hSlot, h.rpos, hLength]
    exact h.ring.pop (h.full hRead)
  · simp [MailboxRun.took, Mailbox.take, h.rpos]
  · obtain ⟨rest, hRest⟩ := h.fifo
    show r.read ++ [r.box.take.2] <+: r.written
    cases rest with
    | nil => simp [← hRest] at hNext
    | cons mail rest =>
        have hSame : mail = r.box.take.2 := by simpa [← hRest] using hNext
        exact ⟨rest, by simp [← hRest, hSame]⟩
  · have hOld := h.mails
    show r.box.mails + _ + _ = r.written.length
    omega
  · have hOld := h.boxes
    show r.box.boxes + _ + r.written.length = _
    omega

theorem Inv.resume {code : Option Int} (h : r.Inv) (hResume : r.resume t = some (r', code)) :
    r'.Inv := by
  unfold MailboxRun.resume at hResume
  split at hResume
  · simp at hResume
  · next mail hWrite =>
      obtain ⟨rfl, _⟩ := Prod.mk.inj (Option.some.inj hResume)
      exact h.wrote hWrite
  · next hPost =>
      obtain ⟨rfl, _⟩ := Prod.mk.inj (Option.some.inj hResume)
      exact h.credit ⟨rfl, rfl, rfl⟩ (by simp [hPost, MailboxPc.holdsBox])
        (by simp [hPost, MailboxPc.holdsMail])
  · next hRead =>
      obtain ⟨rfl, _⟩ := Prod.mk.inj (Option.some.inj hResume)
      exact h.took hRead
  · next hPost =>
      obtain ⟨rfl, _⟩ := Prod.mk.inj (Option.some.inj hResume)
      exact h.credit ⟨rfl, rfl, rfl⟩ (by simp [hPost, MailboxPc.holdsBox])
        (by simp [hPost, MailboxPc.holdsMail])

theorem reachable_inv {zero : Mail} (h : Reachable zero r) : r.Inv := by
  refine h.invariant (P := Inv) ?_ ?_
  · rintro r rfl
    exact start_inv zero
  · rintro r r' hr ⟨t, ⟨hIdle, request, code, hCall⟩ | ⟨code, hResume⟩⟩
    · exact hr.call hIdle hCall
    · exact hr.resume hResume

/-- The mailbox is a bounded first-in first-out queue for any number of tasks in
any order of their steps; a slot is accessed only when it is the task's turn,
and a call that ends at once with an error has changed nothing. -/
theorem reachable_fifo {zero : Mail} (h : Reachable zero r) :
    (r.read.length ≤ r.written.length ∧ r.written.length ≤ r.read.length + mailboxSize) ∧
      (∀ t mail, r.pc t = .write mail → r.unread r.box.wpos = false) ∧
      (∀ t, r.pc t = .read → r.unread r.box.rpos = true) ∧
      r.read <+: r.written ∧
      ∀ t request r' code, r.call t request = some (r', some code) → code ≠ 0 ∧ r' = r := by
  have hInv := reachable_inv h
  refine ⟨⟨hInv.ring.low, hInv.ring.room⟩, fun t mail hWrite => ?_,
    fun t hRead => (hInv.take_eq hRead).1, hInv.fifo, fun t request r' code hCall => ?_⟩
  · have hEmpty := hInv.ring.next_eq_none (hInv.room hWrite)
    rw [← hInv.wpos, slot] at hEmpty
    simpa using hEmpty
  · obtain ⟨⟨box, outcome⟩, hBegin, hResult⟩ := Option.map_eq_some_iff.mp hCall
    rcases Mailbox.begin_spec hBegin with ⟨code, rfl, hCode, rfl⟩ | ⟨mail, rfl, _⟩ | ⟨rfl, _⟩
    · obtain ⟨rfl, hSame⟩ := Prod.mk.inj hResult
      exact ⟨Option.some.inj hSame ▸ hCode, rfl⟩
    · exact absurd (Prod.mk.inj hResult).2 (by simp)
    · exact absurd (Prod.mk.inj hResult).2 (by simp)

theorem reachable_fifo_example :
    ∃ r : MailboxRun (Fin 2) Nat, Reachable 0 r ∧ r.written = [7, 8] ∧ r.read = [7] ∧
      r.read <+: r.written := by
  have hStart : Reachable 0 (start (Fin 2) 0) := Transition.Reachable.of_init rfl
  have hPost := ((hStart.next ⟨0, .inl ⟨rfl, .post 7, none, rfl⟩⟩).next
    ⟨0, .inr ⟨none, rfl⟩⟩).next ⟨0, .inr ⟨some 0, rfl⟩⟩
  have hFetch := ((hPost.next ⟨1, .inl ⟨rfl, .tryfetch, none, rfl⟩⟩).next
    ⟨0, .inl ⟨rfl, .trypost 8, none, rfl⟩⟩).next ⟨1, .inr ⟨none, rfl⟩⟩
  have hReach := hFetch.next ⟨0, .inr ⟨none, rfl⟩⟩
  exact ⟨_, hReach, rfl, rfl, (reachable_fifo hReach).2.2.2.1⟩

end MailboxRun
end ArtOS

import ArtOS.Sync.SpinLock

/-! The order of the ticket lock. The tasks that have drawn a ticket and not
given the lock up form a line; what a task may find in the lock follows from
its place in the line and from where it stands in the code. -/
namespace ArtOS
namespace LockRun

open Tickets

/-- The tasks from the one whose turn it is on. -/
def line (r : LockRun) : List TaskPtr := r.taken.drop r.served

/-- The task is first in line, and the lock says so. -/
structure Owns (r : LockRun) (t : TaskPtr) (counter : Nat) : Prop where
  owner : r.lock.owner = t
  front : r.line.head? = some t
  counter : r.lock.counter = BitVec.ofNat 32 counter

/-- Between calls a task has nothing to do with the lock, or it owns it. -/
def Settled (r : LockRun) (t : TaskPtr) : Prop :=
  (r.depth t = 0 ∧ r.lock.owner ≠ t ∧ t ∉ r.line) ∨ (0 < r.depth t ∧ r.Owns t (r.depth t))

/-- What is known of the lock at each point of a task's code. -/
def Fits (r : LockRun) (t : TaskPtr) : LockPc → Prop
  | .outside => r.depth t ≤ 2 ^ 32 ∧ r.Settled t
  | .readOwner => r.depth t < 2 ^ 32 ∧ r.Settled t
  | .loadNested => r.depth t < 2 ^ 32 ∧ 0 < r.depth t ∧ r.Owns t (r.depth t)
  | .storeNested counter =>
      r.depth t < 2 ^ 32 ∧ 0 < r.depth t ∧ r.Owns t (r.depth t) ∧ counter = BitVec.ofNat 32 (r.depth t)
  | .takeTicket => r.depth t = 0 ∧ r.lock.owner ≠ t ∧ t ∉ r.line
  | .spin drawn => r.depth t = 0 ∧ r.lock.owner ≠ t ∧
      ∃ n, r.line[n]? = some t ∧ drawn = ticket 32 (r.served + n)
  | .writeOwner => r.depth t = 0 ∧ r.lock.owner ≠ t ∧ r.line.head? = some t
  | .writeCounter => r.depth t = 0 ∧ r.lock.owner = t ∧ r.line.head? = some t
  | .loadCounter => r.depth t ≤ 2 ^ 32 ∧ 0 < r.depth t ∧ r.Owns t (r.depth t)
  | .storeCounter counter =>
      r.depth t ≤ 2 ^ 32 ∧ 0 < r.depth t ∧ r.Owns t (r.depth t) ∧ counter = BitVec.ofNat 32 (r.depth t)
  | .testCounter => r.depth t ≤ 2 ^ 32 ∧ 0 < r.depth t ∧ r.Owns t (r.depth t - 1)
  | .clearOwner => r.depth t = 1 ∧ r.lock.owner = t ∧ r.line.head? = some t
  | .advance => r.depth t = 1 ∧ r.lock.owner ≠ t ∧ r.line.head? = some t

structure Inv (r : LockRun) : Prop where
  queue : r.lock.queue = BitVec.ofNat 32 r.taken.length
  dequeue : r.lock.dequeue = ticket 32 r.served
  served : r.served ≤ r.taken.length
  nodup : r.line.Nodup
  fits : ∀ t, r.Fits t (r.pc t)
  idle : (∀ t, r.depth t = 0) → r.entered = r.taken.take r.served
  busy : ∀ t, 0 < r.depth t → r.entered = r.taken.take (r.served + 1)

variable {r r' : LockRun} {t u : TaskPtr} {pc : LockPc}

/-- Who holds the lock, or is entered as its owner, is first in line. -/
theorem Fits.first (h : r.Fits t pc) (hIn : 0 < r.depth t ∨ r.lock.owner = t) : r.line.head? = some t := by
  have hNot : ¬ (r.depth t = 0 ∧ r.lock.owner ≠ t) := fun hOut => hIn.elim hOut.1.not_gt hOut.2
  cases pc with
  | outside => exact (h.2.resolve_left fun hs => hNot ⟨hs.1, hs.2.1⟩).2.front
  | readOwner => exact (h.2.resolve_left fun hs => hNot ⟨hs.1, hs.2.1⟩).2.front
  | loadNested => exact h.2.2.front
  | storeNested => exact h.2.2.1.front
  | takeTicket => exact absurd ⟨h.1, h.2.1⟩ hNot
  | spin => exact absurd ⟨h.1, h.2.1⟩ hNot
  | writeOwner => exact h.2.2
  | writeCounter => exact h.2.2
  | loadCounter => exact h.2.2.front
  | storeCounter => exact h.2.2.1.front
  | testCounter => exact h.2.2.front
  | clearOwner => exact h.2.2
  | advance => exact h.2.2

theorem Fits.front (h : r.Fits t pc) (hHolds : 0 < r.depth t) : r.line.head? = some t :=
  h.first (.inl hHolds)

theorem Fits.front_of_owner (h : r.Fits t pc) (hOwner : r.lock.owner = t) : r.line.head? = some t :=
  h.first (.inr hOwner)

/-- What a step has to leave alone for another task: its depth, its being the owner, its place
in line, and the counter when it is first. -/
structure Frame (r r' : LockRun) (u : TaskPtr) : Prop where
  depth : r'.depth u = r.depth u
  owner : r'.lock.owner = u ↔ r.lock.owner = u
  mem : u ∈ r'.line → u ∈ r.line
  front : r.line.head? = some u → r'.line.head? = some u
  counter : r.line.head? = some u → r'.lock.counter = r.lock.counter
  place : ∀ n, r.line[n]? = some u → ∃ n', r'.line[n']? = some u ∧ r'.served + n' = r.served + n

theorem Owns.frame {c : Nat} (h : r.Owns u c) (hf : Frame r r' u) : r'.Owns u c :=
  ⟨hf.owner.mpr h.owner, hf.front h.front, (hf.counter h.front).trans h.counter⟩

theorem Settled.frame (h : r.Settled u) (hf : Frame r r' u) : r'.Settled u := by
  rw [Settled, hf.depth]
  refine h.imp (fun hs => ⟨hs.1, fun ho => hs.2.1 (hf.owner.mp ho), fun hm => hs.2.2 (hf.mem hm)⟩) ?_
  exact fun hs => ⟨hs.1, hs.2.frame hf⟩

theorem Fits.frame (h : r.Fits u pc) (hf : Frame r r' u) : r'.Fits u pc := by
  cases pc with
  | outside => exact ⟨hf.depth ▸ h.1, h.2.frame hf⟩
  | readOwner => exact ⟨hf.depth ▸ h.1, h.2.frame hf⟩
  | loadNested =>
      rw [Fits, hf.depth]
      exact ⟨h.1, h.2.1, h.2.2.frame hf⟩
  | storeNested =>
      rw [Fits, hf.depth]
      exact ⟨h.1, h.2.1, h.2.2.1.frame hf, h.2.2.2⟩
  | takeTicket => exact ⟨hf.depth.trans h.1, fun ho => h.2.1 (hf.owner.mp ho), fun hm => h.2.2 (hf.mem hm)⟩
  | spin =>
      obtain ⟨hDepth, hOwner, n, hPlace, hDrawn⟩ := h
      obtain ⟨n', hPlace', hSum⟩ := hf.place n hPlace
      exact ⟨hf.depth.trans hDepth, fun ho => hOwner (hf.owner.mp ho), n', hPlace', by rw [hSum, hDrawn]⟩
  | writeOwner => exact ⟨hf.depth.trans h.1, fun ho => h.2.1 (hf.owner.mp ho), hf.front h.2.2⟩
  | writeCounter => exact ⟨hf.depth.trans h.1, hf.owner.mpr h.2.1, hf.front h.2.2⟩
  | loadCounter =>
      rw [Fits, hf.depth]
      exact ⟨h.1, h.2.1, h.2.2.frame hf⟩
  | storeCounter =>
      rw [Fits, hf.depth]
      exact ⟨h.1, h.2.1, h.2.2.1.frame hf, h.2.2.2⟩
  | testCounter =>
      rw [Fits, hf.depth]
      exact ⟨h.1, h.2.1, h.2.2.frame hf⟩
  | clearOwner => exact ⟨hf.depth.trans h.1, hf.owner.mpr h.2.1, hf.front h.2.2⟩
  | advance => exact ⟨hf.depth.trans h.1, fun ho => h.2.1 (hf.owner.mp ho), hf.front h.2.2⟩

theorem Inv.holder_unique (h : r.Inv) (ht : r.Holds t) (hu : r.Holds u) : t = u :=
  Option.some.inj (((h.fits t).front ht).symm.trans ((h.fits u).front hu))

theorem initial_inv : initial.Inv where
  queue := rfl
  dequeue := rfl
  served := le_rfl
  nodup := List.nodup_nil
  fits := fun t => ⟨Nat.zero_le _, Or.inl ⟨rfl, Nat.ne_of_gt t.isLt, List.not_mem_nil⟩⟩
  idle := fun _ => rfl
  busy := fun _ ht => absurd ht (Nat.lt_irrefl 0)

/-- The task moves on without changing anything. -/
theorem Inv.goto (h : r.Inv) (hFits : r.Fits t pc) : (r.goto t pc).Inv := by
  refine { h with fits := fun u => ?_ }
  have hFrame : Frame r (r.goto t pc) u := ⟨rfl, Iff.rfl, id, id, fun _ => rfl, fun n h => ⟨n, h, rfl⟩⟩
  by_cases hu : u = t
  · subst hu
    show Fits _ u (Function.update r.pc u pc u)
    rw [Function.update_self]
    exact hFits.frame hFrame
  · show Fits _ u (Function.update r.pc t pc u)
    rw [Function.update_of_ne hu]
    exact (h.fits u).frame hFrame

/-- The task that is first in line writes the owner or the counter. -/
theorem Inv.write (h : r.Inv) (hFront : r.line.head? = some t)
    (hLock : r'.lock.queue = r.lock.queue ∧ r'.lock.dequeue = r.lock.dequeue)
    (hOwner : r'.lock.owner = t ∨ r'.lock.owner = maxTasks)
    (hHistory : r'.taken = r.taken ∧ r'.served = r.served) (hPc : r'.pc = Function.update r.pc t pc)
    (hDepth : ∀ u, u ≠ t → r'.depth u = r.depth u)
    (hIdle : r'.depth t = 0 → r'.entered = r.taken.take r.served)
    (hBusy : 0 < r'.depth t → r'.entered = r.taken.take (r.served + 1)) (hFits : r'.Fits t pc) : r'.Inv := by
  have hLine : r'.line = r.line := by rw [line, hHistory.1, hHistory.2, line]
  have hOther : ∀ u, u ≠ t → r.line.head? ≠ some u := fun u hu he =>
    hu (Option.some.inj (he.symm.trans hFront))
  have hOut : ∀ u, u ≠ t → r'.depth u = 0 := fun u hu => by
    by_contra hne
    exact hOther u hu ((h.fits u).front (Nat.pos_of_ne_zero (hDepth u hu ▸ hne)))
  refine ⟨?_, ?_, ?_, hLine ▸ h.nodup, fun u => ?_, fun hZero => ?_, fun u hu => ?_⟩
  · rw [hLock.1, hHistory.1]
    exact h.queue
  · rw [hLock.2, hHistory.2]
    exact h.dequeue
  · rw [hHistory.1, hHistory.2]
    exact h.served
  · rw [hPc]
    by_cases hu : u = t
    · subst hu
      rw [Function.update_self]
      exact hFits
    · rw [Function.update_of_ne hu]
      refine (h.fits u).frame ⟨hDepth u hu, ?_, fun hm => hLine ▸ hm, fun he => hLine ▸ he, ?_, ?_⟩
      · refine iff_of_false ?_ fun ho => hOther u hu ((h.fits u).front_of_owner ho)
        rcases hOwner with ho | ho
        · exact fun he => hu (Fin.ext (he.symm.trans ho))
        · exact fun he => absurd u.isLt (Nat.not_lt_of_le (Nat.le_of_eq (ho.symm.trans he)))
      · exact fun he => absurd he (hOther u hu)
      · exact fun n hn => ⟨n, hLine ▸ hn, by rw [hHistory.2]⟩
  · rw [hHistory.1, hHistory.2]
    exact hIdle (hZero t)
  · obtain rfl : u = t := by
      by_contra hut
      exact absurd (hOut u hut) hu.ne'
    rw [hHistory.1, hHistory.2]
    exact hBusy hu

/-- As long as the first in line is not inside, nobody is. -/
theorem Inv.entered_of_front (h : r.Inv) (hFront : r.line.head? = some t) (hDepth : r.depth t = 0) :
    r.entered = r.taken.take r.served := by
  refine h.idle fun u => ?_
  by_contra hne
  obtain rfl : u = t := Option.some.inj (((h.fits u).front (Nat.pos_of_ne_zero hne)).symm.trans hFront)
  exact hne hDepth

/-- A ticket is drawn. -/
theorem Inv.take (h : r.Inv) (hFits : r.Fits t .takeTicket) :
    Inv ({ r with
      lock := { r.lock with queue := r.lock.queue + 1 }
      taken := r.taken ++ [t] }.goto t (.spin (r.lock.queue + 1))) := by
  obtain ⟨hDepth, hOwner, hOut⟩ := hFits
  have hLine : (r.taken ++ [t]).drop r.served = r.line ++ [t] :=
    List.drop_append_of_le_length h.served
  have hLength : r.line.length = r.taken.length - r.served := List.length_drop
  have hTicket : r.lock.queue + 1 = ticket 32 r.taken.length := by
    rw [h.queue, ticket, BitVec.ofNat_add r.taken.length 1]
    rfl
  have hTake : ∀ n, n ≤ r.taken.length → (r.taken ++ [t]).take n = r.taken.take n :=
    fun n hn => List.take_append_of_le_length hn
  refine ⟨?_, h.dequeue, ?_, ?_, fun u => ?_, ?_, ?_⟩
  · show r.lock.queue + 1 = BitVec.ofNat 32 (r.taken ++ [t]).length
    rw [hTicket, ticket, List.length_append, List.length_singleton]
  · show r.served ≤ (r.taken ++ [t]).length
    rw [List.length_append]
    exact h.served.trans (Nat.le_add_right _ _)
  · show ((r.taken ++ [t]).drop r.served).Nodup
    rw [hLine, List.nodup_append]
    refine ⟨h.nodup, List.nodup_singleton t, fun a ha b hb => ?_⟩
    rw [List.mem_singleton] at hb
    exact fun he => hOut (hb ▸ he ▸ ha)
  · by_cases hu : u = t
    · subst hu
      show Fits _ u (Function.update r.pc u _ u)
      rw [Function.update_self]
      refine ⟨hDepth, hOwner, r.line.length, ?_, ?_⟩
      · show ((r.taken ++ [u]).drop r.served)[r.line.length]? = some u
        rw [hLine, List.getElem?_concat_length]
      · show r.lock.queue + 1 = ticket 32 (r.served + r.line.length)
        rw [hTicket, hLength, Nat.add_sub_cancel' h.served]
    · show Fits _ u (Function.update r.pc t _ u)
      rw [Function.update_of_ne hu]
      refine (h.fits u).frame ⟨rfl, Iff.rfl, ?_, ?_, fun _ => rfl, fun n hn => ⟨n, ?_, rfl⟩⟩
      · show u ∈ (r.taken ++ [t]).drop r.served → u ∈ r.line
        rw [hLine, List.mem_append, List.mem_singleton]
        exact fun hm => hm.resolve_right hu
      · intro hFront
        show ((r.taken ++ [t]).drop r.served).head? = some u
        rw [hLine, List.head?_append, hFront]
        rfl
      · show ((r.taken ++ [t]).drop r.served)[n]? = some u
        rw [hLine, List.getElem?_append_left (List.getElem?_eq_some_iff.mp hn).1]
        exact hn
  · intro hZero
    show r.entered = (r.taken ++ [t]).take r.served
    rw [hTake _ h.served]
    exact h.idle hZero
  · intro u hu
    show r.entered = (r.taken ++ [t]).take (r.served + 1)
    have hSome : r.line ≠ [] := fun he => by
      have hFront := (h.fits u).front hu
      rw [he] at hFront
      cases hFront
    have hPos := List.length_pos_iff.mpr hSome
    rw [hTake _ (by omega)]
    exact h.busy u hu

/-- The lock is given up. -/
theorem Inv.release (h : r.Inv) (hFits : r.Fits t .advance) :
    Inv ({ r with
      lock := { r.lock with dequeue := r.lock.dequeue + 1 }
      served := r.served + 1 }.leave t (r.depth t - 1)) := by
  obtain ⟨hDepth, hOwner, hFront⟩ := hFits
  obtain ⟨rest, hLine⟩ : ∃ rest, r.line = t :: rest := List.head?_eq_some_iff.mp hFront
  have hTail : r.taken.drop (r.served + 1) = rest := by
    rw [← List.drop_drop, ← line, hLine]
    rfl
  have hLength : r.line.length = r.taken.length - r.served := List.length_drop
  have hNodup := List.nodup_cons.mp (hLine ▸ h.nodup)
  have hOther : ∀ u, u ≠ t → r.depth u = 0 := fun u hu => by
    by_contra hne
    exact hu (h.holder_unique (Nat.pos_of_ne_zero hne) (hDepth ▸ Nat.one_pos : 0 < r.depth t))
  have hZero : ∀ u, Function.update r.depth t (r.depth t - 1) u = 0 := fun u => by
    by_cases hu : u = t
    · subst hu
      rw [Function.update_self, hDepth]
    · rw [Function.update_of_ne hu]
      exact hOther u hu
  refine ⟨h.queue, ?_, ?_, ?_, fun u => ?_, fun _ => ?_, fun u hu => absurd (hZero u) hu.ne'⟩
  · show r.lock.dequeue + 1 = ticket 32 (r.served + 1)
    rw [h.dequeue, ticket_succ]
  · show r.served + 1 ≤ r.taken.length
    rw [hLine, List.length_cons] at hLength
    omega
  · show (r.taken.drop (r.served + 1)).Nodup
    rw [hTail]
    exact hNodup.2
  · by_cases hu : u = t
    · subst hu
      show Fits _ u (Function.update r.pc u _ u)
      rw [Function.update_self]
      refine ⟨(hZero u).trans_le (Nat.zero_le _), Or.inl ⟨hZero u, hOwner, ?_⟩⟩
      show u ∉ r.taken.drop (r.served + 1)
      rw [hTail]
      exact hNodup.1
    · show Fits _ u (Function.update r.pc t _ u)
      rw [Function.update_of_ne hu]
      have hLate : r.line.head? ≠ some u := fun he => hu (Option.some.inj (he.symm.trans hFront))
      refine (h.fits u).frame ⟨Function.update_of_ne hu .., Iff.rfl, ?_,
        fun he => absurd he hLate, fun he => absurd he hLate, ?_⟩
      · show u ∈ r.taken.drop (r.served + 1) → u ∈ r.line
        rw [hTail, hLine]
        exact List.mem_cons_of_mem t
      · intro n hn
        cases n with
        | zero =>
            rw [hLine] at hn
            exact absurd (Option.some.inj hn).symm hu
        | succ n =>
            rw [hLine] at hn
            refine ⟨n, ?_, by show r.served + 1 + n = r.served + (n + 1); omega⟩
            show (r.taken.drop (r.served + 1))[n]? = some u
            rw [hTail]
            exact hn
  · show r.entered = r.taken.take (r.served + 1)
    exact h.busy t (hDepth ▸ Nat.one_pos)

/-- A task whose turn it is finds its own ticket in `dequeue`, and nobody else does. -/
theorem Inv.turn (h : r.Inv) {n : Nat} (hPlace : r.line[n]? = some t) :
    r.lock.dequeue = ticket 32 (r.served + n) ↔ n = 0 := by
  have hShort : r.line.length ≤ maxTasks := by
    have hCard := h.nodup.length_le_card
    rwa [Fintype.card_fin] at hCard
  have hn : n < r.line.length := (List.getElem?_eq_some_iff.mp hPlace).1
  rw [h.dequeue]
  exact ticket_eq_iff ((hn.trans_le hShort).trans (by decide))

theorem ofNat_eq_zero_iff {n : Nat} (h : n < 2 ^ 32) : BitVec.ofNat 32 n = 0 ↔ n = 0 := by
  rw [← BitVec.toNat_inj, BitVec.toNat_ofNat, Nat.mod_eq_of_lt h]
  rfl

/-- The first in line returns with the lock in its hands, `d` calls deep. -/
theorem Inv.inside (h : r.Inv) (hOwner : r.lock.owner = t) (hFront : r.line.head? = some t) {d : Nat}
    {counter : BitVec 32} {entered : List TaskPtr} (hPos : 0 < d) (hDeep : d ≤ 2 ^ 32)
    (hCounter : counter = BitVec.ofNat 32 d) (hEntered : entered = r.taken.take (r.served + 1)) :
    Inv ({ r with
      lock := { r.lock with counter := counter }
      entered := entered }.leave t d) := by
  have hSelf : Function.update r.depth t d t = d := Function.update_self ..
  have hInside : 0 < Function.update r.depth t d t := hSelf.symm ▸ hPos
  refine h.write hFront ⟨rfl, rfl⟩ (Or.inl hOwner) ⟨rfl, rfl⟩ rfl
    (fun u hu => Function.update_of_ne hu ..) (fun hz => absurd hz hInside.ne') (fun _ => hEntered)
    ⟨hSelf.trans_le hDeep, Or.inr ⟨hInside, hOwner, hFront, ?_⟩⟩
  exact hCounter.trans (congrArg _ hSelf.symm)

/-- The owner test tells the task that is inside from all the others. -/
theorem Inv.readOwner (h : r.Inv) (hFits : r.Fits t .readOwner) :
    (r.goto t (if r.lock.owner = t then .loadNested else .takeTicket)).Inv := by
  obtain ⟨hDeep, hSettled⟩ := hFits
  refine h.goto ?_
  split
  · rename_i hOwner
    have hInside := hSettled.resolve_left fun hs => hs.2.1 hOwner
    exact ⟨hDeep, hInside.1, hInside.2⟩
  · rename_i hOwner
    exact hSettled.resolve_right fun hs => hOwner hs.2.owner

/-- A nested call counts one more. -/
theorem Inv.storeNested (h : r.Inv) {counter : BitVec 32} (hFits : r.Fits t (.storeNested counter)) :
    Inv ({ r with lock := { r.lock with counter := counter + 1 } }.leave t (r.depth t + 1)) := by
  obtain ⟨hDeep, hPos, hOwns, rfl⟩ := hFits
  refine h.inside hOwns.owner hOwns.front (Nat.succ_pos _) hDeep ?_ (h.busy t hPos)
  rw [BitVec.ofNat_add (r.depth t) 1]
  rfl

theorem Inv.spin (h : r.Inv) {drawn : BitVec 32} (hFits : r.Fits t (.spin drawn)) :
    (r.goto t (if r.lock.dequeue = drawn then .writeOwner else .spin drawn)).Inv := by
  obtain ⟨hDepth, hOwner, n, hPlace, rfl⟩ := hFits
  refine h.goto ?_
  split
  · rename_i hTurn
    obtain rfl := (h.turn hPlace).mp hTurn
    exact ⟨hDepth, hOwner, by rw [List.head?_eq_getElem?, hPlace]⟩
  · exact ⟨hDepth, hOwner, n, hPlace, rfl⟩

/-- An outermost `s_lock` is complete; the task is the next one of `taken`. -/
theorem Inv.writeCounter (h : r.Inv) (hFits : r.Fits t .writeCounter) :
    Inv ({ r with
      lock := { r.lock with counter := 1 }
      entered := r.entered ++ [t] }.leave t (r.depth t + 1)) := by
  obtain ⟨hDepth, hOwner, hFront⟩ := hFits
  have hPlace : r.taken[r.served]? = some t := by
    rw [line, List.head?_drop] at hFront
    exact hFront
  refine h.inside hOwner hFront (Nat.succ_pos _) ?_ ?_ ?_
  · rw [hDepth]
    decide
  · rw [hDepth]
    rfl
  · rw [h.entered_of_front hFront hDepth, List.take_add_one, hPlace]
    rfl

theorem Inv.storeCounter (h : r.Inv) {counter : BitVec 32} (hFits : r.Fits t (.storeCounter counter)) :
    Inv ({ r with lock := { r.lock with counter := counter - 1 } }.goto t .testCounter) := by
  obtain ⟨hDeep, hPos, hOwns, rfl⟩ := hFits
  have hCounter : BitVec.ofNat 32 (r.depth t) - 1 = BitVec.ofNat 32 (r.depth t - 1) := by
    obtain ⟨d, hd⟩ := Nat.exists_eq_add_of_lt hPos
    rw [hd, Nat.zero_add, Nat.add_sub_cancel, BitVec.ofNat_add d 1]
    exact BitVec.add_sub_cancel _ _
  exact h.write hOwns.front ⟨rfl, rfl⟩ (Or.inl hOwns.owner) ⟨rfl, rfl⟩ rfl (fun _ _ => rfl)
    (fun hz => absurd hz hPos.ne') (fun _ => h.busy t hPos)
    ⟨hDeep, hPos, hOwns.owner, hOwns.front, hCounter⟩

/-- The counter is zero exactly behind the last `s_unlock`. -/
theorem Inv.testCounter (h : r.Inv) (hFits : r.Fits t .testCounter) :
    Inv (if r.lock.counter = 0 then r.goto t .clearOwner else r.leave t (r.depth t - 1)) := by
  obtain ⟨hDeep, hPos, hOwns⟩ := hFits
  have hZero : r.lock.counter = 0 ↔ r.depth t - 1 = 0 := by
    rw [hOwns.counter]
    exact ofNat_eq_zero_iff (by omega)
  split
  · rename_i hLast
    rw [hZero] at hLast
    exact h.goto ⟨by omega, hOwns.owner, hOwns.front⟩
  · rename_i hMore
    rw [hZero] at hMore
    exact h.inside hOwns.owner hOwns.front (Nat.pos_of_ne_zero hMore) (by omega) hOwns.counter
      (h.busy t hPos)

theorem Inv.access (h : r.Inv) (hPc : r.pc t = pc) (hStep : r.access t pc = some r') : r'.Inv := by
  have hFits := h.fits t
  rw [hPc] at hFits
  cases pc with
  | outside => cases hStep
  | readOwner =>
      cases hStep
      exact h.readOwner hFits
  | loadNested =>
      cases hStep
      exact h.goto ⟨hFits.1, hFits.2.1, hFits.2.2, hFits.2.2.counter⟩
  | storeNested counter =>
      cases hStep
      exact h.storeNested hFits
  | takeTicket =>
      cases hStep
      exact h.take hFits
  | spin drawn =>
      cases hStep
      exact h.spin hFits
  | writeOwner =>
      obtain ⟨hDepth, hOwner, hFront⟩ := hFits
      cases hStep
      exact h.write hFront ⟨rfl, rfl⟩ (Or.inl rfl) ⟨rfl, rfl⟩ rfl (fun _ _ => rfl)
        (fun _ => h.entered_of_front hFront hDepth) (fun hPos => absurd hDepth hPos.ne')
        ⟨hDepth, rfl, hFront⟩
  | writeCounter =>
      cases hStep
      exact h.writeCounter hFits
  | loadCounter =>
      cases hStep
      exact h.goto ⟨hFits.1, hFits.2.1, hFits.2.2, hFits.2.2.counter⟩
  | storeCounter counter =>
      cases hStep
      exact h.storeCounter hFits
  | testCounter =>
      cases hStep
      exact h.testCounter hFits
  | clearOwner =>
      obtain ⟨hDepth, hOwner, hFront⟩ := hFits
      cases hStep
      have hPos : 0 < r.depth t := hDepth ▸ Nat.one_pos
      exact h.write hFront ⟨rfl, rfl⟩ (Or.inr rfl) ⟨rfl, rfl⟩ rfl (fun _ _ => rfl)
        (fun hz => absurd hz hPos.ne') (fun _ => h.busy t hPos) ⟨hDepth, Nat.ne_of_gt t.isLt, hFront⟩
  | advance =>
      cases hStep
      exact h.release hFits

/-- Calls of `s_lock` nest less than `2 ^ 32` times. -/
def Shallow (r : LockRun) (t : TaskPtr) : Prop := r.depth t < 2 ^ 32

theorem Inv.step (h : r.Inv) (hStep : Step Shallow r r') : r'.Inv := by
  obtain ⟨t, action, hMay, hExec⟩ := hStep
  cases action with
  | lock =>
      rw [exec] at hExec
      split at hExec
      · rename_i hPc
        cases hExec
        have hFits := h.fits t
        rw [hPc] at hFits
        exact h.goto ⟨hMay rfl, hFits.2⟩
      · cases hExec
  | unlock =>
      rw [exec] at hExec
      split at hExec
      · rename_i hCall
        cases hExec
        have hFits := h.fits t
        rw [hCall.1] at hFits
        exact h.goto ⟨hFits.1, (hFits.2.resolve_left fun hs => hCall.2.ne' hs.1)⟩
      · cases hExec
  | access => exact h.access rfl hExec

theorem reachable_inv (h : Reachable Shallow r) : r.Inv :=
  h.invariant (fun _ hr => hr ▸ initial_inv) fun _ _ hr hStep => hr.step hStep

theorem Inv.not_waits (h : r.Inv) (hHolds : r.Holds t) : ¬ r.Waits t := by
  have hFits := h.fits t
  rintro (⟨drawn, hPc⟩ | hPc | hPc)
  · rw [hPc] at hFits
    exact hHolds.ne' hFits.1
  · rw [hPc] at hFits
    exact hHolds.ne' hFits.1
  · rw [hPc] at hFits
    exact hHolds.ne' hFits.1

/-- A nested `s_lock` finds the task's own id. -/
theorem Inv.nested_owner (h : r.Inv) (hHolds : r.Holds t) (hPc : r.pc t = .readOwner) :
    r.lock.owner = t := by
  have hFits := h.fits t
  rw [hPc] at hFits
  exact (hFits.2.resolve_left fun hs => hHolds.ne' hs.1).2.owner

/-- In line is who waits or holds the lock. -/
theorem Inv.mem_line (h : r.Inv) (hIn : t ∈ r.line) : r.Waits t ∨ r.Holds t := by
  have hFits := h.fits t
  cases hPc : r.pc t with
  | spin drawn => exact Or.inl (Or.inl ⟨drawn, hPc⟩)
  | writeOwner => exact Or.inl (Or.inr (Or.inl hPc))
  | writeCounter => exact Or.inl (Or.inr (Or.inr hPc))
  | outside =>
      rw [hPc] at hFits
      exact Or.inr (hFits.2.resolve_left fun hs => hs.2.2 hIn).1
  | readOwner =>
      rw [hPc] at hFits
      exact Or.inr (hFits.2.resolve_left fun hs => hs.2.2 hIn).1
  | takeTicket =>
      rw [hPc] at hFits
      exact absurd hIn hFits.2.2
  | loadNested | loadCounter | storeNested | storeCounter | testCounter =>
      rw [hPc] at hFits
      exact Or.inr hFits.2.1
  | clearOwner | advance =>
      rw [hPc] at hFits
      exact Or.inr (hFits.1 ▸ Nat.one_pos : 0 < r.depth t)

/-- Tasks complete their `s_lock` in the order in which they drew their tickets. -/
theorem Inv.entered_prefix (h : r.Inv) : r.entered <+: r.taken := by
  by_cases hHeld : ∃ t, r.Holds t
  · obtain ⟨t, ht⟩ := hHeld
    rw [h.busy t ht]
    exact List.take_prefix _ _
  · rw [h.idle fun t => Nat.eq_zero_of_not_pos fun ht => hHeld ⟨t, ht⟩]
    exact List.take_prefix _ _

/-- Nobody in line: the next ticket is the next one to be served. -/
theorem Inv.at_rest (h : r.Inv) (hRest : ∀ t, ¬ r.Holds t ∧ ¬ r.Waits t) :
    r.lock.dequeue = r.lock.queue + 1 := by
  have hEmpty : r.line = [] := by
    refine List.eq_nil_iff_forall_not_mem.mpr fun t ht => ?_
    exact (h.mem_line ht).elim (hRest t).2 (hRest t).1
  have hLength : r.taken.length = r.served :=
    Nat.le_antisymm (List.drop_eq_nil_iff.mp hEmpty) h.served
  rw [h.dequeue, h.queue, hLength, ticket, BitVec.ofNat_add r.served 1]
  rfl

/-- Exclusion, nesting without waiting, entry in the order of the tickets, and the lock at rest,
in every reachable state and for any number of laps of the counters. -/
theorem reachable_exclusive (h : Reachable Shallow r) :
    (∀ t u, r.Holds t → r.Holds u → t = u) ∧
    (∀ t, r.Holds t → ¬ r.Waits t ∧ (r.pc t = .readOwner → r.lock.owner = t)) ∧
    r.entered <+: r.taken ∧
    ((∀ t, ¬ r.Holds t ∧ ¬ r.Waits t) → r.lock.dequeue = r.lock.queue + 1) :=
  have hInv := reachable_inv h
  ⟨fun _ _ => hInv.holder_unique, fun _ ht => ⟨hInv.not_waits ht, hInv.nested_owner ht⟩,
    hInv.entered_prefix, hInv.at_rest⟩

/-- A schedule: who makes which step, with calls of `s_lock` nested less than `limit` times. -/
def perform (limit : Nat) : List (TaskPtr × LockAction) → LockRun → Option LockRun
  | [], r => some r
  | (t, action) :: rest, r =>
      if action = .lock → r.depth t < limit then (r.exec t action).bind (perform limit rest) else none

theorem reachable_perform {may : LockRun → TaskPtr → Prop} {limit : Nat}
    {steps : List (TaskPtr × LockAction)} (h : Reachable may r)
    (hMay : ∀ r t, r.depth t < limit → may r t) (hPerform : perform limit steps r = some r') :
    Reachable may r' := by
  induction steps generalizing r with
  | nil => exact Option.some.inj hPerform ▸ h
  | cons c rest ih =>
      rw [perform] at hPerform
      split at hPerform
      · rename_i hLimit
        obtain ⟨u, hExec, hRest⟩ := Option.bind_eq_some_iff.mp hPerform
        exact ih (h.next ⟨c.1, c.2, fun hLock => hMay r c.1 (hLimit hLock), hExec⟩) hRest
      · cases hPerform

/-- An uncontended `s_lock`, from the call to the return. -/
def lockSteps (t : TaskPtr) : List (TaskPtr × LockAction) :=
  (t, .lock) :: List.replicate 5 (t, .access)

/-- The outermost `s_unlock`. -/
def unlockSteps (t : TaskPtr) : List (TaskPtr × LockAction) :=
  (t, .unlock) :: List.replicate 5 (t, .access)

/-- A second task asks for the lock, and gets it when the first one has given it up. -/
theorem reachable_exclusive_example :
    ∃ r, Reachable Shallow r ∧ r.entered = [0, 1] ∧ r.Holds 1 ∧ ∀ t, r.Holds t → t = 1 := by
  have hView : (perform (2 ^ 32) (lockSteps 0 ++ (1, .lock) :: List.replicate 3 (1, .access) ++
      unlockSteps 0 ++ List.replicate 3 (1, .access)) initial).map
      (fun r => (r.entered, r.depth 1)) = some ([0, 1], 1) := by decide
  obtain ⟨r, hPerform, hSeen⟩ := Option.map_eq_some_iff.mp hView
  obtain ⟨hEntered, hDepth⟩ := Prod.mk.inj hSeen
  have hReach : Reachable Shallow r :=
    reachable_perform (Transition.Reachable.of_init rfl) (fun _ _ h => h) hPerform
  have hHolds : r.Holds 1 := Nat.lt_of_lt_of_eq Nat.one_pos hDepth.symm
  exact ⟨r, hReach, hEntered, hHolds, fun t ht => (reachable_exclusive hReach).1 t 1 ht hHolds⟩

/-- The first task has locked `n` times, and nobody else is there. -/
def nested (n : Nat) : LockRun :=
  { lock := { queue := 1, dequeue := 1, owner := 0, counter := BitVec.ofNat 32 n }
    pc := fun _ => .outside
    depth := Function.update (fun _ => 0) 0 n
    taken := [0], entered := [0], served := 0 }

theorem nested_succ {n limit : Nat} (hn : n < limit) :
    perform limit ((0, .lock) :: List.replicate 3 (0, .access)) (nested n) = some (nested (n + 1)) := by
  have hCounter : BitVec.ofNat 32 n + 1#32 = BitVec.ofNat 32 (n + 1) := (BitVec.ofNat_add n 1).symm
  simp [perform, exec, access, goto, leave, nested, List.replicate, hn, hCounter]

theorem reachable_nested (n : Nat) : Reachable (fun _ _ => True) (nested (n + 1)) := by
  induction n with
  | zero =>
      have hFirst : perform 1 (lockSteps 0) initial = some (nested 1) := by
        simp [perform, lockSteps, exec, access, goto, leave, initial, Lock.init, nested, List.replicate]
      exact reachable_perform (Transition.Reachable.of_init rfl) (fun _ _ _ => trivial) hFirst
  | succ n ih => exact reachable_perform ih (fun _ _ _ => trivial) (nested_succ (Nat.lt_succ_self _))

/-- One level of nesting more than `counter` has values: the next `s_unlock` of the task gives
the lock up although it still owes `2 ^ 32` of them. -/
theorem nesting_wraps_around : ¬ ∀ r, Reachable (fun _ _ => True) r →
    ∀ t u, r.Holds t → r.Holds u → t = u := by
  intro h
  have hView : (perform 1 (unlockSteps 0 ++ lockSteps 1) (nested (2 ^ 32 + 1))).map
      (fun r => (r.depth 0, r.depth 1)) = some (2 ^ 32, 1) := by decide
  obtain ⟨r, hPerform, hSeen⟩ := Option.map_eq_some_iff.mp hView
  obtain ⟨hFirst, hSecond⟩ := Prod.mk.inj hSeen
  have hReach := reachable_perform (reachable_nested (2 ^ 32)) (fun _ _ _ => trivial) hPerform
  have hHolds₀ : r.Holds 0 := Nat.lt_of_lt_of_eq (by decide) hFirst.symm
  have hHolds₁ : r.Holds 1 := Nat.lt_of_lt_of_eq (by decide) hSecond.symm
  exact absurd (h r hReach 0 1 hHolds₀ hHolds₁) (by decide)

end LockRun
end ArtOS

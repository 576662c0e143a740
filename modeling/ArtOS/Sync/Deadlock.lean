import ArtOS.Sync.KernelLocks
import ArtOS.Sync.TicketOrder

/-! No deadlock in clean runs. While interrupts are disabled only the running
task moves, so it is enough that it was alone with the locks ahead when they
became disabled; each lock by itself behaves as a recursive ticket lock. -/
namespace ArtOS

namespace LockPc

/-- The points of a call of `s_lock`. -/
def Locking : LockPc → Prop
  | .readOwner | .loadNested | .storeNested _ | .takeTicket | .spin _ | .writeOwner
  | .writeCounter => True
  | _ => False

/-- The points of a call of `s_unlock`. -/
def Unlocking : LockPc → Prop
  | .loadCounter | .storeCounter _ | .testCounter | .clearOwner | .advance => True
  | _ => False

end LockPc

namespace LockRun

variable {r r' : LockRun} {t u : TaskPtr} {pc : LockPc}

theorem access_other (h : r.access t pc = some r') (hne : u ≠ t) :
    r'.pc u = r.pc u ∧ r'.depth u = r.depth u := by
  cases pc with
  | outside => cases h
  | testCounter =>
      cases h
      split
      · simp [goto, hne]
      · simp [leave, hne]
  | storeNested | writeCounter | advance =>
      cases h
      simp [leave, hne]
  | _ =>
      cases h
      simp [goto, hne]

theorem exec_other {action : LockAction} (h : r.exec t action = some r') (hne : u ≠ t) :
    r'.pc u = r.pc u ∧ r'.depth u = r.depth u := by
  cases action with
  | lock =>
      rw [exec] at h
      split at h
      · cases h
        simp [goto, hne]
      · cases h
  | unlock =>
      rw [exec] at h
      split at h
      · cases h
        simp [goto, hne]
      · cases h
  | access => exact access_other h hne

theorem goto_pc : (r.goto t pc).pc t = pc := Function.update_self ..

theorem goto_other (hne : u ≠ t) : (r.goto t pc).pc u = r.pc u ∧ (r.goto t pc).depth u = r.depth u :=
  ⟨Function.update_of_ne hne .., rfl⟩

theorem leave_pc {n : Nat} : (r.leave t n).pc t = .outside ∧ (r.leave t n).depth t = n :=
  ⟨Function.update_self .., Function.update_self ..⟩

/-- A step of `s_lock` stays in it, or completes it. -/
theorem access_locking (hPc : pc.Locking) (h : r.access t pc = some r') :
    (r'.pc t = .outside ∧ r'.depth t = r.depth t + 1) ∨
      ((r'.pc t).Locking ∧ r'.pc t ≠ .outside ∧ r'.depth t = r.depth t) := by
  have hStay : ∀ {r₁ : LockRun} {p : LockPc}, r' = r₁.goto t p → r₁.depth = r.depth → p.Locking →
      (r'.pc t).Locking ∧ r'.pc t ≠ .outside ∧ r'.depth t = r.depth t := by
    rintro r₁ p rfl hDepth hp
    rw [goto_pc]
    exact ⟨hp, fun he => (he ▸ hp : LockPc.outside.Locking), congrFun hDepth t⟩
  cases pc with
  | readOwner =>
      refine Or.inr (hStay (Option.some.inj h).symm rfl ?_)
      split
      · trivial
      · trivial
  | spin ticket =>
      refine Or.inr (hStay (Option.some.inj h).symm rfl ?_)
      split
      · trivial
      · trivial
  | storeNested =>
      obtain rfl := Option.some.inj h
      exact Or.inl leave_pc
  | writeCounter =>
      obtain rfl := Option.some.inj h
      exact Or.inl leave_pc
  | loadNested => exact Or.inr (hStay (Option.some.inj h).symm rfl trivial)
  | takeTicket => exact Or.inr (hStay (Option.some.inj h).symm rfl trivial)
  | writeOwner => exact Or.inr (hStay (Option.some.inj h).symm rfl trivial)
  | _ => cases hPc

theorem access_unlocking (hPc : pc.Unlocking) (h : r.access t pc = some r') :
    (r'.pc t = .outside ∧ r'.depth t = r.depth t - 1) ∨
      ((r'.pc t).Unlocking ∧ r'.pc t ≠ .outside ∧ r'.depth t = r.depth t) := by
  have hStay : ∀ {r₁ : LockRun} {p : LockPc}, r' = r₁.goto t p → r₁.depth = r.depth → p.Unlocking →
      (r'.pc t).Unlocking ∧ r'.pc t ≠ .outside ∧ r'.depth t = r.depth t := by
    rintro r₁ p rfl hDepth hp
    rw [goto_pc]
    exact ⟨hp, fun he => (he ▸ hp : LockPc.outside.Unlocking), congrFun hDepth t⟩
  cases pc with
  | testCounter =>
      have hTest := Option.some.inj h
      by_cases hZero : r.lock.counter = 0
      · rw [if_pos hZero] at hTest
        exact Or.inr (hStay hTest.symm rfl trivial)
      · rw [if_neg hZero] at hTest
        subst hTest
        exact Or.inl leave_pc
  | advance =>
      obtain rfl := Option.some.inj h
      exact Or.inl leave_pc
  | loadCounter => exact Or.inr (hStay (Option.some.inj h).symm rfl trivial)
  | storeCounter => exact Or.inr (hStay (Option.some.inj h).symm rfl trivial)
  | clearOwner => exact Or.inr (hStay (Option.some.inj h).symm rfl trivial)
  | _ => cases hPc

theorem exec_lock (h : r.exec t .lock = some r') : r.pc t = .outside ∧ r' = r.goto t .readOwner := by
  rw [exec] at h
  split at h
  · rename_i hPc
    cases h
    exact ⟨hPc, rfl⟩
  · cases h

theorem exec_unlock (h : r.exec t .unlock = some r') :
    r.pc t = .outside ∧ r' = r.goto t .loadCounter := by
  rw [exec] at h
  split at h
  · rename_i hCall
    cases h
    exact ⟨hCall.1, rfl⟩
  · cases h

/-- A point to which a task can be taken back with `n` completed calls of `s_lock`. -/
def Resumes (n : Nat) : LockPc → Prop
  | .outside => n ≤ 2 ^ 32
  | .readOwner => n < 2 ^ 32
  | .loadNested => n < 2 ^ 32 ∧ 0 < n
  | .storeNested counter => n < 2 ^ 32 ∧ 0 < n ∧ counter = BitVec.ofNat 32 n
  | .takeTicket => n = 0
  | .loadCounter => n ≤ 2 ^ 32 ∧ 0 < n
  | .storeCounter counter => n ≤ 2 ^ 32 ∧ 0 < n ∧ counter = BitVec.ofNat 32 n
  | _ => False

/-- A reenterable point says nothing about the lock that is not known between calls, too. -/
theorem fits_reenterable (hPc : LockSystem.Reenterable pc) :
    r.Fits t pc ↔ Resumes (r.depth t) pc ∧ r.Settled t := by
  have hOwns : 0 < r.depth t → (r.Settled t ↔ r.Owns t (r.depth t)) := fun hPos =>
    ⟨fun hs => (hs.resolve_left fun hz => hPos.ne' hz.1).2, fun ho => Or.inr ⟨hPos, ho⟩⟩
  cases pc with
  | outside | readOwner => exact Iff.rfl
  | takeTicket =>
      refine ⟨fun h => ⟨h.1, Or.inl h⟩, fun h => ?_⟩
      exact h.2.resolve_right fun hs => hs.1.ne' h.1
  | loadNested | loadCounter =>
      constructor
      · intro h
        exact ⟨⟨h.1, h.2.1⟩, (hOwns h.2.1).mpr h.2.2⟩
      · intro h
        exact ⟨h.1.1, h.1.2, (hOwns h.1.2).mp h.2⟩
  | storeNested | storeCounter =>
      constructor
      · intro h
        exact ⟨⟨h.1, h.2.1, h.2.2.2⟩, (hOwns h.2.1).mpr h.2.2.1⟩
      · intro h
        exact ⟨h.1.1, h.1.2.1, (hOwns h.1.2.1).mp h.2, h.1.2.2⟩
  | _ => cases hPc

theorem resumes_le {n : Nat} (h : Resumes n pc) : n ≤ 2 ^ 32 := by
  cases pc with
  | outside => exact h
  | readOwner => exact le_of_lt h
  | takeTicket => exact (h : n = 0) ▸ Nat.zero_le _
  | loadNested | storeNested => exact le_of_lt h.1
  | loadCounter | storeCounter => exact h.1
  | _ => cases h

theorem Inv.exec (h : r.Inv) {action : LockAction} (hDepth : action = .lock → r.depth t < 2 ^ 32)
    (hExec : r.exec t action = some r') : r'.Inv :=
  h.step ⟨t, action, hDepth, hExec⟩

/-- The owner waits for the lock or holds it. -/
theorem Inv.owner (h : r.Inv) (hOwner : r.lock.owner = t) : r.Waits t ∨ r.Holds t :=
  h.mem_line (List.mem_of_mem_head? ((h.fits t).front_of_owner hOwner))

end LockRun

namespace LockSystem

open LockRun LockCode

variable {s s' : LockSystem} {t u : TaskPtr} {l : SpinName} {ops rest : List LockOp} {op : LockOp}
  {pc : SpinName → LockPc} {depth : SpinName → Nat}

/-- The code of a task fits its position in the calls of `s_lock` and `s_unlock`. -/
def Placed (pc : SpinName → LockPc) (depth : SpinName → Nat) : List LockOp → Prop
  | [] => True
  | .sLock l :: rest => Placed pc (Function.update depth l (depth l + 1)) rest
  | .sUnlock l :: rest => Placed pc (Function.update depth l (depth l - 1)) rest
  | .locking l :: rest => (pc l).Locking ∧
      Placed (Function.update pc l .outside) (Function.update depth l (depth l + 1)) rest
  | .unlocking l :: rest => (pc l).Unlocking ∧
      Placed (Function.update pc l .outside) (Function.update depth l (depth l - 1)) rest
  | .iret (some p) :: rest => Resumes (depth .pnodeLock) p ∧ Reenterable p ∧
      Placed (Function.update pc .pnodeLock p) depth rest
  | .iret none :: rest => Placed pc depth rest
  | .lockIrq _ :: rest => Placed pc depth rest
  | .unlockIrq _ :: rest => Placed pc depth rest
  | .cli :: rest => Placed pc depth rest

/-- Operations that stand in the code of a function. -/
def Plain : LockOp → Prop
  | .locking _ | .unlocking _ | .iret (some _) => False
  | _ => True

theorem Placed.of_plain (h : ∀ op ∈ ops, Plain op) : Placed pc depth ops := by
  induction ops generalizing pc depth with
  | nil => trivial
  | cons op rest ih =>
      have hRest := fun op hop => h op (List.mem_cons_of_mem _ hop)
      have hHead := h op List.mem_cons_self
      cases op with
      | locking => cases hHead
      | unlocking => cases hHead
      | iret saved =>
          cases saved with
          | none => exact ih hRest
          | some => cases hHead
      | _ => exact ih hRest

section Plain

theorem plain_append {ops' : List LockOp} (h : ∀ op ∈ ops, Plain op) (h' : ∀ op ∈ ops', Plain op) :
    ∀ op ∈ ops ++ ops', Plain op :=
  fun op hop => (List.mem_append.mp hop).elim (h op) (h' op)

theorem plain_cons (hHead : Plain op) (h : ∀ op ∈ ops, Plain op) : ∀ op' ∈ op :: ops, Plain op' :=
  List.forall_mem_cons.mpr ⟨hHead, h⟩

theorem plain_nil : ∀ op ∈ ([] : List LockOp), Plain op := fun _ h => absurd h List.not_mem_nil

theorem plain_section : ∀ op ∈ [LockOp.sLock l, .sUnlock l], Plain op :=
  plain_cons trivial (plain_cons trivial plain_nil)

theorem plain_getPages {npages available : Nat} : ∀ op ∈ getPages npages available, Plain op := by
  rw [getPages]
  split
  · exact plain_nil
  · split
    · exact plain_nil
    · exact plain_section

theorem plain_putPages {phyaddr npages : Nat} : ∀ op ∈ putPages phyaddr npages, Plain op := by
  rw [putPages]
  split
  · exact plain_nil
  · split
    · exact plain_nil
    · exact plain_section

theorem plain_pageMap {user : Bool} {missing : List Nat} :
    ∀ op ∈ pageMap t user missing, Plain op := by
  have hTables : ∀ op ∈ missing.flatMap (getPages 1), Plain op := fun op hop => by
    obtain ⟨available, _, hIn⟩ := List.mem_flatMap.mp hop
    exact plain_getPages op hIn
  cases user with
  | true => exact plain_cons trivial (plain_append hTables (plain_cons trivial plain_nil))
  | false => exact plain_cons trivial (plain_append hTables (plain_cons trivial plain_nil))

theorem plain_pageMapCopy {entries : List (Nat × Option (List Nat))} :
    ∀ op ∈ pageMapCopy t entries, Plain op := by
  refine plain_cons trivial (plain_append (fun op hop => ?_) (plain_cons trivial plain_nil))
  obtain ⟨entry, _, hIn⟩ := List.mem_flatMap.mp hop
  refine plain_append plain_getPages ?_ op hIn
  cases entry.2 with
  | none => exact plain_nil
  | some missing => exact plain_pageMap

theorem plain_createTask {valid : Bool} {outcome : TaskOutcome} :
    ∀ op ∈ createTask t valid outcome, Plain op := by
  have hUnlock : ∀ op ∈ [LockOp.unlockIrq .tableLock], Plain op := plain_cons trivial plain_nil
  unfold createTask
  split
  · cases outcome with
    | tableFull => exact plain_cons trivial hUnlock
    | noRoot available => exact plain_cons trivial (plain_append plain_getPages hUnlock)
    | created available entries =>
        refine plain_cons trivial (plain_append (plain_append plain_getPages plain_pageMapCopy) ?_)
        exact plain_cons trivial (plain_cons trivial hUnlock)
  · exact plain_nil

theorem plain_kfree {magic : Bool} : ∀ op ∈ LockCode.kfree magic, Plain op := by
  cases magic with
  | true => exact plain_section
  | false => exact plain_nil

theorem plain_vmaFree {node : Option Bool} : ∀ op ∈ LockCode.vmaFree node, Plain op := by
  refine plain_cons trivial (plain_append ?_ (plain_cons trivial plain_nil))
  cases node with
  | none => exact plain_nil
  | some magic => exact plain_kfree

theorem plain_pallocMap {npages : Nat} {outcome : PallocOutcome} :
    ∀ op ∈ pallocMap t npages outcome, Plain op := by
  cases outcome with
  | noFrames available node => exact plain_append plain_getPages plain_vmaFree
  | noTable available missing node =>
      exact plain_append (plain_append (plain_append plain_getPages plain_pageMap) plain_vmaFree)
        plain_putPages
  | mapped available missing => exact plain_append plain_getPages plain_pageMap

theorem plain_vmaAlloc {node : List LockOp} (h : ∀ op ∈ node, Plain op) :
    ∀ op ∈ LockCode.vmaAlloc node, Plain op :=
  plain_cons trivial (plain_append h (plain_cons trivial plain_nil))

theorem plain_pnodeGet {found : Found} : ∀ op ∈ LockCode.pnodeGet t found, Plain op := by
  have hUnlock : ∀ op ∈ [LockOp.sUnlock .pnodeLock], Plain op := plain_cons trivial plain_nil
  induction found with
  | listed => exact plain_section
  | split larger ih => exact plain_cons trivial (plain_append ih hUnlock)
  | noGap => exact plain_cons trivial (plain_append (plain_vmaAlloc plain_nil) hUnlock)
  | noNode node ih => exact plain_cons trivial (plain_append (plain_vmaAlloc ih) hUnlock)
  | extended npages outcome =>
      refine plain_cons trivial (plain_append (plain_append ?_ plain_pallocMap) hUnlock)
      exact plain_vmaAlloc plain_nil
  | inserted node npages outcome ih =>
      refine plain_cons trivial (plain_append (plain_append ?_ plain_pallocMap) hUnlock)
      exact plain_vmaAlloc ih

theorem plain_code (c : MemoryCall) : ∀ op ∈ c.code t, Plain op := by
  cases c with
  | pageMap user missing => exact plain_pageMap
  | pageUnmap =>
      exact plain_cons trivial (plain_cons trivial (plain_cons trivial (plain_cons trivial plain_nil)))
  | getPages npages available => exact plain_getPages
  | putPages phyaddr npages => exact plain_putPages
  | createTask valid outcome => exact plain_createTask
  | kmalloc found =>
      cases found with
      | none => exact plain_nil
      | some found => exact plain_pnodeGet
  | kfree magic => exact plain_kfree
  | pageFault available missing mapped =>
      refine plain_cons trivial (plain_append (plain_append (plain_append plain_getPages
        plain_pageMap) ?_) (plain_cons trivial plain_nil))
      split
      · exact plain_nil
      · exact plain_putPages

end Plain

/-- Every lock is in a state of the ticket lock, the code of every task fits, and while interrupts
are disabled the running task is alone with the locks ahead. -/
structure Inv (s : LockSystem) : Prop where
  spin : ∀ l, (s.spin l).Inv
  placed : ∀ t, Placed (fun l => (s.spin l).pc t) (fun l => (s.spin l).depth t) (s.code t)
  alone : s.cpu.enabled = false → s.Alone

/-- Another task's view of the locks after an access of the current one. -/
theorem setSpin_other {r : LockRun} (h : r.pc u = (s.spin l).pc u ∧ r.depth u = (s.spin l).depth u) :
    (fun k => ((s.setSpin l r).spin k).pc u) = (fun k => (s.spin k).pc u) ∧
      (fun k => ((s.setSpin l r).spin k).depth u) = fun k => (s.spin k).depth u := by
  constructor
  · funext k
    by_cases hk : k = l
    · subst hk
      simpa [setSpin] using h.1
    · simp [setSpin, hk]
  · funext k
    by_cases hk : k = l
    · subst hk
      simpa [setSpin] using h.2
    · simp [setSpin, hk]

theorem setSpin_self {r : LockRun} :
    (fun k => ((s.setSpin l r).spin k).pc t) =
        Function.update (fun k => (s.spin k).pc t) l (r.pc t) ∧
      (fun k => ((s.setSpin l r).spin k).depth t) =
        Function.update (fun k => (s.spin k).depth t) l (r.depth t) := by
  constructor
  · funext k
    by_cases hk : k = l
    · subst hk
      simp [setSpin]
    · simp [setSpin, hk]
  · funext k
    by_cases hk : k = l
    · subst hk
      simp [setSpin]
    · simp [setSpin, hk]

theorem setSpin_inv {r : LockRun} (h : ∀ k, (s.spin k).Inv) (hr : r.Inv) :
    ∀ k, ((s.setSpin l r).spin k).Inv := by
  intro k
  by_cases hk : k = l
  · subst hk
    simpa [setSpin] using hr
  · simpa [setSpin, hk] using h k

/-- The locks ahead become fewer, and the other tasks stay where they are. -/
theorem Alone.mono (h : s.Alone) (hCurrent : s'.current = s.current)
    (hAhead : ∀ l ∈ takenOff s'.cpu (fun l => (s'.spin l).depth s'.current) (s'.code s'.current),
      l ∈ takenOff s.cpu (fun l => (s.spin l).depth s.current) (s.code s.current))
    (hOther : ∀ l u, u ≠ s.current →
      (s'.spin l).pc u = (s.spin l).pc u ∧ (s'.spin l).depth u = (s.spin l).depth u) : s'.Alone := by
  intro l hl u hu
  rw [hCurrent] at hu
  obtain ⟨hPc, hDepth⟩ := hOther l u hu
  rw [Waits, Holds, hPc, hDepth]
  exact h l (hAhead l hl) u hu

/-- The current task moves in one lock; the others stay where they are. -/
theorem placed_setSpin {r : LockRun} {ops' : List LockOp}
    (h : ∀ t, t ≠ s.current →
      Placed (fun k => (s.spin k).pc t) (fun k => (s.spin k).depth t) (s.code t))
    (hOther : ∀ t, t ≠ s.current → r.pc t = (s.spin l).pc t ∧ r.depth t = (s.spin l).depth t)
    (hPlaced : Placed (Function.update (fun k => (s.spin k).pc s.current) l (r.pc s.current))
      (Function.update (fun k => (s.spin k).depth s.current) l (r.depth s.current)) ops') :
    ∀ t, Placed (fun k => ((s.setSpin l r).spin k).pc t) (fun k => ((s.setSpin l r).spin k).depth t)
      (((s.setSpin l r).setCode ops').code t) := by
  intro t
  by_cases ht : t = s.current
  · subst ht
    have hCodeSelf : ((s.setSpin l r).setCode ops').code s.current = ops' := Function.update_self ..
    rw [setSpin_self.1, setSpin_self.2, hCodeSelf]
    exact hPlaced
  · have hSame : ((s.setSpin l r).setCode ops').code t = s.code t := Function.update_of_ne ht ..
    rw [(setSpin_other (hOther t ht)).1, (setSpin_other (hOther t ht)).2, hSame]
    exact h t ht

/-- A step of the current task that goes through one access of one lock. -/
theorem Inv.spin_step (h : s.Inv) {r : LockRun} {action : LockAction} {ops' : List LockOp}
    (hCode : s.code s.current = op :: rest)
    (hDepth : action = .lock → (s.spin l).depth s.current < 2 ^ 32)
    (hExec : (s.spin l).exec s.current action = some r)
    (hPlaced : Placed (Function.update (fun k => (s.spin k).pc s.current) l (r.pc s.current))
      (Function.update (fun k => (s.spin k).depth s.current) l (r.depth s.current)) ops')
    (hAhead : ∀ k ∈ takenOff s.cpu
        (Function.update (fun k => (s.spin k).depth s.current) l (r.depth s.current)) ops',
      k ∈ takenOff s.cpu (fun k => (s.spin k).depth s.current) (op :: rest)) :
    ((s.setSpin l r).setCode ops').Inv := by
  have hSelf := setSpin_self (s := s) (l := l) (t := s.current) (r := r)
  have hCodeSelf : ((s.setSpin l r).setCode ops').code s.current = ops' := Function.update_self ..
  refine ⟨setSpin_inv h.spin ((h.spin l).exec hDepth hExec),
    placed_setSpin (fun t _ => h.placed t) (fun t ht => exec_other hExec ht) hPlaced,
    fun hOff => ?_⟩
  · refine (h.alone hOff).mono rfl (fun k hk => ?_) fun k u hu => ?_
    · rw [hCode]
      apply hAhead
      have hk' : k ∈ takenOff s.cpu (fun k => ((s.setSpin l r).spin k).depth s.current)
          (((s.setSpin l r).setCode ops').code s.current) := hk
      rwa [hSelf.2, hCodeSelf] at hk'
    · have hOther := setSpin_other (s := s) (exec_other hExec hu)
      exact ⟨congrFun hOther.1 k, congrFun hOther.2 k⟩

/-- The first access of a call moves on in the lock and changes nothing else there. -/
theorem Inv.begin_step (h : s.Inv) {pc : LockPc} {action : LockAction} {ops' : List LockOp}
    (hCode : s.code s.current = op :: rest)
    (hDepth : action = .lock → (s.spin l).depth s.current < 2 ^ 32)
    (hExec : (s.spin l).exec s.current action = some ((s.spin l).goto s.current pc))
    (hPlaced : Placed (Function.update (fun k => (s.spin k).pc s.current) l pc)
      (fun k => (s.spin k).depth s.current) ops')
    (hAhead : ∀ k ∈ takenOff s.cpu (fun k => (s.spin k).depth s.current) ops',
      k ∈ takenOff s.cpu (fun k => (s.spin k).depth s.current) (op :: rest)) :
    ((s.setSpin l ((s.spin l).goto s.current pc)).setCode ops').Inv := by
  have hHere : Function.update (fun k => (s.spin k).depth s.current) l
      (((s.spin l).goto s.current pc).depth s.current) = fun k => (s.spin k).depth s.current :=
    Function.update_eq_self l _
  refine h.spin_step hCode hDepth hExec ?_ ?_
  · rw [goto_pc, hHere]
    exact hPlaced
  · rw [hHere]
    exact hAhead

/-- A step of the current task that only moves on in its code and changes the interrupts. -/
theorem Inv.cpu_step (h : s.Inv) {cpu : Interrupts}
    (hPlaced : Placed (fun k => (s.spin k).pc s.current) (fun k => (s.spin k).depth s.current) rest)
    (hAlone : cpu.enabled = false → ((s.setCpu cpu).setCode rest).Alone) :
    ((s.setCpu cpu).setCode rest).Inv := by
  refine ⟨h.spin, fun t => ?_, hAlone⟩
  by_cases ht : t = s.current
  · subst ht
    have hSelf : ((s.setCpu cpu).setCode rest).code s.current = rest := Function.update_self ..
    rw [hSelf]
    exact hPlaced
  · have hSame : ((s.setCpu cpu).setCode rest).code t = s.code t := Function.update_of_ne ht ..
    rw [hSame]
    exact h.placed t

theorem Inv.access_step (h : s.Inv) (hOp : op = .locking l ∨ op = .unlocking l)
    (hCode : s.code s.current = op :: rest) (hStep : s.accessSpin l op rest = some s') : s'.Inv := by
  obtain ⟨r, hExec, rfl⟩ := Option.map_eq_some_iff.mp hStep
  have hPlaced := h.placed s.current
  rw [hCode] at hPlaced
  have hHere : Function.update (fun k => (s.spin k).depth s.current) l ((s.spin l).depth s.current) =
      fun k => (s.spin k).depth s.current := Function.update_eq_self l _
  have hNever : LockAction.access = .lock → (s.spin l).depth s.current < 2 ^ 32 := by simp
  refine h.spin_step hCode hNever hExec ?_ ?_
  · cases hOp with
    | inl hLock =>
        subst hLock
        cases access_locking hPlaced.1 hExec with
        | inl hDone =>
            rw [if_pos hDone.1, hDone.1, hDone.2]
            exact hPlaced.2
        | inr hMore =>
            rw [if_neg hMore.2.1, hMore.2.2, hHere]
            refine ⟨?_, ?_⟩
            · rw [Function.update_self]
              exact hMore.1
            · rw [Function.update_idem]
              exact hPlaced.2
    | inr hUnlock =>
        subst hUnlock
        cases access_unlocking hPlaced.1 hExec with
        | inl hDone =>
            rw [if_pos hDone.1, hDone.1, hDone.2]
            exact hPlaced.2
        | inr hMore =>
            rw [if_neg hMore.2.1, hMore.2.2, hHere]
            refine ⟨?_, ?_⟩
            · rw [Function.update_self]
              exact hMore.1
            · rw [Function.update_idem]
              exact hPlaced.2
  · intro k hk
    cases hOp with
    | inl hLock =>
        subst hLock
        cases access_locking hPlaced.1 hExec with
        | inl hDone =>
            rw [if_pos hDone.1, hDone.2] at hk
            exact List.mem_append_right _ hk
        | inr hMore => rwa [if_neg hMore.2.1, hMore.2.2, hHere] at hk
    | inr hUnlock =>
        subst hUnlock
        cases access_unlocking hPlaced.1 hExec with
        | inl hDone =>
            rw [if_pos hDone.1, hDone.2] at hk
            exact hk
        | inr hMore => rwa [if_neg hMore.2.1, hMore.2.2, hHere] at hk

theorem Inv.step_op (h : s.Inv) (hCode : s.code s.current = op :: rest)
    (hStep : s.execOp rest op = some s')
    (hClean : s.cpu.enabled = true → s'.cpu.enabled = false → s'.Alone) : s'.Inv := by
  have hPlaced := h.placed s.current
  rw [hCode] at hPlaced
  have hHere : ∀ l, Function.update (fun k => (s.spin k).depth s.current) l
      ((s.spin l).depth s.current) = fun k => (s.spin k).depth s.current := fun l =>
    Function.update_eq_self l _
  have hBegin : ∀ {l : SpinName} {pc : LockPc}, (s.spin l).pc s.current = .outside →
      Function.update (Function.update (fun k => (s.spin k).pc s.current) l pc) l .outside =
        fun k => (s.spin k).pc s.current := fun {l pc} hPc => by
    rw [Function.update_idem, ← hPc]
    exact Function.update_eq_self l _
  have hAhead : ∀ {cpu : Interrupts}, (s.cpu.enabled = false → cpu.enabled = false →
      takenOff s.cpu (fun l => (s.spin l).depth s.current) (op :: rest) =
        takenOff cpu (fun l => (s.spin l).depth s.current) rest) →
      s' = (s.setCpu cpu).setCode rest → cpu.enabled = false → s'.Alone := by
    rintro cpu hSame rfl hOff
    cases hOn : s.cpu.enabled with
    | true => exact hClean hOn hOff
    | false =>
        refine (h.alone hOn).mono rfl (fun k hk => ?_) fun _ _ _ => ⟨rfl, rfl⟩
        have hCode' : ((s.setCpu cpu).setCode rest).code s.current = rest := Function.update_self ..
        have hk' : k ∈ takenOff cpu (fun l => (s.spin l).depth s.current)
            (((s.setCpu cpu).setCode rest).code s.current) := hk
        rw [hCode'] at hk'
        rw [hCode, hSame hOn hOff]
        exact hk'
  cases op with
  | sLock l =>
      rw [execOp] at hStep
      split at hStep
      · rename_i hStack
        obtain ⟨r, hExec, rfl⟩ := Option.map_eq_some_iff.mp hStep
        obtain ⟨hPc, rfl⟩ := exec_lock hExec
        refine h.begin_step hCode (fun _ => hStack.trans (by decide)) hExec ⟨?_, ?_⟩ fun _ hk => hk
        · rw [Function.update_self]
          trivial
        · rw [hBegin hPc]
          exact hPlaced
      · cases hStep
  | sUnlock l =>
      obtain ⟨r, hExec, rfl⟩ := Option.map_eq_some_iff.mp hStep
      obtain ⟨hPc, rfl⟩ := exec_unlock hExec
      have hNever : LockAction.unlock = .lock → (s.spin l).depth s.current < 2 ^ 32 := by simp
      refine h.begin_step hCode hNever hExec ⟨?_, ?_⟩ fun _ hk => hk
      · rw [Function.update_self]
        trivial
      · rw [hBegin hPc]
        exact hPlaced
  | locking l => exact h.access_step (Or.inl rfl) hCode hStep
  | unlocking l => exact h.access_step (Or.inr rfl) hCode hStep
  | lockIrq l =>
      obtain ⟨cpu, hLock, rfl⟩ := Option.map_eq_some_iff.mp hStep
      refine h.cpu_step hPlaced (hAhead (fun _ _ => ?_) rfl)
      rw [takenOff, hLock]
  | unlockIrq l =>
      obtain rfl := Option.some.inj hStep
      refine h.cpu_step hPlaced (hAhead (fun _ hOff => ?_) rfl)
      rw [takenOff, if_neg (by simp [hOff])]
  | cli =>
      obtain rfl := Option.some.inj hStep
      exact h.cpu_step hPlaced (hAhead (fun _ _ => by rw [takenOff]) rfl)
  | iret saved =>
      cases saved with
      | none =>
          obtain rfl := Option.some.inj hStep
          exact h.cpu_step hPlaced fun hOff => nomatch hOff
      | some pc =>
          rw [execOp] at hStep
          split at hStep
          · rename_i hPc
            obtain rfl := Option.some.inj hStep
            obtain ⟨hResumes, hReenter, hRest⟩ := hPlaced
            have hFits := (h.spin .pnodeLock).fits s.current
            rw [hPc] at hFits
            have hGoto := (h.spin .pnodeLock).goto ((fits_reenterable hReenter).mpr ⟨hResumes, hFits.2⟩)
            refine ⟨setSpin_inv h.spin hGoto, placed_setSpin (fun t _ => h.placed t)
              (fun t ht => goto_other ht) ?_, fun hOff => nomatch hOff⟩
            rw [goto_pc]
            show Placed _ (Function.update _ _ ((s.spin .pnodeLock).depth s.current)) rest
            rw [hHere]
            exact hRest
          · cases hStep

/-- The task that gets the CPU begins with `finish_task_switch`. -/
theorem Inv.switch (h : s.Inv) {heap : Bool}
    (hReenter : heap = true → Reenterable ((s.spin .pnodeLock).pc t))
    (hAlone : (s.switch t heap).Alone) : (s.switch t heap).Inv := by
  have hPlaced := h.placed t
  cases heap with
  | false =>
      refine ⟨h.spin, fun u => ?_, fun _ => hAlone⟩
      by_cases hu : u = t
      · subst hu
        have hCode : (s.switch u false).code u =
            finishTaskSwitch false ++ .iret none :: s.code u := Function.update_self ..
        rw [hCode]
        exact hPlaced
      · have hCode : (s.switch t false).code u = s.code u := Function.update_of_ne hu ..
        rw [hCode]
        exact h.placed u
  | true =>
      have hCalm := hReenter rfl
      obtain ⟨hResumes, hSettled⟩ := (fits_reenterable hCalm).mp ((h.spin .pnodeLock).fits t)
      have hDepth : (s.spin .pnodeLock).depth t ≤ 2 ^ 32 := resumes_le hResumes
      have hGoto : ((s.spin .pnodeLock).goto t .outside).Inv :=
        (h.spin .pnodeLock).goto ⟨hDepth, hSettled⟩
      let s₁ : LockSystem := { s with current := t, cpu := { s.cpu with enabled := false } }
      refine ⟨setSpin_inv (s := s₁) h.spin hGoto, placed_setSpin (s := s₁)
        (fun u _ => h.placed u) (fun u hu => goto_other hu) ?_, fun _ => hAlone⟩
      have hBack : Function.update (Function.update (fun k => (s.spin k).pc t) .pnodeLock .outside)
          .pnodeLock ((s.spin .pnodeLock).pc t) = fun k => (s.spin k).pc t := by
        rw [Function.update_idem]
        exact Function.update_eq_self SpinName.pnodeLock _
      have hSame : Function.update (fun k => (s.spin k).depth t) .pnodeLock
          ((s.spin .pnodeLock).depth t) = fun k => (s.spin k).depth t :=
        Function.update_eq_self SpinName.pnodeLock _
      rw [goto_pc]
      show Placed (Function.update (fun k => (s.spin k).pc t) _ _)
        (Function.update (fun k => (s.spin k).depth t) _ ((s.spin .pnodeLock).depth t)) _
      rw [hSame]
      show Placed _ (Function.update (Function.update _ _ _) _ _) (.iret _ :: s.code t)
      rw [Function.update_idem, Function.update_self, Nat.add_sub_cancel, hSame]
      refine ⟨hResumes, hCalm, ?_⟩
      show Placed (Function.update (Function.update (fun k => (s.spin k).pc t) _ _) _
        ((s.spin .pnodeLock).pc t)) _ (s.code t)
      rw [hBack]
      exact hPlaced

theorem Inv.step (h : s.Inv) (hStep : Step Clean s s') : s'.Inv := by
  obtain ⟨e, hClean, hExec⟩ := hStep
  cases e with
  | call c =>
      rw [exec] at hExec
      split at hExec
      · rename_i hReady
        obtain rfl := Option.some.inj hExec
        show ((s.setCpu s.cpu).setCode _).Inv
        refine h.cpu_step (Placed.of_plain (plain_code c)) fun hOff => ?_
        exact absurd hOff (by simp [hReady.2])
      · cases hExec
  | step =>
      cases hCode : s.code s.current with
      | nil =>
          rw [exec, hCode] at hExec
          cases hExec
      | cons op rest =>
          have hOp := hExec
          rw [exec, hCode] at hOp
          exact h.step_op hCode hOp (hClean.1 s' hExec)
  | switch t heap =>
      have hAlone := hClean.1 s' hExec
      rw [exec] at hExec
      split at hExec
      · rename_i hReady
        obtain rfl := Option.some.inj hExec
        refine h.switch (fun hHeap => ?_) (hAlone hReady.1 ?_)
        · subst hHeap
          exact hClean.2
        · cases heap <;> rfl
      · cases hExec

theorem Initial.inv (h : s.Initial) : s.Inv := by
  obtain ⟨hSpin, hCpu, hCode⟩ := h
  refine ⟨fun l => hSpin l ▸ LockRun.initial_inv, fun t => ?_, fun hOff => ?_⟩
  · rw [hCode]
    trivial
  · rw [hCpu] at hOff
    cases hOff

/-- With interrupts disabled the running task never waits for a preempted one. -/
theorem Inv.not_deadlocked (h : s.Inv) : ¬ s.Deadlocked := by
  rintro ⟨hOff, l, rest, ticket, owner, hCode, hPc, _, hOwner, hne⟩
  have hFits := (h.spin l).fits s.current
  rw [hPc] at hFits
  have hAhead : l ∈ takenOff s.cpu (fun l => (s.spin l).depth s.current) (s.code s.current) := by
    rw [hCode, takenOff, if_pos hFits.1]
    exact List.mem_cons_self
  have hAlone := h.alone hOff l hAhead owner hne
  exact ((h.spin l).owner hOwner).elim hAlone.1 hAlone.2

/-- No run of clean steps comes to a deadlock. -/
theorem reachable_not_deadlocked (h : Reachable Clean s) : ¬ s.Deadlocked :=
  Inv.not_deadlocked (h.invariant (fun _ hs => hs.inv) fun _ _ hs hStep => hs.step hStep)

section Runs

variable {may : LockSystem → LockEvent → Prop}

/-- The events one after another, as long as each of them is let through. -/
def perform (may : LockSystem → LockEvent → Prop) [∀ s e, Decidable (may s e)] :
    List LockEvent → LockSystem → Option LockSystem
  | [], s => some s
  | e :: rest, s => if may s e then (s.exec e).bind (perform may rest) else none

theorem reachable_perform [∀ s e, Decidable (may s e)] {events : List LockEvent}
    (h : Reachable may s) (hRun : perform may events s = some s') : Reachable may s' := by
  induction events generalizing s with
  | nil => exact Option.some.inj hRun ▸ h
  | cons e rest ih =>
      rw [perform] at hRun
      split at hRun
      · rename_i hMay
        obtain ⟨s₁, hExec, hRest⟩ := Option.bind_eq_some_iff.mp hRun
        exact ih (h.next ⟨e, hMay, hExec⟩) hRest
      · cases hRun

def start : LockSystem where
  spin _ := LockRun.initial
  cpu := ⟨true, fun _ => .init⟩
  current := 0
  code _ := []

theorem start_reachable : Reachable may start :=
  Transition.Reachable.of_init ⟨fun _ => rfl, rfl, fun _ => rfl⟩

instance (pc : LockPc) : Decidable (∃ ticket, pc = .spin ticket) :=
  match pc with
  | .spin ticket => isTrue ⟨ticket, rfl⟩
  | .outside | .readOwner | .loadNested | .storeNested _ | .takeTicket | .writeOwner | .writeCounter
  | .loadCounter | .storeCounter _ | .testCounter | .clearOwner | .advance => isFalse nofun

instance (r : LockRun) (t : TaskPtr) : Decidable (r.Waits t) :=
  inferInstanceAs (Decidable ((∃ ticket, r.pc t = .spin ticket) ∨ _ = _ ∨ _ = _))

instance : DecidablePred Reenterable := fun pc =>
  match pc with
  | .outside | .readOwner | .loadNested | .storeNested _ | .takeTicket | .loadCounter
  | .storeCounter _ => isTrue trivial
  | .spin _ | .writeOwner | .writeCounter | .testCounter | .clearOwner | .advance => isFalse id

instance (s : LockSystem) : Decidable s.Alone :=
  inferInstanceAs (Decidable (∀ l ∈ takenOff _ _ _, ∀ u : TaskPtr, u ≠ _ → ¬ _ ∧ ¬ (0 < _)))

instance (s : LockSystem) (e : LockEvent) : Decidable (s.Resumable e) :=
  match e with
  | .switch _ true => inferInstanceAs (Decidable (Reenterable _))
  | .switch _ false | .call _ | .step => isTrue trivial

instance (s : LockSystem) (e : LockEvent) : Decidable (s.Clean e) :=
  inferInstanceAs (Decidable ((∀ s' ∈ s.exec e, _ → _ → s'.Alone) ∧ s.Resumable e))

def steps (n : Nat) : List LockEvent := List.replicate n .step

/-- The first task is preempted while it holds `kslock`; the second one maps a page, waits, and gets
the lock when it is its turn; then the first one unmaps a page. -/
def turns : List LockEvent :=
  [[.call (.pageMap false [])], steps 6, [.switch 1 false], steps 3, [.call (.pageMap false [])],
    steps 4, [.switch 0 true], steps 21, [.switch 1 false], steps 12, [.switch 0 false], steps 3,
    [.call .pageUnmap], steps 7].flatten

theorem reachable_not_deadlocked_example : ∃ s, perform Clean turns start = some s ∧
    s.cpu.enabled = false ∧ (s.spin .kslock).lock.owner = 0 ∧ ¬ s.Deadlocked := by
  have hView : (perform Clean turns start).map
      (fun s => (s.cpu.enabled, (s.spin .kslock).lock.owner)) = some (false, 0) := by
    decide +kernel
  obtain ⟨s, hRun, hSeen⟩ := Option.map_eq_some_iff.mp hView
  obtain ⟨hOff, hOwner⟩ := Prod.mk.inj hSeen
  exact ⟨s, hRun, hOff, hOwner, reachable_not_deadlocked (reachable_perform start_reachable hRun)⟩

/-- A task is preempted while it maps a kernel page, and the next one unmaps a page. -/
theorem page_unmap_deadlocks :
    ¬ ∀ s, Reachable (fun _ _ => True) s → ¬ s.Deadlocked := by
  intro h
  have hView : (perform (fun _ _ => True) [[.call (.pageMap false [])], steps 6, [.switch 1 false],
      steps 3, [.call .pageUnmap], steps 4].flatten start).map (fun s => (s.cpu.enabled, s.current, s.code s.current,
        (s.spin .kslock).pc s.current, (s.spin .kslock).lock)) =
      some (false, 1, [.locking .kslock, .unlockIrq (.pageLock 1), .sUnlock .kslock], .spin 2,
        ⟨2, 1, 0, 1⟩) := by decide +kernel
  obtain ⟨s, hRun, hSeen⟩ := Option.map_eq_some_iff.mp hView
  simp only [Prod.mk.injEq] at hSeen
  obtain ⟨hOff, hCurrent, hCode, hPc, hLock⟩ := hSeen
  refine h s (reachable_perform start_reachable hRun) ⟨hOff, .kslock, _, 2, 0, hCode, hPc, ?_, ?_, ?_⟩
  · rw [hLock]
    decide
  · rw [hLock]
    rfl
  · rw [hCurrent]
    decide

end Runs

end LockSystem
end ArtOS

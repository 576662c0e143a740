import ArtOS.Tasks.LoadedImage

/-! When the segments of an executable are there at the end of `load_task`. What the free page frames
hold must not matter: a page that is mapped over another one shows it. -/
namespace ArtOS

open Paging

variable {kernelEnd p addr n entry heap stack : Nat} {found : Bool} {s t u : Paging} {bytes : List (BitVec 8)}
variable {f : InitrdFile} {h : ProgramHeader} {hs : List ProgramHeader}

namespace TaskMemory

/-- Two memories with the same page map, or two runs that have ended in the same way. -/
inductive Alike (p : Nat) : TaskMemory → TaskMemory → Prop
  | running {s t : Paging} (hMap : s.UserMap p) (hAgree : s.Agree p t) : Alike p (.running s) (.running t)
  | ended {m : TaskMemory} (hEnd : ∀ s, m ≠ .running s) : Alike p m m

variable {m m' : TaskMemory}

/-- A run that has ended stays where it is. -/
theorem Alike.of_ended (hEnd : ∀ s, m ≠ .running s) (hm : m' = m) : Alike p m' m' := hm ▸ .ended hEnd

theorem Alike.write (kernelEnd : Nat) (found : Bool) (hAlike : Alike p m m')
    (hSpares : ∀ s, m = .running s → s.Spares p addr bytes.length) :
    Alike p ((imageLoader kernelEnd p found).write addr bytes m)
      ((imageLoader kernelEnd p found).write addr bytes m') := by
  cases hAlike with
  | running hMap hAgree =>
      rcases hAgree.writeBytes hMap (hSpares _ rfl) with ⟨s', t', hWrite, hWrite', hMap', hAgree'⟩ | ⟨hWrite, hWrite'⟩
      · simp only [imageLoader, hWrite, hWrite']
        exact .running hMap' hAgree'
      · simp only [imageLoader, hWrite, hWrite']
        exact .ended fun s hs => by cases hs
  | ended hEnd =>
      exact .of_ended hEnd ((imageLoader_keeps kernelEnd p found hEnd).write addr bytes _ rfl)

theorem Alike.userMap (hAlike : Alike p m m') (hm : m = .running s) : s.UserMap p := by
  cases hAlike with
  | running hMap _ => exact running.inj hm ▸ hMap
  | ended hEnded => exact absurd hm (hEnded s)

/-- A region is mapped and cleared. -/
theorem Alike.clearRegion (kernelEnd : Nat) (found : Bool) (hMap : s.UserMap p) (hAgree : s.Agree p t)
    (hEnd : addr + n * pageSize ≤ treePages * pageSize)
    (hRest : n = 0 ∨ addr % pageSize = 0 ∨ s.NoTable p (addr >>> pageBits + n)) :
    Alike p ((imageLoader kernelEnd p found).mapRegion addr n (.running s)).1
        ((imageLoader kernelEnd p found).mapRegion addr n (.running t)).1 ∧
      ((imageLoader kernelEnd p found).mapRegion addr n (.running t)).2 =
        ((imageLoader kernelEnd p found).mapRegion addr n (.running s)).2 ∧
      Alike p ((imageLoader kernelEnd p found).write addr (List.replicate (n * pageSize) 0)
          ((imageLoader kernelEnd p found).mapRegion addr n (.running s)).1)
        ((imageLoader kernelEnd p found).write addr (List.replicate (n * pageSize) 0)
          ((imageLoader kernelEnd p found).mapRegion addr n (.running t)).1) := by
  rcases mapRegion_cases kernelEnd found hMap hAgree (region_tree hEnd) with
    ⟨ret, hStarved, hStarved', _⟩ | ⟨s', t', hRunning, hRunning', hMapped, hAgree'⟩
  · have hEnded : Alike p .starved .starved := .ended fun s hs => by cases hs
    rw [hStarved, hStarved']
    exact ⟨hEnded, rfl, hEnded⟩
  · have hAlike : Alike p (.running s') (.running t') := .running hMapped.map hAgree'
    rw [hRunning, hRunning']
    refine ⟨hAlike, rfl, hAlike.write kernelEnd found ?_⟩
    rintro u hu
    obtain rfl := running.inj hu
    rw [List.length_replicate]
    exact hMapped.clear_spares hEnd hRest

theorem Alike.loadHeader (kernelEnd heap stack : Nat) (found : Bool) (hAlike : Alike p m m')
    (hForm : h.type = elfPtLoad → h.WellFormed f) (hLength : f.length < 2 ^ 32) (hBelow : h.BelowTables entry)
    (hSpares : ∀ s, m = .running s → h.Reaches entry (s.NoTable p)) :
    Alike p ((imageLoader kernelEnd p found).loadHeader f entry h heap stack m).1
        ((imageLoader kernelEnd p found).loadHeader f entry h heap stack m').1 ∧
      ((imageLoader kernelEnd p found).loadHeader f entry h heap stack m').2 =
        ((imageLoader kernelEnd p found).loadHeader f entry h heap stack m).2 := by
  cases hAlike with
  | ended hEnded =>
      exact ⟨.of_ended hEnded ((imageLoader_keeps kernelEnd p found hEnded).loadHeader f entry h heap stack rfl), rfl⟩
  | @running s t hMap hAgree =>
      by_cases hLoad : h.type = elfPtLoad
      · have hEnd := clears_tree hForm hBelow (Or.inl hLoad)
        obtain ⟨_, _, hCleared⟩ := Alike.clearRegion kernelEnd found hMap hAgree hEnd (hSpares s rfl)
        rw [loadHeader_load kernelEnd p heap stack found _ (hForm hLoad) hEnd hLoad,
          loadHeader_load kernelEnd p heap stack found _ (hForm hLoad) hEnd hLoad]
        refine ⟨hCleared.write kernelEnd found ?_, rfl⟩
        intro u hu
        exact (hCleared.userMap hu).spares ((hForm hLoad).copies_inUser hLength)
      · by_cases hStack : h.type = elfPtGnuStack
        · obtain ⟨hMapped, hRet, hCleared⟩ := Alike.clearRegion kernelEnd found hMap hAgree
            (clears_tree hForm hBelow (Or.inr hStack)) (hSpares s rfl)
          rw [loadHeader_stack kernelEnd p heap stack found _ hStack,
            loadHeader_stack kernelEnd p heap stack found _ hStack, hRet]
          split
          · exact ⟨hMapped, rfl⟩
          · exact ⟨hCleared, rfl⟩
        · rw [loadHeader_other kernelEnd p heap stack found _ hLoad hStack,
            loadHeader_other kernelEnd p heap stack found _ hLoad hStack]
          exact ⟨.running hMap hAgree, rfl⟩

/-- The headers come to the same end. -/
theorem Alike.loadEach (kernelEnd heap stack : Nat) (found : Bool) (hAlike : Alike p m m')
    (hForm : ∀ h ∈ hs, h.type = elfPtLoad → h.WellFormed f) (hLength : f.length < 2 ^ 32)
    (hBelow : ∀ h ∈ hs, h.BelowTables entry)
    (hSpares : ∀ s, m = .running s → ProgramHeader.AllReach entry (s.NoTable p) hs) :
    Alike p ((imageLoader kernelEnd p found).loadEach f entry hs heap stack m).1
      ((imageLoader kernelEnd p found).loadEach f entry hs heap stack m').1 := by
  induction hs generalizing heap stack m m' with
  | nil => exact hAlike
  | cons h rest ih =>
      obtain ⟨hFirst, hRest⟩ := List.forall_mem_cons.1 hForm
      obtain ⟨hFirst', hRest'⟩ := List.forall_mem_cons.1 hBelow
      obtain ⟨hRound, hSame⟩ := hAlike.loadHeader kernelEnd heap stack found hFirst hLength hFirst'
        fun s hs => (hSpares s hs).1
      have hNext : ∀ u, ((imageLoader kernelEnd p found).loadHeader f entry h heap stack m).1 = .running u →
          ProgramHeader.AllReach entry (u.NoTable p) rest := by
        intro u hu
        cases hAlike with
        | ended hEnded =>
            rw [(imageLoader_keeps kernelEnd p found hEnded).loadHeader f entry h heap stack rfl] at hu
            exact absurd hu (hEnded u)
        | @running s t hMap hAgree =>
            obtain ⟨hSpare, hLater⟩ := hSpares s rfl
            rcases loadHeader_cases kernelEnd heap stack found hMap hFirst hLength hFirst' hSpare with
              hStarved | ⟨hFault, _⟩ | ⟨u', hDone, hEffect, _⟩
            · rw [hStarved] at hu
              cases hu
            · rw [hFault] at hu
              cases hu
            · rw [hDone] at hu
              obtain rfl := running.inj hu
              exact allReach_mono hRest hRest' hEffect.noTable hLater
      rw [Loader.loadEach, Loader.loadEach]
      generalize (imageLoader kernelEnd p found).loadHeader f entry h heap stack m = x at hRound hSame hNext ⊢
      generalize (imageLoader kernelEnd p found).loadHeader f entry h heap stack m' = y at hRound hSame ⊢
      obtain ⟨x, ends⟩ := x
      obtain ⟨y, ends'⟩ := y
      obtain rfl : ends' = ends := hSame
      cases ends' with
      | none => exact hRound
      | some ends => exact ih _ _ hRound hRest hRest' hNext

theorem Alike.starved (hAlike : Alike p m m') (hm : m' = .starved) : m = .starved := by
  cases hAlike with
  | running => cases hm
  | ended => exact hm

end TaskMemory

namespace Paging

variable {a : Nat} {b x : BitVec 8}

instance (s : Frames) : DecidablePred s.Known := fun _ => inferInstanceAs (Decidable (_ → _))

/-- The same memory with `x` all over the free frames. -/
def fill (x : BitVec 8) (s : Paging) : Paging :=
  { s with mem := fun f => if s.frames.Known f then s.mem f else fun _ => PageEntry.ofBytes fun _ => x }

theorem SameUse.refl (s : Paging) : s.SameUse s := ⟨rfl, rfl, fun _ _ => rfl⟩

theorem sameUse_fill (x : BitVec 8) (s : Paging) : s.SameUse (s.fill x) := ⟨rfl, rfl, fun _ hf => if_pos hf⟩

theorem freeBytes_fill (x : BitVec 8) (s : Paging) : (s.fill x).FreeBytes x := by
  intro f hf off
  have hWords : (s.fill x).mem f = fun _ => PageEntry.ofBytes fun _ => x := if_neg hf
  rw [byteIn, hWords]
  exact PageEntry.byte_ofBytes (Nat.mod_lt _ (by decide))

theorem SameUse.agree (h : s.SameUse t) (hs : s.UserMap p) : s.Agree p t where
  frames := h.frames
  usage := h.usage
  root := h.mem p hs.tables.root
  table i hi hThere := h.mem _ (hs.tables.table i hi hThere)

/-- A new task has no pages of its own. -/
theorem InUse.userMap (h : s.InUse p)
    (hKnown : ∀ v e, v < treePages → walk s.mem p v = some e → s.frames.Known e.frame)
    (hNone : ∀ v, UserPage v → ¬ (s.mem p (v / pageMapEntries)).Has pgPresent) : s.UserMap p := by
  have hWalk : ∀ v, UserPage v → walk s.mem p v = none := fun v hv => walk_absent (hNone v hv)
  refine ⟨h, fun v hv hThere => absurd hThere (hNone v hv), hKnown, ?_, ?_⟩
  · intro v e hv he
    rw [hWalk v hv] at he
    cases he
  · intro v w e e' _ hw _ he'
    rw [hWalk w hw] at he'
    cases he'

/-- The user finds this byte there. -/
def UserByte (p a : Nat) (b : BitVec 8) (s : Paging) : Prop :=
  s.byteAt p a = some b ∧ (s.mem p (a >>> pageBits / pageMapEntries)).Has pgUser ∧
    ∃ e, walk s.mem p (a >>> pageBits) = some e ∧ e.Has pgUser

/-- What is mapped in user space is there for the user. -/
theorem UserMap.userByte (h : s.UserMap p) (ha : UserPage (a >>> pageBits)) :
    s.UserByte p a b ↔ s.byteAt p a = some b := by
  refine ⟨fun hByte => hByte.1, ?_⟩
  intro hByte
  obtain ⟨e, he⟩ := Option.isSome_iff_exists.1 (byteAt_isSome.symm.trans (Option.isSome_of_eq_some hByte))
  refine ⟨hByte, h.access _ ha ?_, e, he, (h.page _ e ha he).1⟩
  by_contra hAbsent
  rw [walk_absent hAbsent] at he
  cases he

end Paging

theorem Effects.map (hEffects : Effects f entry p hs s t) (hMap : s.UserMap p) : t.UserMap p := by
  induction hs generalizing s with
  | nil =>
      obtain rfl : t = s := hEffects
      exact hMap
  | cons g rest ih =>
      obtain ⟨u, hEffect, hRest⟩ := hEffects
      exact ih hRest hEffect.map

/-- The pages that are there in the end. -/
theorem Effects.mapped (hEffects : Effects f entry p hs s t) {v : Nat} (hv : v < treePages) :
    t.Mapped p v ↔ s.Mapped p v ∨ ∃ g ∈ hs, g.Maps entry v := by
  induction hs generalizing s with
  | nil =>
      obtain rfl : t = s := hEffects
      simp
  | cons g rest ih =>
      obtain ⟨u, hEffect, hRest⟩ := hEffects
      have hFirst : u.Mapped p v ↔ s.Mapped p v ∨ g.Maps entry v := hEffect.mapped v hv
      rw [ih hRest, hFirst, or_assoc, List.exists_mem_cons_iff]

theorem Effects.noTable (hEffects : Effects f entry p hs s t) {v : Nat} (hv : v < treePages)
    (hOr : s.NoTable p v ∨ ∃ g ∈ hs, g.Maps entry v) : t.NoTable p v := by
  induction hs generalizing s with
  | nil =>
      obtain rfl : t = s := hEffects
      exact hOr.resolve_right (by simp)
  | cons g rest ih =>
      obtain ⟨u, hEffect, hRest⟩ := hEffects
      apply ih hRest
      rw [List.exists_mem_cons_iff, ← or_assoc] at hOr
      exact hOr.imp_left (hEffect.noTable v hv)

/-- What a header has cleared stays mapped. -/
theorem Effects.covers (hEffects : Effects f entry p hs s t) {a : Nat} (ha : a >>> pageBits < treePages)
    {g : ProgramHeader} (hg : g ∈ hs) (hClears : g.Clears entry a) : t.Mapped p (a >>> pageBits) := by
  induction hs generalizing s with
  | nil => cases hg
  | cons l rest ih =>
      obtain ⟨u, hEffect, hRest⟩ := hEffects
      rcases List.mem_cons.1 hg with rfl | hg
      · exact (hRest.mapped ha).2 (Or.inl (hEffect.covered a hClears))
      · exact ih hRest hg

theorem stackTop_tree (hBelow : ∀ h ∈ hs, h.BelowTables entry) (hStack : Loader.stackTop entry hs 0 ≠ 0) :
    Loader.stackTop entry hs 0 + defaultStackSize ≤ treePages * pageSize := by
  obtain ⟨⟨g, hg, hType⟩, hTop⟩ := (Loader.stackTop_eq entry hs 0).resolve_left hStack
  rw [hTop]
  exact hBelow g hg hType

/-- No table is behind what a header has cleared. -/
theorem Effects.spares (hEffects : Effects f entry p hs s t)
    (hForm : ∀ h ∈ hs, h.type = elfPtLoad → h.WellFormed f) (hBelow : ∀ h ∈ hs, h.BelowTables entry)
    (hSpares : ProgramHeader.AllReach entry (s.NoTable p) hs) {a : Nat} (ha : a >>> pageBits < treePages)
    {g : ProgramHeader} (hg : g ∈ hs) (hClears : g.Clears entry a) : t.NoTable p (a >>> pageBits) := by
  induction hs generalizing s with
  | nil => cases hg
  | cons l rest ih =>
      obtain ⟨u, hEffect, hRest⟩ := hEffects
      obtain ⟨hFirst, hLater⟩ := hSpares
      have hForm' := fun h hh => hForm h (List.mem_cons_of_mem l hh)
      have hBelow' := fun h hh => hBelow h (List.mem_cons_of_mem l hh)
      rcases List.mem_cons.1 hg with rfl | hg
      · apply hRest.noTable ha
        apply Or.inl
        apply hEffect.noTable _ ha
        rcases page_of_clear hClears.1 hClears.2 with hInside | ⟨hPages, hUnaligned, hLast⟩
        · exact Or.inr hInside
        · rw [hLast]
          exact Or.inl ((hFirst.resolve_left hPages).resolve_left hUnaligned)
      · exact ih hRest hForm' hBelow' (allReach_mono hForm' hBelow' hEffect.noTable hLater) hg

/-- The stack is there, and no table is behind it. -/
theorem Effects.stack_mapped (hEffects : Effects f entry p hs s t)
    (hForm : ∀ h ∈ hs, h.type = elfPtLoad → h.WellFormed f) (hBelow : ∀ h ∈ hs, h.BelowTables entry)
    (hSpares : ProgramHeader.AllReach entry (s.NoTable p) hs) (hStack : Loader.stackTop entry hs 0 ≠ 0) :
    ∀ a, Loader.stackTop entry hs 0 ≤ a → a < Loader.stackTop entry hs 0 + defaultStackSize →
      t.Mapped p (a >>> pageBits) ∧ t.NoTable p (a >>> pageBits) := by
  have hEnd := stackTop_tree hBelow hStack
  obtain ⟨⟨g, hg, hType⟩, hTop⟩ := (Loader.stackTop_eq entry hs 0).resolve_left hStack
  intro a hFrom hTo
  have hLow : a >>> pageBits < treePages := page_tree (hTo.trans_le hEnd)
  have hStart : g.start entry = Loader.stackTop entry hs 0 := (if_pos hType).trans hTop.symm
  have hPages : g.npages * pageSize = defaultStackSize := by
    have hLoad : g.type ≠ elfPtLoad := by
      rw [hType]
      decide
    rw [ProgramHeader.npages, if_neg hLoad, if_pos hType]
    decide
  have hClears : g.Clears entry a := by
    rw [ProgramHeader.Clears, hStart, hPages]
    exact ⟨hFrom, hTo⟩
  exact ⟨hEffects.covers hLow hg hClears, hEffects.spares hForm hBelow hSpares hLow hg hClears⟩

/-- The pages behind a write are there. -/
def Access.Hits (p : Nat) (s : Paging) : Access → Prop
  | .map .. => True
  | .write addr len => ∀ a, addr ≤ a → a < addr + len → s.Mapped p (a >>> pageBits)

/-- A write that does no damage to the page map. -/
def Access.Spares (p : Nat) (s : Paging) : Access → Prop
  | .map .. => False
  | .write addr len => s.Spares p addr len

/-- Nothing but such writes has been done since `u`: it goes on with the same pages if they have all hit
one, and has ended otherwise. -/
def Pushing (p : Nat) (u : Paging) (x : TaskMemory × List Access) : Prop :=
  (∀ a ∈ x.2, a.Spares p u) →
    (∃ t, x.1 = .running t ∧ t.UserMap p ∧ (∀ v < treePages, (t.Mapped p v ↔ u.Mapped p v)) ∧
      (∀ v, u.NoTable p v → t.NoTable p v) ∧ ∀ a ∈ x.2, a.Hits p u) ∨
    x.1 = .fault ∧ ∃ a ∈ x.2, ¬ a.Hits p u

theorem Pushing.write (kernelEnd addr : Nat) (found : Bool) (bytes : List (BitVec 8))
    (x : TaskMemory × List Access) (hx : Pushing p u x) :
    Pushing p u ((imageLoader kernelEnd p found).logged.write addr bytes x) := by
  obtain ⟨m, log⟩ := x
  intro hAll
  obtain ⟨hLast, hOld⟩ := List.forall_mem_cons.1 hAll
  have hSpares : u.Spares p addr bytes.length := hLast
  rcases hx hOld with ⟨t, hRunning, hMap, hSame, hKept, hHits⟩ | ⟨hFault, a, ha, hMiss⟩
  · obtain rfl : m = .running t := hRunning
    have hPages : ∀ a, addr ≤ a → a < addr + bytes.length →
        ((walk t.mem p (a >>> pageBits)).isSome ↔ u.Mapped p (a >>> pageBits)) := fun a hFrom hTo =>
      hSame _ (hSpares a hFrom hTo).1
    rcases hMap.writeBytes fun a hFrom hTo => hKept _ (hSpares a hFrom hTo) with
      ⟨t', hWrite, hWrites, hThere⟩ | ⟨hWrite, a, hFrom, hTo, hAbsent⟩
    · refine Or.inl ⟨t', by simp only [Loader.logged, imageLoader, hWrite], hWrites.agree.userMap hMap, ?_,
        fun v hv => hWrites.agree.noTable (hKept v hv), ?_⟩
      · intro v hv
        rw [Mapped, hWrites.agree.walk_tree hv]
        exact hSame v hv
      · refine List.forall_mem_cons.2 ⟨?_, hHits⟩
        exact fun a hFrom hTo => (hPages a hFrom hTo).1 (hThere a hFrom hTo)
    · refine Or.inr ⟨by simp only [Loader.logged, imageLoader, hWrite], _, List.mem_cons_self, ?_⟩
      intro hHits'
      have hPage := (hPages a hFrom hTo).2 (hHits' a hFrom hTo)
      rw [hAbsent] at hPage
      cases hPage
  · obtain rfl : m = .fault := hFault
    exact Or.inr ⟨rfl, a, List.mem_cons_of_mem _ ha, hMiss⟩

/-- Below the stack there is less than a page, so every byte from the lowest word on lies in a page of
the stack or in that of the lowest word. -/
theorem pushed_page {argc b : Nat} {Q : Nat → Prop} (hArgc : argc ≤ maxArgs) (hLow : 4 * argc ≤ stack + 12276)
    (hStack : ∀ a, stack ≤ a → a < stack + defaultStackSize → Q (a >>> pageBits))
    (hLowest : Q ((stack + 12276 - 4 * argc) >>> pageBits)) (hFrom : stack + 12276 - 4 * argc ≤ b)
    (hTo : b < stack + defaultStackSize) : Q (b >>> pageBits) := by
  have hMax : maxArgs = 4084 := rfl
  have hSize : defaultStackSize = 16384 := rfl
  by_cases hIn : stack ≤ b
  · exact hStack b hIn hTo
  · by_cases hFirst : b >>> pageBits = stack >>> pageBits
    · rw [hFirst]
      exact hStack stack le_rfl (by omega)
    · have hSame : b >>> pageBits = (stack + 12276 - 4 * argc) >>> pageBits := by
        rw [page_eq, page_eq] at hFirst
        rw [page_eq, page_eq]
        omega
      rw [hSame]
      exact hLowest

/-- On a stack that is mapped, only the page of the lowest word can be missing. -/
theorem pushArgs_running (kernelEnd : Nat) (found : Bool) (args : LoadArgs) (behind : Nat → BitVec 8)
    (hMap : u.UserMap p) (hEnvc : args.envc = 0) (hArgc : args.argc ≤ maxArgs)
    (hLow : 4 * args.argc ≤ stack + 12276) (hHigh : stack + defaultStackSize ≤ treePages * pageSize)
    (hStack : ∀ a, stack ≤ a → a < stack + defaultStackSize →
      u.Mapped p (a >>> pageBits) ∧ u.NoTable p (a >>> pageBits))
    (hLowest : u.NoTable p ((stack + 12276 - 4 * args.argc) >>> pageBits)) :
    (∃ t, ((imageLoader kernelEnd p found).pushArgs args behind stack (.running u)).1 = .running t) ↔
      u.Mapped p ((stack + 12276 - 4 * args.argc) >>> pageBits) := by
  obtain ⟨made, hLog, hMade, hLast⟩ := (imageLoader kernelEnd p found).pushArgs_log args behind stack
    (.running u) [] hEnvc hArgc hLow (hHigh.trans (by decide))
  rw [List.append_nil] at hLog
  have hStart : Pushing p u (.running u, []) := by
    intro _
    exact Or.inl ⟨u, rfl, hMap, fun _ _ => Iff.rfl, fun _ hv => hv, fun a ha => by cases ha⟩
  have hEnd : Pushing p u ((imageLoader kernelEnd p found).logged.pushArgs args behind stack (.running u, [])).1 :=
    Loader.pushArgs_keeps (fun addr bytes x => Pushing.write kernelEnd addr found bytes x) hStart args behind stack
  rw [← Loader.pushArgs_logged (imageLoader kernelEnd p found) args behind stack (.running u, [])]
  have hSpares : ∀ a ∈ made, a.Spares p u := by
    intro a ha
    obtain ⟨addr, len, rfl, hFrom, hTo⟩ := hMade a ha
    exact fun b hb hb' => pushed_page hArgc hLow (fun c hc hc' => (hStack c hc hc').2) hLowest
      (hFrom.trans hb) (hb'.trans_le hTo)
  rcases hEnd (hLog.symm ▸ hSpares) with ⟨t, hRunning, _, _, _, hHits⟩ | ⟨hFault, a, ha, hMiss⟩
  · rw [hLog] at hHits
    exact iff_of_true ⟨t, hRunning⟩ (hHits _ hLast _ le_rfl (by omega))
  · refine iff_of_false ?_ ?_
    · rintro ⟨t, hRunning⟩
      rw [hFault] at hRunning
      cases hRunning
    · intro hPage
      rw [hLog] at ha
      obtain ⟨addr, len, rfl, hFrom, hTo⟩ := hMade a ha
      exact hMiss fun b hb hb' => pushed_page hArgc hLow (fun c hc hc' => (hStack c hc hc').1) hPage
        (hFrom.trans hb) (hb'.trans_le hTo)

namespace InitrdFile

/-- The header of an executable, as `load_task` finds it. -/
def elf (f : InitrdFile) (header : List (BitVec 8)) : ElfHeader :=
  ElfHeader.ofBytes (overlay (f.read 0 sizeofElfHeader) header)

/-- Its program headers. -/
def headers (f : InitrdFile) (header var : List (BitVec 8)) : List ProgramHeader :=
  Loader.programHeaders f (f.elf header) (f.elf header).phEntryCount 0 var

end InitrdFile

/-- Byte `i` of every segment is there for the user. -/
def HoldsImage (f : InitrdFile) (p : Nat) (hs : List ProgramHeader) (t : Paging) : Prop :=
  ∀ h ∈ hs, h.type = elfPtLoad → ∀ i < h.memSize, t.UserByte p (h.virtAddr + i) (h.content f i)

/-- When all program headers have been processed, the segments are there, and no access of `load_task`
misses a page. -/
def Loads (kernelEnd p : Nat) (found : Bool) (f : InitrdFile) (args : LoadArgs) (behind : Nat → BitVec 8)
    (header var : List (BitVec 8)) (s : Paging) : Prop :=
  let m := imageLoader kernelEnd p found
  (∃ t ends, m.loadHeaders f (f.elf header) (f.elf header).phEntryCount 0 var 0 0 (.running s) =
      (.running t, ends) ∧ HoldsImage f p (f.headers header var) t) ∧
    ∃ t, (m.loadTask f args behind header var (.running s)).1 = .running t

/-- If the arguments are pushed, there is a page for the lowest word. -/
def ArgsReach (found : Bool) (args : LoadArgs) (entry : Nat) (hs : List ProgramHeader) (mapped : Nat → Prop) : Prop :=
  let stack := Loader.stackTop entry hs 0
  let lowest := (stack + 12276 - 4 * args.argc) >>> pageBits
  found = true ∧ Loader.heapTop hs 0 ≠ 0 ∧ stack ≠ 0 → mapped lowest ∨ ∃ h ∈ hs, h.Maps entry lowest

/-- Every header finds what it clears mapped and damages no segment before it. -/
def Loadable (found : Bool) (f : InitrdFile) (args : LoadArgs) (header var : List (BitVec 8))
    (mapped : Nat → Prop) : Prop :=
  ProgramHeader.AllReach (f.elf header).entry mapped (f.headers header var) ∧
    ProgramHeader.AllSurvive f (f.elf header).entry (f.headers header var) ∧
      ArgsReach found args (f.elf header).entry (f.headers header var) mapped

/-- What `load_task` writes is no page table: the stack ends below the tables, the lowest word does not
lie before the first address, and where a page is written that no header has mapped, no table is behind
it. -/
structure LeavesTables (p : Nat) (found : Bool) (f : InitrdFile) (args : LoadArgs) (header var : List (BitVec 8))
    (s : Paging) : Prop where
  below : ∀ h ∈ f.headers header var, h.BelowTables (f.elf header).entry
  rest : ProgramHeader.AllReach (f.elf header).entry (s.NoTable p) (f.headers header var)
  lowest : ArgsReach found args (f.elf header).entry (f.headers header var) (s.NoTable p)
  bottom : found = true ∧ Loader.heapTop (f.headers header var) 0 ≠ 0 ∧
      Loader.stackTop (f.elf header).entry (f.headers header var) 0 ≠ 0 →
    4 * args.argc ≤ Loader.stackTop (f.elf header).entry (f.headers header var) 0 + 12276

/-- What a header clears lies in user space. -/
theorem clears_inUser (hForm : h.type = elfPtLoad → h.WellFormed f) (hUser : Loader.Harmless f entry h) :
    InUser (h.start entry) (h.npages * pageSize) := by
  by_cases hLoad : h.type = elfPtLoad
  · have hLow : 0x40000000 ≤ h.virtAddr := (hForm hLoad).low
    obtain ⟨hStart, hPages⟩ := (hForm hLoad).region entry hLoad
    obtain ⟨hPagesIn, hClearIn, _⟩ := hUser.1 ⟨hLoad, by omega⟩
    have hSmall : pageCount h.memSize * pageSize % 2 ^ 32 = pageCount h.memSize * pageSize := by
      have hRange := inUser_iff.1 hPagesIn
      omega
    rw [hStart, hPages, ← hSmall]
    exact hClearIn
  · by_cases hStack : h.type = elfPtGnuStack
    · have hStart : h.start entry = entry * 2 % 2 ^ 32 := if_pos hStack
      rw [hStart, ProgramHeader.npages, if_neg hLoad, if_pos hStack]
      exact (hUser.2 hStack).2
    · rw [ProgramHeader.npages, if_neg hLoad, if_neg hStack]
      exact Or.inl (Nat.zero_mul _)

/-- So does the page behind its pages. -/
theorem allReach_user {mapped : Nat → Prop} (hForm : ∀ h ∈ hs, h.type = elfPtLoad → h.WellFormed f)
    (hUser : ∀ h ∈ hs, Loader.Harmless f entry h) (hAll : ∀ v, UserPage v → mapped v) :
    ProgramHeader.AllReach entry mapped hs := by
  induction hs generalizing mapped with
  | nil => trivial
  | cons h rest ih =>
      obtain ⟨hFirst, hRest⟩ := List.forall_mem_cons.1 hForm
      obtain ⟨hFirst', hRest'⟩ := List.forall_mem_cons.1 hUser
      refine ⟨?_, ih hRest hRest' fun v hv => Or.inl (hAll v hv)⟩
      by_cases hPages : h.npages = 0
      · exact Or.inl hPages
      · by_cases hAligned : h.start entry % pageSize = 0
        · exact Or.inr (Or.inl hAligned)
        · refine Or.inr (Or.inr (hAll _ ?_))
          have hSize : pageSize = 4096 := rfl
          have hRange := inUser_iff.1 (clears_inUser hFirst hFirst')
          rw [hSize] at hRange hAligned
          rw [userPage_iff, page_eq]
          omega

section Task

variable {args : LoadArgs} {behind : Nat → BitVec 8} {header var : List (BitVec 8)} {m m' : TaskMemory}

theorem loadTask_done (hValid : (f.elf header).Valid)
    (hLoop : (imageLoader kernelEnd p found).loadEach f (f.elf header).entry (f.headers header var) 0 0 m =
      (m', some (heap, stack))) :
    ((imageLoader kernelEnd p found).loadTask f args behind header var m).1 =
      if found = true ∧ heap ≠ 0 ∧ stack ≠ 0 then ((imageLoader kernelEnd p found).pushArgs args behind stack m').1
      else m' := by
  rw [InitrdFile.headers, ← Loader.loadHeaders_eq, InitrdFile.elf] at hLoop
  rw [InitrdFile.elf] at hValid
  rw [Loader.loadTask]
  dsimp only
  rw [if_neg (not_not_intro hValid), hLoop]
  change (if ¬ found = true ∨ heap = 0 then (m', (-enomem : Int))
    else if stack = 0 then (m', -enomem)
    else (((imageLoader kernelEnd p found).pushArgs args behind stack m').1, 0)).1 = _
  by_cases hHeap : ¬ found = true ∨ heap = 0
  · rw [if_pos hHeap, if_neg fun hAll => hHeap.elim (fun hNone => hNone hAll.1) hAll.2.1]
  · obtain ⟨hFound, hHeap'⟩ := not_or.1 hHeap
    rw [if_neg hHeap]
    by_cases hStack : stack = 0
    · rw [if_pos hStack, if_neg fun hAll => hAll.2.2 hStack]
    · rw [if_neg hStack, if_pos ⟨not_not.1 hFound, hHeap', hStack⟩]

/-- What has ended the headers has ended the whole. -/
theorem loadTask_ended (hValid : (f.elf header).Valid) (hEnd : ∀ s, m' ≠ .running s)
    (hLoop : ((imageLoader kernelEnd p found).loadEach f (f.elf header).entry (f.headers header var) 0 0 m).1 = m') :
    ((imageLoader kernelEnd p found).loadTask f args behind header var m).1 = m' := by
  generalize hRun : (imageLoader kernelEnd p found).loadEach f (f.elf header).entry (f.headers header var) 0 0 m =
    x at hLoop
  obtain ⟨x, ends⟩ := x
  obtain rfl : x = m' := hLoop
  cases ends with
  | none =>
      rw [InitrdFile.headers, ← Loader.loadHeaders_eq, InitrdFile.elf] at hRun
      rw [InitrdFile.elf] at hValid
      rw [Loader.loadTask]
      dsimp only
      rw [if_neg (not_not_intro hValid), hRun]
  | some ends =>
      rw [loadTask_done hValid hRun]
      split
      · exact Loader.pushArgs_keeps (imageLoader_keeps kernelEnd p found hEnd).write rfl args behind ends.2
      · rfl

/-- Behind the headers, only the page of the lowest word can be missing. -/
theorem pushed_iff (kernelEnd : Nat) (found : Bool) (behind : Nat → BitVec 8) (hArgs : args.Packed)
    (hMap : t.UserMap p) (hEffects : Effects f entry p hs t u)
    (hForm : ∀ h ∈ hs, h.type = elfPtLoad → h.WellFormed f) (hBelow : ∀ h ∈ hs, h.BelowTables entry)
    (hSpares : ProgramHeader.AllReach entry (t.NoTable p) hs)
    (hLowest : ArgsReach found args entry hs (t.NoTable p))
    (hFits : found = true ∧ Loader.heapTop hs 0 ≠ 0 ∧ Loader.stackTop entry hs 0 ≠ 0 →
      4 * args.argc ≤ Loader.stackTop entry hs 0 + 12276)
    (hMapped : ∀ v < treePages, (t.Mapped p v ↔ s.Mapped p v)) :
    (∃ t', (if found = true ∧ Loader.heapTop hs 0 ≠ 0 ∧ Loader.stackTop entry hs 0 ≠ 0 then
        ((imageLoader kernelEnd p found).pushArgs args behind (Loader.stackTop entry hs 0) (.running u)).1
      else .running u) = .running t') ↔ ArgsReach found args entry hs (s.Mapped p) := by
  rw [ArgsReach] at hLowest ⊢
  by_cases hPushed : found = true ∧ Loader.heapTop hs 0 ≠ 0 ∧ Loader.stackTop entry hs 0 ≠ 0
  · have hEnd := stackTop_tree hBelow hPushed.2.2
    have hLow := hFits hPushed
    have hPage : (Loader.stackTop entry hs 0 + 12276 - 4 * args.argc) >>> pageBits < treePages := by
      have hSize : defaultStackSize = 16384 := rfl
      exact page_tree (by omega)
    rw [if_pos hPushed, pushArgs_running kernelEnd found args behind (hEffects.map hMap) hArgs.envc hArgs.argc hLow
      hEnd (hEffects.stack_mapped hForm hBelow hSpares hPushed.2.2) (hEffects.noTable hPage (hLowest hPushed))]
    rw [hEffects.mapped hPage, hMapped _ hPage]
    exact ⟨fun hThere _ => hThere, fun hThere => hThere hPushed⟩
  · rw [if_neg hPushed]
    exact iff_of_true ⟨u, rfl⟩ fun hAll => absurd hAll hPushed

theorem holdsImage_iff (hMap : t.UserMap p) (hForm : ∀ h ∈ hs, h.type = elfPtLoad → h.WellFormed f) :
    HoldsImage f p hs t ↔ HasBytes f p hs t := by
  constructor
  · intro hHolds h hh hLoad i hi
    exact (hHolds h hh hLoad i hi).1
  · intro hBytes h hh hLoad i hi
    exact (hMap.userByte ((hForm h hh hLoad).userPage hi)).2 (hBytes h hh hLoad i hi)

variable (hValid : (f.elf header).Valid) (hExec : Executable f (f.headers header var))
include hValid hExec

/-- An executable that stays in user space leaves the tables alone. -/
theorem Loader.Tame.leavesTables (hTame : Loader.Tame f args header var) (hMap : s.UserMap p) :
    LeavesTables p found f args header var s := by
  obtain ⟨hUser, hFits⟩ : (∀ h ∈ f.headers header var, Loader.Harmless f (f.elf header).entry h) ∧
      (Loader.heapTop (f.headers header var) 0 ≠ 0 ∧
          Loader.stackTop (f.elf header).entry (f.headers header var) 0 ≠ 0 →
        kernelSpace + 4 * args.argc ≤ Loader.stackTop (f.elf header).entry (f.headers header var) 0 + 12276) :=
    hTame hValid
  refine ⟨?_, allReach_user hExec.segment hUser fun v hv => hMap.noTable hv, ?_, ?_⟩
  · intro h hh hStack
    have hRange := ((hUser h hh).2 hStack).2.resolve_left (by decide)
    exact hRange.2.trans (by decide)
  · intro hPushed
    obtain ⟨_, hHigh⟩ := Loader.stackTop_inUser hUser hPushed.2.2
    have hSize : defaultStackSize = 16384 := rfl
    exact Or.inl (hMap.noTable (userPage_byte (Nat.le_sub_of_add_le (hFits hPushed.2)) (by omega)))
  · intro hPushed
    exact (Nat.le_add_left _ _).trans (hFits hPushed.2)

/-- What `load_task` comes to, unless the page frames run out. -/
theorem loads_cases (hTables : LeavesTables p found f args header var s) (hArgs : args.Packed) (hMap : s.UserMap p)
    (hUse : s.SameUse t)
    (hEnough : ((imageLoader kernelEnd p found).loadTask f args behind header var (.running s)).1 ≠ .starved) :
    (¬ Loads kernelEnd p found f args behind header var t ∧
      ¬ ProgramHeader.AllReach (f.elf header).entry (s.Mapped p) (f.headers header var)) ∨
    ∃ u, Effects f (f.elf header).entry p (f.headers header var) t u ∧
      ProgramHeader.AllReach (f.elf header).entry (s.Mapped p) (f.headers header var) ∧
      (Loads kernelEnd p found f args behind header var t ↔ HasBytes f p (f.headers header var) u ∧
        ArgsReach found args (f.elf header).entry (f.headers header var) (s.Mapped p)) := by
  obtain ⟨hBelow, hRest, hLowest, hFits⟩ := hTables
  have hAgree := hUse.agree hMap
  have hMapped : ∀ v < treePages, (t.Mapped p v ↔ s.Mapped p v) := by
    intro v hv
    rw [Mapped, Mapped, hAgree.walk_tree hv]
  have hSpares : ProgramHeader.AllReach (f.elf header).entry (t.NoTable p) (f.headers header var) :=
    allReach_mono hExec.segment hBelow (fun _ _ hv => hAgree.noTable hv) hRest
  have hLowest' : ArgsReach found args (f.elf header).entry (f.headers header var) (t.NoTable p) :=
    fun hPushed => (hLowest hPushed).imp_left hAgree.noTable
  have hRun : (imageLoader kernelEnd p found).loadHeaders f (f.elf header) (f.elf header).phEntryCount 0 var 0 0
      (.running t) = (imageLoader kernelEnd p found).loadEach f (f.elf header).entry (f.headers header var) 0 0
        (.running t) := Loader.loadHeaders_eq ..
  rw [← allReach_congr hExec.segment hBelow hMapped]
  rcases loadEach_cases kernelEnd 0 0 found (hAgree.userMap hMap) hExec.length hExec.segment hBelow hSpares with
    hStarved | ⟨hFault, hNot⟩ | ⟨u, hDone, hEffects, hAll⟩
  · have hAlike := (TaskMemory.Alike.running hMap hAgree).loadEach kernelEnd 0 0 found hExec.segment hExec.length
      hBelow fun u hu => TaskMemory.running.inj hu ▸ hRest
    exact absurd (loadTask_ended hValid (fun s hs => by cases hs) (hAlike.starved hStarved)) hEnough
  · refine Or.inl ⟨?_, hNot⟩
    rintro ⟨⟨t', ends, hEnds, _⟩, _⟩
    rw [← hRun, hEnds] at hFault
    cases hFault
  · refine Or.inr ⟨u, hEffects, hAll, ?_⟩
    have hMap' := hEffects.map (hAgree.userMap hMap)
    rw [Loads, loadTask_done hValid hDone]
    refine and_congr ?_ ?_
    · rw [← holdsImage_iff hMap' hExec.segment]
      constructor
      · rintro ⟨t', ends, hEnds, hHolds⟩
        rw [hRun, hDone] at hEnds
        obtain ⟨hSame, _⟩ := Prod.mk.inj hEnds
        obtain rfl := TaskMemory.running.inj hSame
        exact hHolds
      · intro hHolds
        exact ⟨u, _, hRun.trans hDone, hHolds⟩
    · exact pushed_iff kernelEnd found behind hArgs (hAgree.userMap hMap) hEffects hExec.segment hBelow hSpares
        hLowest' hFits hMapped

end Task

namespace TaskMemory

def isFault : TaskMemory → Bool
  | .fault => true
  | _ => false

def isStarved : TaskMemory → Bool
  | .starved => true
  | _ => false

theorem ne_starved {m : TaskMemory} (h : m.isStarved = false) : m ≠ .starved := by
  rintro rfl
  cases h

theorem eq_fault {m : TaskMemory} (h : m.isFault = true) : m = .fault := by
  cases m with
  | fault => rfl
  | running => cases h
  | starved => cases h

end TaskMemory

/-- A task without pages, and 64 page frames. -/
def emptyTask : Paging :=
  { onePage with
    frames :=
      { bitmap := fun i => if 0x40 ≤ i ∧ i < 0x48 then 0 else 0xff
        allocStart := 2 ^ 32 - 1
        allocated := bitmapBits - 64
        available := 64 } }

theorem emptyTask_userMap : emptyTask.UserMap 0x110 := by
  have hDir : ∀ i, (emptyTask.mem 0x110 i).Has pgPresent → i = 0 ∨ i = pageMapEntries - 1 := fun _ h => onePage_dir h
  have hInUse : emptyTask.InUse 0x110 := by
    obtain ⟨⟨hFrame, hPresent⟩, hRoot, hApart⟩ := onePage_twoLevel
    refine ⟨⟨⟨hFrame, hPresent⟩, hRoot, hApart⟩, fun _ => by decide, ?_⟩
    intro i hi hThere
    obtain rfl : i = 0 := (hDir i hThere).resolve_right (by omega)
    exact fun _ => by decide
  have hEntries : pageMapEntries = 1024 := rfl
  apply hInUse.userMap
  · intro v e hv he
    obtain ⟨hThere, hPresent, rfl⟩ := walk_eq_some.1 he
    have hFirst : v / pageMapEntries = 0 := (hDir _ hThere).resolve_right fun hLast => by
      have hTable := table_of_tree hv
      omega
    rw [hFirst] at hPresent ⊢
    by_cases hPage : v % pageMapEntries = 0x150
    · rw [hPage]
      exact fun _ => by decide
    · have hZero : emptyTask.mem (emptyTask.mem 0x110 0).frame (v % pageMapEntries) = PageEntry.zero := by
        simp [emptyTask, onePage, hPage]
      rw [hZero] at hPresent
      exact absurd hPresent PageEntry.not_has_zero
  · intro v hv hThere
    have hRange := userPage_iff.1 hv
    rcases hDir _ hThere with hFirst | hLast
    · rw [hEntries] at hFirst
      omega
    · rw [hEntries] at hLast
      omega

section Witness

-- one page at 0x50100000, and a stack
variable (hHeaders : f.headers [] [] = [⟨1, 0, 0x50100000, 116, 0x1000, 7⟩, ⟨0x6474e551, 0, 0, 0, 0, 6⟩])
include hHeaders

theorem executable_of_headers (hFile : f.length = 116) : Executable f (f.headers [] []) := by
  rw [hHeaders]
  refine ⟨by omega, ?_, ?_⟩
  · rintro h hh hLoad
    rcases List.mem_cons.1 hh with rfl | hh
    · exact ⟨by decide, by decide, by decide, by simp [hFile]⟩
    · rw [List.mem_singleton.1 hh] at hLoad
      exact absurd hLoad (by decide)
  · refine List.pairwise_pair.2 ?_
    rintro a ⟨_, hType, _⟩
    exact absurd hType (by decide)

theorem loadable_of_headers {mapped : Nat → Prop} (hEntry : (f.elf []).entry = entry)
    (hStack : entry * 2 % 2 ^ 32 = stack) (hAligned : stack % pageSize = 0)
    (hApart : stack + 0x4000 ≤ 0x50100000 ∨ 0x50101000 ≤ stack) :
    Loadable true f ⟨0, 1, 0, [97, 0]⟩ [] [] mapped := by
  have hStart : ProgramHeader.start entry ⟨0x6474e551, 0, 0, 0, 0, 6⟩ = stack := (if_pos rfl).trans hStack
  have hPages : ProgramHeader.npages ⟨0x6474e551, 0, 0, 0, 0, 6⟩ = 4 := by decide
  have hSize : pageSize = 4096 := rfl
  rw [hSize] at hAligned
  rw [Loadable, hHeaders, hEntry]
  have hSegment : ProgramHeader.start entry ⟨1, 0, 0x50100000, 116, 0x1000, 7⟩ % pageSize = 0 := by
    rw [ProgramHeader.start, if_neg (by decide)]
    rfl
  refine ⟨⟨Or.inr (Or.inl hSegment), Or.inr (Or.inl (by rwa [hStart])), trivial⟩, ⟨?_, ?_, trivial⟩, ?_⟩
  · intro _ i hi
    have hi' : i < 0x1000 := hi
    have hClears : ¬ ProgramHeader.Clears entry ⟨0x6474e551, 0, 0, 0, 0, 6⟩ (0x50100000 + i) := by
      rw [ProgramHeader.Clears, hStart, hPages, hSize]
      omega
    have hMaps : ¬ ProgramHeader.Maps entry ⟨0x6474e551, 0, 0, 0, 0, 6⟩ ((0x50100000 + i) >>> pageBits) := by
      rw [ProgramHeader.Maps, hStart, hPages, page_eq, page_eq]
      omega
    exact ⟨fun hTouched => absurd hTouched (not_or.2 ⟨hClears, hMaps⟩), fun hThere => absurd hThere hMaps, trivial⟩
  · intro hLoad
    exact absurd hLoad (by decide)
  · rintro _
    refine Or.inr ⟨_, List.mem_cons_of_mem _ List.mem_cons_self, ?_⟩
    have hTop : Loader.stackTop entry [⟨1, 0, 0x50100000, 116, 0x1000, 7⟩, ⟨0x6474e551, 0, 0, 0, 0, 6⟩] 0 = stack :=
      hStack
    rw [hTop, ProgramHeader.Maps, hStart, hPages, page_eq, page_eq]
    dsimp only
    omega

end Witness

theorem oneSegmentAndStack_headers : oneSegmentAndStack.headers [] [] =
    [⟨1, 0, 0x50100000, 116, 0x1000, 7⟩, ⟨0x6474e551, 0, 0, 0, 0, 6⟩] := by rfl

/-- The same with the entry point 0x80001000, and so with a stack at 0x2000. -/
def lowStack : InitrdFile := { oneSegmentAndStack with byte := Function.update oneSegmentAndStack.byte 27 0x80 }

theorem lowStack_headers : lowStack.headers [] [] =
    [⟨1, 0, 0x50100000, 116, 0x1000, 7⟩, ⟨0x6474e551, 0, 0, 0, 0, 6⟩] := by rfl

theorem lowStack_leavesTables : LeavesTables 0x110 true lowStack ⟨0, 1, 0, [97, 0]⟩ [] [] emptyTask := by
  have hEntry : (lowStack.elf []).entry = 0x80001000 := by rfl
  refine ⟨?_, ?_, ?_, ?_⟩
  · intro h _ _
    rw [hEntry]
    decide
  · rw [hEntry, lowStack_headers]
    exact ⟨Or.inr (Or.inl (by decide)), Or.inr (Or.inl (by decide)), trivial⟩
  · rw [ArgsReach, hEntry, lowStack_headers]
    exact fun _ => Or.inr ⟨_, List.mem_cons_of_mem _ List.mem_cons_self, by decide⟩
  · rw [hEntry, lowStack_headers]
    exact fun _ => by decide

/-- An executable whose only segment starts in the middle of a page. -/
abbrev unalignedSegment : InitrdFile := Loader.oneSegment [0, 8, 0, 0x50]

theorem unalignedSegment_headers : unalignedSegment.headers [] [] =
    [⟨1, 0, 0x50000800, 84, 0x1000, 7⟩] := by rfl

end ArtOS

import ArtOS.Library.Transition
import ArtOS.Memory.VmaList

/-! Runs of `vma_add`, `vma_alloc` and `vma_free` on the kernel list, with a
`kmalloc` that answers `NULL` or a node that is not in use and leaves the list
alone. The environment of a state is the set of nodes in use. -/
namespace ArtOS

open DoublyLinked Intervals

abbrev VmaRun : Type := Mm (Finset Nat)

/-- `NULL`, or a node with whatever its memory held before. -/
abbrev Answer : Type := Option (Nat × Vma)

inductive VmaCall where
  | add (start endAddr : Nat) (flags : BitVec 32)
  | alloc (size : Nat) (flags : BitVec 32)
  | free (start endAddr : Nat)

/-- The calls that work on the kernel list. -/
def VmaCall.Kernel : VmaCall → Prop
  | .add _ _ flags => Space.of flags = .kernel
  | .alloc _ flags => Space.of flags = .kernel
  | .free start endAddr => freeSpace start endAddr ≠ some .user

instance : DecidablePred VmaCall.Kernel
  | .add _ _ flags => inferInstanceAs (Decidable (Space.of flags = .kernel))
  | .alloc _ flags => inferInstanceAs (Decidable (Space.of flags = .kernel))
  | .free start endAddr => inferInstanceAs (Decidable (freeSpace start endAddr ≠ some .user))

namespace VmaRun

def kmalloc (answer : Answer) : Allocator (Finset Nat) := fun _ s =>
  some (match answer with
    | none => (s, none)
    | some (p, vma) =>
        ({ s with vmas := s.vmas.setNode p fun _ => vma, env := insert p s.env }, some p))

def kfree : Deallocator (Finset Nat) := fun p s => some { s with env := s.env.erase p }

def exec (call : VmaCall) (answer : Answer) (fuel : Nat) (s : VmaRun) : Option VmaRun :=
  match call with
  | .add start endAddr flags => (vmaAdd (kmalloc answer) fuel start endAddr flags s).map Prod.fst
  | .alloc size flags => (vmaAlloc (kmalloc answer) fuel size flags s).map Prod.fst
  | .free start endAddr => (vmaFree (kmalloc answer) kfree fuel start endAddr s).map Prod.fst

/-- The node `kmalloc` is going to answer is not in use. -/
def Fresh (s : VmaRun) (answer : Answer) : Prop := ∀ a ∈ answer, a.1 ∉ s.env

/-- A finite list of nodes in use, sorted, without overlaps, and linked in both directions. -/
def WellFormed (s : VmaRun) : Prop :=
  ∃ nodes, LinkedList.Chain s.vmas.next s.vmas.vmaList nodes ∧ (∀ n ∈ nodes, n ∈ s.env) ∧
    Ordered (fun n => (s.vmas.area n).start) (fun n => (s.vmas.area n).endAddr) nodes ∧
    (∀ n ∈ nodes, ∀ m, s.vmas.next n = some m → s.vmas.prev m = some n) ∧
    ∀ n, s.vmas.vmaList = some n → s.vmas.prev n = none

/-- The sum that `vma_alloc` computes behind `pred` does not wrap around to an address below
the start of the area that gets the new memory: `pred` itself, or a new one. -/
def Unwrapped (answer : Answer) (size : Nat) (flags : BitVec 32) (pred : Option Entry) : Prop :=
  let start := gapStart vmaKernMin (pred.map Prod.snd)
  (∀ e ∈ pred, e.2.flags = flags → e.2.start ≤ Word.add start size) ∧
    ((∀ e ∈ pred, e.2.flags ≠ flags) → answer ≠ none → start ≤ Word.add start size)

/-- `vma_alloc` does not wrap around, and `vma_free` finds no successor behind an area that it
has to split. -/
def Clean (s : VmaRun) (answer : Answer) : VmaCall → Prop
  | .add _ _ _ => True
  | .alloc size flags => ∀ l pred succ, s.vmas.Spells .kernel l →
      firstGap (fitsGap .kernel size) none l = some (pred, succ) → Unwrapped answer size flags pred
  | .free start endAddr => ∀ left e right, s.vmas.Spells .kernel (left ++ e :: right) →
      start < endAddr → endAddr < vmaKernMax → e.2.start < start → endAddr < e.2.endAddr →
      answer ≠ none → right = []

variable {s t : VmaRun} {answer : Answer} {call : VmaCall} {fuel : Nat}
variable {l left right : List Entry} {e : Entry}

theorem wellFormed_iff : s.WellFormed ↔
    ∃ l, s.vmas.Spells .kernel l ∧ (∀ e ∈ l, e.1 ∈ s.env) ∧ Sorted l := by
  constructor
  · rintro ⟨nodes, hChain, hLive, hOrdered, hBack, hHead⟩
    have hCells : (nodes.map fun n => (n, s.vmas.area n)).map Prod.fst = nodes := by
      rw [List.map_map]
      exact List.map_id nodes
    refine ⟨nodes.map fun n => (n, s.vmas.area n), path_iff.mpr ⟨?_, ?_, ?_, hHead⟩, ?_, ?_, ?_⟩
    · rw [hCells]
      exact hChain
    · simp
    · rw [hCells]
      exact hBack
    · simpa using hLive
    · simpa using hOrdered.proper
    · exact List.pairwise_map.mpr hOrdered.sorted
  · rintro ⟨l, hSpells, hLive, hSorted⟩
    obtain ⟨hChain, hData, hBack, hHead⟩ := path_iff.mp hSpells
    refine ⟨l.map Prod.fst, hChain, ?_, ⟨?_, ?_⟩, hBack, hHead⟩
    · simpa using hLive
    · intro n hn
      obtain ⟨e, he, rfl⟩ := List.mem_map.mp hn
      rw [hData e he]
      exact hSorted.proper e he
    · refine List.pairwise_map.mpr (hSorted.sorted.imp_of_mem fun {x y} hx hy h => ?_)
      rw [hData x hx, hData y hy]
      exact h

/-- When the list is known, only its order is left to check. -/
theorem wellFormed_of_spells (h : t.vmas.Spells .kernel l) (hLive : ∀ e ∈ l, e.1 ∈ t.env) :
    t.WellFormed ↔ Sorted l := by
  rw [wellFormed_iff]
  constructor
  · rintro ⟨l', h', _, hSorted⟩
    exact h.unique h' ▸ hSorted
  · exact fun hSorted => ⟨l, h, hLive, hSorted⟩

/-- A split in front of a successor leaves the successor's back link behind. -/
theorem split_not_wellFormed {v : Vmas} {new start endAddr : Nat} {x : Entry}
    (hSpells : v.Spells .kernel (left ++ e :: x :: right))
    (hNew : new ∉ (left ++ e :: x :: right).map Prod.fst)
    (hVmas : t.vmas = v.split e.1 new start endAddr) : ¬ t.WellFormed := by
  intro hWell
  obtain ⟨l', hSpells', _⟩ := wellFormed_iff.mp hWell
  rw [hVmas] at hSpells'
  exact hSpells.not_split hNew l' hSpells'

theorem exec_mono {fuel' : Nat} (h : fuel ≤ fuel') :
    Partial.Le (s.exec call answer fuel) (s.exec call answer fuel') := by
  cases call with
  | add start endAddr flags => exact (vmaAdd_mono (fun _ _ => Partial.Le.refl) h).map
  | alloc size flags => exact (vmaAlloc_mono (fun _ _ => Partial.Le.refl) h).map
  | free start endAddr => exact (vmaFree_mono (fun _ _ => Partial.Le.refl) h).map

section Step

variable (hSpells : s.vmas.Spells .kernel l) (hLive : ∀ e ∈ l, e.1 ∈ s.env) (hSorted : Sorted l)
include hSpells hLive

/-- The list of the state after `kmalloc` has answered with a node. -/
theorem spells_fresh {p : Nat} (vma : Vma) (hFresh : p ∉ s.env) :
    p ∉ l.map Prod.fst ∧ (s.vmas.setNode p fun _ => vma).Spells .kernel l := by
  have hOff : p ∉ l.map Prod.fst := fun hp => by
    obtain ⟨e, he, rfl⟩ := List.mem_map.mp hp
    exact hFresh (hLive e he)
  refine ⟨hOff, hSpells.congr Vmas.list_setNode fun q hq => ?_⟩
  rw [Vmas.node_setNode, if_neg]
  rintro rfl
  exact hOff hq

/-- What the end of `vma_alloc` and `vma_add` comes to. -/
theorem insert_wellFormed_iff {Out : Type} (err out : Out) (area : Area)
    (hSplit : l = left ++ right) (hFresh : s.Fresh answer) (hSorted : Sorted l)
    (hLast : ∀ y ∈ left.getLast?, y.2.endAddr ≤ area.start)
    (hFirst : ∀ y ∈ right.head?, area.endAddr ≤ y.2.start) :
    ∃ (t : VmaRun) (r : Out), withNode (kmalloc answer) err (fun new s =>
        let vmas := s.vmas.insert .kernel new area
          (left.getLast?.map Prod.fst) (right.head?.map Prod.fst)
        ({ s with vmas := vmas }, out)) s = some (t, r) ∧
      (WellFormed t ↔ answer ≠ none → area.start ≤ area.endAddr) := by
  cases answer with
  | none => exact ⟨s, err, rfl, by simpa using (wellFormed_of_spells hSpells hLive).mpr hSorted⟩
  | some node =>
      obtain ⟨hOff, hSpells'⟩ := spells_fresh hSpells hLive node.2 (hFresh node rfl)
      subst hSplit
      refine ⟨_, _, rfl, ?_⟩
      refine (wellFormed_of_spells (hSpells'.insert hOff) ?_).trans ?_
      · intro e he
        rw [List.mem_append, List.mem_cons] at he
        rcases he with he | rfl | he
        · exact Finset.mem_insert_of_mem (hLive e (List.mem_append_left _ he))
        · exact Finset.mem_insert_self _ _
        · exact Finset.mem_insert_of_mem (hLive e (List.mem_append_right _ he))
      · exact (Ordered.insert_iff (x := (node.1, area)) hSorted hLast hFirst).trans (by simp)

theorem modify_wellFormed_iff (f : Vma → Vma) (area : Area) (hSplit : l = left ++ e :: right)
    (hNext : ∀ n, (f n).next = n.next) (hPrev : ∀ n, (f n).prev = n.prev)
    (hArea : (f (s.vmas.node e.1)).toArea = area) :
    WellFormed { s with vmas := s.vmas.setNode e.1 f } ↔ Sorted (left ++ (e.1, area) :: right) := by
  subst hSplit
  refine wellFormed_of_spells (hSpells.modify (hNext _) (hPrev _) hArea) fun x hx => ?_
  rw [List.mem_append, List.mem_cons] at hx
  rcases hx with hx | rfl | hx
  · exact hLive x (List.mem_append_left _ hx)
  · exact hLive e (by simp)
  · exact hLive x (by simp [hx])

theorem exec_add {start endAddr : Nat} {flags : BitVec 32} (hSorted : Sorted l)
    (hKernel : Space.of flags = .kernel) (hFresh : s.Fresh answer) (hFuel : l.length + 2 ≤ fuel) :
    ∃ t, s.exec (.add start endAddr flags) answer fuel = some t ∧ t.WellFormed := by
  have hSame : s.WellFormed := (wellFormed_of_spells hSpells hLive).mpr hSorted
  have hSpells' : s.vmas.Spells (Space.of flags) l := hKernel ▸ hSpells
  by_cases hAdd : Addable start endAddr flags
  · cases hGap : firstGap (betweenGap start endAddr) none l with
    | none => exact ⟨s, by rw [exec, vmaAdd_full hSpells' hFuel hAdd hGap, Option.map_some], hSame⟩
    | some gap =>
        obtain ⟨pred, succ⟩ := gap
        obtain ⟨left, right, hSplit, hPred, hSucc, hTest⟩ := firstGap_split hGap
        rw [Option.or_none] at hPred
        subst hPred hSucc
        obtain ⟨hLast, hFirst⟩ := betweenGap_iff.mp hTest
        obtain ⟨t, r, hCall, hWell⟩ := insert_wellFormed_iff hSpells hLive (-enomem) 0
          { start := start, endAddr := endAddr, flags := flags } hSplit hFresh hSorted hLast hFirst
        refine ⟨t, ?_, hWell.mpr fun _ => hAdd.proper.le⟩
        rw [exec, vmaAdd_insert hSpells' hFuel hAdd hGap, hKernel, hCall, Option.map_some]
  · rw [exec, vmaAdd_reject hAdd]
    exact ⟨s, rfl, hSame⟩

theorem exec_alloc {size : Nat} {flags : BitVec 32} (hSorted : Sorted l)
    (hKernel : Space.of flags = .kernel) (hFresh : s.Fresh answer) (hFuel : l.length + 2 ≤ fuel) :
    ∃ t, s.exec (.alloc size flags) answer fuel = some t ∧
      (t.WellFormed ↔ s.Clean answer (.alloc size flags)) := by
  have hClean : s.Clean answer (.alloc size flags) ↔ ∀ pred succ,
      firstGap (fitsGap .kernel size) none l = some (pred, succ) →
        Unwrapped answer size flags pred :=
    ⟨fun h pred succ => h l pred succ hSpells,
      fun h l' pred succ h' => (hSpells.unique h').symm ▸ h pred succ⟩
  rw [hClean]
  have hSpells' : s.vmas.Spells (Space.of flags) l := hKernel ▸ hSpells
  cases hGap : firstGap (fitsGap .kernel size) none l with
  | none =>
      refine ⟨s, ?_, iff_of_true ((wellFormed_of_spells hSpells hLive).mpr hSorted) (by simp)⟩
      rw [exec, vmaAlloc_full hSpells' hFuel (hKernel ▸ hGap), Option.map_some]
  | some gap =>
      obtain ⟨pred, succ⟩ := gap
      obtain ⟨left, right, hSplit, hPred, hSucc, hTest⟩ := firstGap_split hGap
      rw [Option.or_none] at hPred
      subst hSucc
      obtain ⟨hLast, hFirst⟩ := fitsGap_spec hTest
      have hOnly : (∀ p q, some (pred, right.head?) = some (p, q) → Unwrapped answer size flags p) ↔
          Unwrapped answer size flags pred :=
        ⟨fun h => h pred _ rfl, fun h p q he => by cases he; exact h⟩
      rw [hOnly]
      by_cases hFlags : ∀ e ∈ pred, e.2.flags ≠ flags
      · have hMem : ∀ e ∈ pred, e ∈ l := fun e he =>
          hSplit ▸ List.mem_append_left _ (List.mem_of_getLast? (hPred ▸ he))
        subst hPred
        let start := gapStart vmaKernMin (left.getLast?.map Prod.snd)
        obtain ⟨t, r, hCall, hWell⟩ := insert_wellFormed_iff hSpells hLive 0 start
          { start := start, endAddr := Word.add start size, flags := flags }
          hSplit hFresh hSorted hLast hFirst
        refine ⟨t, ?_, hWell.trans ⟨fun h => ⟨fun e he hSame => absurd hSame (hFlags e he),
          fun _ => h⟩, fun h => h.2 hFlags⟩⟩
        rw [exec, vmaAlloc_insert hSpells' hFuel (hKernel ▸ hGap) hMem hFlags, hKernel]
        exact congrArg (Option.map Prod.fst) hCall
      · push Not at hFlags
        obtain ⟨e, he, hFlags⟩ := hFlags
        obtain rfl : pred = some e := he
        obtain ⟨front, rfl⟩ := List.getLast?_eq_some_iff.mp hPred.symm
        rw [List.append_assoc, List.singleton_append] at hSplit
        have hMem : e ∈ l := by simp [hSplit]
        refine ⟨_, by rw [exec, vmaAlloc_extend hSpells' hFuel (hKernel ▸ hGap) hMem hFlags,
          Option.map_some], ?_⟩
        have hFront := (hSplit ▸ hSorted).middle.1
        refine (modify_wellFormed_iff hSpells hLive
          (fun n => { n with endAddr := Word.add e.2.endAddr size })
          { e.2 with endAddr := Word.add e.2.endAddr size } hSplit (fun _ => rfl) (fun _ => rfl)
          (by rw [← hSpells.area_eq hMem]; rfl)).trans ?_
        refine (Ordered.insert_iff (hSplit ▸ hSorted).remove ?_ hFirst).trans ?_
        · exact fun y hy => hFront y (List.mem_of_getLast? hy)
        · refine ⟨fun h => ⟨?_, fun hOther => absurd hFlags (hOther e rfl)⟩, fun h => h.1 e rfl hFlags⟩
          rintro _ ⟨⟩ _
          exact h

/-- What the second half of `vma_free` comes to. -/
theorem release_wellFormed_iff {start endAddr : Nat} (hSplit : l = left ++ e :: right)
    (hSorted : Sorted l) (hFresh : s.Fresh answer) (hLt : start < endAddr)
    (hLo : e.2.start ≤ start) (hHi : endAddr ≤ e.2.endAddr) :
    ∃ t : VmaRun, (vmaRelease (kmalloc answer) kfree .kernel e.1 start endAddr s).map Prod.fst = some t ∧
      (t.WellFormed ↔
        (e.2.start < start → endAddr < e.2.endAddr → answer ≠ none → right = [])) := by
  have hArea : s.vmas.area e.1 = e.2 := hSpells.area_eq (by simp [hSplit])
  subst hSplit
  rw [vmaRelease, hArea]
  split
  · rename_i hExact
    refine ⟨_, rfl, iff_of_true ?_ fun h => absurd hExact.1 (Nat.ne_of_gt h)⟩
    refine (wellFormed_of_spells hSpells.unlink fun x hx => ?_).mpr hSorted.remove
    have hOnce := hSpells.nodup
    rw [List.map_append, List.map_cons, List.nodup_append, List.nodup_cons] at hOnce
    refine Finset.mem_erase.mpr ⟨?_, hLive x (by simp at hx ⊢; tauto)⟩
    cases List.mem_append.mp hx with
    | inl hx => exact hOnce.2.2 _ (List.mem_map_of_mem hx) _ List.mem_cons_self
    | inr hx => exact fun he => hOnce.2.1.1 (he ▸ List.mem_map_of_mem hx)
  · split
    · rename_i hStart
      refine ⟨_, rfl, iff_of_true ?_ fun h => absurd hStart (Nat.ne_of_gt h)⟩
      refine (modify_wellFormed_iff hSpells hLive (fun n => { n with start := endAddr })
        { e.2 with start := endAddr } rfl (fun _ => rfl) (fun _ => rfl) (by rw [← hArea]; rfl)).mpr ?_
      exact hSorted.shrink hHi (hLo.trans hLt.le) le_rfl
    · split
      · rename_i hEnd
        refine ⟨_, rfl, iff_of_true ?_ fun _ h => absurd hEnd (Nat.ne_of_lt h)⟩
        refine (modify_wellFormed_iff hSpells hLive (fun n => { n with endAddr := start })
          { e.2 with endAddr := start } rfl (fun _ => rfl) (fun _ => rfl) (by rw [← hArea]; rfl)).mpr ?_
        exact hSorted.shrink hLo le_rfl (hLt.le.trans hHi)
      · rename_i hInner hStart hEnd
        have hLo' : e.2.start < start := lt_of_le_of_ne hLo (Ne.symm hStart)
        have hHi' : endAddr < e.2.endAddr := lt_of_le_of_ne hHi hEnd
        cases answer with
        | none =>
            exact ⟨s, rfl, iff_of_true ((wellFormed_of_spells hSpells hLive).mpr hSorted) (by simp)⟩
        | some node =>
            obtain ⟨hOff, hSpells'⟩ := spells_fresh hSpells hLive node.2 (hFresh node rfl)
            refine ⟨_, rfl, ?_⟩
            cases right with
            | cons x right =>
                refine iff_of_false ?_ fun h => absurd (h hLo' hHi' (by simp)) (by simp)
                exact split_not_wellFormed hSpells' hOff rfl
            | nil =>
                refine iff_of_true ?_ fun _ _ _ => rfl
                let junk := ((s.vmas.setNode node.1 fun _ => node.2).node node.1).flags
                refine (wellFormed_of_spells (l := left ++ [(e.1, { e.2 with endAddr := start }),
                  (node.1, { start := endAddr, endAddr := e.2.endAddr, flags := junk })]) ?_ ?_).mpr ?_
                · exact hSpells'.split_last hOff
                · intro y hy
                  rw [List.mem_append, List.mem_cons, List.mem_singleton] at hy
                  rcases hy with hy | rfl | rfl
                  · exact Finset.mem_insert_of_mem (hLive y (by simp [hy]))
                  · exact Finset.mem_insert_of_mem (hLive e (by simp))
                  · exact Finset.mem_insert_self _ _
                · have hFront : Sorted (left ++ [(e.1, { e.2 with endAddr := start })]) :=
                    hSorted.shrink hLo le_rfl (hLt.le.trans hHi)
                  rw [← List.append_nil (left ++ _)] at hFront
                  rw [List.append_cons]
                  exact hFront.insert hHi (by simpa using hLt.le) (by simp)

theorem exec_free {start endAddr : Nat} (hSorted : Sorted l)
    (hKernel : freeSpace start endAddr ≠ some .user) (hFresh : s.Fresh answer)
    (hFuel : l.length + 2 ≤ fuel) :
    ∃ t, s.exec (.free start endAddr) answer fuel = some t ∧
      (t.WellFormed ↔ s.Clean answer (.free start endAddr)) := by
  have hSame : s.WellFormed := (wellFormed_of_spells hSpells hLive).mpr hSorted
  by_cases hRange : start < endAddr ∧ endAddr < vmaKernMax
  · have hSpace : freeSpace start endAddr = some .kernel := if_pos hRange.2
    rw [exec, vmaFree_search hSpells (by omega) hRange.1 hSpace]
    cases hFind : l.find? fun e => e.2.start ≤ start ∧ endAddr ≤ e.2.endAddr with
    | none =>
        refine ⟨s, rfl, iff_of_true hSame ?_⟩
        intro left e right h _ _ hLo hHi
        rw [hSpells.unique h, Sorted.find (hSpells.unique h ▸ hSorted) hRange.1 hLo.le hHi.le] at hFind
        cases hFind
    | some e =>
        obtain ⟨hHit, left, right, hSplit, _⟩ := List.find?_eq_some_iff_append.mp hFind
        rw [decide_eq_true_eq] at hHit
        have hClean : s.Clean answer (.free start endAddr) ↔
            (e.2.start < start → endAddr < e.2.endAddr → answer ≠ none → right = []) := by
          constructor
          · exact fun h => h left e right (hSplit ▸ hSpells) hRange.1 hRange.2
          · intro h left' e' right' h' _ _ hLo hHi hAnswer
            have hEq := hSpells.unique h'
            rw [hEq, Sorted.find (hEq ▸ hSorted) hRange.1 hLo.le hHi.le] at hFind
            obtain rfl := Option.some.inj hFind
            have hOnce := hSpells.nodup
            rw [hEq, List.map_append, List.map_cons, List.nodup_append, List.nodup_cons] at hOnce
            obtain ⟨_, _, rfl⟩ := (List.append_cons_inj_of_notMem
              (fun hm => hOnce.2.2 _ (List.mem_map_of_mem hm) _ List.mem_cons_self rfl)
              (fun hm => hOnce.2.1.1 (List.mem_map_of_mem hm))).mp (hEq.symm.trans hSplit)
            exact h hLo hHi hAnswer
        rw [hClean, Option.elim_some]
        exact release_wellFormed_iff hSpells hLive hSplit hSorted hFresh hRange.1 hHit.1 hHit.2
  · refine ⟨s, ?_, iff_of_true hSame ?_⟩
    · rw [exec, vmaFree_reject, Option.map_some]
      intro hLt
      have hHigh : ¬ endAddr < vmaKernMax := fun h => hRange ⟨hLt, h⟩
      rw [freeSpace, if_neg hHigh] at hKernel ⊢
      split at hKernel
      · exact absurd rfl hKernel
      · rename_i hLow
        exact if_neg hLow
    · exact fun _ _ _ _ hLt hHigh => absurd ⟨hLt, hHigh⟩ hRange

end Step

/-- Every call comes back, and it keeps the list well formed exactly when it is clean. -/
theorem WellFormed.exec (h : s.WellFormed) (hKernel : call.Kernel) (hFresh : s.Fresh answer) :
    (∃ fuel t, s.exec call answer fuel = some t) ∧
      ∀ fuel t, s.exec call answer fuel = some t → (t.WellFormed ↔ s.Clean answer call) := by
  obtain ⟨l, hSpells, hLive, hSorted⟩ := wellFormed_iff.mp h
  have hStep : ∀ fuel, l.length + 2 ≤ fuel → ∃ t, s.exec call answer fuel = some t ∧
      (t.WellFormed ↔ s.Clean answer call) := by
    intro fuel hFuel
    cases call with
    | add start endAddr flags =>
        obtain ⟨t, hExec, hWell⟩ := exec_add hSpells hLive hSorted hKernel hFresh hFuel
        exact ⟨t, hExec, iff_of_true hWell trivial⟩
    | alloc size flags => exact exec_alloc hSpells hLive hSorted hKernel hFresh hFuel
    | free start endAddr => exact exec_free hSpells hLive hSorted hKernel hFresh hFuel
  refine ⟨?_, fun fuel t hExec => ?_⟩
  · obtain ⟨t, hExec, _⟩ := hStep _ le_rfl
    exact ⟨_, t, hExec⟩
  · obtain ⟨t', hExec', hIff⟩ := hStep (max fuel (l.length + 2)) (le_max_right _ _)
    have hSame := (exec_mono (le_max_left fuel (l.length + 2)) t hExec).symm.trans hExec'
    exact Option.some.inj hSame ▸ hIff

/-- The list with nothing but `vma_boot`. -/
def Initial (s : VmaRun) : Prop :=
  ∃ boot, s.vmas.vmaList = some boot ∧ s.vmas.node boot = vmaBoot ∧ s.env = {boot}

/-- One call of an operation, restricted to those that `may` lets through. -/
def Step (may : VmaRun → Answer → VmaCall → Prop) (s t : VmaRun) : Prop :=
  ∃ call answer fuel, call.Kernel ∧ s.Fresh answer ∧ may s answer call ∧
    s.exec call answer fuel = some t

abbrev Reachable (may : VmaRun → Answer → VmaCall → Prop) : VmaRun → Prop :=
  Transition.Reachable Initial (Step may)

theorem Initial.wellFormed (h : s.Initial) : s.WellFormed := by
  obtain ⟨boot, hHead, hNode, hEnv⟩ := h
  refine wellFormed_iff.mpr ⟨[(boot, vmaBoot.toArea)], ⟨hHead, ?_, ?_, ?_⟩, ?_, ?_⟩
  · rw [Vmas.prev, hNode]
    rfl
  · rw [Vmas.area, hNode]
  · show s.vmas.next boot = none
    rw [Vmas.next, hNode]
    rfl
  · simp [hEnv]
  · exact ordered_cons.mpr ⟨le_rfl, ordered_nil, by simp⟩

/-- In a run of clean calls the list is well formed after every one of them. -/
theorem reachable_wellFormed (h : Reachable Clean s) : s.WellFormed ∧
    ∀ call answer, call.Kernel → s.Fresh answer →
      (∃ fuel t, s.exec call answer fuel = some t) ∧
      ∀ fuel t, s.exec call answer fuel = some t → (t.WellFormed ↔ s.Clean answer call) := by
  have hWell : s.WellFormed := by
    refine h.invariant (fun s hs => hs.wellFormed) ?_
    rintro s t hs ⟨call, answer, fuel, hKernel, hFresh, hClean, hExec⟩
    exact ((hs.exec hKernel hFresh).2 fuel t hExec).mpr hClean
  exact ⟨hWell, fun call answer hKernel hFresh => hWell.exec hKernel hFresh⟩

instance : Decidable (s.Fresh answer) :=
  match answer with
  | none => .isTrue (by simp [Fresh])
  | some a => decidable_of_iff (a.1 ∉ s.env) (by simp [Fresh])

/-- A sequence of calls with the answers of `kmalloc`. -/
def perform : List (VmaCall × Answer) → VmaRun → Option VmaRun
  | [], s => some s
  | (call, answer) :: rest, s =>
      if call.Kernel ∧ s.Fresh answer then (s.exec call answer 10).bind (perform rest) else none

theorem reachable_perform {may : VmaRun → Answer → VmaCall → Prop} {calls : List (VmaCall × Answer)}
    (h : Reachable may s) (hMay : ∀ c ∈ calls, ∀ s, may s c.2 c.1)
    (hPerform : s.perform calls = some t) : Reachable may t := by
  induction calls generalizing s with
  | nil => exact Option.some.inj hPerform ▸ h
  | cons c rest ih =>
      rw [perform] at hPerform
      split at hPerform
      · rename_i hCall
        obtain ⟨u, hExec, hRest⟩ := Option.bind_eq_some_iff.mp hPerform
        have hMay' := List.forall_mem_cons.mp hMay
        exact ih (h.next ⟨c.1, c.2, 10, hCall.1, hCall.2, hMay'.1 s, hExec⟩) hMay'.2 hRest
      · cases hPerform

/-- A list with `vma_boot` at address 1. -/
def start : VmaRun :=
  { vmas := { vmaList := some 1, taskVmaList := none, node := fun _ => vmaBoot }
    heap := { mem := fun _ => 0, lists := fun _ => none }
    env := {1} }

theorem start_reachable {may : VmaRun → Answer → VmaCall → Prop} : Reachable may start :=
  Transition.Reachable.of_init ⟨1, rfl, rfl, rfl⟩

/-- The areas `[0x200000, 0x205000)` and `[0x300000, 0x301000)` behind `vma_boot`. -/
def twoAreas : List (VmaCall × Answer) :=
  [(.add 0x200000 0x205000 vmaRead, some (2, vmaBoot)),
    (.add 0x300000 0x301000 vmaRead, some (3, vmaBoot))]

theorem reachable_wellFormed_example :
    ∃ s, Reachable Clean s ∧ s.vmas.next 1 = some 2 ∧ s.vmas.next 2 = some 3 ∧ s.WellFormed := by
  have hView : (start.perform twoAreas).map (fun s => (s.vmas.next 1, s.vmas.next 2)) =
      some (some 2, some 3) := by decide
  obtain ⟨s, hPerform, hLinks⟩ := Option.map_eq_some_iff.mp hView
  have hReach : Reachable Clean s := by
    refine reachable_perform start_reachable ?_ hPerform
    simp [twoAreas, Clean]
  exact ⟨s, hReach, congrArg Prod.fst hLinks, congrArg Prod.snd hLinks,
    (reachable_wellFormed hReach).1⟩

/-- Cutting a page out of the middle of the first area leaves the back link of the second one
at the wrong half. -/
theorem split_breaks_back_link : ¬ ∀ s, Reachable (fun _ _ _ => True) s → s.WellFormed := by
  intro h
  have hView : (start.perform (twoAreas ++ [(.free 0x201000 0x202000, some (4, vmaBoot))])).map
      (fun s => (s.vmas.vmaList, [1, 2, 4, 3].map s.vmas.next, s.vmas.prev 3)) =
      some (some 1, [some 2, some 4, some 3, none], some 2) := by decide
  obtain ⟨s, hPerform, hLinks⟩ := Option.map_eq_some_iff.mp hView
  simp only [List.map_cons, List.map_nil, Prod.mk.injEq, List.cons.injEq, and_true] at hLinks
  obtain ⟨hHead, ⟨h₁, h₂, h₄, h₃⟩, hPrev⟩ := hLinks
  obtain ⟨nodes, hChain, _, _, hBack, _⟩ :=
    h s (reachable_perform start_reachable (fun _ _ _ => trivial) hPerform)
  have hNodes : nodes = [1, 2, 4, 3] := by
    refine LinkedList.Chain.unique hChain ?_
    simp [hHead, h₁, h₂, h₄, h₃]
  have hWrong := hBack 4 (by simp [hNodes]) 3 h₄
  exact absurd (hPrev.symm.trans hWrong) (by decide)

end VmaRun
end ArtOS

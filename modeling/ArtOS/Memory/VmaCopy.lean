import ArtOS.Memory.VmaMap
import ArtOS.Memory.VmaRun

/-! `copy_vma_list` and `drop_vma_list`. A node from `kmalloc` holds whatever its memory held before,
and `copy_vma_list` writes its link only when the next node arrives. -/
namespace ArtOS

open DoublyLinked Partial

/-- The answers that `kmalloc` is going to give, what the memory of a freed node holds, and the nodes
that were freed. -/
structure NodeStock where
  answers : List Answer
  garbage : Nat → Vma
  freed : List Nat

/-- The nodes and links of a run. -/
abbrev CopyRun : Type := Mm NodeStock

namespace CopyRun

/-- When the list of answers is over, `kmalloc` answers `NULL`. -/
def kmalloc : Allocator NodeStock := fun _ s =>
  some (match s.env.answers with
    | [] => (s, none)
    | none :: rest => ({ s with env := { s.env with answers := rest } }, none)
    | some (p, vma) :: rest =>
        ({ s with
            vmas := s.vmas.setNode p fun _ => vma
            env := { s.env with answers := rest } }, some p))

def kfree : Deallocator NodeStock := fun p s =>
  some { s with
    vmas := s.vmas.setNode p fun _ => s.env.garbage p
    env := { s.env with freed := s.env.freed ++ [p] } }

/-- The fields that `copy_vma_list` writes: `next` is not one of them. -/
def fill (old : Vma) (last : Option Nat) (new : Vma) : Vma :=
  { new with start := old.start, endAddr := old.endAddr, flags := old.flags, prev := last }

/-- The loop of `copy_vma_list`; `dest` is `dest->vma_list`. -/
def copyLoop : Nat → Option Nat → Option Nat → Option Nat → CopyRun →
    Option (CopyRun × Option Nat × Int)
  | 0, _, _, _, _ => none
  | _ + 1, none, _, dest, s => some (s, dest, 0)
  | fuel + 1, some old, last, dest, s =>
      (kmalloc sizeofVma s).bind fun (s, new) =>
        match new with
        | none => some (s, dest, -enomem)
        | some new =>
            let vmas := s.vmas.setNode new (fill (s.vmas.node old) last)
            let vmas := vmas.linkNext last (some new)
            let dest := if last.isSome then dest else some new
            copyLoop fuel (vmas.next old) (some new) dest { s with vmas := vmas }

def copyVmaList (fuel : Nat) (dest : Option Nat) (s : CopyRun) :
    Option (CopyRun × Option Nat × Int) :=
  copyLoop fuel s.vmas.taskVmaList none dest s

/-- The loop of `drop_vma_list`, with the list that it leaves. -/
def dropVmaList : Nat → Option Nat → CopyRun → Option (CopyRun × Option Nat)
  | 0, _, _ => none
  | _ + 1, none, s => some (s, none)
  | fuel + 1, some vma, s => (kfree vma s).bind (dropVmaList fuel (s.vmas.next vma))

/-- The nodes that the copy of `l` gets, with what they held before and the areas they get. -/
def copies : List Answer → List Entry → List (Nat × Vma × Area)
  | some (p, vma) :: answers, e :: rest => (p, vma, e.2) :: copies answers rest
  | _, _ => []

/-- Where the link of the last copy leads. -/
def lastLink (dest : Option Nat) (done : List (Nat × Vma × Area)) : Option Nat :=
  done.getLast?.elim dest fun x => x.2.1.next

abbrev entries (done : List (Nat × Vma × Area)) : List Entry := done.map fun x => (x.1, x.2.2)

variable {s t : CopyRun} {l front rest : List Entry} {e : Entry} {done : List (Nat × Vma × Area)}
variable {dest head last : Option Nat} {answers : List Answer} {fuel p : Nat} {vma : Vma}

/-- The nodes of `kmalloc` differ from each other and from those of the list. -/
structure Distinct (l : List Entry) (answers : List Answer) : Prop where
  nodup : (answers.filterMap fun a => a.map Prod.fst).Nodup
  apart : ∀ a ∈ answers, ∀ x ∈ a, x.1 ∉ l.map Prod.fst

/-- What holds in front of each round: `done` is copied, and `l` is as it was. -/
structure Copying (l : List Entry) (dest : Option Nat) (done : List (Nat × Vma × Area))
    (head last : Option Nat) (s : CopyRun) : Prop where
  source : s.vmas.Spells .user l
  path : Path s.vmas.next s.vmas.prev s.vmas.area none head (entries done) (lastLink dest done)
  last : last = DoublyLinked.last none (entries done)
  nodup : ((entries done).map Prod.fst).Nodup
  apart : ∀ x ∈ done, x.1 ∉ l.map Prod.fst

theorem lastLink_append : lastLink dest (done ++ [(p, vma, e.2)]) = vma.next := by
  rw [lastLink, List.getLast?_concat]
  rfl

/-- The memory after one round, in which `kmalloc` has answered with `p`. -/
def round (v : Vmas) (old p : Nat) (vma : Vma) (last : Option Nat) : Vmas :=
  ((v.setNode p fun _ => vma).setNode p (fill ((v.setNode p fun _ => vma).node old) last)).linkNext
    last (some p)

theorem node_round {v : Vmas} {old q : Nat} (hOld : old ≠ p) (hLast : last ≠ some p) :
    (round v old p vma last).node q =
      if q = p then { (v.node old).toArea with next := vma.next, prev := last }
      else if last = some q then { v.node q with next := some p } else v.node q := by
  rw [round, Vmas.node_linkNext, Vmas.node_setNode, Vmas.node_setNode, Vmas.node_setNode,
    Vmas.node_setNode, if_pos rfl, if_neg hOld]
  by_cases hq : q = p
  · rw [if_pos hq, if_pos hq, hq, if_neg hLast]
    rfl
  · rw [if_neg hq, if_neg hq, if_neg hq]

theorem Copying.start (h : s.vmas.Spells .user l) : Copying l dest [] dest none s where
  source := h
  path := rfl
  last := rfl
  nodup := List.nodup_nil
  apart := by simp

/-- One round of the loop. -/
theorem Copying.step (h : Copying l dest done head last s) (he : e ∈ l)
    (hNew : p ∉ (entries done).map Prod.fst) (hOff : p ∉ l.map Prod.fst)
    (ht : t.vmas = round s.vmas e.1 p vma last) :
    Copying l dest (done ++ [(p, vma, e.2)]) (if last.isSome then head else some p) (some p) t := by
  have hOld : e.1 ≠ p := fun hp => hOff (hp ▸ List.mem_map_of_mem he)
  have hLastMem : ∀ q, last = some q → q ∈ (entries done).map Prod.fst := by
    intro q hq
    exact last_eq_some (h.last.symm.trans hq)
  have hLast : last ≠ some p := fun hp => hNew (hLastMem p hp)
  have hNode : ∀ q, t.vmas.node q = _ := fun q => (congrArg (fun v => v.node q) ht).trans
    (node_round hOld hLast)
  have hArea : (s.vmas.node e.1).toArea = e.2 := h.source.area_eq he
  have hAt : Path t.vmas.next t.vmas.prev t.vmas.area last (some p) [(p, e.2)] vma.next := by
    refine ⟨rfl, ?_, ?_, ?_⟩
    · rw [Vmas.prev, hNode, if_pos rfl]
    · rw [Vmas.area, hNode, if_pos rfl, ← hArea]
    · show t.vmas.next p = vma.next
      rw [Vmas.next, hNode, if_pos rfl]
  have hEntries : entries (done ++ [(p, vma, e.2)]) = entries done ++ [(p, e.2)] := List.map_append
  refine ⟨?_, ?_, ?_, ?_, ?_⟩
  · refine h.source.congr ?_ ?_
    · rw [ht, round, Vmas.list_linkNext, Vmas.list_setNode, Vmas.list_setNode]
    · intro q hq
      have hOther : last ≠ some q := by
        intro hSame
        obtain ⟨x, hx, hCell⟩ := List.mem_map.mp (hLastMem q hSame)
        obtain ⟨y, hy, rfl⟩ := List.mem_map.mp hx
        exact h.apart y hy (hCell ▸ hq)
      have hqp : q ≠ p := fun hp => hOff (hp ▸ hq)
      rw [hNode, if_neg hqp, if_neg hOther]
  · rw [hEntries, lastLink_append]
    cases done using List.reverseRecOn with
    | nil =>
        have hNone : last = none := h.last
        rw [hNone] at hAt ⊢
        exact hAt
    | append_singleton init x =>
        have hSplit : entries (init ++ [x]) = entries init ++ [(x.1, x.2.2)] := List.map_append
        have hSome : last = some x.1 := by
          rw [h.last, hSplit, last_concat]
        have hPath := h.path
        have hNodup := h.nodup
        rw [hSplit] at hPath hNodup hNew ⊢
        rw [List.map_append, List.nodup_append] at hNodup
        rw [hSome, Option.isSome_some, if_pos rfl]
        refine path_append.mpr ⟨some p, hPath.retarget ?_ ?_ ?_ ?_, ?_⟩
        · have hx : x.1 ≠ p := fun hp => hNew (by simp [hp])
          rw [Vmas.next, hNode, if_neg hx, if_pos hSome]
        · have hx : x.1 ≠ p := fun hp => hNew (by simp [hp])
          rw [Vmas.prev, hNode, if_neg hx, if_pos hSome]
          rfl
        · have hx : x.1 ≠ p := fun hp => hNew (by simp [hp])
          rw [Vmas.area, hNode, if_neg hx, if_pos hSome]
          rfl
        · intro c hc
          have hcp : c ≠ p := fun hp => hNew (hp ▸ by simp at hc ⊢; exact Or.inl hc)
          have hcx : last ≠ some c := by
            rw [hSome]
            rintro ⟨⟩
            exact hNodup.2.2 _ hc _ (by simp) rfl
          rw [Vmas.next, Vmas.prev, Vmas.area, hNode, if_neg hcp, if_neg hcx]
          exact ⟨rfl, rfl, rfl⟩
        · rw [last_concat, ← hSome]
          exact hAt
  · rw [hEntries, last_concat]
  · rw [hEntries, List.map_append, List.nodup_append]
    refine ⟨h.nodup, by simp, ?_⟩
    rintro c hc d hd rfl
    rw [List.map_cons, List.map_nil, List.mem_singleton] at hd
    have hcp : c = p := hd
    exact hNew (hcp ▸ hc)
  · intro x hx
    rcases List.mem_append.mp hx with hx | hx
    · exact h.apart x hx
    · rw [List.mem_singleton.mp hx]
      exact hOff

theorem copies_nil : copies answers [] = [] := by
  cases answers with
  | nil => rfl
  | cons a answers => cases a <;> rfl

theorem Copying.congr (h : Copying l dest done head last s) (ht : t.vmas = s.vmas) :
    Copying l dest done head last t :=
  ⟨by rw [ht]; exact h.source, by rw [ht]; exact h.path, h.last, h.nodup, h.apart⟩

/-- The rest of the loop, from the entry that `old` leads to. -/
theorem copyLoop_run (h : Copying l dest done head last s) (hl : l = front ++ rest)
    (hDistinct : Distinct l s.env.answers)
    (hNew : ∀ a ∈ s.env.answers, ∀ x ∈ a, x.1 ∉ (entries done).map Prod.fst)
    (hFuel : rest.length < fuel) :
    ∃ t head', copyLoop fuel (first rest) last head s =
        some (t, head', if (copies s.env.answers rest).length = rest.length then 0 else -enomem) ∧
      t.env.freed = s.env.freed ∧
      ∃ last', Copying l dest (done ++ copies s.env.answers rest) head' last' t := by
  induction rest generalizing front fuel done head last s with
  | nil =>
      obtain ⟨fuel, rfl⟩ := Nat.exists_eq_add_of_lt hFuel
      rw [copies_nil, List.append_nil]
      exact ⟨s, head, rfl, rfl, last, h⟩
  | cons e rest ih =>
      obtain ⟨fuel, rfl⟩ := Nat.exists_eq_add_of_lt hFuel
      have hMem : e ∈ l := by simp [hl]
      cases hAnswers : s.env.answers with
      | nil =>
          refine ⟨s, head, ?_, rfl, last, ?_⟩
          · rw [first_cons, copyLoop, kmalloc, hAnswers]
            rfl
          · rw [copies, List.append_nil]
            · exact h
            · rintro _ _ _ _ _ ⟨⟩
      | cons a answers =>
          cases a with
          | none =>
              refine ⟨{ s with env := { s.env with answers := answers } }, head, ?_, rfl, last, ?_⟩
              · rw [first_cons, copyLoop, kmalloc, hAnswers]
                rfl
              · rw [copies, List.append_nil]
                · exact h.congr rfl
                · rintro _ _ _ _ _ ⟨⟩
          | some x =>
              obtain ⟨p, vma⟩ := x
              rw [hAnswers] at hDistinct hNew
              have hOff : p ∉ l.map Prod.fst := hDistinct.apart _ List.mem_cons_self _ rfl
              have hFresh := hNew _ List.mem_cons_self _ rfl
              obtain ⟨u, hu⟩ : ∃ u : CopyRun, u = { s with
                vmas := round s.vmas e.1 p vma last
                env := { s.env with answers := answers } } := ⟨_, rfl⟩
              have hVmas : u.vmas = round s.vmas e.1 p vma last := by rw [hu]
              have hEnv : u.env.answers = answers ∧ u.env.freed = s.env.freed := by
                rw [hu]
                exact ⟨rfl, rfl⟩
              have hStep := h.step hMem hFresh hOff hVmas
              have hNodup := List.nodup_cons.mp hDistinct.nodup
              have hl' : l = (front ++ [e]) ++ rest := by simp [hl]
              obtain ⟨t, head', hRun, hFreed, last', hCopying⟩ := ih hStep hl'
                ⟨by rw [hEnv.1]; exact hNodup.2,
                  fun a ha => hDistinct.apart a (List.mem_cons_of_mem _ (hEnv.1 ▸ ha))⟩
                (by
                  intro a ha x hx hOld
                  rw [hEnv.1] at ha
                  rw [entries, List.map_append, List.map_append, List.mem_append] at hOld
                  rcases hOld with hOld | hOld
                  · exact hNew a (List.mem_cons_of_mem _ ha) x hx hOld
                  · have hSame : x.1 = p := by simpa using hOld
                    refine hNodup.1 (List.mem_filterMap.mpr ⟨a, ha, ?_⟩)
                    rw [hx, ← hSame]
                    rfl)
                (Nat.lt_of_succ_lt_succ hFuel)
              have hNext : u.vmas.next e.1 = first rest := by
                have hSource := hStep.source
                rw [hl] at hSource
                obtain ⟨_, _, _, _, _, hRest⟩ := path_append.mp hSource
                exact hRest.start_eq
              refine ⟨t, head', ?_, hFreed.trans hEnv.2, last', ?_⟩
              · have hLength : (copies (some (p, vma) :: answers) (e :: rest)).length =
                    (e :: rest).length ↔ (copies answers rest).length = rest.length := by
                  rw [copies, List.length_cons, List.length_cons, Nat.add_right_cancel_iff]
                rw [first_cons, copyLoop, kmalloc, hAnswers]
                simp only [hLength]
                rw [← hNext, hEnv.1, hu] at hRun
                exact hRun
              · rw [copies, ← List.singleton_append, ← List.append_assoc, ← hEnv.1]
                exact hCopying

theorem copyLoop_mono {fuel' : Nat} {old : Option Nat} (h : fuel ≤ fuel') :
    Le (copyLoop fuel old last dest s) (copyLoop fuel' old last dest s) := by
  induction fuel generalizing fuel' old last dest s with
  | zero => exact le_none
  | succ fuel ih =>
      obtain ⟨fuel', rfl⟩ := Nat.exists_eq_add_of_le' (Nat.le_of_add_left_le h)
      cases old with
      | none => exact Le.refl
      | some old =>
          apply Le.bind Le.refl
          rintro ⟨u, new⟩
          cases new with
          | none => exact Le.refl
          | some new => exact ih (by omega)

/-- `drop_vma_list` frees the nodes of a terminated list in their order. -/
theorem dropVmaList_run {cells : List Nat} (h : LinkedList.Chain s.vmas.next head cells)
    (hFuel : cells.length < fuel) :
    ∃ u, dropVmaList fuel head s = some (u, none) ∧ u.env.freed = s.env.freed ++ cells := by
  induction cells generalizing fuel head s with
  | nil =>
      obtain ⟨fuel, rfl⟩ := Nat.exists_eq_add_of_lt hFuel
      obtain rfl : head = none := h
      exact ⟨s, rfl, (List.append_nil _).symm⟩
  | cons c cells ih =>
      obtain ⟨fuel, rfl⟩ := Nat.exists_eq_add_of_lt hFuel
      have hOnce := (List.nodup_cons.mp (LinkedList.Chain.nodup h)).1
      have hRest' : LinkedList.Chain (s.vmas.setNode c fun _ => s.env.garbage c).next
          (s.vmas.next c) cells := by
        refine LinkedList.Segment.congr h.2 ?_
        intro d hd
        have hdc : d ≠ c := fun hSame => hOnce (hSame ▸ hd)
        rw [Vmas.next, Vmas.node_setNode, if_neg hdc, Vmas.next]
      obtain ⟨u, hRun, hFreed⟩ := ih (s := { s with
        vmas := s.vmas.setNode c fun _ => s.env.garbage c
        env := { s.env with freed := s.env.freed ++ [c] } }) hRest' (Nat.lt_of_succ_lt_succ hFuel)
      refine ⟨u, ?_, ?_⟩
      · rw [h.1]
        exact hRun
      · rw [hFreed, List.append_assoc]
        rfl

/-- What `copy_vma_list` promises: the list of `src` is as it was, and that of `dest` is a terminated
list of nodes from `kmalloc`, a copy of the whole list unless `kmalloc` failed; in that case
`drop_vma_list` gives back what there is. -/
structure Copied (l : List Entry) (got : List Nat) (t : CopyRun) (dest : Option Nat) (ret : Int) :
    Prop where
  source : t.vmas.Spells .user l
  success : ret = 0 → ∃ l', Path t.vmas.next t.vmas.prev t.vmas.area none dest l' none ∧ Sorted l' ∧
    (∀ e ∈ l', e.1 ∈ got) ∧ l'.map Prod.snd = l.map Prod.snd
  failure : ret = -enomem → ∃ l', Path t.vmas.next t.vmas.prev t.vmas.area none dest l' none ∧
    Sorted l' ∧ (∀ e ∈ l', e.1 ∈ got) ∧
    ∃ fuel u freed, dropVmaList fuel dest t = some (u, none) ∧
      u.env.freed = t.env.freed ++ freed ∧ freed.Perm got

/-- The copies have the areas of the first entries. -/
theorem copies_areas : ∃ more, l.map Prod.snd = (entries (copies answers l)).map Prod.snd ++ more := by
  induction l generalizing answers with
  | nil =>
      rw [copies_nil]
      exact ⟨[], rfl⟩
  | cons e rest ih =>
      cases answers with
      | nil => exact ⟨_, rfl⟩
      | cons a answers =>
          cases a with
          | none => exact ⟨_, rfl⟩
          | some x =>
              obtain ⟨more, hMore⟩ : ∃ more, rest.map Prod.snd =
                  (entries (copies answers rest)).map Prod.snd ++ more := ih
              refine ⟨more, ?_⟩
              rw [List.map_cons, hMore]
              rfl

theorem sorted_of_areas {l' : List Entry} {more : List Area} (h : Sorted l)
    (hAreas : l.map Prod.snd = l'.map Prod.snd ++ more) : Sorted l' := by
  have hMap : ∀ l : List Entry, Sorted l ↔ Intervals.Ordered Area.start Area.endAddr (l.map Prod.snd) := by
    intro l
    constructor
    · intro h
      exact ⟨List.forall_mem_map.mpr h.proper, List.pairwise_map.mpr h.sorted⟩
    · intro h
      exact ⟨List.forall_mem_map.mp h.proper, List.pairwise_map.mp h.sorted⟩
  rw [hMap, hAreas, Intervals.ordered_append] at h
  exact (hMap l').mpr h.1

/-- A terminated list that begins with the copies and has only nodes of copies ends with the last
copy. -/
theorem Copying.ends {l' : List Entry} (h : Copying l dest done head last s)
    (hPath : Path s.vmas.next s.vmas.prev s.vmas.area none head l' none)
    (hGot : ∀ e ∈ l', e.1 ∈ done.map Prod.fst) : lastLink dest done = none := by
  obtain ⟨more, hAll, hMore⟩ := h.path.segment.rest hPath.segment
  have hNodup := hPath.nodup
  rw [hAll, List.nodup_append] at hNodup
  cases more with
  | nil => exact hMore
  | cons c more =>
      have hMem : c ∈ l'.map Prod.fst := by simp [hAll]
      obtain ⟨e, he, rfl⟩ := List.mem_map.mp hMem
      have hOld : e.1 ∈ (entries done).map Prod.fst := by
        rw [List.map_map]
        exact hGot e he
      exact absurd rfl (hNodup.2.2 e.1 hOld e.1 List.mem_cons_self)

/-- The copies make a list if the link of the last one is `NULL`. -/
theorem Copying.copied {ret : Int} (h : Copying l dest (copies answers l) head last t)
    (hSorted : Sorted l) (hEnd : lastLink dest (copies answers l) = none)
    (hRet : ret = if (copies answers l).length = l.length then 0 else -enomem) :
    Copied l ((copies answers l).map Prod.fst) t head ret := by
  have hPath := h.path
  rw [hEnd] at hPath
  obtain ⟨more, hAreas⟩ : ∃ more, l.map Prod.snd =
      (entries (copies answers l)).map Prod.snd ++ more := copies_areas
  have hGot : ∀ e ∈ entries (copies answers l), e.1 ∈ (copies answers l).map Prod.fst := by
    intro e he
    obtain ⟨x, hx, rfl⟩ := List.mem_map.mp he
    exact List.mem_map_of_mem hx
  have hCells : (entries (copies answers l)).map Prod.fst = (copies answers l).map Prod.fst := by
    rw [List.map_map]
    rfl
  refine ⟨h.source, ?_, ?_⟩
  · intro hZero
    have hLength : (copies answers l).length = l.length := by
      by_contra hShort
      rw [hRet, if_neg hShort] at hZero
      exact absurd hZero (by decide)
    refine ⟨_, hPath, sorted_of_areas hSorted hAreas, hGot, ?_⟩
    have hMore := congrArg List.length hAreas
    simp only [List.length_append, List.length_map, hLength] at hMore
    have hNone : more = [] := List.length_eq_zero_iff.mp (by omega)
    rw [hAreas, hNone, List.append_nil]
  · intro _
    refine ⟨_, hPath, sorted_of_areas hSorted hAreas, hGot, ?_⟩
    obtain ⟨u, hRun, hFreed⟩ := dropVmaList_run hPath.segment (Nat.lt_succ_self _)
    exact ⟨_, u, _, hRun, hFreed, hCells ▸ List.Perm.refl _⟩

/-- `copy_vma_list` returns, and keeps its promise exactly when the memory of the last copy happened
to hold a `NULL` link, or the list of `dest` was empty if there is no copy. -/
theorem copyVmaList_copied_iff (hSpells : s.vmas.Spells .user l) (hSorted : Sorted l)
    (hDistinct : Distinct l s.env.answers) :
    (∃ fuel x, copyVmaList fuel dest s = some x) ∧
      ((∀ fuel x, copyVmaList fuel dest s = some x →
          Copied l ((copies s.env.answers l).map Prod.fst) x.1 x.2.1 x.2.2) ↔
        lastLink dest (copies s.env.answers l) = none) := by
  obtain ⟨t, head, hRun, _, last, hCopying⟩ := copyLoop_run (Copying.start hSpells)
    (List.nil_append l).symm hDistinct (fun _ _ _ _ h => absurd h (by simp)) (Nat.lt_succ_self _)
  rw [← hSpells.start_eq, List.nil_append] at *
  refine ⟨⟨_, _, hRun⟩, ?_, ?_⟩
  · intro h
    have hCopied := h _ _ hRun
    by_cases hLength : (copies s.env.answers l).length = l.length
    · obtain ⟨l', hPath, _, hGot, _⟩ := hCopied.success (if_pos hLength)
      exact hCopying.ends hPath hGot
    · obtain ⟨l', hPath, _, hGot, _⟩ := hCopied.failure (if_neg hLength)
      exact hCopying.ends hPath hGot
  · intro hEnd fuel x hx
    have hSame := copyLoop_mono (Nat.le_max_left fuel (l.length + 1)) x hx
    have hLarge := copyLoop_mono (Nat.le_max_right fuel (l.length + 1)) _ hRun
    have hEq := Option.some.inj (hLarge.symm.trans hSame)
    rw [← hEq]
    exact hCopying.copied hSorted hEnd rfl

/-- An area of user memory, and one behind it. -/
def userArea : Vma := ⟨⟨0x40000000, 0x40001000, vmaRead ||| vmaUser⟩, some 3, none⟩

def nextArea : Vma := ⟨⟨0x40005000, 0x40007000, vmaRead ||| vmaWrite ||| vmaUser⟩, none, some 1⟩

/-- A task with both; the nodes that `kmalloc` is going to give lie at `2` and `4`. -/
def twoUserAreas (held : Vma) : CopyRun where
  vmas := { vmaList := none, taskVmaList := some 1
            node := fun p => if p = 1 then userArea else if p = 3 then nextArea else held }
  heap := { mem := fun _ => 0, lists := fun _ => none }
  env := ⟨[some (2, userArea), some (4, held)], fun _ => held, []⟩

def twoEntries : List Entry := [(1, userArea.toArea), (3, nextArea.toArea)]

theorem twoUserAreas_spells (held : Vma) : (twoUserAreas held).vmas.Spells .user twoEntries :=
  ⟨rfl, rfl, rfl, rfl, rfl, rfl, rfl⟩

theorem twoUserAreas_distinct (held : Vma) : Distinct twoEntries (twoUserAreas held).env.answers :=
  ⟨by simp [twoUserAreas], by simp [twoUserAreas, twoEntries]⟩

theorem twoEntries_sorted : Sorted twoEntries := by
  refine ⟨by simp [twoEntries, userArea, nextArea], ?_⟩
  simp [twoEntries, userArea, nextArea]

theorem copyVmaList_copied_iff_example : ∃ fuel x,
    copyVmaList fuel none (twoUserAreas nextArea) = some x ∧ Copied twoEntries [2, 4] x.1 x.2.1 x.2.2 := by
  obtain ⟨⟨fuel, x, hRun⟩, hIff⟩ := copyVmaList_copied_iff
    (twoUserAreas_spells nextArea) twoEntries_sorted (twoUserAreas_distinct nextArea)
  exact ⟨fuel, x, hRun, hIff.mpr rfl fuel x hRun⟩

/-- A last node whose memory held a link: the copy leads on to it. -/
theorem copyVmaList_not_copied : ¬ ∀ (s : CopyRun) (dest : Option Nat) (l : List Entry),
    s.vmas.Spells .user l → Sorted l → Distinct l s.env.answers →
    ∀ fuel x, copyVmaList fuel dest s = some x →
      Copied l ((copies s.env.answers l).map Prod.fst) x.1 x.2.1 x.2.2 := by
  intro h
  obtain ⟨linked, hLinked⟩ : ∃ linked : Vma, linked = { nextArea with next := some 7 } := ⟨_, rfl⟩
  have hRuns := h _ none _ (twoUserAreas_spells linked) twoEntries_sorted (twoUserAreas_distinct linked)
  have hEnd := (copyVmaList_copied_iff (twoUserAreas_spells linked) twoEntries_sorted
    (twoUserAreas_distinct linked)).2.mp hRuns
  rw [hLinked] at hEnd
  exact absurd hEnd (by decide)

end CopyRun
end ArtOS

import ArtOS.Library.CountBelow
import ArtOS.Memory.Ownership
import ArtOS.Memory.PageMapping

/-! The frames that a page map uses for user space, and the counter `user_usage`
of its task: what `page_map`, `page_unmap`, `page_map_copy` and `page_map_drop`
do to both. -/
namespace ArtOS.Paging

open Frames

/-- A page that user space can reach: both entries on the way to it have `PG_USER`. -/
def CountedPage (mem : Nat → Nat → PageEntry) (p vpn : Nat) : Prop :=
  (mem p (vpn / pageMapEntries)).IsUser ∧
    (mem (mem p (vpn / pageMapEntries)).frame (vpn % pageMapEntries)).IsUser

instance (mem : Nat → Nat → PageEntry) (p : Nat) : DecidablePred (CountedPage mem p) :=
  fun _ => inferInstanceAs (Decidable (_ ∧ _))

/-- The page tables with `PG_USER` and the pages of user space. -/
def userFrames (mem : Nat → Nat → PageEntry) (p : Nat) : Nat :=
  Nat.count (fun i => (mem p i).IsUser) pageMapEntries + Nat.count (CountedPage mem p) allPages

/-- How many of the next `n` pages user space can reach. -/
def userPages (mem : Nat → Nat → PageEntry) (p vpn n : Nat) : Nat :=
  Nat.count (fun k => CountedPage mem p (vpn + k)) n

variable {mem mem' : Nat → Nat → PageEntry} {s s' tables : Paging} {p q f i j v vpn n kernelEnd : Nat}
  {bits : BitVec 12} {new : List Nat} {words : Nat → PageEntry} {entry : Nat → PageEntry} {ret : Int}

theorem userFrames_lt (mem : Nat → Nat → PageEntry) (p : Nat) : userFrames mem p < 2 ^ 32 - 1 := by
  have hTables : Nat.count (fun i => (mem p i).IsUser) pageMapEntries ≤ pageMapEntries :=
    Nat.count_le ..
  have hPages : Nat.count (CountedPage mem p) allPages ≤ allPages := Nat.count_le ..
  have hSmall : pageMapEntries + allPages < 2 ^ 32 - 1 := by decide
  exact (Nat.add_le_add hTables hPages).trans_lt hSmall

theorem countedPage_index (hj : j < pageMapEntries) :
    CountedPage mem p (i * pageMapEntries + j) ↔
      (mem p i).IsUser ∧ (mem (mem p i).frame j).IsUser := by
  have hDiv : (i * pageMapEntries + j) / pageMapEntries = i := by
    rw [Nat.mul_comm, Nat.mul_add_div (by decide), Nat.div_eq_of_lt hj, Nat.add_zero]
  have hMod : (i * pageMapEntries + j) % pageMapEntries = j := by
    rw [Nat.mul_comm, Nat.mul_add_mod, Nat.mod_eq_of_lt hj]
  rw [CountedPage, hDiv, hMod]

theorem countedPage_walk :
    CountedPage mem p v ↔ (mem p (v / pageMapEntries)).IsUser ∧ ∃ e ∈ walk mem p v, e.Has pgUser := by
  refine and_congr_right fun hDir => ?_
  rw [walk]
  constructor
  · intro hUser
    exact ⟨_, if_pos ⟨hDir.1, hUser.1⟩, hUser.2⟩
  · rintro ⟨e, he, hUser⟩
    split at he
    · rename_i hThere
      obtain rfl := Option.some.inj he
      exact ⟨hThere.2, hUser⟩
    · cases he

/-- Two maps with the same entries as far as user space is concerned. -/
theorem userFrames_congr
    (hDir : ∀ i < pageMapEntries, (mem' q i).IsUser ↔ (mem p i).IsUser)
    (hPage : ∀ i < pageMapEntries, (mem p i).IsUser → ∀ j < pageMapEntries,
      ((mem' (mem' q i).frame j).IsUser ↔ (mem (mem p i).frame j).IsUser)) :
    userFrames mem' q = userFrames mem p := by
  refine congrArg₂ (· + ·) (Counting.below_congr hDir) (Counting.below_congr fun v hv => ?_)
  have hIndex : v % pageMapEntries < pageMapEntries := Nat.mod_lt _ (by decide)
  rw [CountedPage, CountedPage, hDir _ (dir_lt hv)]
  exact and_congr_right fun hUser => hPage _ (dir_lt hv) hUser _ hIndex

/-- The tables of the map are the same. -/
theorem userFrames_same (hRoot : mem' p = mem p)
    (hTable : ∀ i < pageMapEntries, (mem p i).IsUser → mem' (mem p i).frame = mem (mem p i).frame) :
    userFrames mem' p = userFrames mem p := by
  refine userFrames_congr (fun i _ => by rw [hRoot]) fun i hi hUser j _ => ?_
  rw [hRoot, hTable i hi hUser]

/-- What `page_map_copy` counts in a page table. -/
theorem userCount_eq (left j : Nat) :
    userCount words left j = Nat.count (fun k => (words (j + k)).IsUser) left := by
  induction left generalizing j with
  | zero => rfl
  | succ left ih =>
      rw [userCount, ih, Nat.count_succ', Nat.add_comm]
      simp only [Nat.add_zero, Nat.add_assoc, Nat.add_comm 1]

theorem tableCount_from (s : Paging) (p left i : Nat) :
    s.tableCount p left i = Nat.count (fun k => (s.mem p (i + k)).IsUser) left +
      Nat.count (fun k => CountedPage s.mem p (i * pageMapEntries + k)) (left * pageMapEntries) := by
  induction left generalizing i with
  | zero => rw [Nat.zero_mul]; rfl
  | succ left ih =>
      have hTable : Nat.count (fun k => CountedPage s.mem p (i * pageMapEntries + k)) pageMapEntries =
          if (s.mem p i).IsUser then userCount (s.mem (s.mem p i).frame) pageMapEntries 0 else 0 := by
        split
        · rename_i hUser
          rw [userCount_eq]
          refine Counting.below_congr fun k hk => ?_
          rw [countedPage_index hk, Nat.zero_add]
          exact and_iff_right hUser
        · rename_i hUser
          refine Nat.count_iff_forall_not.mpr fun k hk => ?_
          rw [countedPage_index hk]
          exact fun hBoth => hUser hBoth.1
      have hRest : Nat.count (fun k => CountedPage s.mem p (i * pageMapEntries + (pageMapEntries + k)))
          (left * pageMapEntries) =
          Nat.count (fun k => CountedPage s.mem p ((i + 1) * pageMapEntries + k)) (left * pageMapEntries) := by
        refine Counting.below_congr fun k _ => ?_
        rw [Nat.add_mul, Nat.one_mul, Nat.add_assoc]
      have hDirs : Nat.count (fun k => (s.mem p (i + (k + 1))).IsUser) left =
          Nat.count (fun k => (s.mem p (i + 1 + k)).IsUser) left := by
        refine Counting.below_congr fun k _ => ?_
        rw [Nat.add_assoc, Nat.add_comm 1]
      rw [tableCount, ih, Nat.succ_mul left, Nat.add_comm (left * pageMapEntries), Nat.count_succ',
        Nat.count_add, hTable, hRest, hDirs]
      simp only [Nat.add_zero]
      split <;> omega

/-- What `page_map_copy` counts in a page map. -/
theorem tableCount_eq (s : Paging) (p : Nat) :
    s.tableCount p pageMapEntries 0 = userFrames s.mem p := by
  rw [tableCount_from]
  simp only [Nat.zero_add, Nat.zero_mul]
  rfl

/-- The loop of `page_map_drop` over a page table counts every page. -/
theorem Rooted.dropTable_usage (h : s.Rooted p) (hi : i < pageMapEntries)
    (hPresent : (s.mem p i).Has pgPresent) (left j : Nat) (hEnd : j + left = pageMapEntries)
    (hExec : (List.range' (i <<< pageMapBits + j) left).foldlM
      (dropEntry p 0 fun _ s => some s) s = some s') :
    s'.mem = s.mem ∧ s'.usage = decr32^[userCount (s.mem (s.mem p i).frame) left j] s.usage := by
  induction left generalizing s j with
  | zero =>
      obtain rfl := Option.some.inj hExec
      exact ⟨rfl, rfl⟩
  | succ left ih =>
      rw [List.range'_succ, List.foldlM_cons] at hExec
      obtain ⟨s₁, hFirst, hRest⟩ := Option.bind_eq_some_iff.mp hExec
      rw [dropEntry, h.entry_table hi (by omega) hPresent, Option.bind_some] at hFirst
      have hStep : s₁.mem = s.mem ∧ s₁.usage =
          decr32^[if (s.mem (s.mem p i).frame j).IsUser then 1 else 0] s.usage := by
        split at hFirst
        · rename_i hUser
          obtain ⟨⟨frames, ret⟩, _, rfl⟩ := Option.map_eq_some_iff.mp hFirst
          rw [if_pos (show (s.mem (s.mem p i).frame j).IsUser from hUser), Function.iterate_one]
          exact ⟨rfl, rfl⟩
        · rename_i hNot
          obtain rfl := Option.some.inj hFirst
          rw [if_neg (show ¬ (s.mem (s.mem p i).frame j).IsUser from hNot)]
          exact ⟨rfl, rfl⟩
      obtain ⟨hMem₁, hUsage₁⟩ := hStep
      obtain ⟨hMem, hUsage⟩ := ih ⟨hMem₁ ▸ h.frame, hMem₁ ▸ h.present⟩ (hMem₁ ▸ hPresent) (j + 1)
        (by omega) hRest
      refine ⟨hMem.trans hMem₁, ?_⟩
      rw [hUsage, hUsage₁, hMem₁, ← Function.iterate_add_apply, Nat.add_comm (userCount ..), userCount]

/-- The loop over the root counts every table and its pages. -/
theorem Rooted.dropTables_usage (h : s.Rooted p) (left i : Nat) (hEnd : i + left = pageMapEntries)
    (hExec : (List.range' i left).foldlM (dropEntry p 1 (dropTraverse p 0)) s = some s') :
    s'.mem = s.mem ∧ s'.usage = decr32^[s.tableCount p left i] s.usage := by
  induction left generalizing s i with
  | zero =>
      obtain rfl := Option.some.inj hExec
      exact ⟨rfl, rfl⟩
  | succ left ih =>
      rw [List.range'_succ, List.foldlM_cons] at hExec
      obtain ⟨s₁, hFirst, hRest⟩ := Option.bind_eq_some_iff.mp hExec
      rw [dropEntry, h.entry_dir (by omega), Option.bind_some] at hFirst
      have hStep : s₁.mem = s.mem ∧ s₁.usage = decr32^[if (s.mem p i).IsUser then
          1 + userCount (s.mem (s.mem p i).frame) pageMapEntries 0 else 0] s.usage := by
        split at hFirst
        · rename_i hUser
          obtain ⟨s₂, hDeeper, hPut⟩ := Option.bind_eq_some_iff.mp hFirst
          obtain ⟨hMem₂, hUsage₂⟩ := h.dropTable_usage (by omega) hUser.1 pageMapEntries 0
            (Nat.zero_add _) hDeeper
          obtain ⟨⟨frames, ret⟩, _, rfl⟩ := Option.map_eq_some_iff.mp hPut
          refine ⟨hMem₂, ?_⟩
          rw [if_pos (show (s.mem p i).IsUser from hUser), Function.iterate_add_apply, ← hUsage₂,
            Function.iterate_one]
        · rename_i hNot
          obtain rfl := Option.some.inj hFirst
          rw [if_neg (show ¬ (s.mem p i).IsUser from hNot)]
          exact ⟨rfl, rfl⟩
      obtain ⟨hMem₁, hUsage₁⟩ := hStep
      obtain ⟨hMem, hUsage⟩ := ih ⟨hMem₁ ▸ h.frame, hMem₁ ▸ h.present⟩ (i + 1) (by omega) hRest
      have hSame : s₁.tableCount p left (i + 1) = s.tableCount p left (i + 1) := by
        rw [tableCount_from, tableCount_from, hMem₁]
      refine ⟨hMem.trans hMem₁, ?_⟩
      rw [hUsage, hUsage₁, hSame, ← Function.iterate_add_apply, Nat.add_comm (tableCount ..), tableCount]

/-- `page_map_drop` takes every table and every page off the counter. -/
theorem Rooted.pageMapDrop_usage (h : s.Rooted p) (hExec : s.pageMapDrop p = some (s', ret)) :
    s'.mem = s.mem ∧ s'.usage = decr32^[userFrames s.mem p] s.usage := by
  obtain ⟨s₁, hLoop, hPair⟩ := Option.map_eq_some_iff.mp hExec
  obtain ⟨rfl, rfl⟩ := Prod.mk.inj hPair
  rw [← tableCount_eq]
  exact h.dropTables_usage pageMapEntries 0 (Nat.zero_add _) hLoop

/-- A root whose tables are all for user space, but for the self-reference. -/
structure UserTables (s : Paging) (p : Nat) : Prop where
  user : ∀ i < pageMapEntries - 2, (s.mem p i).Has pgPresent → (s.mem p i).Has pgUser
  kernel : ¬ (s.mem p (pageMapEntries - 1)).Has pgUser

/-- New tables are empty. -/
theorem Extends.countedPage (h : s.TwoLevel p) (hKernel : ¬ (s.mem p (pageMapEntries - 1)).Has pgUser)
    (hExtends : Extends bits p s s' new) (hv : v < allPages) :
    CountedPage s'.mem p v ↔ CountedPage s.mem p v := by
  have hDir := dir_lt hv
  by_cases hNew : v / pageMapEntries ∈ new
  · refine iff_of_false (fun hUser => ?_) fun hUser => (hExtends.absent _ hNew).2 hUser.1.1
    rw [CountedPage, hExtends.clear _ hNew] at hUser
    exact PageEntry.not_has_zero hUser.2.1
  · rw [CountedPage, CountedPage, hExtends.entry _ hNew]
    refine and_congr_right fun hUser => ?_
    have hLow : v / pageMapEntries < pageMapEntries - 1 := by
      by_contra hHigh
      obtain hLast : v / pageMapEntries = pageMapEntries - 1 := by omega
      exact hKernel (hLast ▸ hUser.2)
    rw [hExtends.other _ (h.root_ne _ hLow hUser.1) fun i hi he => ?_]
    exact (hExtends.fresh i hi).1.table _ hLow hUser.1 he.symm

theorem Extends.userFrames (h : s.TwoLevel p) (hKernel : ¬ (s.mem p (pageMapEntries - 1)).Has pgUser)
    (hExtends : Extends bits p s s' new) :
    userFrames s'.mem p = userFrames s.mem p + new.length := by
  have hTables : Nat.count (fun i => (s'.mem p i).IsUser) pageMapEntries =
      Nat.count (fun i => (s.mem p i).IsUser) pageMapEntries + new.length := by
    refine Counting.below_join hExtends.nodup (fun i hi => ?_) fun i _ => ?_
    · obtain ⟨hLow, hAbsent⟩ := hExtends.absent i hi
      exact ⟨by omega, fun hUser => hAbsent hUser.1⟩
    · by_cases hi : i ∈ new
      · exact iff_of_true (hExtends.present hi) (Or.inr hi)
      · rw [hExtends.entry i hi]
        exact (or_iff_left hi).symm
  have hPages : Nat.count (CountedPage s'.mem p) allPages = Nat.count (CountedPage s.mem p) allPages :=
    Counting.below_congr fun v hv => hExtends.countedPage h hKernel hv
  rw [Paging.userFrames, Paging.userFrames, hTables, hPages]
  omega

/-- The entries of a range of pages are written. -/
theorem Rewrites.userFrames (h : s.TwoLevel p) (hTables : s.UserTables p)
    (hRewrites : Rewrites entry p vpn n s s') (hRange : vpn + n ≤ lowPages) :
    userFrames s'.mem p + userPages s.mem p vpn n =
      userFrames s.mem p + Nat.count (fun k => (entry k).IsUser) n := by
  have hLow : lowPages ≤ allPages := by decide
  obtain ⟨rest, hAll⟩ := Nat.exists_eq_add_of_le (hRange.trans hLow)
  have hWindow : Nat.count (CountedPage s'.mem p) allPages + userPages s.mem p vpn n =
      Nat.count (CountedPage s.mem p) allPages + userPages s'.mem p vpn n := by
    rw [hAll]
    refine Counting.below_window fun v hv hOut => ?_
    rw [countedPage_walk, countedPage_walk, hRewrites.root,
      hRewrites.walk_other h (hRange.trans lowPages_le) (hAll ▸ hv) fun k hk he => by omega]
  have hWritten : userPages s'.mem p vpn n = Nat.count (fun k => (entry k).IsUser) n := by
    refine Counting.below_congr fun k hk => ?_
    have hThere := hRewrites.table k hk
    rw [CountedPage, hRewrites.root, hRewrites.page k hk]
    exact and_iff_right ⟨hThere, hTables.user _ (table_of_low (by omega)) hThere⟩
  rw [hWritten] at hWindow
  rw [Paging.userFrames, Paging.userFrames, hRewrites.root]
  omega

theorem isUser_page : (⟨f, bits ||| pgPresent⟩ : PageEntry).IsUser ↔ bits &&& pgUser ≠ 0 := by
  have hPresent : PageEntry.Has ⟨f, bits ||| pgPresent⟩ pgPresent := PageEntry.has_page
  refine (and_iff_right hPresent).trans (PageEntry.or_and_ne_zero.trans (or_iff_left ?_))
  decide

/-- What `page_map` does to the frames of its map and to the counter. -/
theorem MapDone.userFrames (h : s.TwoLevel p) (hTables : s.UserTables p)
    (hDone : MapDone bits p vpn f n s s' ret new tables) (hRange : vpn + n ≤ lowPages) :
    s'.usage = (if bits &&& pgUser ≠ 0 then incr32^[new.length] s.usage else s.usage) ∧
      (ret = 0 → userFrames s'.mem p + userPages s.mem p vpn n =
        userFrames s.mem p + new.length + if bits &&& pgUser ≠ 0 then n else 0) ∧
      (ret ≠ 0 → userFrames s'.mem p = userFrames s.mem p + new.length) := by
  have hFirst := hDone.enter.userFrames h hTables.kernel
  have hPages : userPages tables.mem p vpn n = userPages s.mem p vpn n :=
    Counting.below_congr fun k hk => by
      refine hDone.enter.countedPage h hTables.kernel ?_
      have hLow : lowPages ≤ allPages := by decide
      omega
  have hTables' : tables.UserTables p := by
    refine ⟨fun i hi hThere => ?_, ?_⟩
    · by_cases hNew : i ∈ new
      · exact (hDone.enter.present hNew).2
      · rw [hDone.enter.entry i hNew] at hThere ⊢
        exact hTables.user i hi hThere
    · rw [hDone.enter.entry _ fun hNew => ?_]
      · exact hTables.kernel
      · have hLow := (hDone.enter.absent _ hNew).1
        omega
  rcases hDone.result with ⟨hRet, hRewrites⟩ | ⟨hRet, rfl⟩
  · have hCount : Nat.count (fun k => (⟨f + k, bits ||| pgPresent⟩ : PageEntry).IsUser) n =
        if bits &&& pgUser ≠ 0 then n else 0 := by
      split
      · rename_i hUser
        exact Nat.count_iff_forall.mpr fun k _ => isUser_page.mpr hUser
      · rename_i hUser
        exact Nat.count_iff_forall_not.mpr fun k _ => mt isUser_page.mp hUser
    have hSecond := hRewrites.userFrames hDone.level hTables' hRange
    rw [hCount, hPages, hFirst] at hSecond
    exact ⟨hRewrites.usage.trans hDone.enter.usage, fun _ => hSecond, fun hne => absurd hRet hne⟩
  · refine ⟨hDone.enter.usage, fun hZero => ?_, fun _ => hFirst⟩
    rw [hRet] at hZero
    exact absurd hZero (by decide)

/-- Frames in use that hold no table of the map stay as they are. -/
theorem MapDone.other (hDone : MapDone bits p vpn f n s s' ret new tables)
    (hRange : vpn + n ≤ lowPages) {g : Nat} (hRoot : g ≠ p) (hMarked : s.frames.Marked g)
    (hOld : ∀ i < pageMapEntries - 2, (s.mem p i).Has pgPresent → (s.mem p i).frame ≠ g) :
    s'.mem g = s.mem g := by
  have hNew : ∀ i ∈ new, (tables.mem p i).frame ≠ g := fun i hi he =>
    (hDone.enter.fresh i hi).2.2.2 (he ▸ hMarked)
  have hTables : tables.mem g = s.mem g := hDone.enter.other g hRoot hNew
  rcases hDone.result with ⟨_, hRewrites⟩ | ⟨_, rfl⟩
  · funext j
    rw [hRewrites.other g j fun k hk he => ?_, hTables]
    have hLow := table_of_low (by omega : vpn + k < lowPages)
    by_cases hi : (vpn + k) / pageMapEntries ∈ new
    · exact absurd he (hNew _ hi)
    · have hThere := hRewrites.table k hk
      rw [hDone.enter.entry _ hi] at hThere he
      exact absurd he (hOld _ hLow hThere)
  · exact hTables

section Owned

variable {used : Finset Nat} {held : List (Nat × Nat)} {roots : Set Nat}
  {Leaf : Holding → PageEntry → Prop}

theorem Maps.user_low (h : s.Maps Leaf used held roots) (hq : q ∈ roots) (hi : i < pageMapEntries)
    (hUser : (s.mem q i).IsUser) : i < pageMapEntries - 2 := by
  by_contra hHigh
  rcases (by omega : i = pageMapEntries - 2 ∨ i = pageMapEntries - 1) with rfl | rfl
  · exact (h.root q hq).closed hUser.1
  · exact (h.root q hq).kernel hUser.2

/-- A map and its tables have not changed. -/
structure SameTables (mem mem' : Nat → Nat → PageEntry) (q : Nat) : Prop where
  root : mem' q = mem q
  table : ∀ i < pageMapEntries - 2, (mem q i).Has pgPresent → mem' (mem q i).frame = mem (mem q i).frame

theorem Maps.userFrames_same (h : s.Maps Leaf used held roots) (hq : q ∈ roots)
    (hSame : SameTables s.mem s'.mem q) : userFrames s'.mem q = userFrames s.mem q :=
  Paging.userFrames_same hSame.root fun i hi hUser => hSame.table i (h.user_low hq hi hUser) hUser.1

theorem SameTables.walk_eq {mem mem' : Nat → Nat → PageEntry} (h : SameTables mem mem' q) {v : Nat}
    (hv : v < lowPages) : walk mem' q v = walk mem q v := by
  by_cases hPresent : (mem q (v / pageMapEntries)).Has pgPresent
  · rw [walk, walk, h.root, h.table _ (table_of_low hv) hPresent]
  · rw [walk_absent hPresent, walk_absent (by rwa [h.root])]

theorem Owners.twoLevel (h : s.Owners Leaf used held roots) (hp : p ∈ roots) : s.TwoLevel p := by
  have hLow : ∀ i < pageMapEntries - 1, (s.mem p i).Has pgPresent → i < pageMapEntries - 2 := by
    intro i hi hThere
    by_contra hHigh
    obtain rfl : i = pageMapEntries - 2 := by omega
    exact (h.maps.root p hp).closed hThere
  refine ⟨(h.maps.root p hp).rooted, fun i hi hThere he => ?_, fun i hi k hk hne hThere hThere' he => ?_⟩
  · exact (h.maps.table p hp i (hLow i hi hThere) hThere).2.1 (by rw [he]; exact hp)
  · have hSame := (h.exclusive p hp p hp (.table i) (.table k) _ ⟨⟨hLow i hi hThere, hThere⟩, rfl⟩
      ⟨⟨hLow k hk hThere', hThere'⟩, he.symm⟩).2
    exact hne (by injection hSame)

theorem Maps.userTables (h : s.Maps Leaf used held roots) (hp : p ∈ roots) : s.UserTables p :=
  ⟨fun i hi hThere => (h.table p hp i hi hThere).1, (h.root p hp).kernel⟩

theorem Maps.unused_grants (h : s.Maps Leaf used held roots) (hp : p ∈ roots) {viraddr npages : Nat} :
    ∀ g ∈ s.tableGrants kernelEnd p viraddr npages, s.Unused p g := by
  intro g hg
  have hFree := (grants_free _ g hg).2
  refine ⟨fun he => hFree (he ▸ (h.root p hp).owned.marked), fun i hi hThere he => hFree (he ▸ ?_)⟩
  have hLow : i < pageMapEntries - 2 := by
    by_contra hHigh
    obtain rfl : i = pageMapEntries - 2 := by omega
    exact (h.root p hp).closed hThere
  exact (h.table p hp i hLow hThere).2.2.owned.marked

/-- `page_map` does not change the other maps. -/
theorem Owners.map_others (h : s.Owners Leaf used held roots) (hp : p ∈ roots)
    (hDone : MapDone bits p vpn f n s s' ret new tables) (hRange : vpn + n ≤ lowPages)
    (hq : q ∈ roots) (hne : q ≠ p) : SameTables s.mem s'.mem q := by
  have hRoot : s'.mem q = s.mem q :=
    hDone.other hRange hne (h.maps.root q hq).owned.marked fun i hi hThere he =>
      (h.maps.table p hp i hi hThere).2.1 (he ▸ hq)
  refine ⟨hRoot, fun i hi hPresent => ?_⟩
  obtain ⟨_, hApart, hTable⟩ := h.maps.table q hq i hi hPresent
  refine hDone.other hRange (fun he => hApart (he ▸ hp)) hTable.owned.marked fun k hk hThere he => ?_
  exact hne (h.exclusive q hq p hp (.table i) (.table k) _ ⟨⟨hi, hPresent⟩, rfl⟩ ⟨⟨hk, hThere⟩, he⟩).1

/-- Nor does `page_unmap`. -/
theorem Owners.unmap_others {entry : Nat → PageEntry} (h : s.Owners Leaf used held roots) (hp : p ∈ roots)
    (hRewrites : Rewrites entry p vpn n s s') (hRange : vpn + n ≤ lowPages) (hq : q ∈ roots) (hne : q ≠ p) :
    SameTables s.mem s'.mem q := by
  have hLow : ∀ k < n, (vpn + k) / pageMapEntries < pageMapEntries - 2 := fun k hk => table_of_low (by omega)
  constructor
  · funext j
    refine hRewrites.other q j fun k hk he => ?_
    exact absurd hq (he ▸ (h.maps.table p hp _ (hLow k hk) (hRewrites.table k hk)).2.1)
  · intro i hi hPresent
    funext j
    refine hRewrites.other _ j fun k hk he => absurd ?_ hne
    exact (h.exclusive q hq p hp (.table i) (.table ((vpn + k) / pageMapEntries)) _ ⟨⟨hi, hPresent⟩, rfl⟩
      ⟨⟨hLow k hk, hRewrites.table k hk⟩, he⟩).1

/-- A frame in use that no map uses is no table after `page_map` either. -/
theorem Owners.map_clear (h : s.Owners Leaf used held roots) (hp : p ∈ roots)
    (hDone : MapDone bits p vpn f n s s' ret new tables) (hRange : vpn + n ≤ lowPages) {g : Nat}
    (hMarked : s.frames.Marked g) (hFree : ∀ q ∈ roots, ∀ x, ¬ Uses s.mem q x g) (hq : q ∈ roots) :
    userFrames (s'.setFrame g words).mem q = userFrames s'.mem q := by
  have hRoot : q ≠ g := fun he => hFree q hq .root he.symm
  refine userFrames_same (mem_setFrame_of_ne hRoot) fun i hi hUser => mem_setFrame_of_ne fun he => ?_
  have hOld : s'.mem q i = s.mem q i → False := by
    intro hSame
    rw [hSame] at he hUser
    exact hFree q hq (.table i) ⟨⟨h.maps.user_low hq hi hUser, hUser.1⟩, he⟩
  by_cases hqp : q = p
  · subst hqp
    rw [hDone.root] at hOld he
    by_cases hNew : i ∈ new
    · exact (hDone.enter.fresh i hNew).2.2.2 (he ▸ hMarked)
    · exact hOld (hDone.enter.entry i hNew)
  · exact hOld (congrFun (h.map_others hp hDone hRange hq hqp).root i)

/-- A copied entry is one of user space if the old one is. -/
theorem Image.isUser_iff {r : Holding} {e e' : PageEntry} (h : Image r e e') :
    e'.IsUser ↔ e.IsUser := by
  cases h with
  | dropped h =>
      refine iff_of_false (fun hUser => PageEntry.not_has_zero hUser.1) fun hUser => ?_
      exact h.elim (fun hNone => hNone hUser.1) fun hKernel => hKernel.1 hUser.2
  | shared => exact Iff.rfl
  | fresh h => exact iff_of_true ⟨h.1, h.2⟩ h

/-- What the copy makes of a word: only the entry for `PAGE_TMP` changes, and none of the two
is one of user space. -/
theorem Shifted.isUser_iff {b : Paging} {e : PageEntry} (hTmp : b.TmpKernel p)
    (h : e = b.mem f j ∨ b.Shifted p f j e) : e.IsUser ↔ (b.mem f j).IsUser := by
  rcases h with rfl | hShifted
  · exact Iff.rfl
  · refine iff_of_false (fun hUser => (PageEntry.has_tmp hShifted.flags).2 hUser.2) fun hUser => hTmp ?_
    rwa [hShifted.table, hShifted.index] at hUser

/-- The old maps use as many frames as before the copy. -/
theorem Copied.old_userFrames {b : Paging} {d : Nat} (hBase : b.Maps Leaf used held roots)
    (hp : p ∈ roots) (h : Copied held b s p d) (hTmp : b.TmpKernel p) (hq : q ∈ roots) :
    userFrames s.mem q = userFrames b.mem q := by
  have hDir : ∀ i < pageMapEntries, i ≠ pageMapEntries - 2 → s.mem q i = b.mem q i := fun i _ hi =>
    h.root_word hBase hp hq fun _ => hi
  have hSecond : ∀ {t : Paging}, t.Root held q → ¬ (t.mem q (pageMapEntries - 2)).IsUser :=
    fun hRoot hUser => hRoot.closed hUser.1
  refine userFrames_congr (fun i hi => ?_) fun i hi hUser j hj => ?_
  · by_cases hSpare : i = pageMapEntries - 2
    · rw [hSpare]
      exact iff_of_false (hSecond (h.oldRoot hBase hp hq)) (hSecond (hBase.root q hq))
    · rw [hDir i hi hSpare]
  · have hLow := hBase.user_low hq hi hUser
    obtain ⟨_, hApart, hTable⟩ := hBase.table q hq i hLow hUser.1
    rw [hDir i hi (by omega)]
    exact Shifted.isUser_iff hTmp (h.old _ hTable.owned.marked j fun he => absurd hp (he ▸ hApart))

/-- The new map uses as many frames as the one it was copied from. -/
theorem Copied.new_userFrames {b : Paging} {d : Nat} (hBase : b.Maps Leaf used held roots)
    (hp : p ∈ roots) (h : Copied held b s p d) (hTmp : b.TmpKernel p) :
    userFrames s.mem d = userFrames b.mem p := by
  have hLow : ∀ i < pageMapEntries - 2, ((s.mem d i).IsUser ↔ (b.mem p i).IsUser) := by
    intro i hi
    obtain ⟨hAbsent, hThere⟩ := h.tables i (by omega) hi
    by_cases hPresent : (b.mem p i).Has pgPresent
    · have hFlags := (hThere hPresent).1
      exact and_congr (PageEntry.has_congr hFlags) (PageEntry.has_congr hFlags)
    · exact iff_of_false (fun hUser => hAbsent hPresent hUser.1) fun hUser => hPresent hUser.1
  have hHigh : ∀ i < pageMapEntries, ¬ i < pageMapEntries - 2 → ¬ (s.mem d i).IsUser := by
    intro i hi hNot hUser
    rcases (by omega : i = pageMapEntries - 2 ∨ i = pageMapEntries - 1) with rfl | rfl
    · exact h.spare hUser.1
    · rw [h.root] at hUser
      exact PageEntry.has_reference.2.1 hUser.2
  refine userFrames_congr (fun i hi => ?_) fun i hi hUser j hj => ?_
  · by_cases hTable : i < pageMapEntries - 2
    · exact hLow i hTable
    · exact iff_of_false (hHigh i hi hTable) fun hUser => hTable (hBase.user_low hp hi hUser)
  · have hTable := hBase.user_low hp hi hUser
    obtain ⟨e, he, hImage⟩ := ((h.tables i hi hTable).2 hUser.1).2.2 j hj
    exact hImage.isUser_iff.trans (Shifted.isUser_iff hTmp he)

end Owned

theorem incr32_iterate {m u : Nat} (h : u + m < 2 ^ 32) : incr32^[m] u = u + m := by
  induction m with
  | zero => rfl
  | succ m ih => rw [Function.iterate_succ_apply', ih (by omega), incr32_eq (by omega)]; omega

theorem decr32_iterate {m u : Nat} (h : u + m < 2 ^ 32) : decr32^[m] (u + m) = u := by
  induction m with
  | zero => rfl
  | succ m ih => rw [Function.iterate_succ_apply, ← Nat.add_assoc, decr32_succ (by omega), ih (by omega)]

/-- `page_map` keeps `user_usage` right: it counts the new tables if it is called with `PG_USER`,
and no pages. If the frames for tables run out, only these matter. -/
def MapBalanced (kernelEnd p viraddr npages : Nat) (bits : BitVec 12) (s : Paging) : Prop :=
  let missing := s.tablesMissing p viraddr npages
  let granted := (s.tableGrants kernelEnd p viraddr npages).length
  if granted = missing then
    userPages s.mem p (viraddr >>> pageBits) npages = if bits &&& pgUser ≠ 0 then npages else missing
  else bits &&& pgUser ≠ 0 ∨ granted = 0

/-- `page_fault_handler` keeps `user_usage` right: the fault is not in the heap, or the frames for
the page and its table run out, or user space could reach the page already. -/
def FaultBalanced (kernelEnd p viraddr : Nat) (heap : Option (Nat × Nat)) (s : Paging) : Prop :=
  (∃ area ∈ heap, area.1 ≤ viraddr ∧ viraddr < area.2) →
    let missing := s.tablesMissing p viraddr 1
    (s.frames.grants kernelEnd (missing + 1)).length = missing + 1 →
      CountedPage s.mem p (viraddr >>> pageBits)

/-- The counter of a map whose root is `p`; `boot` frames of it were never counted. -/
def CountsFrames (boot p : Nat) (s : Paging) : Prop := userFrames s.mem p = s.usage + boot

theorem MapDone.balanced (h : s.TwoLevel p) (hTables : s.UserTables p) {viraddr npages boot : Nat}
    (hDone : MapDone bits p (viraddr >>> pageBits) f npages s s' ret new tables)
    (hRange : viraddr >>> pageBits + npages ≤ lowPages)
    (hGranted : new.length = (s.tableGrants kernelEnd p viraddr npages).length)
    (hRet : ret = 0 ↔ new.length = s.tablesMissing p viraddr npages) (hCount : s.CountsFrames boot p) :
    s'.CountsFrames boot p ↔ s.MapBalanced kernelEnd p viraddr npages bits := by
  obtain ⟨hUsage, hDoneFrames, hFailedFrames⟩ := hDone.userFrames h hTables hRange
  have hBound := userFrames_lt s'.mem p
  have hPages : userPages s.mem p (viraddr >>> pageBits) npages ≤ npages := Nat.count_le ..
  rw [MapBalanced, CountsFrames]
  rw [CountsFrames] at hCount
  by_cases hZero : ret = 0
  · have hFrames := hDoneFrames hZero
    rw [← hGranted, if_pos (hRet.mp hZero), ← hRet.mp hZero]
    by_cases hUser : bits &&& pgUser ≠ 0
    · rw [if_pos hUser] at hUsage hFrames ⊢
      rw [incr32_iterate (by omega)] at hUsage
      omega
    · rw [if_neg hUser] at hUsage hFrames ⊢
      omega
  · have hFrames := hFailedFrames hZero
    rw [← hGranted, if_neg fun he => hZero (hRet.mpr he)]
    by_cases hUser : bits &&& pgUser ≠ 0
    · rw [if_pos hUser, incr32_iterate (by omega)] at hUsage
      exact iff_of_true (by omega) (Or.inl hUser)
    · rw [if_neg hUser] at hUsage
      rw [or_iff_right hUser]
      omega

section Calls

variable {used : Finset Nat} {held : List (Nat × Nat)} {roots : Set Nat}
  {Leaf : Holding → PageEntry → Prop} {boot viraddr npages phyaddr : Nat}

/-- The counter of the map under `page_map`; the other maps use as many frames as before. -/
theorem Owners.pageMap_balanced (h : s.Owners Leaf used held roots) (hp : p ∈ roots)
    (hPages : 1 ≤ npages) (hRange : viraddr >>> pageBits + npages ≤ lowPages)
    (hCall : s.pageMap kernelEnd p viraddr phyaddr npages bits = some (s', ret))
    (hCount : s.CountsFrames boot p) :
    (s'.CountsFrames boot p ↔ s.MapBalanced kernelEnd p viraddr npages bits) ∧
      ∀ q ∈ roots, q ≠ p → userFrames s'.mem q = userFrames s.mem q := by
  have hLevel := h.twoLevel hp
  obtain ⟨new, tables, hDone, hGranted, hRet⟩ :=
    hLevel.pageMap_counted hPages hRange (h.maps.unused_grants hp) hCall
  exact ⟨hDone.balanced hLevel (h.maps.userTables hp) hRange hGranted hRet hCount,
    fun q hq hne => h.maps.userFrames_same hq (h.map_others hp hDone hRange hq hne)⟩

/-- The pages of user space that `page_unmap` takes out of the map are not counted. -/
theorem Owners.pageUnmap_balanced (h : s.Owners Leaf used held roots) (hp : p ∈ roots)
    (hRange : vpn + n ≤ lowPages) (hCall : s.unmapPages p n vpn = some s')
    (hCount : s.CountsFrames boot p) :
    (s'.CountsFrames boot p ↔ userPages s.mem p vpn n = 0) ∧
      ∀ q ∈ roots, q ≠ p → userFrames s'.mem q = userFrames s.mem q := by
  have hLevel := h.twoLevel hp
  obtain ⟨_, hRewrites⟩ := hLevel.unmapPages (hRange.trans lowPages_le) hCall
  have hFrames := hRewrites.userFrames hLevel (h.maps.userTables hp) hRange
  have hNone : Nat.count (fun _ => PageEntry.zero.IsUser) n = 0 :=
    Nat.count_iff_forall_not.mpr fun _ _ hUser => PageEntry.not_has_zero hUser.1
  refine ⟨?_, fun q hq hne => h.maps.userFrames_same hq (h.unmap_others hp hRewrites hRange hq hne)⟩
  rw [hNone] at hFrames
  rw [CountsFrames] at hCount ⊢
  rw [hRewrites.usage]
  omega

theorem grants_succ {frames : Frames} {addr : Nat} (hCall : s.frames.getPages kernelEnd 1 = some (frames, addr))
    (hAddr : addr ≠ 0) : (s.frames.grants kernelEnd (n + 1)).length = n + 1 ↔
      (frames.grants kernelEnd n).length = n := by
  rw [grants, hCall]
  dsimp only
  rw [if_neg hAddr, List.length_cons, Nat.add_right_cancel_iff]

/-- A page fault takes its frame before the tables. -/
theorem faultBalanced_iff {frames : Frames} {addr : Nat}
    (hCall : s.frames.getPages kernelEnd 1 = some (frames, addr)) (hAddr : addr ≠ 0) :
    MapBalanced kernelEnd p (viraddr >>> pageBits <<< pageBits) 1 (pgUser ||| pgRw)
        { s with frames := frames } ↔
      ((s.frames.grants kernelEnd (s.tablesMissing p viraddr 1 + 1)).length =
        s.tablesMissing p viraddr 1 + 1 → CountedPage s.mem p (viraddr >>> pageBits)) := by
  have hMissing : tablesMissing p (viraddr >>> pageBits <<< pageBits) 1 { s with frames := frames } =
      s.tablesMissing p viraddr 1 := by
    rw [tablesMissing, tablesMissing, Nat.shiftLeft_shiftRight]
    exact missing_congr _ _ fun _ _ => rfl
  have hGrants : tableGrants kernelEnd p (viraddr >>> pageBits <<< pageBits) 1
      { s with frames := frames } = frames.grants kernelEnd (s.tablesMissing p viraddr 1) := by
    rw [← hMissing]
    rfl
  have hUser : (pgUser ||| pgRw) &&& pgUser ≠ 0 := by decide
  have hPage : userPages s.mem p (viraddr >>> pageBits) 1 =
      if CountedPage s.mem p (viraddr >>> pageBits) then 1 else 0 := Nat.count_one _
  rw [MapBalanced, hMissing, hGrants, grants_succ hCall hAddr, Nat.shiftLeft_shiftRight, hPage,
    if_pos hUser]
  split
  · rename_i hEnough
    rw [forall_prop_of_true hEnough]
    split
    · rename_i hThere
      exact iff_of_true rfl hThere
    · rename_i hThere
      exact iff_of_false (by decide) hThere
  · rename_i hShort
    exact iff_of_true (Or.inl hUser) fun hEnough => absurd hEnough hShort

/-- The counter of the map under `page_fault_handler`. -/
theorem Owners.pageFault_balanced {back : Bool} {heap : Option (Nat × Nat)}
    (hRule : OwnRule Leaf) (h : s.Owners Leaf used held roots) (hp : p ∈ roots)
    (hRange : (∃ area ∈ heap, area.1 ≤ viraddr ∧ viraddr < area.2) → viraddr >>> pageBits < lowPages)
    (hCall : s.pageFaultHandler kernelEnd p viraddr heap = some (s', back))
    (hCount : s.CountsFrames boot p) :
    (s'.CountsFrames boot p ↔ s.FaultBalanced kernelEnd p viraddr heap) ∧
      ∀ q ∈ roots, q ≠ p → userFrames s'.mem q = userFrames s.mem q := by
  rw [pageFaultHandler] at hCall
  rw [FaultBalanced]
  split at hCall
  · rename_i hHeap
    have hLow := hRange hHeap
    have hPage : viraddr >>> pageBits <<< pageBits >>> pageBits = viraddr >>> pageBits :=
      Nat.shiftLeft_shiftRight _ _
    obtain ⟨frames, addr, hGet, hPool, _, hGrows, hNew⟩ := h.maps.pool.getPages kernelEnd 1
    rw [forall_prop_of_true hHeap]
    dsimp only at hCall ⊢
    rw [hGet, Option.bind_some] at hCall
    dsimp only at hCall
    by_cases hAddr : addr = 0
    · have hNone : s.frames.grants kernelEnd (s.tablesMissing p viraddr 1 + 1) = [] := by
        rw [grants, show s.frames.getPages kernelEnd 1 = _ from hGet]
        exact if_pos hAddr
      rw [if_pos hAddr] at hCall
      obtain ⟨rfl, _⟩ := Prod.mk.inj (Option.some.inj hCall)
      refine ⟨iff_of_true hCount fun hLength => ?_, fun _ _ _ => rfl⟩
      rw [hNone] at hLength
      exact absurd hLength (Nat.succ_ne_zero _).symm
    · rw [if_neg hAddr] at hPool hGrows hCall
      have hMine : addr >>> pageBits ∈ framesOf (addr, 1) := Holding.mem_framesOf_one.mpr rfl
      have hOwners : Owners Leaf used ((addr, 1) :: held) { s with frames := frames } roots :=
        h.keep hRule.toLeafRule hPool hGrows fun _ _ => rfl
      have hMarked : frames.Marked (addr >>> pageBits) := (hPool.marked List.mem_cons_self hMine).2
      have hFree := h.maps.unused hRule (hNew hAddr _ hMine)
      have hSame : ({ s with frames := frames } : Paging).CountsFrames boot p := hCount
      obtain ⟨⟨s₁, ret⟩, hMap, hRest⟩ := Option.bind_eq_some_iff.mp hCall
      have hLevel := hOwners.twoLevel hp
      have hOne : viraddr >>> pageBits <<< pageBits >>> pageBits + 1 ≤ lowPages := by omega
      obtain ⟨new, tables, hDone, hGranted, hRet⟩ := hLevel.pageMap_counted Nat.one_pos hOne
        (hOwners.maps.unused_grants hp) hMap
      have hBalanced := hDone.balanced hLevel (hOwners.maps.userTables hp) hOne hGranted hRet hSame
      have hOthers : ∀ q ∈ roots, q ≠ p → userFrames s₁.mem q = userFrames s.mem q :=
        fun q hq hne => hOwners.maps.userFrames_same hq (hOwners.map_others hp hDone hOne hq hne)
      have hCondition : MapBalanced kernelEnd p (viraddr >>> pageBits <<< pageBits) 1 (pgUser ||| pgRw)
          { s with frames := frames } ↔
          ((s.frames.grants kernelEnd (s.tablesMissing p viraddr 1 + 1)).length =
            s.tablesMissing p viraddr 1 + 1 → CountedPage s.mem p (viraddr >>> pageBits)) :=
        faultBalanced_iff hGet hAddr
      rw [hCondition] at hBalanced
      dsimp only at hRest
      split at hRest
      · obtain ⟨_, _, hPair⟩ := Option.map_eq_some_iff.mp hRest
        obtain ⟨rfl, _⟩ := Prod.mk.inj hPair
        exact ⟨hBalanced, hOthers⟩
      · rename_i hZero
        obtain ⟨s₂, hClear, hPair⟩ := Option.map_eq_some_iff.mp hRest
        obtain ⟨rfl, _⟩ := Prod.mk.inj hPair
        obtain ⟨hRet', hRewrites⟩ | ⟨hRet', _⟩ := hDone.result
        · have hWalk := hRewrites.walk_page Nat.one_pos
          rw [if_pos PageEntry.has_page] at hWalk
          have hFrame : s₁.frameAt p (viraddr >>> pageBits <<< pageBits >>> pageBits) =
              some (addr >>> pageBits) := by
            rw [frameAt]
            exact congrArg (Option.map PageEntry.frame) hWalk
          rw [Paging.clearPage, hFrame, Option.map_some] at hClear
          obtain rfl := Option.some.inj hClear
          have hKept : ∀ q ∈ roots, userFrames (s₁.setFrame (addr >>> pageBits) fun _ =>
              PageEntry.zero).mem q = userFrames s₁.mem q := fun q hq =>
            hOwners.map_clear hp hDone hOne hMarked hFree hq
          refine ⟨?_, fun q hq hne => (hKept q hq).trans (hOthers q hq hne)⟩
          rw [← hBalanced, CountsFrames, CountsFrames, hKept p hp]
          rfl
        · exact absurd (hRet'.symm.trans (not_not.mp hZero)) (by decide)
  · rename_i hHeap
    obtain ⟨rfl, _⟩ := Prod.mk.inj (Option.some.inj hCall)
    exact ⟨iff_of_true hCount fun hIn => absurd hIn hHeap, fun _ _ _ => rfl⟩

end Calls

end ArtOS.Paging

import ArtOS.Library.Lowest
import ArtOS.Library.Partial
import ArtOS.Memory.PallocPages

/-! `search_mptable`: the search for the floating pointer structure, page by page. The scan of a page stops
one place too early, and nothing looks at page 0, whose address is taken for `NULL`. -/
namespace ArtOS.Apic

open ByteMemory Lowest

abbrev mpTableSig : Nat := 0x5f504d5f

/-- `sizeof(apic_mp_t)`. -/
abbrev sizeofApicMp : Nat := 16

def pageCeil (addr : Nat) : Nat := addr &&& pageMask

variable (mem : Nat → BitVec 8)

/-! The fields of an `apic_mp_t` that are looked at. -/

def signature (tmp : Nat) : Nat := load32 mem tmp

def version (tmp : Nat) : BitVec 8 := mem (tmp + 9)

def features (tmp i : Nat) : BitVec 8 := mem (tmp + 11 + i)

/-- What the search looks for. -/
def IsMpTable (tmp : Nat) : Prop :=
  signature mem tmp = mpTableSig ∧ ¬ (version mem tmp > 4 ∨ features mem tmp 0 ≠ 0)

instance (tmp : Nat) : Decidable (IsMpTable mem tmp) := inferInstanceAs (Decidable (_ ∧ _))

/-- The calls that change what is mapped. -/
inductive MapCall where
  | pageMap (viraddr : Nat)
  | pageUnmap (viraddr : Nat)
  | vmaAdd (start finish : Nat)

/-- The loop over one page: what was found, and `vptr` behind the loop. -/
def scanLoop (vptr i : Nat) : Option Nat × Nat :=
  if vptr ≠ 0 ∧ i < pageSize - sizeofApicMp then
    if IsMpTable mem vptr then (some vptr, vptr) else scanLoop (vptr + 4) (i + 4)
  else (none, vptr)
termination_by pageSize - sizeofApicMp - i

def unmapLast (vptr : Nat) (calls : List MapCall) : List MapCall :=
  if vptr ≠ 0 then calls ++ [.pageUnmap vptr] else calls

/-- The loop over the pages, with the calls that were made. `pageMap` is the answer to the next call of
`page_map`. -/
def searchLoop (pageMap : List MapCall → Nat → Int) (limit : Nat) :
    Nat → Nat → Nat → List MapCall → Option (Nat × List MapCall)
  | 0, _, _, _ => none
  | fuel + 1, ptr, vptr, calls =>
      if ptr ≤ Word.sub limit sizeofApicMp then
        let calls := unmapLast vptr calls
        let page := ptr &&& pageMask
        if pageMap calls page = 0 then
          let r := scanLoop mem page 0
          let calls := calls ++ [.pageMap page]
          match r.1 with
          | some tmp => some (tmp, calls ++ [.vmaAdd page (page + pageSize)])
          | none => searchLoop pageMap limit fuel (Word.add ptr pageSize) r.2 calls
        else some (0, calls ++ [.pageMap page])
      else some (0, unmapLast vptr calls)

def searchMptable (pageMap : List MapCall → Nat → Int) (fuel base limit : Nat) : Option (Nat × List MapCall) :=
  searchLoop mem pageMap limit fuel (pageCeil base) 0 []

/-- The structures between the two addresses, each of them within a page. -/
def structures (base limit : Nat) : Set Nat :=
  {a | 4 ∣ a ∧ pageCeil base ≤ a ∧ a ≤ limit - sizeofApicMp ∧ a % pageSize + sizeofApicMp ≤ pageSize ∧
    IsMpTable mem a}

/-- The search comes back with the lowest structure, or with `NULL`. -/
def FindsStructure (pageMap : List MapCall → Nat → Int) (base limit : Nat) : Prop :=
  ∃ fuel r calls, searchMptable mem pageMap fuel base limit = some (r, calls) ∧
    Finds (structures mem base limit) 0 r

/-- The structures from `start` on that the search looks at. -/
def scanned (start limit : Nat) : Set Nat :=
  {a | 4 ∣ a ∧ start ≤ a ∧ a + sizeofApicMp ≤ limit ∧ a % pageSize + sizeofApicMp < pageSize ∧ pageSize ≤ a ∧
    IsMpTable mem a}

variable {mem} {pageMap : List MapCall → Nat → Int} {base limit ptr vptr fuel p i : Nat}
variable {calls : List MapCall}

/-- The places of a part of a page. -/
def places (mem : Nat → BitVec 8) (start finish : Nat) : Set Nat :=
  {a | 4 ∣ a ∧ start ≤ a ∧ a < finish ∧ IsMpTable mem a}

/-- The loop over a page finds the first structure there, before the last place. -/
theorem scanLoop_spec (hv : vptr ≠ 0) (hFour : 4 ∣ vptr) (hi : 4 ∣ i) (hEnd : vptr + (pageSize - sizeofApicMp) = p + i)
    (hRange : i ≤ pageSize - sizeofApicMp) :
    (∃ a, (scanLoop mem vptr i).1 = some a ∧ IsLeast (places mem vptr p) a) ∨
      (scanLoop mem vptr i).1 = none ∧ places mem vptr p = ∅ := by
  have hSize : pageSize - sizeofApicMp = 4080 := rfl
  fun_induction scanLoop mem vptr i with
  | case1 vptr i hLoop hFound =>
      refine Or.inl ⟨vptr, rfl, ⟨hFour, le_rfl, by omega, hFound⟩, ?_⟩
      exact fun a ha => ha.2.1
  | case2 vptr i hLoop hOther ih =>
      have hNext : places mem vptr p = places mem (vptr + 4) p := by
        ext a
        refine and_congr_right fun ha => ⟨fun h => ⟨?_, h.2⟩, fun h => ⟨by omega, h.2⟩⟩
        have hNot : a ≠ vptr := fun hSame => hOther (hSame ▸ h.2.2)
        have hLow := h.1
        omega
      rw [hNext]
      exact ih (by omega) (by omega) (by omega) (by omega) (by omega)
  | case3 vptr i hLoop =>
      refine Or.inr ⟨rfl, Set.eq_empty_of_forall_notMem fun a ha => ?_⟩
      have hLow := ha.2.1
      have hHigh := ha.2.2.1
      omega

/-- What there is to scan from a page on: the places of the page, and what comes behind. -/
theorem scanned_page (hPage : pageSize ∣ ptr) (hRest : ptr + pageSize ≤ limit) :
    scanned mem ptr limit =
      (if ptr = 0 then ∅ else places mem ptr (ptr + (pageSize - sizeofApicMp))) ∪ scanned mem (ptr + pageSize) limit := by
  have hSize : pageSize = 4096 := rfl
  have hStruct : sizeofApicMp = 16 := rfl
  obtain ⟨n, rfl⟩ := hPage
  have hStart : pageSize * n = 4096 * n := rfl
  ext a
  have hOffset : a % pageSize = a % 4096 := rfl
  constructor
  · rintro ⟨hFour, hLow, hHigh, hWithin, hFirst, hTable⟩
    by_cases hNext : pageSize * n + pageSize ≤ a
    · exact Or.inr ⟨hFour, hNext, hHigh, hWithin, hFirst, hTable⟩
    · rw [if_neg (by omega)]
      exact Or.inl ⟨hFour, hLow, by omega, hTable⟩
  · rintro (hHere | ⟨hFour, hLow, hHigh, hWithin, hFirst, hTable⟩)
    · split at hHere
      · exact absurd hHere (Set.notMem_empty a)
      next hPos =>
        obtain ⟨hFour, hLow, hHigh, hTable⟩ := hHere
        exact ⟨hFour, hLow, by omega, by omega, by omega, hTable⟩
    · exact ⟨hFour, by omega, hHigh, hWithin, hFirst, hTable⟩

/-- The loop over the pages, from a page on that is so many pages before the limit. -/
theorem searchLoop_spec (hMap : ∀ calls page, pageMap calls page = 0) (hLimit : limit < 2 ^ 32)
    (hPos : pageSize ≤ limit) {n : Nat} (hPage : pageSize ∣ ptr) (hEnd : ptr + n * pageSize = limit) (hFuel : n < fuel) :
    ∃ r calls', searchLoop mem pageMap limit fuel ptr vptr calls = some (r, calls') ∧
      Finds (scanned mem ptr limit) 0 r := by
  have hSize : pageSize = 4096 := rfl
  have hStruct : sizeofApicMp = 16 := rfl
  have hSub : Word.sub limit sizeofApicMp = limit - 16 := Word.sub_eq (by omega) hLimit
  induction fuel generalizing ptr vptr calls n with
  | zero => omega
  | succ fuel ih =>
      have hPages : n * pageSize = n * 4096 := rfl
      rw [searchLoop, hSub]
      cases n with
      | zero =>
          rw [if_neg (by omega)]
          refine ⟨0, _, rfl, Or.inr ⟨Set.eq_empty_of_forall_notMem fun a ha => ?_, rfl⟩⟩
          have hLow := ha.2.1
          have hHigh := ha.2.2.1
          omega
      | succ n =>
          have hHere : ptr &&& pageMask = ptr := by
            rw [and_pageMask (by omega), Nat.div_mul_cancel hPage]
          have hNext : Word.add ptr pageSize = ptr + pageSize := Word.add_eq (by omega)
          have hRest : ∀ vptr calls, ∃ r calls',
              searchLoop mem pageMap limit fuel (ptr + pageSize) vptr calls = some (r, calls') ∧
                Finds (scanned mem (ptr + pageSize) limit) 0 r := by
            intro vptr calls
            have hDvd : pageSize ∣ ptr + pageSize := Nat.dvd_add hPage (Nat.dvd_refl pageSize)
            have hCount : ptr + pageSize + n * pageSize = limit := by
              rw [Nat.succ_mul] at hEnd
              omega
            exact ih hDvd hCount (by omega)
          rw [if_pos (by omega)]
          dsimp only
          rw [if_pos (hMap _ _), hHere, hNext, scanned_page hPage (by omega)]
          by_cases hZero : ptr = 0
          · have hNone : (scanLoop mem ptr 0).1 = none := by
              rw [scanLoop, if_neg fun h => h.1 hZero]
            rw [hNone, if_pos hZero, Set.empty_union]
            exact hRest _ _
          · have hFour : 4 ∣ ptr := Nat.dvd_trans (by decide) hPage
            have hScan : (∃ a, (scanLoop mem ptr 0).1 = some a ∧
                IsLeast (places mem ptr (ptr + (pageSize - sizeofApicMp))) a) ∨ (scanLoop mem ptr 0).1 = none ∧
                  places mem ptr (ptr + (pageSize - sizeofApicMp)) = ∅ :=
              scanLoop_spec hZero hFour (Nat.dvd_zero 4) rfl (Nat.zero_le _)
            rw [if_neg hZero]
            rcases hScan with ⟨a, hFound, hLeast⟩ | ⟨hNone, hEmpty⟩
            · rw [hFound]
              refine ⟨a, _, rfl, Finds.union_left hLeast fun b hb => ?_⟩
              have hLow := hb.2.1
              have hHigh := hLeast.1.2.2.1
              omega
            · rw [hNone, hEmpty, Set.empty_union]
              exact hRest _ _

theorem searchLoop_mono {fuel' : Nat} (h : fuel ≤ fuel') :
    Partial.Le (searchLoop mem pageMap limit fuel ptr vptr calls)
      (searchLoop mem pageMap limit fuel' ptr vptr calls) := by
  induction fuel generalizing fuel' ptr vptr calls with
  | zero => exact Partial.le_none
  | succ fuel ih =>
      obtain ⟨fuel', rfl⟩ := Nat.exists_eq_add_of_le' (Nat.le_of_add_left_le h)
      refine Partial.Le.ite (Partial.Le.ite ?_ Partial.Le.refl) Partial.Le.refl
      dsimp only
      split
      · exact Partial.Le.refl
      · exact ih (by omega)

/-- The search has only one result: the first structure that it looks at. -/
theorem searchMptable_spec (mem : Nat → BitVec 8) (hMap : ∀ calls page, pageMap calls page = 0) (hBase : base < limit)
    (hLimit : limit < 2 ^ 32) (hAligned : pageSize ∣ limit) :
    (∃ fuel r calls, searchMptable mem pageMap fuel base limit = some (r, calls)) ∧
      ∀ fuel r calls, searchMptable mem pageMap fuel base limit = some (r, calls) →
        Finds (scanned mem (pageCeil base) limit) 0 r := by
  have hCeil : pageCeil base = base / pageSize * pageSize := and_pageMask (by omega)
  have hPage : pageSize ∣ pageCeil base := hCeil ▸ Nat.dvd_mul_left _ _
  have hLow : pageCeil base ≤ base := hCeil ▸ Nat.div_mul_le_self _ _
  obtain ⟨n, hn⟩ := Nat.dvd_sub hAligned hPage
  have hCount : pageCeil base + n * pageSize = limit := by
    rw [Nat.mul_comm, ← hn]
    omega
  obtain ⟨r, calls, hRun, hFinds⟩ : ∃ r calls, searchMptable mem pageMap (n + 1) base limit = some (r, calls) ∧
      Finds (scanned mem (pageCeil base) limit) 0 r :=
    searchLoop_spec hMap hLimit (Nat.le_of_dvd (by omega) hAligned) hPage hCount (Nat.lt_succ_self n)
  refine ⟨⟨n + 1, r, calls, hRun⟩, fun fuel r' calls' hOther => ?_⟩
  have hSame := searchLoop_mono (Nat.le_max_left fuel (n + 1)) _ hOther
  rw [searchLoop_mono (Nat.le_max_right fuel (n + 1)) _ hRun] at hSame
  obtain ⟨rfl, -⟩ := Prod.mk.inj (Option.some.inj hSame)
  exact hFinds

theorem scanned_eq (base : Nat) (hPos : pageSize ≤ limit) : scanned mem (pageCeil base) limit =
    {a ∈ structures mem base limit | a % pageSize ≠ pageSize - sizeofApicMp ∧ pageSize ≤ a} := by
  have hSize : pageSize = 4096 := rfl
  have hStruct : sizeofApicMp = 16 := rfl
  ext a
  constructor
  · rintro ⟨hFour, hLow, hHigh, hWithin, hFirst, hTable⟩
    exact ⟨⟨hFour, hLow, by omega, by omega, hTable⟩, by omega, hFirst⟩
  · rintro ⟨⟨hFour, hLow, hHigh, hWithin, hTable⟩, hLast, hFirst⟩
    exact ⟨hFour, hLow, by omega, by omega, hFirst, hTable⟩

/-- The search has one result, the first of the structures that it looks at. -/
theorem findsStructure_iff_finds (mem : Nat → BitVec 8) (hMap : ∀ calls page, pageMap calls page = 0)
    (hBase : base < limit) (hLimit : limit < 2 ^ 32) (hAligned : pageSize ∣ limit) :
    ∃ r, Finds {a ∈ structures mem base limit | a % pageSize ≠ pageSize - sizeofApicMp ∧ pageSize ≤ a} 0 r ∧
      (FindsStructure mem pageMap base limit ↔ Finds (structures mem base limit) 0 r) := by
  obtain ⟨⟨fuel, r, calls, hRun⟩, hAll⟩ := searchMptable_spec mem hMap hBase hLimit hAligned
  have hFinds := hAll fuel r calls hRun
  refine ⟨r, scanned_eq base (Nat.le_of_dvd (by omega) hAligned) ▸ hFinds, ?_, ?_⟩
  · rintro ⟨fuel', r', calls', hOther, hFound⟩
    rwa [hFinds.unique (hAll fuel' r' calls' hOther)]
  · intro hFound
    exact ⟨fuel, r, calls, hRun, hFound⟩

/-- When the search comes back with the lowest structure: this is not at the last place of its page and not
in page 0, or it is at `NULL` itself and there is no structure elsewhere. -/
theorem search_mptable_iff (mem : Nat → BitVec 8) (pageMap : List MapCall → Nat → Int) (base limit : Nat)
    (hMap : ∀ calls page, pageMap calls page = 0) (hBase : base < limit) (hLimit : limit < 2 ^ 32)
    (hAligned : pageSize ∣ limit) :
    FindsStructure mem pageMap base limit ↔ ∀ a, IsLeast (structures mem base limit) a →
      (a % pageSize ≠ pageSize - sizeofApicMp ∧ pageSize ≤ a) ∨
        a = 0 ∧ ∀ b ∈ structures mem base limit, b % pageSize = pageSize - sizeofApicMp ∨ b < pageSize := by
  obtain ⟨r, hFinds, hIff⟩ := findsStructure_iff_finds mem hMap hBase hLimit hAligned
  rw [hIff, hFinds.of_subset_iff (Set.sep_subset _ _)]
  refine forall₂_congr fun a ha => or_congr (and_iff_right ha.1) (and_congr_right fun _ => ?_)
  rw [Set.sep_eq_empty_iff_mem_false]
  exact forall₂_congr fun b _ => by omega

/-- Memory with the signature at one address, and zero everywhere else. -/
def oneTable (addr : Nat) : Nat → BitVec 8 := store32 (fun _ => 0) addr mpTableSig

/-- It is the lowest structure of the area that `apic_probe` searches first. -/
theorem isLeast_oneTable {addr : Nat} (hFour : 4 ∣ addr) (hLow : 0xF0000 ≤ addr) (hHigh : addr ≤ 0xFFFF0)
    (hWithin : addr % pageSize + sizeofApicMp ≤ pageSize) :
    IsLeast (structures (oneTable addr) 0xF0000 0x100000) addr := by
  have hCeil : pageCeil 0xF0000 = 0xF0000 := by decide
  have hRest : ∀ x, addr + 4 ≤ x → oneTable addr x = 0 := fun x hx => store32_of_outside (Or.inr hx)
  have hBelow : ∀ a, a + 4 ≤ addr → ¬ IsMpTable (oneTable addr) a := by
    intro a ha hTable
    have hZero : load32 (oneTable addr) a = load32 (fun _ => 0) a :=
      load32_congr fun x _ hx => store32_of_outside (Or.inl (by omega))
    have hNone : load32 (fun _ => 0) a = 0 := rfl
    exact absurd ((hZero.trans hNone).symm.trans hTable.1) (by decide)
  refine ⟨⟨hFour, hCeil ▸ hLow, hHigh, hWithin, load32_store32 (by decide), ?_⟩, fun a ha => ?_⟩
  · rw [version, features, hRest _ (by omega), hRest _ (by omega)]
    decide
  · by_contra hLess
    have hFourA := ha.1
    exact hBelow a (by omega) ha.2.2.2.2

/-- A structure in the middle of the area is found. -/
theorem search_mptable_iff_bios : FindsStructure (oneTable 0xF5A40) (fun _ _ => 0) 0xF0000 0x100000 := by
  refine (search_mptable_iff _ _ 0xF0000 0x100000 (fun _ _ => rfl) (by decide) (by decide) (by decide)).mpr ?_
  have hLeast : IsLeast (structures (oneTable 0xF5A40) 0xF0000 0x100000) 0xF5A40 :=
    isLeast_oneTable (by decide) (by decide) (by decide) (by decide)
  intro a ha
  obtain rfl := ha.unique hLeast
  exact Or.inl (by decide)

/-- The only structure is in the last 16 bytes of the first page. -/
theorem not_search_mptable : ¬ FindsStructure (oneTable 0xF0FF0) (fun _ _ => 0) 0xF0000 0x100000 := by
  have hLeast : IsLeast (structures (oneTable 0xF0FF0) 0xF0000 0x100000) 0xF0FF0 :=
    isLeast_oneTable (by decide) (by decide) (by decide) (by decide)
  have hMap : ∀ calls page, (fun _ _ => 0 : List MapCall → Nat → Int) calls page = 0 := fun _ _ => rfl
  have hBase : 0xF0000 < 0x100000 := by decide
  obtain ⟨r, hFinds, hIff⟩ := findsStructure_iff_finds (oneTable 0xF0FF0) hMap hBase (by decide) (by decide)
  rw [hIff]
  intro hFound
  have hSame : r = 0xF0FF0 := hFound.unique (Or.inl hLeast)
  subst hSame
  rcases hFinds with hSeen | ⟨-, hNull⟩
  · exact hSeen.1.2.1 rfl
  · exact absurd hNull (by decide)

end ArtOS.Apic

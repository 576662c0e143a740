import ArtOS.Libc.Strings
import ArtOS.Library.Stores

/-! What `strcpy`, `strcat` and `strncat` store. None of them copies the zero that ends the source, and
`strncat` stores every character to the same place. -/
namespace ArtOS

open CString Partial Stores

/-- The loop that `strcpy` and `strcat` have in common; it looks at a character once it has copied the one
before. -/
def copyStores (mem : Nat → BitVec 8) : Nat → Nat → Nat → Option (List (Nat × BitVec 8))
  | 0, _, _ => none
  | fuel + 1, dest, src =>
      if mem (src + 1) ≠ 0 then (copyStores mem fuel (dest + 1) (src + 1)).map ((dest, mem src) :: ·)
      else some [(dest, mem src)]

/-- Where `*dest = *dest++` stores to. C leaves open whether the left side is evaluated before. -/
inductive StoreOrder where
  | before
  | behind

/-- The first loop of `strcat`, with its stores and the place where it stops. -/
def strcatLoop (order : StoreOrder) : Nat → (Nat → BitVec 8) → Nat → Option (List (Nat × BitVec 8) × Nat)
  | 0, _, _ => none
  | fuel + 1, object, dest =>
      if object dest ≠ 0 then
        let a := match order with
          | .before => dest
          | .behind => dest + 1
        (strcatLoop order fuel (Function.update object a (object dest)) (dest + 1)).map fun x =>
          ((a, object dest) :: x.1, x.2)
      else some ([], dest)

def strcat (order : StoreOrder) (mem : Nat → BitVec 8) (fuel : Nat) (object : Nat → BitVec 8)
    (dest src : Nat) : Option (List (Nat × BitVec 8)) :=
  (strcatLoop order fuel object dest).bind fun x => (copyStores mem fuel x.2 src).map (x.1 ++ ·)

/-- The loop of `strncat` and the store behind it, with the number of characters that are left and `i`. -/
def strncatLoop (mem : Nat → BitVec 8) (dest destlen src : Nat) : Nat → Nat → List (Nat × BitVec 8)
  | 0, i => [(dest + (destlen + i), 0)]
  | left + 1, i =>
      if mem (src + i) ≠ 0 then
        (dest + (destlen + 1), mem (src + i)) :: strncatLoop mem dest destlen src left (i + 1)
      else [(dest + (destlen + i), 0)]

def strncat (mem : Nat → BitVec 8) (fuel : Nat) (object : Nat → BitVec 8) (dest src len : Nat) :
    Option (List (Nat × BitVec 8)) :=
  (strlen object fuel dest).map fun destlen => strncatLoop mem dest destlen src len 0

/-- The stores leave the string at `dest`, and none of them goes beyond the zero behind it. -/
structure Leaves (stores : List (Nat × BitVec 8)) (object : Nat → BitVec 8) (dest : Nat)
    (s : List (BitVec 8)) : Prop where
  string : Holds (written stores object) dest s
  within : ∀ a ∈ targets stores, dest ≤ a ∧ a ≤ dest + s.length

/-- A call that comes back, and leaves this string. -/
def CallLeaves (call : Nat → Option (List (Nat × BitVec 8))) (object : Nat → BitVec 8) (dest : Nat)
    (s : List (BitVec 8)) : Prop :=
  ∃ fuel stores, call fuel = some stores ∧ Leaves stores object dest s

variable {mem object : Nat → BitVec 8} {dest src fuel n : Nat} {s t : List (BitVec 8)} {c : BitVec 8}
variable {stores : List (Nat × BitVec 8)} {order : StoreOrder}

/-- The stores of a string without its zero. -/
def charStores (dest : Nat) : List (BitVec 8) → List (Nat × BitVec 8)
  | [] => []
  | c :: s => (dest, c) :: charStores (dest + 1) s

theorem written_charStores (object : Nat → BitVec 8) (dest : Nat) (s : List (BitVec 8)) :
    written (charStores dest s) object = overwrite object dest s := by
  induction s generalizing object dest with
  | nil => exact overwrite_nil.symm
  | cons c s ih => rw [charStores, written_cons, ih, overwrite_cons]

theorem mem_targets_charStores {a : Nat} (h : a ∈ targets (charStores dest s)) :
    dest ≤ a ∧ a < dest + s.length := by
  induction s generalizing dest with
  | nil => cases h
  | cons c s ih =>
      rw [List.length_cons]
      rcases List.mem_cons.mp h with hFirst | h
      · have hSame : a = dest := hFirst
        omega
      · have hRest := ih h
        omega

theorem copyStores_eq (h : Holds mem src s) (hs : s ≠ []) :
    copyStores mem fuel dest src = if s.length ≤ fuel then some (charStores dest s) else none := by
  induction s generalizing fuel dest src with
  | nil => exact absurd rfl hs
  | cons c s ih =>
      cases fuel with
      | zero => rfl
      | succ fuel =>
          rw [copyStores, h.1]
          cases s with
          | nil =>
              have hEnd : mem (src + 1) = 0 := h.2.2
              rw [if_neg (not_not_intro hEnd), if_pos (by simp)]
              rfl
          | cons d s =>
              have hNonzero : mem (src + 1) ≠ 0 := h.2.2.1 ▸ h.2.2.2.1
              rw [if_pos hNonzero, ih h.2.2 (List.cons_ne_nil d s), List.length_cons (a := c)]
              simp only [Nat.add_le_add_iff_right]
              split
              · rfl
              · rfl

/-- An empty string is copied with its zero, and what follows it as well, unless that is another zero. -/
theorem copyStores_empty (h : mem src = 0) (hCall : copyStores mem fuel dest src = some stores) :
    mem (src + 1) = 0 ∧ stores = [(dest, 0)] ∨ mem (src + 1) ≠ 0 ∧ dest + 1 ∈ targets stores := by
  cases fuel with
  | zero => cases hCall
  | succ fuel =>
      rw [copyStores, h] at hCall
      by_cases hMore : mem (src + 1) ≠ 0
      · rw [if_pos hMore] at hCall
        obtain ⟨rest, hRest, rfl⟩ := Option.map_eq_some_iff.mp hCall
        refine Or.inr ⟨hMore, List.mem_cons_of_mem _ ?_⟩
        cases fuel with
        | zero => cases hRest
        | succ fuel =>
            rw [copyStores] at hRest
            split at hRest
            · obtain ⟨_, _, rfl⟩ := Option.map_eq_some_iff.mp hRest
              exact List.mem_cons_self
            · cases hRest
              exact List.mem_cons_self
      · rw [if_neg hMore] at hCall
        cases hCall
        exact Or.inl ⟨not_not.mp hMore, rfl⟩

/-- `strcpy` with these stores. -/
theorem strcpy_copyStores : strcpy mem fuel object dest src =
    (copyStores mem fuel dest src).map fun stores => (written stores object, dest + stores.length) := by
  induction fuel generalizing object dest src with
  | zero => rfl
  | succ fuel ih =>
      rw [strcpy, copyStores]
      split
      next =>
        rw [ih, Option.map_map]
        refine congrFun (congrArg Option.map (funext fun stores => ?_)) _
        refine Prod.ext rfl ?_
        show dest + 1 + stores.length = dest + (stores.length + 1)
        omega
      next => rfl

/-- Characters that have been written behind a string are one with it if there is a zero behind them. -/
theorem holds_overwrite_iff (hs : ∀ i c, s[i]? = some c → object (dest + i) = c ∧ c ≠ 0)
    (ht : ∀ c ∈ t, c ≠ 0) :
    Holds (overwrite object (dest + s.length) t) dest (s ++ t) ↔ object (dest + (s ++ t).length) = 0 := by
  have hEnd : overwrite object (dest + s.length) t (dest + (s ++ t).length) =
      object (dest + (s ++ t).length) := if_neg (by rw [List.length_append]; omega)
  rw [holds_iff, hEnd, and_iff_right]
  intro i c hc
  by_cases hi : i < s.length
  · rw [List.getElem?_append_left hi] at hc
    rw [overwrite, if_neg (by omega)]
    exact hs i c hc
  · have hi' := Nat.le_of_not_lt hi
    rw [List.getElem?_append_right hi'] at hc
    obtain ⟨hIn, hGet⟩ := List.getElem?_eq_some_iff.mp hc
    rw [overwrite, if_pos (by omega), show dest + i - (dest + s.length) = i - s.length by omega,
      List.getD_eq_getElem _ _ hIn, hGet]
    exact ⟨rfl, ht c (List.mem_of_getElem? hc)⟩

/-- The second loop of `strcat`, and the only one of `strcpy`, behind a string. -/
theorem copy_leaves_iff (hs : ∀ i c, s[i]? = some c → object (dest + i) = c ∧ c ≠ 0)
    (ht : Holds mem src t) :
    CallLeaves (fun fuel => copyStores mem fuel (dest + s.length) src) object dest (s ++ t) ↔
      if t = [] then mem (src + 1) = 0 else object (dest + (s ++ t).length) = 0 := by
  by_cases hEmpty : t = []
  · have hZero : mem src = 0 := ht.eq_nil_iff.mp hEmpty
    rw [if_pos hEmpty, hEmpty, List.append_nil]
    constructor
    · rintro ⟨fuel, stores, hCall, hLeaves⟩
      rcases copyStores_empty hZero hCall with ⟨hEnd, _⟩ | ⟨_, hBeyond⟩
      · exact hEnd
      · have hWithin := (hLeaves.within _ hBeyond).2
        omega
    · intro hEnd
      have hCall : copyStores mem 1 (dest + s.length) src = some [(dest + s.length, 0)] := by
        rw [copyStores, hZero, if_neg (not_not_intro hEnd)]
      refine ⟨1, _, hCall, ?_, ?_⟩
      · rw [written_cons, written_nil]
        refine holds_iff.mpr ⟨fun i c hc => ?_, Function.update_self _ _ _⟩
        have hi := (List.getElem?_eq_some_iff.mp hc).1
        rw [Function.update_of_ne (by omega)]
        exact hs i c hc
      · intro a ha
        obtain rfl := List.mem_singleton.mp ha
        exact ⟨Nat.le_add_right _ _, le_rfl⟩
  · have hNonzero : ∀ c ∈ t, c ≠ 0 := by
      intro c hc
      obtain ⟨i, hi⟩ := List.getElem?_of_mem hc
      exact ((holds_iff.mp ht).1 i c hi).2
    have hLeaves : Leaves (charStores (dest + s.length) t) object dest (s ++ t) ↔
        object (dest + (s ++ t).length) = 0 := by
      rw [← holds_overwrite_iff hs hNonzero, ← written_charStores]
      refine ⟨Leaves.string, fun hString => ⟨hString, fun a ha => ?_⟩⟩
      have hIn := mem_targets_charStores ha
      rw [List.length_append]
      omega
    rw [if_neg hEmpty, ← hLeaves]
    constructor
    · rintro ⟨fuel, stores, hCall, hLeft⟩
      dsimp only at hCall
      rw [copyStores_eq ht hEmpty] at hCall
      split at hCall
      · cases hCall
        exact hLeft
      · cases hCall
    · intro hLeft
      exact ⟨t.length, _, (copyStores_eq ht hEmpty).trans (if_pos le_rfl), hLeft⟩

theorem strcatLoop_before (h : Holds object dest s) : strcatLoop .before fuel object dest =
    if s.length < fuel then some (charStores dest s, dest + s.length) else none := by
  induction s generalizing fuel dest with
  | nil =>
      cases fuel with
      | zero => rfl
      | succ fuel =>
          have hEnd : object dest = 0 := h
          rw [strcatLoop, if_neg (not_not_intro hEnd), List.length_nil, if_pos (Nat.succ_pos fuel)]
          rfl
  | cons c s ih =>
      cases fuel with
      | zero => rfl
      | succ fuel =>
          have hNonzero : object dest ≠ 0 := h.1 ▸ h.2.1
          rw [strcatLoop, if_pos hNonzero]
          dsimp only
          rw [Function.update_eq_self, ih h.2.2, h.1, List.length_cons]
          simp only [Nat.add_lt_add_iff_right]
          split
          · rw [Option.map_some, Nat.add_assoc, Nat.add_comm 1]
            rfl
          · rfl

/-- A character that is copied to the place behind it is copied for ever. -/
theorem strcatLoop_behind (h : object dest ≠ 0) : strcatLoop .behind fuel object dest = none := by
  induction fuel generalizing object dest with
  | zero => rfl
  | succ fuel ih =>
      rw [strcatLoop, if_pos h]
      dsimp only
      rw [ih (by rw [Function.update_self]; exact h)]
      rfl

theorem strcatLoop_eq (h : Holds object dest s) (hOrder : s = [] ∨ order = .before) :
    strcatLoop order fuel object dest =
      if s.length < fuel then some (charStores dest s, dest + s.length) else none := by
  rcases hOrder with rfl | rfl
  · cases fuel with
    | zero => rfl
    | succ fuel =>
        have hEnd : object dest = 0 := h
        have hStop : strcatLoop order (fuel + 1) object dest = some ([], dest) :=
          if_neg (not_not_intro hEnd)
        rw [hStop, List.length_nil, if_pos (Nat.succ_pos fuel)]
        rfl
  · exact strcatLoop_before h

theorem copyStores_mono {fuel' : Nat} (h : fuel ≤ fuel') :
    Le (copyStores mem fuel dest src) (copyStores mem fuel' dest src) := by
  induction fuel generalizing fuel' dest src with
  | zero => exact le_none
  | succ fuel ih =>
      obtain ⟨fuel', rfl⟩ := Nat.exists_eq_add_of_le' (Nat.le_of_add_left_le h)
      exact Le.ite (Le.map (ih (by omega))) Le.refl

theorem overwrite_self (h : Holds object dest s) : overwrite object dest s = object := by
  funext a
  rw [overwrite]
  split
  next hIn =>
    have hi : a - dest < s.length := by omega
    have hChar := ((holds_iff.mp h).1 (a - dest) _ (List.getElem?_eq_getElem hi)).1
    rw [List.getD_eq_getElem _ _ hi, ← hChar, Nat.add_sub_cancel' hIn.1]
  next => rfl

/-- The first loop of `strcat` leaves everything as it is. -/
theorem leaves_append (hd : Holds object dest s) :
    Leaves (charStores dest s ++ stores) object dest (s ++ t) ↔ Leaves stores object dest (s ++ t) := by
  have hWritten : written (charStores dest s ++ stores) object = written stores object := by
    rw [written, List.foldl_append]
    show written stores (written (charStores dest s) object) = _
    rw [written_charStores, overwrite_self hd]
  constructor
  · intro h
    exact ⟨hWritten ▸ h.string, fun a ha => h.within a (by rw [targets, List.map_append]; exact List.mem_append_right _ ha)⟩
  · intro h
    refine ⟨hWritten ▸ h.string, fun a ha => ?_⟩
    rw [targets, List.map_append] at ha
    rcases List.mem_append.mp ha with ha | ha
    · have hIn := mem_targets_charStores ha
      rw [List.length_append]
      omega
    · exact h.within a ha

theorem strcat_leaves_iff (hd : Holds object dest s) (ht : Holds mem src t) :
    CallLeaves (fun fuel => strcat order mem fuel object dest src) object dest (s ++ t) ↔
      (s = [] ∨ order = .before) ∧
        if t = [] then mem (src + 1) = 0 else object (dest + (s ++ t).length) = 0 := by
  rw [← copy_leaves_iff (holds_iff.mp hd).1 ht]
  constructor
  · rintro ⟨fuel, stores, hCall, hLeaves⟩
    obtain ⟨x, hLoop, hCopy⟩ := Option.bind_eq_some_iff.mp hCall
    obtain ⟨rest, hRest, rfl⟩ := Option.map_eq_some_iff.mp hCopy
    have hOrder : s = [] ∨ order = .before := by
      cases order with
      | before => exact Or.inr rfl
      | behind =>
          by_contra hOther
          have hNonzero : object dest ≠ 0 := fun hZero => hOther (Or.inl (hd.eq_nil_iff.mpr hZero))
          rw [strcatLoop_behind hNonzero] at hLoop
          cases hLoop
    rw [strcatLoop_eq hd hOrder] at hLoop
    split at hLoop
    · cases hLoop
      exact ⟨hOrder, fuel, rest, hRest, (leaves_append hd).mp hLeaves⟩
    · cases hLoop
  · rintro ⟨hOrder, fuel, stores, hCall, hLeaves⟩
    refine ⟨fuel + (s.length + 1), _, ?_, (leaves_append hd).mpr hLeaves⟩
    have hMore := copyStores_mono (Nat.le_add_right fuel (s.length + 1)) _ hCall
    show strcat _ _ _ _ _ _ = _
    rw [strcat, strcatLoop_eq hd hOrder, if_pos (by omega), Option.bind_some, hMore]
    rfl

theorem strlen_unique {k : Nat} (h : Holds mem src s) (hCall : strlen mem fuel src = some k) : k = s.length := by
  have hLarge : strlen mem (max fuel (s.length + 1)) src = some k :=
    strlenLoop_mono (Nat.le_max_left _ _) k hCall
  rw [strlen_eq h (Nat.le_max_right _ _)] at hLarge
  exact (Option.some.inj hLarge).symm

/-- The stores of the loop of `strncat` when there is nothing to copy. -/
theorem strncatLoop_nil {destlen i : Nat} (h : n = 0 ∨ mem (src + i) = 0) :
    strncatLoop mem dest destlen src n i = [(dest + (destlen + i), 0)] := by
  cases n with
  | zero => rfl
  | succ n => exact if_neg (not_not_intro (h.resolve_left (Nat.succ_ne_zero n)))

/-- No store of the loop comes to the zero that it should overwrite. -/
theorem strncatLoop_targets {destlen left i : Nat} (hi : 0 < i) :
    dest + destlen ∉ targets (strncatLoop mem dest destlen src left i) := by
  induction left generalizing i with
  | zero =>
      rw [strncatLoop, targets, List.map_singleton, List.mem_singleton]
      omega
  | succ left ih =>
      rw [strncatLoop]
      split
      · rw [targets, List.map_cons, List.mem_cons, not_or]
        exact ⟨by dsimp only; omega, ih (Nat.succ_pos i)⟩
      · rw [targets, List.map_singleton, List.mem_singleton]
        omega

theorem strncat_leaves_iff (hd : Holds object dest s) (ht : Holds mem src t) :
    CallLeaves (fun fuel => strncat mem fuel object dest src n) object dest (s ++ t.take n) ↔
      n = 0 ∨ t = [] := by
  have hEnd := (holds_iff.mp hd).2
  constructor
  · rintro ⟨fuel, stores, hCall, hLeaves⟩
    obtain ⟨k, hLen, rfl⟩ := Option.map_eq_some_iff.mp hCall
    obtain rfl := strlen_unique hd hLen
    by_contra hSome
    obtain ⟨hn, hChars⟩ := not_or.mp hSome
    obtain ⟨n, rfl⟩ := Nat.exists_eq_succ_of_ne_zero hn
    obtain ⟨c, t, rfl⟩ := List.exists_cons_of_ne_nil hChars
    have hNonzero : mem (src + 0) ≠ 0 := ht.1 ▸ ht.2.1
    -- the zero behind `s` stays, where the first character should be
    have hFirst := (holds_iff.mp hLeaves.string).1 s.length c (by
      rw [List.getElem?_append_right le_rfl, Nat.sub_self]
      rfl)
    rw [strncatLoop, if_pos hNonzero, written_of_not_mem, hEnd] at hFirst
    · exact hFirst.2 hFirst.1.symm
    · rw [targets, List.map_cons, List.mem_cons, not_or]
      exact ⟨by dsimp only; omega, strncatLoop_targets (Nat.succ_pos 0)⟩
  · intro hNone
    have hTake : t.take n = [] := by
      rcases hNone with rfl | rfl
      · rfl
      · exact List.take_nil
    have hStores : strncatLoop mem dest s.length src n 0 = [(dest + s.length, 0)] :=
      strncatLoop_nil (hNone.imp_right fun hEmpty => ht.eq_nil_iff.mp hEmpty)
    refine ⟨s.length + 1, [(dest + s.length, 0)], ?_, ?_, ?_⟩
    · show strncat _ _ _ _ _ _ = _
      rw [strncat, strlen_eq hd (Nat.lt_succ_self _), Option.map_some, hStores]
    · rw [hTake, List.append_nil, written_cons, written_nil, ← hEnd, Function.update_eq_self]
      exact hd
    · intro a ha
      obtain rfl := List.mem_singleton.mp ha
      rw [hTake, List.append_nil]
      exact ⟨Nat.le_add_right _ _, le_rfl⟩

/-- When the three functions leave what they are called for: `strcpy` and `strcat` need a zero where the
result ends, or with an empty source another zero behind that of the source, and `strcat` a compiler that
stores before it goes on; `strncat` needs to have nothing to do. -/
theorem concat_leaves_iff (mem object buffer : Nat → BitVec 8) (dest src n : Nat) (s t : List (BitVec 8))
    (order : StoreOrder) (hs : Holds object dest s) (ht : Holds mem src t) :
    (CallLeaves (fun fuel => copyStores mem fuel dest src) buffer dest t ↔
      if t = [] then mem (src + 1) = 0 else buffer (dest + t.length) = 0) ∧
    (CallLeaves (fun fuel => strcat order mem fuel object dest src) object dest (s ++ t) ↔
      (s = [] ∨ order = .before) ∧
        if t = [] then mem (src + 1) = 0 else object (dest + (s ++ t).length) = 0) ∧
    (CallLeaves (fun fuel => strncat mem fuel object dest src n) object dest (s ++ t.take n) ↔
      n = 0 ∨ t = []) :=
  ⟨copy_leaves_iff (s := []) (by simp) ht, strcat_leaves_iff hs ht, strncat_leaves_iff hs ht⟩

/-- A string in a memory without zeros behind it. -/
def unzeroed (s : List (BitVec 8)) (i : Nat) : BitVec 8 := (s ++ [0]).getD i 1

theorem holds_unzeroed (hs : ∀ c ∈ s, c ≠ 0) : Holds (unzeroed s) 0 s := by
  refine holds_iff.mpr ⟨fun i c hc => ?_, ?_⟩
  · have hi := (List.getElem?_eq_some_iff.mp hc).1
    rw [Nat.zero_add, unzeroed, List.getD_append _ _ _ _ hi, List.getD_eq_getElem?_getD, hc]
    exact ⟨rfl, hs c (List.mem_of_getElem? hc)⟩
  · rw [Nat.zero_add, unzeroed, List.getD_append_right _ _ _ _ le_rfl, Nat.sub_self]
    rfl

/-- An empty string before "a". -/
theorem concat_leaves_iff_empty :
    (CallLeaves (fun fuel => copyStores (unzeroed [0x61]) fuel 0 0) (fun _ => 0) 0 [0x61] ↔
      if [(0x61 : BitVec 8)] = [] then unzeroed [0x61] (0 + 1) = 0 else (fun _ => 0) (0 + 1) = (0 : BitVec 8)) ∧
    (CallLeaves (fun fuel => strcat .behind (unzeroed [0x61]) fuel (unzeroed []) 0 0) (unzeroed []) 0
        ([] ++ [0x61]) ↔
      (([] : List (BitVec 8)) = [] ∨ StoreOrder.behind = .before) ∧
        if [(0x61 : BitVec 8)] = [] then unzeroed [0x61] (0 + 1) = 0 else unzeroed [] (0 + 1) = 0) ∧
    (CallLeaves (fun fuel => strncat (unzeroed [0x61]) fuel (unzeroed []) 0 0 5) (unzeroed []) 0
        ([] ++ [(0x61 : BitVec 8)].take 5) ↔ 5 = 0 ∨ [(0x61 : BitVec 8)] = []) :=
  concat_leaves_iff (unzeroed [0x61]) (unzeroed []) (fun _ => 0) 0 0 5 [] [0x61] .behind
    (holds_unzeroed (by simp)) (holds_unzeroed (by simp))

/-- With "b" before "a", and no zeros behind it, all three fail. -/
theorem not_concat_leaves :
    ¬ CallLeaves (fun fuel => copyStores (unzeroed [0x61]) fuel 0 0) (unzeroed [0x62, 0x62]) 0 [0x61] ∧
    (∀ order, ¬ CallLeaves (fun fuel => strcat order (unzeroed [0x61]) fuel (unzeroed [0x62]) 0 0)
      (unzeroed [0x62]) 0 ([0x62] ++ [0x61])) ∧
    ¬ CallLeaves (fun fuel => strncat (unzeroed [0x61]) fuel (unzeroed [0x62]) 0 0 1) (unzeroed [0x62]) 0
      ([0x62] ++ [0x61].take 1) := by
  have hSource : Holds (unzeroed [0x61]) 0 [0x61] := holds_unzeroed (by simp)
  have hDest : Holds (unzeroed [0x62]) 0 [0x62] := holds_unzeroed (by simp)
  refine ⟨?_, fun order => ?_, ?_⟩
  · intro h
    have hZero := (copy_leaves_iff (s := []) (by simp) hSource).mp h
    exact absurd hZero (by decide)
  · rw [strcat_leaves_iff hDest hSource]
    exact fun h => absurd h.2 (by decide)
  · rw [strncat_leaves_iff hDest hSource]
    decide

end ArtOS

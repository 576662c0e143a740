import ArtOS.Libc.Strings

/-! The users of the shell: five arrays of characters for each, filled by `strcpy` and searched by
`strcmp`. -/
namespace ArtOS

open CString Partial

/-- An array of characters in `struct users`. -/
structure UserField where
  offset : Nat
  size : Nat

namespace UserField

abbrev username : UserField := ⟨0, 15⟩
abbrev password : UserField := ⟨15, 15⟩
abbrev firstName : UserField := ⟨30, 10⟩
abbrev lastName : UserField := ⟨40, 10⟩
abbrev country : UserField := ⟨50, 20⟩

/-- The zeros that a field has before its string. -/
def clear (f : UserField) (object : Nat → BitVec 8) : Nat → BitVec 8 := memset object f.offset 0 f.size

def fill (f : UserField) (mem : Nat → BitVec 8) (fuel string : Nat) (object : Nat → BitVec 8) :
    Option (Nat → BitVec 8) :=
  (strcpy mem fuel object f.offset string).map Prod.fst

end UserField

/-- `sizeof(struct users)`. -/
abbrev sizeofUsers : Nat := 70

/-- The length of `user_array`. -/
abbrev userArrayLength : Nat := 5

/-- `user_array` byte by byte, and `user_array_index`. -/
structure UserTable where
  userArray : Nat → BitVec 8
  userArrayIndex : Nat

/-- The arguments of `addNewUser`: addresses in a memory, and what the memory of `newUser` held before. -/
structure NewUser where
  mem : Nat → BitVec 8
  newUser : Nat → BitVec 8
  username : Nat
  password : Nat
  firstName : Nat
  lastName : Nat
  country : Nat

namespace UserTable

/-- The structure that `addNewUser` builds. -/
def buildUser (fuel : Nat) (c : NewUser) : Option (Nat → BitVec 8) :=
  let newUser := UserField.country.clear <| UserField.lastName.clear <| UserField.firstName.clear <|
    UserField.password.clear <| UserField.username.clear c.newUser
  (UserField.username.fill c.mem fuel c.username newUser).bind fun newUser =>
  (UserField.password.fill c.mem fuel c.password newUser).bind fun newUser =>
  (UserField.firstName.fill c.mem fuel c.firstName newUser).bind fun newUser =>
  (UserField.lastName.fill c.mem fuel c.lastName newUser).bind fun newUser =>
  UserField.country.fill c.mem fuel c.country newUser

/-- There is no room for more than five. -/
def addNewUser (fuel : Nat) (c : NewUser) (t : UserTable) : Option (UserTable × Int) :=
  (buildUser fuel c).bind fun newUser =>
    if userArrayLength ≤ t.userArrayIndex then none
    else
      let base := sizeofUsers * t.userArrayIndex
      some ({ userArray := fun i =>
                if base ≤ i ∧ i < base + sizeofUsers then newUser (i - base) else t.userArray i
              userArrayIndex := t.userArrayIndex + 1 }, 0)

/-- The loop of `searchForUser`. -/
def searchLoop (mem : Nat → BitVec 8) (fuel username : Nat) (t : UserTable) : Nat → Nat → Option Int
  | 0, _ => none
  | rounds + 1, i =>
      if i < t.userArrayIndex then
        (strcmp t.userArray mem fuel (sizeofUsers * i + UserField.username.offset) username).bind
          fun r => if r = 0 then some (i : Int) else searchLoop mem fuel username t rounds (i + 1)
      else some (-1)

def searchForUser (mem : Nat → BitVec 8) (fuel username : Nat) (t : UserTable) : Option Int :=
  searchLoop mem fuel username t fuel 0

def compareUserPass (mem : Nat → BitVec 8) (fuel username password : Nat) (t : UserTable) : Option Int :=
  (searchForUser mem fuel username t).bind fun isUserFound =>
    if isUserFound ≠ -1 then
      let base := sizeofUsers * isUserFound.toNat
      (strcmp t.userArray mem fuel (base + UserField.username.offset) username).bind fun r =>
        if r = 0 then
          (strcmp t.userArray mem fuel (base + UserField.password.offset) password).bind fun r =>
            if r = 0 then some 1 else some 0
        else some 0
    else some 0

/-- A sequence of calls. -/
def addUsers (fuel : Nat) (calls : List NewUser) (t : UserTable) : Option UserTable :=
  calls.foldlM (fun t c => (addNewUser fuel c t).map Prod.fst) t

end UserTable

/-- The strings of one user. -/
structure User where
  username : List (BitVec 8)
  password : List (BitVec 8)
  firstName : List (BitVec 8)
  lastName : List (BitVec 8)
  country : List (BitVec 8)

/-- A string that is not empty and fits with its final zero. -/
structure UserField.Fits (f : UserField) (mem : Nat → BitVec 8) (p : Nat) (s : List (BitVec 8)) :
    Prop where
  holds : Holds mem p s
  nonempty : s ≠ []
  length : s.length < f.size

/-- The strings that a call is given. -/
structure NewUser.Given (c : NewUser) (u : User) : Prop where
  username : UserField.username.Fits c.mem c.username u.username
  password : UserField.password.Fits c.mem c.password u.password
  firstName : UserField.firstName.Fits c.mem c.firstName u.firstName
  lastName : UserField.lastName.Fits c.mem c.lastName u.lastName
  country : UserField.country.Fits c.mem c.country u.country

/-- The fields of a structure. -/
structure User.Stored (u : User) (object : Nat → BitVec 8) : Prop where
  username : Holds object UserField.username.offset u.username
  password : Holds object UserField.password.offset u.password
  firstName : Holds object UserField.firstName.offset u.firstName
  lastName : Holds object UserField.lastName.offset u.lastName
  country : Holds object UserField.country.offset u.country

variable {f g : UserField} {mem object : Nat → BitVec 8} {p q fuel fuel' : Nat}
variable {s s' : List (BitVec 8)} {c : NewUser} {u : User} {t : UserTable}

theorem UserField.Fits.fill (h : f.Fits mem p s) (hFuel : f.size ≤ fuel) :
    f.fill mem fuel p object = some (overwrite object f.offset s) := by
  rw [UserField.fill, strcpy_eq h.holds h.nonempty (h.length.le.trans hFuel)]
  rfl

/-- From `k` on a structure is still empty. -/
def EmptyFrom (object : Nat → BitVec 8) (k : Nat) : Prop := ∀ i, k ≤ i → i < sizeofUsers → object i = 0

/-- The string is in its field, and what lies behind the field is as empty as before. -/
theorem UserField.Fits.holds_self (h : f.Fits mem p s) (hIn : f.offset + f.size ≤ 70)
    (hEmpty : EmptyFrom object f.offset) :
    Holds (overwrite object f.offset s) f.offset s ∧
      EmptyFrom (overwrite object f.offset s) (f.offset + f.size) := by
  have hLength := h.length
  constructor
  · apply holds_overwrite
    · intro d hd
      obtain ⟨i, hi⟩ := List.mem_iff_getElem?.mp hd
      exact ((holds_iff.mp h.holds).1 i d hi).2
    · exact hEmpty _ (Nat.le_add_right _ _) (by show _ < 70; omega)
  · intro i hLow hHigh
    rw [overwrite, if_neg (by omega)]
    exact hEmpty i (by omega) hHigh

/-- The fields in front of it stay. -/
theorem UserField.holds_other (f : UserField) (s' : List (BitVec 8)) (hHolds : Holds object g.offset s)
    (hLength : s.length < g.size) (hApart : g.offset + g.size ≤ f.offset) :
    Holds (overwrite object f.offset s') g.offset s :=
  holds_overwrite_of_disjoint hHolds (Or.inl (by omega))

namespace UserTable

theorem clear_empty (object : Nat → BitVec 8) : EmptyFrom (UserField.country.clear <| UserField.lastName.clear <|
    UserField.firstName.clear <| UserField.password.clear <| UserField.username.clear object) 0 := by
  intro i _ hi
  have hSize : sizeofUsers = 70 := rfl
  simp only [UserField.clear, memset_apply]
  split_ifs <;> first | rfl | omega

/-- The structure has the five strings. -/
theorem buildUser_stored (h : c.Given u) (hFuel : 20 ≤ fuel) :
    ∃ object, buildUser fuel c = some object ∧ u.Stored object := by
  obtain ⟨hUser, hEmpty⟩ := h.username.holds_self (by decide) (clear_empty c.newUser)
  obtain ⟨hPass, hEmpty⟩ := h.password.holds_self (by decide) hEmpty
  obtain ⟨hFirst, hEmpty⟩ := h.firstName.holds_self (by decide) hEmpty
  obtain ⟨hLast, hEmpty⟩ := h.lastName.holds_self (by decide) hEmpty
  obtain ⟨hCountry, _⟩ := h.country.holds_self (by decide) hEmpty
  have hFit : ∀ n, n ≤ 20 → n ≤ fuel := fun n hn => hn.trans hFuel
  rw [buildUser, h.username.fill (hFit 15 (by decide)), Option.bind_some,
    h.password.fill (hFit 15 (by decide)), Option.bind_some,
    h.firstName.fill (hFit 10 (by decide)), Option.bind_some,
    h.lastName.fill (hFit 10 (by decide)), Option.bind_some, h.country.fill hFuel]
  refine ⟨_, rfl, ?_, ?_, ?_, ?_, hCountry⟩
  · have hLength := h.username.length
    have hSecond := UserField.holds_other .password u.password hUser hLength (by decide)
    have hThird := UserField.holds_other .firstName u.firstName hSecond hLength (by decide)
    have hFourth := UserField.holds_other .lastName u.lastName hThird hLength (by decide)
    exact UserField.holds_other .country u.country hFourth hLength (by decide)
  · have hLength := h.password.length
    have hThird := UserField.holds_other .firstName u.firstName hPass hLength (by decide)
    have hFourth := UserField.holds_other .lastName u.lastName hThird hLength (by decide)
    exact UserField.holds_other .country u.country hFourth hLength (by decide)
  · have hLength := h.firstName.length
    have hFourth := UserField.holds_other .lastName u.lastName hFirst hLength (by decide)
    exact UserField.holds_other .country u.country hFourth hLength (by decide)
  · exact UserField.holds_other .country u.country hLast h.lastName.length (by decide)

/-- The table has these users, in this order. -/
structure Registered (t : UserTable) (users : List User) : Prop where
  index : t.userArrayIndex = users.length
  username : ∀ i u, users[i]? = some u → u.username.length < 15 ∧
    Holds t.userArray (sizeofUsers * i + UserField.username.offset) u.username
  password : ∀ i u, users[i]? = some u → u.password.length < 15 ∧
    Holds t.userArray (sizeofUsers * i + UserField.password.offset) u.password

/-- A string in an element of the array, before and after the array gets its next element. -/
theorem holds_store {array : Nat → BitVec 8} {base k : Nat}
    (h : Holds array (sizeofUsers * k + f.offset) s) (hLength : s.length < f.size)
    (hIn : f.offset + f.size ≤ 70) (hOld : sizeofUsers * (k + 1) ≤ base) :
    Holds (fun i => if base ≤ i ∧ i < base + sizeofUsers then object (i - base) else array i)
      (sizeofUsers * k + f.offset) s := by
  have hSize : sizeofUsers = 70 := rfl
  rw [hSize] at hOld
  apply h.congr
  intro i hi
  exact if_neg (by rw [hSize]; omega)

theorem holds_stored {array : Nat → BitVec 8} {base : Nat} (h : Holds object f.offset s)
    (hLength : s.length < f.size) (hIn : f.offset + f.size ≤ 70) :
    Holds (fun i => if base ≤ i ∧ i < base + sizeofUsers then object (i - base) else array i)
      (base + f.offset) s := by
  have hSize : sizeofUsers = 70 := rfl
  have hShift : Holds (fun i => object (i - base)) (base + f.offset) s := by
    rw [holds_iff] at h ⊢
    simp only [Nat.add_assoc, Nat.add_sub_cancel_left]
    exact h
  apply hShift.congr
  intro i hi
  exact if_pos (by rw [hSize]; omega)

/-- One call registers one user. -/
theorem Registered.addNewUser {users : List User} (h : t.Registered users) (hGiven : c.Given u)
    (hFive : users.length < 5) (hFuel : 20 ≤ fuel) :
    ∃ t', UserTable.addNewUser fuel c t = some (t', 0) ∧ t'.Registered (users ++ [u]) := by
  obtain ⟨object, hBuild, hStored⟩ := buildUser_stored hGiven hFuel
  have hRoom : ¬ userArrayLength ≤ t.userArrayIndex := by
    rw [h.index]
    exact Nat.not_le_of_lt hFive
  rw [UserTable.addNewUser, hBuild, Option.bind_some, if_neg hRoom]
  have hOld : ∀ i v, (users ++ [u])[i]? = some v → users[i]? = some v ∧ i < users.length ∨
      i = users.length ∧ v = u := by
    intro i v hv
    rcases Nat.lt_trichotomy i users.length with hLess | hLast | hBehind
    · rw [List.getElem?_append_left hLess] at hv
      exact Or.inl ⟨hv, hLess⟩
    · rw [hLast, List.getElem?_concat_length] at hv
      exact Or.inr ⟨hLast, (Option.some.inj hv).symm⟩
    · rw [List.getElem?_eq_none (by simp only [List.length_append, List.length_singleton]; omega)] at hv
      exact absurd hv (by simp)
  refine ⟨_, rfl, ?_, ?_, ?_⟩
  · show t.userArrayIndex + 1 = (users ++ [u]).length
    rw [h.index, List.length_append, List.length_singleton]
  · intro i v hv
    rcases hOld i v hv with ⟨hv, hLess⟩ | ⟨rfl, rfl⟩
    · obtain ⟨hLength, hHolds⟩ := h.username i v hv
      refine ⟨hLength, holds_store hHolds hLength (by decide) ?_⟩
      rw [h.index]
      exact Nat.mul_le_mul_left _ hLess
    · rw [h.index]
      exact ⟨hGiven.username.length, holds_stored hStored.username hGiven.username.length (by decide)⟩
  · intro i v hv
    rcases hOld i v hv with ⟨hv, hLess⟩ | ⟨rfl, rfl⟩
    · obtain ⟨hLength, hHolds⟩ := h.password i v hv
      refine ⟨hLength, holds_store hHolds hLength (by decide) ?_⟩
      rw [h.index]
      exact Nat.mul_le_mul_left _ hLess
    · rw [h.index]
      exact ⟨hGiven.password.length, holds_stored hStored.password hGiven.password.length (by decide)⟩

/-- A sequence of calls. -/
theorem Registered.addUsers {users more : List User} {calls : List NewUser} (h : t.Registered users)
    (hGiven : List.Forall₂ NewUser.Given calls more) (hFive : users.length + calls.length ≤ 5)
    (hFuel : 20 ≤ fuel) :
    ∃ t', UserTable.addUsers fuel calls t = some t' ∧ t'.Registered (users ++ more) := by
  induction hGiven generalizing t users with
  | nil => exact ⟨t, rfl, (List.append_nil users).symm ▸ h⟩
  | @cons c u calls more hFirst _ ih =>
      simp only [List.length_cons] at hFive
      obtain ⟨t₁, hCall, hOne⟩ := h.addNewUser hFirst (by omega) hFuel
      obtain ⟨t₂, hCalls, hAll⟩ := ih hOne (by
        simp only [List.length_append, List.length_singleton]
        omega)
      refine ⟨t₂, ?_, ?_⟩
      · rw [UserTable.addUsers, List.foldlM_cons, hCall]
        exact hCalls
      · rwa [List.append_assoc] at hAll

/-- The search finds the first user of the name. -/
theorem searchLoop_eq {users : List User} (h : t.Registered users) (hName : Holds mem p s)
    (hFuel : 15 ≤ fuel) {rounds i : Nat} (hRounds : users.length < i + rounds) (hi : i ≤ users.length)
    (hBefore : ∀ k u, k < i → users[k]? = some u → u.username ≠ s) :
    (∃ (k : Nat) (u : User), users[k]? = some u ∧ u.username = s ∧ searchLoop mem fuel p t rounds i = some (k : Int)) ∨
      (∀ u ∈ users, u.username ≠ s) ∧ searchLoop mem fuel p t rounds i = some (-1) := by
  induction rounds generalizing i with
  | zero => exact absurd hRounds (by omega)
  | succ rounds ih =>
      rw [searchLoop]
      by_cases hEnd : i = users.length
      · refine Or.inr ⟨?_, if_neg (by rw [h.index]; omega)⟩
        intro u hu
        obtain ⟨k, hk, rfl⟩ := List.getElem_of_mem hu
        exact hBefore k _ (hEnd ▸ hk) (List.getElem?_eq_getElem hk)
      · have hLess : i < users.length := Nat.lt_of_le_of_ne hi hEnd
        have hUser := List.getElem?_eq_getElem hLess
        obtain ⟨hLength, hHolds⟩ := h.username i _ hUser
        rw [if_pos (h.index ▸ hLess), strcmp_eq hHolds hName (by omega), Option.bind_some]
        by_cases hSame : users[i].username = s
        · rw [if_pos hSame, if_pos rfl]
          exact Or.inl ⟨i, _, hUser, hSame, rfl⟩
        · rw [if_neg hSame, if_neg (by decide)]
          apply ih (by omega) hLess
          intro k u hk hu
          rcases Nat.lt_or_eq_of_le (Nat.le_of_lt_succ hk) with hk | rfl
          · exact hBefore k u hk hu
          · exact Option.some.inj (hUser.symm.trans hu) ▸ hSame

/-- What `compareUserPass` says about a name and a password. -/
def Answers (users : List User) (name password : List (BitVec 8)) (r : Int) : Prop :=
  (r = 1 ∧ ∃ u ∈ users, u.username = name ∧ u.password = password) ∨
    (r = 0 ∧ ¬ ∃ u ∈ users, u.username = name ∧ u.password = password)

theorem compareUserPass_answers {users : List User} (h : t.Registered users)
    (hDistinct : (users.map User.username).Nodup) (hFive : users.length ≤ 5) (hName : Holds mem p s)
    (hPassword : Holds mem q s') (hFuel : 20 ≤ fuel) :
    ∃ r, compareUserPass mem fuel p q t = some r ∧ Answers users s s' r := by
  have hSearch : (∃ (k : Nat) (u : User), users[k]? = some u ∧ u.username = s ∧
      searchLoop mem fuel p t fuel 0 = some (k : Int)) ∨
        (∀ u ∈ users, u.username ≠ s) ∧ searchLoop mem fuel p t fuel 0 = some (-1) :=
    searchLoop_eq h hName (by omega) (by omega) (Nat.zero_le _) (by omega)
  rw [compareUserPass, searchForUser]
  rcases hSearch with ⟨k, u, hUser, rfl, hFound⟩ | ⟨hNone, hFound⟩
  · obtain ⟨hLength, hUsername⟩ := h.username k u hUser
    obtain ⟨hLength', hPass⟩ := h.password k u hUser
    have hIndex : (k : Int) ≠ -1 := by omega
    rw [hFound, Option.bind_some, if_pos hIndex, Int.toNat_natCast]
    dsimp only
    rw [strcmp_eq hUsername hName (by omega), Option.bind_some, if_pos rfl, if_pos rfl,
      strcmp_eq hPass hPassword (by omega), Option.bind_some]
    have hMem := List.mem_of_getElem? hUser
    by_cases hSame : u.password = s'
    · rw [if_pos hSame, if_pos rfl]
      exact ⟨1, rfl, Or.inl ⟨rfl, u, hMem, rfl, hSame⟩⟩
    · rw [if_neg hSame, if_neg (by decide)]
      refine ⟨0, rfl, Or.inr ⟨rfl, ?_⟩⟩
      rintro ⟨v, hv, hName', hPass'⟩
      have hEq : v = u := List.inj_on_of_nodup_map hDistinct hv hMem hName'
      exact hSame (hEq ▸ hPass')
  · rw [hFound, Option.bind_some, if_neg (by decide)]
    refine ⟨0, rfl, Or.inr ⟨rfl, ?_⟩⟩
    rintro ⟨v, hv, hName', _⟩
    exact hNone v hv hName'

theorem fill_mono (h : fuel ≤ fuel') : Le (f.fill mem fuel p object) (f.fill mem fuel' p object) :=
  Le.map (strcpy_mono h)

theorem addUsers_mono {calls : List NewUser} (h : fuel ≤ fuel') :
    Le (addUsers fuel calls t) (addUsers fuel' calls t) := by
  induction calls generalizing t with
  | nil => exact Le.refl
  | cons c calls ih =>
      have hBuild : Le (buildUser fuel c) (buildUser fuel' c) :=
        Le.bind (fill_mono h) fun _ => Le.bind (fill_mono h) fun _ => Le.bind (fill_mono h) fun _ =>
          Le.bind (fill_mono h) fun _ => fill_mono h
      rw [addUsers, addUsers, List.foldlM_cons, List.foldlM_cons]
      exact Le.bind (Le.map (Le.bind hBuild fun _ => Le.refl)) fun _ => ih

theorem searchLoop_mono {rounds rounds' i : Nat} (h : fuel ≤ fuel') (hRounds : rounds ≤ rounds') :
    Le (searchLoop mem fuel p t rounds i) (searchLoop mem fuel' p t rounds' i) := by
  induction rounds generalizing rounds' i with
  | zero => exact le_none
  | succ rounds ih =>
      obtain ⟨rounds', rfl⟩ := Nat.exists_eq_add_of_le' (Nat.le_of_add_left_le hRounds)
      exact Le.ite (Le.bind (strcmp_mono h) fun _ => Le.ite Le.refl (ih (by omega))) Le.refl

theorem compareUserPass_mono (h : fuel ≤ fuel') :
    Le (compareUserPass mem fuel p q t) (compareUserPass mem fuel' p q t) :=
  Le.bind (searchLoop_mono h h) fun _ => Le.ite (Le.bind (strcmp_mono h) fun _ =>
    Le.ite (Le.bind (strcmp_mono h) fun _ => Le.refl) Le.refl) Le.refl

/-- The login accepts the pairs that were registered, and no others. -/
theorem login_answers {users : List User} {calls : List NewUser}
    (hGiven : List.Forall₂ NewUser.Given calls users) (hFive : calls.length ≤ 5)
    (hDistinct : (users.map User.username).Nodup) (hStart : t.userArrayIndex = 0) :
    (∃ fuel t', addUsers fuel calls t = some t') ∧
      ∀ fuel t', addUsers fuel calls t = some t' →
        ∀ mem name password s s', Holds mem name s → Holds mem password s' →
          (∃ fuel r, compareUserPass mem fuel name password t' = some r) ∧
            ∀ fuel r, compareUserPass mem fuel name password t' = some r → Answers users s s' r := by
  have hNone : t.Registered [] := ⟨hStart, by simp, by simp⟩
  refine Le.determined (fun _ _ h => addUsers_mono h) (k := 20) ?_
  obtain ⟨t', hRun, hRegistered⟩ := hNone.addUsers hGiven (by simpa using hFive) (le_refl 20)
  refine ⟨t', fun fuel hFuel => addUsers_mono hFuel t' hRun, ?_⟩
  intro mem name password s s' hName hPassword
  refine Le.determined (fun _ _ h => compareUserPass_mono h) (k := 20) ?_
  have hLength : users.length ≤ 5 := hGiven.length_eq ▸ hFive
  obtain ⟨r, hCompare, hAnswers⟩ :=
    compareUserPass_answers hRegistered hDistinct hLength hName hPassword (le_refl 20)
  exact ⟨r, fun fuel hFuel => compareUserPass_mono hFuel r hCompare, hAnswers⟩

/-- The memory of a call that registers the user `a` with the password `b`. -/
def oneCall : NewUser where
  mem := fun i => [0x61, 0, 0x62, 0].getD i 0
  newUser := fun _ => 0xFF
  username := 0
  password := 2
  firstName := 0
  lastName := 0
  country := 0

theorem oneCall_given : oneCall.Given ⟨[0x61], [0x62], [0x61], [0x61], [0x61]⟩ :=
  have hFirst : Holds oneCall.mem 0 [0x61] := ⟨rfl, by decide, rfl⟩
  have hSecond : Holds oneCall.mem 2 [0x62] := ⟨rfl, by decide, rfl⟩
  { username := ⟨hFirst, by decide, by decide⟩
    password := ⟨hSecond, by decide, by decide⟩
    firstName := ⟨hFirst, by decide, by decide⟩
    lastName := ⟨hFirst, by decide, by decide⟩
    country := ⟨hFirst, by decide, by decide⟩ }

/-- That of a second call, for the user `ab` with the password `cd`. -/
def secondCall : NewUser where
  mem := fun i => [0x61, 0x62, 0, 0x63, 0x64, 0].getD i 0
  newUser := fun _ => 0xEE
  username := 0
  password := 3
  firstName := 3
  lastName := 3
  country := 0

theorem secondCall_given :
    secondCall.Given ⟨[0x61, 0x62], [0x63, 0x64], [0x63, 0x64], [0x63, 0x64], [0x61, 0x62]⟩ :=
  have hFirst : Holds secondCall.mem 0 [0x61, 0x62] := ⟨rfl, by decide, rfl, by decide, rfl⟩
  have hSecond : Holds secondCall.mem 3 [0x63, 0x64] := ⟨rfl, by decide, rfl, by decide, rfl⟩
  { username := ⟨hFirst, by decide, by decide⟩
    password := ⟨hSecond, by decide, by decide⟩
    firstName := ⟨hSecond, by decide, by decide⟩
    lastName := ⟨hSecond, by decide, by decide⟩
    country := ⟨hFirst, by decide, by decide⟩ }

/-- The second user logs in. -/
theorem login_answers_second : ∃ fuel t' r, addUsers fuel [oneCall, secondCall] ⟨fun _ => 0, 0⟩ = some t' ∧
    compareUserPass secondCall.mem fuel 0 3 t' = some r ∧
      Answers [⟨[0x61], [0x62], [0x61], [0x61], [0x61]⟩,
        ⟨[0x61, 0x62], [0x63, 0x64], [0x63, 0x64], [0x63, 0x64], [0x61, 0x62]⟩] [0x61, 0x62] [0x63, 0x64] r := by
  have hFirst : Holds secondCall.mem 0 [0x61, 0x62] := ⟨rfl, by decide, rfl, by decide, rfl⟩
  have hSecond : Holds secondCall.mem 3 [0x63, 0x64] := ⟨rfl, by decide, rfl, by decide, rfl⟩
  obtain ⟨⟨fuel, t', hRun⟩, hLogin⟩ := login_answers (t := ⟨fun _ => 0, 0⟩)
    (List.Forall₂.cons oneCall_given (List.Forall₂.cons secondCall_given List.Forall₂.nil)) (by decide) (by simp) rfl
  obtain ⟨⟨fuel', r, hCompare⟩, hAnswers⟩ := hLogin fuel t' hRun secondCall.mem 0 3 _ _ hFirst hSecond
  exact ⟨max fuel fuel', t', r, addUsers_mono (Nat.le_max_left _ _) t' hRun,
    compareUserPass_mono (Nat.le_max_right _ _) r hCompare, hAnswers fuel' r hCompare⟩

end UserTable
end ArtOS

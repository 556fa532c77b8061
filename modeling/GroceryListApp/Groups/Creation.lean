import GroceryListApp.Controller.GroupCalls
import GroceryListApp.Services.DataServiceRules
import GroceryListApp.Services.UsernameScans
import Mathlib.Data.List.ReduceOption

/-!
# The members of a created group

The dictionary of a new group pairs two arrays by index: the chosen names in the order of their
selection, and the uids that `getIds` finds in database order, followed by the uid of the creator.
So it is right exactly when the selection follows the database order, or when one chosen name has no
account any more, its place is filled by the creator's uid, and the creator was chosen last.
-/

namespace GroceryListApp

open Realtime

/-! ### Pairing by index -/

section

variable {α : Type*}

/-- Two arrangements of the same values that agree everywhere but at one place agree there too. -/
theorem eq_of_perm_of_agree {a b : List α} (hperm : a.Perm b) (j : ℕ)
    (hagree : ∀ i, i ≠ j → a[i]? = b[i]?) : a = b := by
  induction a generalizing b j with
  | nil => exact (List.nil_perm.mp hperm).symm
  | cons x a ih =>
    cases b with
    | nil => exact List.perm_nil.mp hperm
    | cons y b =>
      cases j with
      | zero =>
        have hrest : a = b := by
          apply List.ext_getElem?
          intro i
          simpa using hagree (i + 1) (by omega)
        subst hrest
        have hhead : [x].Perm [y] := (List.perm_append_right_iff a).mp hperm
        rw [List.singleton_perm_singleton.mp hhead]
      | succ j =>
        have hhead : x = y := by simpa using hagree 0 (by omega)
        subst hhead
        have hrest : a = b := by
          apply ih ((List.perm_cons x).mp hperm) j
          intro i hi
          simpa using hagree (i + 1) (by omega)
        rw [hrest]

/-- Filling the gaps with a value adds it once for each gap. -/
theorem perm_fill (values : List (Option α)) (fill : α) :
    (values.map (·.getD fill)).Perm
      (values.reduceOption ++ List.replicate (values.countP Option.isNone) fill) := by
  induction values with
  | nil => exact List.Perm.refl _
  | cons value values ih =>
    cases value with
    | none =>
      rw [List.map_cons, List.reduceOption_cons_of_none, List.countP_cons_of_pos rfl, List.replicate_succ]
      exact (ih.cons fill).trans List.perm_middle.symm
    | some a =>
      rw [List.map_cons, List.reduceOption_cons_of_some, List.countP_cons_of_neg (by simp)]
      exact ih.cons a

/-- The values are found at their own places of a list. -/
def FoundInPlace (values : List (Option α)) (found : List α) : Prop :=
  ∀ (i : ℕ) a, values[i]? = some (some a) → found[i]? = some a

/-- Without gaps, each value is found in its place when the lists are the same. -/
theorem foundInPlace_iff_of_full {values : List (Option α)} {found : List α} (fill last : α)
    (hfull : none ∉ values) (hlength : found.length = values.length) :
    FoundInPlace values (found ++ [last]) ↔ values.map (·.getD fill) = found := by
  constructor
  · intro h
    apply List.ext_getElem (by simp [hlength])
    intro i hi hi'
    have hvalues : i < values.length := by simpa using hi
    cases hvalue : values[i] with
    | none => exact absurd (hvalue ▸ List.getElem_mem hvalues) hfull
    | some a =>
      have hplace := h i a (by rw [List.getElem?_eq_getElem hvalues, hvalue])
      rw [List.getElem?_append_left hi', List.getElem?_eq_getElem hi', Option.some.injEq] at hplace
      rw [List.getElem_map, hvalue, hplace]
      rfl
  · intro h i a hvalue
    have hi : i < values.length := (List.getElem?_eq_some_iff.mp hvalue).1
    rw [List.getElem?_append_left (hlength ▸ hi), ← h, List.getElem?_map, hvalue]
    rfl

/-- With one gap, each value is found in its place when the gap is filled by what comes last. -/
theorem foundInPlace_iff_of_gap {values : List (Option α)} {found : List α} {last : α}
    (hgap : values.countP Option.isNone = 1) (hperm : values.reduceOption.Perm found) :
    FoundInPlace values (found ++ [last]) ↔ values.map (·.getD last) = found ++ [last] := by
  constructor
  · intro h
    obtain ⟨gap, hmem, hnone⟩ := List.countP_pos_iff.mp (by omega : 0 < values.countP Option.isNone)
    obtain rfl := Option.isNone_iff_eq_none.mp hnone
    obtain ⟨before, after, hsplit⟩ := List.append_of_mem hmem
    have hothers : none ∉ before ∧ none ∉ after := by
      rw [hsplit, List.countP_append, List.countP_cons_of_pos rfl] at hgap
      have hbefore : before.countP Option.isNone = 0 := by omega
      have hafter : after.countP Option.isNone = 0 := by omega
      exact ⟨fun h => List.countP_eq_zero.mp hbefore none h rfl,
        fun h => List.countP_eq_zero.mp hafter none h rfl⟩
    have hfill := perm_fill values last
    rw [hgap] at hfill
    apply eq_of_perm_of_agree (hfill.trans (hperm.append_right _)) before.length
    intro i hi
    have hvalue : ∀ value, values[i]? = some value → ∃ a, value = some a := by
      intro value hvalue
      rw [hsplit] at hvalue
      have hmem : value ∈ before ∨ value ∈ after := by
        rcases Nat.lt_or_gt_of_ne hi with hlt | hgt
        · rw [List.getElem?_append_left hlt] at hvalue
          exact Or.inl (List.mem_of_getElem? hvalue)
        · rw [List.getElem?_append_right (by omega), List.getElem?_cons, if_neg (by omega)] at hvalue
          exact Or.inr (List.mem_of_getElem? hvalue)
      cases value with
      | none => exact absurd hmem (by simp [hothers])
      | some a => exact ⟨a, rfl⟩
    rw [List.getElem?_map]
    cases hget : values[i]? with
    | none =>
      have hlength := hfill.length_eq
      have hlength' := hperm.length_eq
      have hi' := List.getElem?_eq_none_iff.mp hget
      rw [List.length_map, List.length_append] at hlength
      symm
      apply List.getElem?_eq_none_iff.mpr
      simp only [List.length_append, List.length_replicate] at hlength ⊢
      omega
    | some value =>
      obtain ⟨a, rfl⟩ := hvalue value hget
      exact (h i a hget).symm
  · intro h i a hvalue
    rw [← h, List.getElem?_map, hvalue]
    rfl

end

/-! ### The accounts of the chosen names -/

/-- The account that has a username. -/
def accountOf (db : Store Value) (name : String) : Option Key :=
  (db.children [Keys.users]).find? fun uid => storedUsername db uid = some name

/-- The chosen names that no account has. -/
def missingNames (db : Store Value) (chosenUserArray : List String) : List String :=
  chosenUserArray.filter fun name => name ∉ storedUsernames db

/-- The accounts of the chosen names in the order of their selection, with the creator's account in
the place of a missing one. -/
def chosenAccounts (db : Store Value) (currentUserId : Key) (chosenUserArray : List String) : List Key :=
  chosenUserArray.map fun name => (accountOf db name).getD currentUserId

/-- The keys come in the order of the database. -/
def InDatabaseOrder (keys : List Key) : Prop := keys.Pairwise fun k l => keyRank k ≤ keyRank l

/-- The names were selected in the order of their accounts; if one of them is missing, the creator's
account comes last and the others are in order. -/
def SelectedInOrder (db : Store Value) (currentUserId : Key) (chosenUserArray : List String) : Prop :=
  if missingNames db chosenUserArray = [] then
    InDatabaseOrder (chosenAccounts db currentUserId chosenUserArray)
  else
    (chosenAccounts db currentUserId chosenUserArray).getLast? = some currentUserId ∧
      InDatabaseOrder (chosenAccounts db currentUserId chosenUserArray).dropLast

instance (keys : List Key) : Decidable (InDatabaseOrder keys) :=
  inferInstanceAs (Decidable (keys.Pairwise fun k l => keyRank k ≤ keyRank l))

instance (db : Store Value) (currentUserId : Key) (chosenUserArray : List String) :
    Decidable (SelectedInOrder db currentUserId chosenUserArray) := by
  unfold SelectedInOrder
  split <;> infer_instance

section

variable {db : Store Value} {chosenUserArray : List String} {currentUserId : Key}

/-- With different names for different accounts, an account is found by the name it has. -/
theorem accountOf_eq_some_iff (hdistinct : DistinctNames db) {name : String} {uid : Key} :
    accountOf db name = some uid ↔ storedUsername db uid = some name := by
  constructor
  · intro h
    simpa using List.find?_some h
  · intro h
    have hget := (storedUsername_eq_some_iff db uid name).mp h
    have hmem : uid ∈ db.children [Keys.users] := (Store.mem_children _ _ _).mpr ⟨_, _, hget⟩
    cases hfind : accountOf db name with
    | none => simpa [h] using List.find?_eq_none.mp hfind uid hmem
    | some found =>
      have hfound : storedUsername db found = some name := by simpa using List.find?_some hfind
      rw [hdistinct found uid name hfound h]

/-- A name has no account exactly when it is not stored. -/
theorem accountOf_eq_none_iff (hdistinct : DistinctNames db) {name : String} :
    accountOf db name = none ↔ name ∉ storedUsernames db := by
  rw [mem_storedUsernames, Option.eq_none_iff_forall_ne_some, not_exists]
  exact forall_congr' fun uid => not_congr (accountOf_eq_some_iff hdistinct)

/-- As many accounts are missing as names. -/
theorem count_missing (hdistinct : DistinctNames db) (names : List String) :
    (names.map (accountOf db)).countP Option.isNone = (missingNames db names).length := by
  rw [missingNames, List.countP_map, ← List.countP_eq_length_filter]
  apply List.countP_congr
  intro name _
  simpa using accountOf_eq_none_iff hdistinct

/-- The accounts found by a scan are those of the names, in another order. -/
theorem perm_accountsNamed (hdistinct : DistinctNames db) (hchosen : chosenUserArray.Nodup) :
    ((chosenUserArray.map (accountOf db)).reduceOption).Perm (accountsNamed db chosenUserArray) := by
  have hnodup : ((chosenUserArray.map (accountOf db)).reduceOption).Nodup := by
    rw [List.reduceOption, List.filterMap_map]
    apply List.Nodup.filterMap _ hchosen
    intro name name' uid h h'
    have hname := (accountOf_eq_some_iff hdistinct).mp h
    have hname' := (accountOf_eq_some_iff hdistinct).mp h'
    exact Option.some.inj (hname.symm.trans hname')
  apply (List.perm_ext_iff_of_nodup hnodup (nodup_accountsNamed db _)).mpr
  intro uid
  rw [List.reduceOption_mem_iff, List.mem_map, mem_accountsNamed]
  exact exists_congr fun name => and_congr_right fun _ => accountOf_eq_some_iff hdistinct

/-- A list of the found accounts is the one that the scan finds when it is in order. -/
theorem eq_accountsNamed_iff {keys : List Key} (hperm : keys.Perm (accountsNamed db chosenUserArray)) :
    keys = accountsNamed db chosenUserArray ↔ InDatabaseOrder keys := by
  have hsorted : InDatabaseOrder (accountsNamed db chosenUserArray) :=
    (Store.sorted_children db _).filter _
  constructor
  · intro h
    rw [h]
    exact hsorted
  · intro h
    apply List.Perm.eq_of_pairwise _ h hsorted hperm
    exact fun k l _ _ hkl hlk => keyRank_injective (le_antisymm hkl hlk)

/-- The accounts of the chosen names are found in their places when the selection is in order. -/
theorem foundInPlace_iff (hdistinct : DistinctNames db) (hchosen : chosenUserArray.Nodup)
    (hmissing : (missingNames db chosenUserArray).length ≤ 1) :
    FoundInPlace (chosenUserArray.map (accountOf db))
        (accountsNamed db chosenUserArray ++ [currentUserId]) ↔
      SelectedInOrder db currentUserId chosenUserArray := by
  have hcount := count_missing hdistinct chosenUserArray
  have hperm := perm_accountsNamed hdistinct hchosen
  have hfill := perm_fill (chosenUserArray.map (accountOf db)) currentUserId
  have haccounts : (chosenUserArray.map (accountOf db)).map (·.getD currentUserId) =
      chosenAccounts db currentUserId chosenUserArray := by
    rw [List.map_map]
    rfl
  rw [haccounts, hcount] at hfill
  unfold SelectedInOrder
  split
  · next hnone =>
    rw [hnone, List.length_nil] at hcount
    rw [hnone, List.length_nil, List.replicate_zero, List.append_nil] at hfill
    have hlength := (hfill.trans hperm).length_eq
    have hfull : none ∉ chosenUserArray.map (accountOf db) :=
      fun h => List.countP_eq_zero.mp hcount none h rfl
    rw [foundInPlace_iff_of_full currentUserId currentUserId hfull, haccounts]
    · exact eq_accountsNamed_iff (hfill.trans hperm)
    · rw [← hlength, chosenAccounts, List.length_map, List.length_map]
  · next hsome =>
    have hone : (missingNames db chosenUserArray).length = 1 := by
      have := List.length_pos_iff.mpr hsome
      omega
    rw [hone] at hfill
    rw [foundInPlace_iff_of_gap (hcount.trans hone) hperm, haccounts]
    constructor
    · intro h
      rw [h, List.getLast?_concat, List.dropLast_concat]
      exact ⟨rfl, (eq_accountsNamed_iff (List.Perm.refl _)).mp rfl⟩
    · intro h
      obtain ⟨hlast, horder⟩ := h
      obtain ⟨front, hfront⟩ := List.getLast?_eq_some_iff.mp hlast
      rw [hfront, List.dropLast_concat] at horder
      rw [hfront] at hfill ⊢
      have hperm' := (List.perm_append_right_iff _).mp hfill
      rw [(eq_accountsNamed_iff (hperm'.trans hperm)).mpr horder]

end

/-! ### The dictionary of members -/

/-- Entries with different keys are set one after the other. -/
theorem foldl_setEntry {entries dict : List (String × String)}
    (hdistinct : ((dict ++ entries).map Prod.fst).Nodup) : entries.foldl setEntry dict = dict ++ entries := by
  induction entries generalizing dict with
  | nil => rw [List.foldl_nil, List.append_nil]
  | cons entry entries ih =>
    have hset : setEntry dict entry = dict ++ [entry] := by
      have hkept : (dict.filter fun other => other.1 ≠ entry.1) = dict := by
        apply List.filter_eq_self.mpr
        intro other hother
        rw [List.map_append, List.nodup_append] at hdistinct
        have hne := hdistinct.2.2 other.1 (List.mem_map_of_mem hother) entry.1 (by simp)
        simpa using hne
      rw [setEntry, hkept]
    rw [List.foldl_cons, hset, ih]
    · rw [List.append_assoc, List.singleton_append]
    · rw [List.append_assoc, List.singleton_append]
      exact hdistinct

/-- With different chosen names, the dictionary pairs them with the ids by index. -/
theorem usernameDict_eq {chosenUserArray : List String} (hchosen : chosenUserArray.Nodup)
    (usernameIds : List String) :
    usernameDict chosenUserArray usernameIds =
      if chosenUserArray.length ≤ usernameIds.length then some (chosenUserArray.zip usernameIds)
      else none := by
  unfold usernameDict
  split
  · next hlength =>
    rw [foldl_setEntry, List.nil_append]
    rw [List.nil_append, List.map_fst_zip hlength]
    exact hchosen
  · rfl

/-- The dictionary is a tree exactly when the chosen names are legal keys. -/
theorem isSome_dictionary_iff {chosenUserArray usernameIds : List String} {usernames : List (String × String)}
    (hchosen : chosenUserArray.Nodup) (hdict : usernameDict chosenUserArray usernameIds = some usernames) :
    (Store.dictionary (usernames.map fun entry => (entry.1, Value.string entry.2))).isSome ↔
      ∀ name ∈ chosenUserArray, LegalKey name := by
  rw [usernameDict_eq hchosen] at hdict
  split at hdict
  · next hlength =>
    obtain rfl := Option.some.inj hdict
    have hnames : (chosenUserArray.zip usernameIds).map Prod.fst = chosenUserArray :=
      List.map_fst_zip hlength
    have hkeys : ((chosenUserArray.zip usernameIds).map fun entry =>
        (entry.1, Value.string entry.2)).map Prod.fst = chosenUserArray := by
      rw [List.map_map]
      exact hnames
    rw [Store.isSome_dictionary_iff, hkeys, and_iff_right hchosen]
    constructor
    · intro h name hname
      rw [← hkeys] at hname
      obtain ⟨entry, hentry, rfl⟩ := List.mem_map.mp hname
      exact h entry hentry
    · intro h entry hentry
      exact h entry.1 (hkeys ▸ List.mem_map_of_mem hentry)
  · contradiction

/-- Pressing the checkmark does not index out of range, and in the group that it creates each chosen
name that some account has is mapped to the uid of that account. -/
structure MapsMembers (db : Store Value) (chosenUserArray : List String) (currentUserId : Key) :
    Prop where
  inRange : ∃ ids, (∀ handler : List String → Prog Unit Value,
      (getIds chosenUserArray handler).answer db = handler ids) ∧
    (usernameDict chosenUserArray (ids ++ [currentUserId.1])).isSome
  own : ∀ autoId title description currentUser w next,
    (createGroupAction autoId title description currentUser chosenUserArray currentUserId.1 :
      Prog Unit Value).answer db = .write w next →
    ∀ name uid : Key, name.1 ∈ chosenUserArray → storedUsername db uid = some name.1 →
      (w.apply db).get [Keys.groups, autoId, Keys.members, name] = some (.string uid.1)

section

variable {db : Store Value} {chosenUserArray : List String} {currentUserId : Key}

/-- What the press does when the users are answered. -/
theorem answer_createGroupAction (hnamed : AllNamed db) (autoId : Key)
    (title description currentUser : String) (chosenUserArray : List String) (currentUserId : Key) :
    (createGroupAction autoId title description currentUser chosenUserArray currentUserId.1 :
        Prog Unit Value).answer db =
      .force (usernameDict chosenUserArray
          ((accountsNamed db chosenUserArray ++ [currentUserId]).map Subtype.val)) fun usernames =>
        createGroup autoId title description currentUser usernames fun _ => .done := by
  rw [createGroupAction, answer_getIds hnamed, List.map_append]
  rfl

/-- There is an id for each chosen name unless two of them are missing. -/
theorem length_le_iff (currentUserId : Key) (hdistinct : DistinctNames db)
    (hchosen : chosenUserArray.Nodup) :
    chosenUserArray.length ≤ (accountsNamed db chosenUserArray ++ [currentUserId]).length ↔
      (missingNames db chosenUserArray).length ≤ 1 := by
  have hfill := (perm_fill (chosenUserArray.map (accountOf db)) currentUserId).length_eq
  have hfound := (perm_accountsNamed hdistinct hchosen).length_eq
  have hcount := count_missing hdistinct chosenUserArray
  simp only [List.length_map, List.length_append, List.length_replicate] at hfill
  rw [List.length_append, List.length_singleton]
  omega

/-- The dictionary of the group maps each name to the uid that stands at the same index. -/
theorem get_members (hchosen : chosenUserArray.Nodup) {usernames : List (String × String)}
    {ids : List Key} (hdict : usernameDict chosenUserArray (ids.map Subtype.val) = some usernames)
    {members : Store Value}
    (hmembers : Store.dictionary (usernames.map fun entry => (entry.1, Value.string entry.2)) =
      some members) {name uid : Key} :
    members.get [name] = some (.string uid.1) ↔
      ∃ i : ℕ, chosenUserArray[i]? = some name.1 ∧ ids[i]? = some uid := by
  rw [usernameDict_eq hchosen] at hdict
  split at hdict
  · next hlength =>
    obtain rfl := Option.some.inj hdict
    have hentry : (name.1, uid.1) ∈ chosenUserArray.zip (ids.map Subtype.val) ↔
        ∃ i : ℕ, chosenUserArray[i]? = some name.1 ∧ ids[i]? = some uid := by
      rw [List.mem_iff_getElem?]
      apply exists_congr
      intro i
      rw [List.getElem?_zip_eq_some, List.getElem?_map, Option.map_eq_some_iff]
      refine and_congr_right fun _ => ⟨fun h => ?_, fun h => ⟨uid, h, rfl⟩⟩
      obtain ⟨found, hfound, hsame⟩ := h
      rw [hfound, Subtype.ext hsame]
    rw [← hentry]
    constructor
    · intro hget
      obtain ⟨key, hkey, hmem⟩ := Store.of_get_dictionary hmembers hget
      obtain ⟨rfl, -⟩ := List.cons.inj hkey
      obtain ⟨entry, hmem, hsame⟩ := List.mem_map.mp hmem
      obtain ⟨hname, huid⟩ := Prod.mk.inj hsame
      rw [← hname, ← Value.string.inj huid]
      exact hmem
    · intro hmem
      obtain ⟨key, hkey, hget⟩ := Store.get_dictionary hmembers (List.mem_map_of_mem hmem)
      rwa [Subtype.ext hkey] at hget
  · contradiction

/-- The members of a group that was created are its dictionary. -/
theorem get_createGroup (autoId : Key) (title description master : String) (members : Store Value)
    (p : Path) (db : Store Value) :
    ((Write.update [Keys.groups, autoId] [([Keys.master], str master), ([Keys.title], str title),
      ([Keys.description], str description), ([Keys.groupListCount], int 0),
      ([Keys.groupListCheckCount], int 0), ([Keys.members], members)]).apply db).get
        (Keys.groups :: autoId :: Keys.members :: p) = members.get p :=
  get_update_of_mem (pairwise_createGroup master title description members)
    (List.mem_of_getElem? (i := 5) rfl) [Keys.groups, autoId] p db

/-- The ids that a scan hands on are in range when at most one chosen name is missing. -/
theorem in_range_iff (hnamed : AllNamed db) (hdistinct : DistinctNames db)
    (hchosen : chosenUserArray.Nodup) :
    (∃ ids, (∀ handler : List String → Prog Unit Value,
        (getIds chosenUserArray handler).answer db = handler ids) ∧
      (usernameDict chosenUserArray (ids ++ [currentUserId.1])).isSome) ↔
      (missingNames db chosenUserArray).length ≤ 1 := by
  rw [← length_le_iff currentUserId hdistinct hchosen]
  constructor
  · intro h
    obtain ⟨ids, hids, hsome⟩ := h
    have hfound : (accountsNamed db chosenUserArray).map Subtype.val = ids := by
      by_contra hne
      have := hids fun found => if found = ids then .done else .trap
      rw [answer_getIds hnamed, if_neg hne, if_pos rfl] at this
      contradiction
    rw [usernameDict_eq hchosen] at hsome
    split at hsome
    · next hlength => simpa [← hfound] using hlength
    · contradiction
  · intro h
    refine ⟨_, fun handler => answer_getIds hnamed _ handler, ?_⟩
    rw [usernameDict_eq hchosen, if_pos]
    · rfl
    · simpa using h

/-- A name at its place in the selection is found at the place of its account. -/
theorem foundInPlace_of_own {ids : List Key} (hdistinct : DistinctNames db) (hchosen : chosenUserArray.Nodup)
    (hown : ∀ name ∈ chosenUserArray, ∀ uid, storedUsername db uid = some name →
      ∃ i : ℕ, chosenUserArray[i]? = some name ∧ ids[i]? = some uid) :
    FoundInPlace (chosenUserArray.map (accountOf db)) ids := by
  intro i uid hvalue
  rw [List.getElem?_map, Option.map_eq_some_iff] at hvalue
  obtain ⟨name, hname, huid⟩ := hvalue
  have hstored := (accountOf_eq_some_iff hdistinct).mp huid
  obtain ⟨i', hname', hget⟩ := hown name (List.mem_of_getElem? hname) uid hstored
  obtain ⟨hi, -⟩ := List.getElem?_eq_some_iff.mp hname
  have hsame : i = i' := (List.getElem?_inj hi hchosen).mp (hname.trans hname'.symm)
  rw [hsame]
  exact hget

/-- If every chosen name is mapped to its own account, the names were selected in order. -/
theorem MapsMembers.selectedInOrder (h : MapsMembers db chosenUserArray currentUserId)
    (hnamed : AllNamed db) (hdistinct : DistinctNames db) (hchosen : chosenUserArray.Nodup)
    (hlegal : ∀ name ∈ chosenUserArray, LegalKey name) :
    SelectedInOrder db currentUserId chosenUserArray := by
  have hmissing := (in_range_iff hnamed hdistinct hchosen).mp h.inRange
  have hlength := (length_le_iff currentUserId hdistinct hchosen).mpr hmissing
  have hdict := usernameDict_eq hchosen
    ((accountsNamed db chosenUserArray ++ [currentUserId]).map Subtype.val)
  rw [if_pos (by rwa [List.length_map])] at hdict
  obtain ⟨members, hmembers⟩ := Option.isSome_iff_exists.mp
    ((isSome_dictionary_iff hchosen hdict).mpr hlegal)
  apply (foundInPlace_iff hdistinct hchosen hmissing).mp
  apply foundInPlace_of_own hdistinct hchosen
  intro name hname uid huid
  have hwrite := answer_createGroupAction hnamed currentUserId "" "" "" chosenUserArray currentUserId
  rw [hdict, Prog.force_some, createGroup_eq, hmembers, Prog.force_some] at hwrite
  have hown := h.own _ _ _ _ _ _ hwrite ⟨name, hlegal name hname⟩ uid hname huid
  rw [get_createGroup] at hown
  exact (get_members hchosen hdict hmembers).mp hown

/-- If the names were selected in order, every one of them is mapped to its own account. -/
theorem mapsMembers_of_selectedInOrder (hnamed : AllNamed db) (hdistinct : DistinctNames db)
    (hchosen : chosenUserArray.Nodup) (hmissing : (missingNames db chosenUserArray).length ≤ 1)
    (horder : (∀ name ∈ chosenUserArray, LegalKey name) →
      SelectedInOrder db currentUserId chosenUserArray) :
    MapsMembers db chosenUserArray currentUserId := by
  refine ⟨(in_range_iff hnamed hdistinct hchosen).mpr hmissing, ?_⟩
  intro autoId title description currentUser w next hwrite name uid hname huid
  rw [answer_createGroupAction hnamed] at hwrite
  cases hdict : usernameDict chosenUserArray
      ((accountsNamed db chosenUserArray ++ [currentUserId]).map Subtype.val) with
  | none =>
    rw [hdict] at hwrite
    contradiction
  | some usernames =>
    rw [hdict, Prog.force_some, createGroup_eq] at hwrite
    cases hmembers : Store.dictionary
        (usernames.map fun entry => (entry.1, Value.string entry.2)) with
    | none =>
      rw [hmembers] at hwrite
      contradiction
    | some members =>
      rw [hmembers, Prog.force_some] at hwrite
      obtain ⟨rfl, -⟩ := Prog.write.inj hwrite
      have hlegal : ∀ name ∈ chosenUserArray, LegalKey name :=
        (isSome_dictionary_iff hchosen hdict).mp (Option.isSome_iff_exists.mpr ⟨members, hmembers⟩)
      have hplace := (foundInPlace_iff hdistinct hchosen hmissing).mpr (horder hlegal)
      rw [get_createGroup, get_members hchosen hdict hmembers]
      obtain ⟨i, hi⟩ := List.mem_iff_getElem?.mp hname
      refine ⟨i, hi, hplace i uid ?_⟩
      rw [List.getElem?_map, hi]
      exact congrArg some ((accountOf_eq_some_iff hdistinct).mpr huid)

/-- A created group maps the chosen names to their own accounts exactly when at most one of them is
missing and the names were selected in the order of the accounts, unless one of them is no key. -/
theorem maps_members_iff (hnamed : AllNamed db) (hdistinct : DistinctNames db)
    (hchosen : chosenUserArray.Nodup) :
    MapsMembers db chosenUserArray currentUserId ↔
      (missingNames db chosenUserArray).length ≤ 1 ∧
        ((∀ name ∈ chosenUserArray, LegalKey name) →
          SelectedInOrder db currentUserId chosenUserArray) := by
  constructor
  · intro h
    exact ⟨(in_range_iff hnamed hdistinct hchosen).mp h.inRange,
      h.selectedInOrder hnamed hdistinct hchosen⟩
  · intro h
    exact mapsMembers_of_selectedInOrder hnamed hdistinct hchosen h.1 h.2

end

/-- The first account creates a group with the second one. -/
theorem maps_members_alice : MapsMembers sharedByTwo ["alice", "bobby"] Sample.uidA := by
  have hnamed : AllNamed sharedByTwo := by decide
  refine (maps_members_iff hnamed distinctNames_sharedByTwo (by decide)).mpr ⟨by decide, fun _ => ?_⟩
  decide

/-- The second account creates a group with the first one, and each is mapped to the other's uid. -/
theorem not_maps_members : ¬ ∀ (db : Store Value) (creator : String) (chosenUserArray : List String)
    (currentUserId : Key), AllNamed db → DistinctNames db → chosenUserArray.Nodup →
      storedUsername db currentUserId = some creator → creator ∈ chosenUserArray →
      MapsMembers db chosenUserArray currentUserId := by
  intro hclaim
  have hnamed : AllNamed sharedByTwo := by decide
  have hmaps := hclaim sharedByTwo "bobby" ["bobby", "alice"] Sample.uidB hnamed
    distinctNames_sharedByTwo (by decide) (by decide) (by decide)
  have horder := hmaps.selectedInOrder hnamed distinctNames_sharedByTwo (by decide) (by decide)
  revert horder
  decide

end GroceryListApp

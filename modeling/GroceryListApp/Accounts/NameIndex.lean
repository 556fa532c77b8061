import GroceryListApp.Controller.GroupCalls
import GroceryListApp.Controller.NameChecks
import GroceryListApp.Services.DataServiceRules

/-!
# Accounts and the index of names

The name of an account is stored in its record, and the account is listed under it in the index
of names, which the screens search for names in use. A registration, a change of username and a
deletion begin with their writes to both; what they do to the groups comes after these writes.
-/

namespace GroceryListApp

open Realtime

variable {M : Type*}

/-- A legal name that the check of the screens finds among none of the names in use. -/
def Available (db : Store Value) (name : String) : Prop :=
  LegalKey name ∧ nameAvailable (childKeys (db.snapshot [Keys.usernames])) name = some true

/-- An available name is not listed. -/
theorem Available.not_listed {db : Store Value} {name : String} (h : Available db name) {k : Key}
    (hk : k.1 = name) (rest : Path) : db.get (Keys.usernames :: k :: rest) = none := by
  obtain ⟨-, havailable⟩ := h
  rw [nameAvailable_eq, Option.some.injEq, decide_eq_true_iff] at havailable
  refine Option.eq_none_iff_forall_ne_some.mpr fun v hv => havailable ?_
  rw [childKeys, Snapshot.children_snapshot, List.map_map]
  exact List.mem_map.mpr ⟨k, (Store.mem_children _ [Keys.usernames] k).mpr ⟨rest, v, hv⟩, hk⟩

/-! ### What the account operations write first -/

/-- A registration writes the record of the account and lists its name. -/
theorem registerUser_eq (uid : Key) (providerID email : String) (name : Key) :
    (registerUser uid providerID email name.1 : Prog M Value) =
      .write (.update [Keys.users, uid] [([Keys.provider], str providerID), ([Keys.email], str email),
        ([Keys.username], str name.1)])
      (.write (.update [Keys.usernames] [([name], str uid.1)])
      (.write (.update [Keys.users, uid] [([Keys.nameName], str "")]) .done)) := by
  simp [registerUser, createDBUser_eq, addUsername_eq, addNameName_eq]

/-- A change of username writes for the account first. -/
theorem changeUsernameAction_eq (uid old new : Key) :
    (changeUsernameAction uid old.1 new.1 : Prog M Value) =
      .write (.update [Keys.users, uid] [([Keys.username], str new.1)])
      (.write (.update [Keys.usernames] [([new], str uid.1)])
      (.write (.remove [Keys.usernames, old])
      (.block [changeMaster old.1 new.1, changeUsersInGroup old.1 new.1 uid.1,
        changeMarkedOffBy old.1 new.1, changeAddedBy old.1 new.1]))) := by
  simp [changeUsernameAction, changeUsername_eq, addUsername_eq, deleteFromUsernames_eq]

/-- A deletion removes the account first. -/
theorem confirmDeleteAction_eq (uid name : Key) :
    (confirmDeleteAction uid name.1 : Prog M Value) =
      .write (.remove [Keys.usernames, name])
      (.write (.remove [Keys.users, uid]) (deleteFromGroups name.1)) := by
  simp [confirmDeleteAction, deleteUserFromDatabase_eq, deleteFromUsernames_eq]

/-- An account takes a name, gives one up or does both, in its record and in the index of names. -/
structure ChangesName (uid : Key) (old new : Option Key) (s s' : Store Value) : Prop where
  groups : ∀ rest, s'.get (Keys.groups :: rest) = s.get (Keys.groups :: rest)
  own : storedUsername s' uid = new.map Subtype.val
  others : ∀ other ≠ uid, storedUsername s' other = storedUsername s other
  listed : ∀ k ∈ new, s'.get [Keys.usernames, k] = some (.string uid.1)
  kept : ∀ k, k ∉ old → k ∉ new → s'.get [Keys.usernames, k] = s.get [Keys.usernames, k]

namespace ChangesName

variable (uid : Key) (db : Store Value)

/-- Listing a name leaves the others. -/
theorem get_update_usernames {name k : Key} (hk : k ≠ name) (s : Store Value) (value : Store Value) :
    ((Write.update [Keys.usernames] [([name], value)]).apply s).get [Keys.usernames, k] =
      s.get [Keys.usernames, k] := by
  apply get_update_of_apart
  intro entry hentry
  rw [List.mem_singleton.mp hentry]
  exact (apart_cons _ _ _).mpr (apart_of_ne (Ne.symm hk) _ _)

/-- Taking a name from the list leaves the others. -/
theorem get_remove_usernames {name k : Key} (hk : k ≠ name) (s : Store Value) :
    ((Write.remove [Keys.usernames, name]).apply s).get [Keys.usernames, k] =
      s.get [Keys.usernames, k] :=
  get_apply_of_apart (w := .remove _) ((apart_cons _ _ _).mpr (apart_of_ne (Ne.symm hk) _ _)) s

/-- A write for an account leaves what is not below the accounts. -/
theorem get_users {w : Write Value} {rest : Path} (hw : w.location = Keys.users :: rest) {root : Key}
    (hroot : Keys.users ≠ root) (q : Path) (s : Store Value) :
    (w.apply s).get (root :: q) = s.get (root :: q) :=
  get_apply_of_apart (hw ▸ apart_of_ne hroot _ _) s

/-- A write to the list of names leaves what is not below it. -/
theorem get_usernames {w : Write Value} {rest : Path} (hw : w.location = Keys.usernames :: rest)
    {root : Key} (hroot : Keys.usernames ≠ root) (q : Path) (s : Store Value) :
    (w.apply s).get (root :: q) = s.get (root :: q) :=
  get_apply_of_apart (hw ▸ apart_of_ne hroot _ _) s

/-- A registration takes a name. -/
theorem register (providerID email : String) (name : Key) :
    ChangesName uid none (some name) db
      ((Write.update [Keys.users, uid] [([Keys.nameName], str "")]).apply
      ((Write.update [Keys.usernames] [([name], str uid.1)]).apply
      ((Write.update [Keys.users, uid] [([Keys.provider], str providerID), ([Keys.email], str email),
        ([Keys.username], str name.1)]).apply db))) where
  groups rest := by
    rw [get_users rfl (by decide), get_usernames rfl (by decide), get_users rfl (by decide)]
  own := by
    rw [Option.map_some, storedUsername_eq_some_iff, get_update_of_apart, get_usernames rfl (by decide)]
    · have hpairwise : ([([Keys.provider], str providerID), ([Keys.email], str email),
          ([Keys.username], str name.1)] : List (Path × Store Value)).Pairwise
          fun a b => Apart a.1 b.1 := by
        simp +decide [List.pairwise_cons]
      have hentry : ([Keys.username], str name.1) ∈ [([Keys.provider], str providerID),
          ([Keys.email], str email), ([Keys.username], str name.1)] := by simp
      exact get_update_of_mem hpairwise hentry [Keys.users, uid] [] db
    · intro entry hentry
      rw [List.mem_singleton.mp hentry]
      exact (apart_append_left [Keys.users, uid] _ _).mpr (apart_of_ne (by decide) [] [])
  others other hne := by
    rw [storedUsername_apply_of_ne _ rfl hne.symm, storedUsername_apply_of_root _ rfl (by decide),
      storedUsername_apply_of_ne _ rfl hne.symm]
  listed k hk := by
    obtain rfl := Option.some.inj hk
    rw [get_users rfl (by decide)]
    exact get_update_leaf [Keys.usernames] [name] _ _
  kept k _ hk := by
    have hne : k ≠ name := fun hsame => hk (congrArg some hsame.symm)
    rw [get_users rfl (by decide), get_update_usernames hne, get_users rfl (by decide)]

/-- A change of username takes one name and gives up another. -/
theorem rename {old new : Key} (hne : old ≠ new) :
    ChangesName uid (some old) (some new) db
      ((Write.remove [Keys.usernames, old]).apply
      ((Write.update [Keys.usernames] [([new], str uid.1)]).apply
      ((Write.update [Keys.users, uid] [([Keys.username], str new.1)]).apply db))) where
  groups rest := by
    rw [get_usernames rfl (by decide), get_usernames rfl (by decide), get_users rfl (by decide)]
  own := by
    rw [storedUsername_apply_of_root _ rfl (by decide), storedUsername_apply_of_root _ rfl (by decide),
      storedUsername_update]
    rfl
  others other hother := by
    rw [storedUsername_apply_of_root _ rfl (by decide), storedUsername_apply_of_root _ rfl (by decide),
      storedUsername_apply_of_ne _ rfl hother.symm]
  listed k hk := by
    obtain rfl := Option.some.inj hk
    rw [get_remove_usernames hne.symm]
    exact get_update_leaf [Keys.usernames] [new] _ _
  kept k hold hnew := by
    have hne : k ≠ old := fun hsame => hold (congrArg some hsame.symm)
    have hne' : k ≠ new := fun hsame => hnew (congrArg some hsame.symm)
    rw [get_remove_usernames hne, get_update_usernames hne', get_users rfl (by decide)]

/-- A deletion gives a name up. -/
theorem delete (name : Key) :
    ChangesName uid (some name) none db
      ((Write.remove [Keys.users, uid]).apply ((Write.remove [Keys.usernames, name]).apply db)) where
  groups rest := by
    rw [get_users rfl (by decide), get_usernames rfl (by decide)]
  own := by
    rw [Option.map_none, storedUsername, asString, value_snapshot, Write.apply, Store.get_remove,
      if_pos (by simp)]
  others other hne := by
    rw [storedUsername_apply_of_ne _ rfl hne.symm, storedUsername_apply_of_root _ rfl (by decide)]
  listed k hk := by contradiction
  kept k hold _ := by
    have hne : k ≠ name := fun hsame => hold (congrArg some hsame.symm)
    rw [get_users rfl (by decide), get_remove_usernames hne]

end ChangesName

end GroceryListApp

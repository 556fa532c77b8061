import GroceryListApp.Controller.AppCalls
import GroceryListApp.Realtime.Balance
import Mathlib.Algebra.Group.Pi.Basic

/-!
# The index of names agrees with the accounts

A registration, a change of username and a deletion write the record of the account and the index of
names one after the other, so the two disagree in between. For an account and a name, count one when
the index lists the account under the name, and take one off when the record has the name. What is
counted and what the pending writes still add is zero along every schedule, as long as a name is free
where it is listed, an entry is the account's own where it is removed, and the stored name is the one
that is given up where it is changed. How long ago the screens were loaded does not matter.
-/

namespace GroceryListApp

open Realtime

/-- A name is free where it is listed, an entry that is removed is the account's own, and where the
name of an account is changed the stored one is the one that is given up. -/
def NamesInOrder (t : AppCall) (db : Store Value) : Write Value → Prop
  | .update [a] entries => a = Keys.usernames → ∀ entry ∈ entries, db.get (a :: entry.1) = none
  | .update [a, x] entries => a = Keys.users → (∃ entry ∈ entries, entry.1 = [Keys.username]) →
      storedUsername db x = t.gives
  | .remove [a, x] =>
      (a = Keys.usernames → db.get [a, x] = t.account.map fun uid => .string uid.1) ∧
        (a = Keys.users → storedUsername db x = t.gives)
  | _ => True

/-- A step with legal names whose write finds the names in order. -/
def IndexStep (s : AppSys) : Act AppCall → Prop
  | .spawn t => LegalNames t
  | .run i =>
    match s.pool[i]? with
    | some (t, .run (.write w _)) => NamesInOrder t s.db w
    | _ => True

instance (t : AppCall) (db : Store Value) (w : Write Value) : Decidable (NamesInOrder t db w) :=
  match w with
  | .update [] _ | .update (_ :: _ :: _ :: _) _ | .remove [] | .remove [_] => isTrue trivial
  | .remove (_ :: _ :: _ :: _) => isTrue trivial
  | .update [a] entries => inferInstanceAs (Decidable (a = _ → ∀ entry ∈ entries, _))
  | .update [a, _] entries => inferInstanceAs (Decidable (a = _ → (∃ entry ∈ entries, _) → _))
  | .remove [_, _] => inferInstanceAs (Decidable ((_ → _) ∧ (_ → _)))

instance (s : AppSys) (a : Act AppCall) : Decidable (IndexStep s a) :=
  match a with
  | .spawn t => inferInstanceAs (Decidable (LegalNames t))
  | .run i => by
    dsimp only [IndexStep]
    generalize s.pool[i]? = task
    match task with
    | some (t, .run (.write w _)) => exact inferInstanceAs (Decidable (NamesInOrder t s.db w))
    | none | some (_, .await ..) | some (_, .run .done) | some (_, .run .trap)
    | some (_, .run (.observe ..)) | some (_, .run (.inspect _)) | some (_, .run (.modify ..)) =>
      exact isTrue trivial

/-- No change of the account's name is pending. -/
def Idle (s : AppSys) (uid : Key) : Prop := ∀ task ∈ s.pool, task.1.account ≠ some uid

/-- The index lists the account under the name that its record has, and under no other. -/
def IndexMatches (db : Store Value) (uid : Key) : Prop :=
  ∀ u : Key, db.get [Keys.usernames, u] = some (.string uid.1) ↔ storedUsername db uid = some u.1

/-- The writes of a step find the names in order. -/
theorem IndexStep.meets {s : AppSys} {a : Act AppCall} (h : IndexStep s a) : s.Meets NamesInOrder a := by
  cases a with
  | spawn t => trivial
  | run i =>
    intro t w next hget
    simpa only [IndexStep, hget] using h

/-! ### What the writes add -/

/-- One for a name. -/
def one (name : Option String) (u : Key) : ℤ := if name = some u.1 then 1 else 0

/-- For each name, one when the index lists the account under it, less one when the record has it. -/
def nameBalance (uid : Key) : Balance AppCall (Key → ℤ) Value where
  value db u := (if db.get [Keys.usernames, u] = some (.string uid.1) then 1 else 0) -
    one (storedUsername db uid) u
  may := NamesInOrder

section

variable {uid : Key} {t : AppCall} {db db' : Store Value}

/-- The quantity is zero when the index agrees with the record. -/
theorem nameBalance_eq_zero_iff : (nameBalance uid).value db = 0 ↔ IndexMatches db uid := by
  rw [funext_iff]
  refine forall_congr' fun u => ?_
  by_cases hlisted : db.get [Keys.usernames, u] = some (.string uid.1) <;>
    by_cases hstored : storedUsername db uid = some u.1 <;> simp [nameBalance, one, hlisted, hstored]

/-- The quantity stays when neither the record nor the listings of the account change. -/
theorem nameBalance_congr (hstored : storedUsername db' uid = storedUsername db uid)
    (hlisted : ∀ u, db'.get [Keys.usernames, u] = some (.string uid.1) ↔
      db.get [Keys.usernames, u] = some (.string uid.1)) :
    (nameBalance uid).value db' = (nameBalance uid).value db := by
  funext u
  simp only [nameBalance, hstored, hlisted u]

/-- A write that leaves the names leaves the quantity alone. -/
theorem nameBalance_permits {w : Write Value} (hw : LeavesNames w) :
    (nameBalance uid).steady.Permits t w := by
  intro db _ _
  exact nameBalance_congr (hw.stored db uid) fun u => by rw [hw.index db u]

/-- What a change of username does to the groups leaves the quantity alone. -/
theorem nameBalance_renameInGroups {M : Type*} (profileName newUsername uid' : String) :
    (nameBalance uid).steady.Holds t (.block [changeMaster profileName newUsername,
      changeUsersInGroup profileName newUsername uid', changeMarkedOffBy profileName newUsername,
      changeAddedBy profileName newUsername] : Prog M Value) := by
  apply holds_renameInGroups trivial
  · exact fun g p key value _ => nameBalance_permits (leavesNames_groups ⟨g :: p, rfl⟩)
  · exact fun g k _ => nameBalance_permits (leavesNames_groups ⟨[g, Keys.members, k], rfl⟩)
  · exact fun g name _ => nameBalance_permits (leavesNames_groups ⟨[g, Keys.members], rfl⟩)

/-- What a deletion does to the groups leaves the quantity alone. -/
theorem nameBalance_deleteFromGroups {M : Type*} (username : String) :
    (nameBalance uid).steady.Holds t (deleteFromGroups username : Prog M Value) :=
  holds_deleteFromGroups fun _ g k _ _ _ =>
    nameBalance_permits (leavesNames_groups ⟨[g, Keys.members, k], rfl⟩)

/-- A change of the record trades the name that is given up for the one that is stored. -/
theorem nameBalance_record {w : Write Value} (hw : w.location = [Keys.users, uid])
    (hbefore : ∀ db, NamesInOrder t db w → storedUsername db uid = t.gives) {new : Option String}
    (hafter : ∀ db, storedUsername (w.apply db) uid = new) :
    (nameBalance uid).Changes t w (one t.gives - one new) := by
  intro db hmay
  funext u
  have hindex : (w.apply db).get [Keys.usernames, u] = db.get [Keys.usernames, u] :=
    get_apply_of_apart (hw ▸ apart_of_ne (by decide) _ _) db
  simp only [nameBalance, Pi.add_apply, Pi.sub_apply, hindex, hbefore db hmay, hafter db]
  omega

/-- Listing a free name adds it. -/
theorem nameBalance_list (name : Key) :
    (nameBalance uid).Changes t (.update [Keys.usernames] [([name], str uid.1)]) (one (some name.1)) := by
  intro db hmay
  have hfree : db.get [Keys.usernames, name] = none := hmay rfl _ (List.mem_singleton_self _)
  funext u
  simp only [nameBalance, Pi.add_apply, storedUsername_apply_of_root (w := .update [Keys.usernames] _) db
    rfl (by decide : Keys.usernames ≠ Keys.users)]
  by_cases hu : u = name
  · subst hu
    have hlisted : ((Write.update [Keys.usernames] [([u], str uid.1)]).apply db).get [Keys.usernames, u] =
        some (.string uid.1) := get_update_leaf [Keys.usernames] [u] _ _
    simp only [hlisted, hfree, one, if_true, reduceCtorEq, if_false]
    omega
  · have hname : (some name.1 : Option String) ≠ some u.1 := fun h => hu (Subtype.ext (Option.some.inj h)).symm
    simp only [ChangesName.get_update_usernames hu, one, if_neg hname, add_zero]

/-- Removing an entry of the account takes it off. -/
theorem nameBalance_unlist (ht : t.account = some uid) (name : Key) :
    (nameBalance uid).Changes t (.remove [Keys.usernames, name]) (-one (some name.1)) := by
  intro db hmay
  have hown : db.get [Keys.usernames, name] = some (.string uid.1) := by
    simpa [ht] using hmay.1 rfl
  funext u
  simp only [nameBalance, Pi.add_apply, Pi.neg_apply, storedUsername_apply_of_root
    (w := .remove [Keys.usernames, name]) db rfl (by decide : Keys.usernames ≠ Keys.users)]
  by_cases hu : u = name
  · subst hu
    have hgone : ((Write.remove [Keys.usernames, u]).apply db).get [Keys.usernames, u] = none := by
      rw [Write.apply, Store.get_remove, if_pos (List.prefix_refl _)]
    simp only [hgone, hown, one, if_true, reduceCtorEq, if_false]
    omega
  · have hname : (some name.1 : Option String) ≠ some u.1 := fun h => hu (Subtype.ext (Option.some.inj h)).symm
    simp only [ChangesName.get_remove_usernames hu, one, if_neg hname, neg_zero, add_zero]

/-- Listing a free name for another account leaves the quantity alone. -/
theorem nameBalance_list_other {x name : Key} (hx : x ≠ uid) :
    (nameBalance uid).steady.Permits t (.update [Keys.usernames] [([name], str x.1)]) := by
  intro db _ hmay
  have hfree : db.get [Keys.usernames, name] = none := hmay rfl _ (List.mem_singleton_self _)
  refine nameBalance_congr (storedUsername_apply_of_root (w := .update [Keys.usernames] _) db rfl
    (by decide) uid) fun u => ?_
  by_cases hu : u = name
  · subst hu
    have hlisted : ((Write.update [Keys.usernames] [([u], str x.1)]).apply db).get [Keys.usernames, u] =
        some (.string x.1) := get_update_leaf [Keys.usernames] [u] _ _
    have hne : x.1 ≠ uid.1 := fun h => hx (Subtype.ext h)
    simp [hlisted, hfree, hne]
  · rw [ChangesName.get_update_usernames hu]

/-- Removing an entry of another account leaves the quantity alone. -/
theorem nameBalance_unlist_other {x name : Key} (ht : t.account = some x) (hx : x ≠ uid) :
    (nameBalance uid).steady.Permits t (.remove [Keys.usernames, name]) := by
  intro db _ hmay
  have hown : db.get [Keys.usernames, name] = some (.string x.1) := by
    simpa [ht] using hmay.1 rfl
  refine nameBalance_congr (storedUsername_apply_of_root (w := .remove [Keys.usernames, name]) db rfl
    (by decide) uid) fun u => ?_
  by_cases hu : u = name
  · subst hu
    have hgone : ((Write.remove [Keys.usernames, u]).apply db).get [Keys.usernames, u] = none := by
      rw [Write.apply, Store.get_remove, if_pos (List.prefix_refl _)]
    have hne : x.1 ≠ uid.1 := fun h => hx (Subtype.ext h)
    simp [hgone, hown, hne]
  · rw [ChangesName.get_remove_usernames hu]

/-- A write to the record of another account leaves the quantity alone. -/
theorem nameBalance_record_other {x : Key} (hx : x ≠ uid) {w : Write Value}
    (hw : w.location = [Keys.users, x]) : (nameBalance uid).steady.Permits t w := by
  intro db _ _
  apply nameBalance_congr (storedUsername_apply_of_ne db hw hx)
  exact fun u => by rw [get_apply_of_apart (hw ▸ apart_of_ne (by decide) _ _)]

end

/-! ### What the calls add -/

/-- No name counts as none. -/
theorem one_none : one none = 0 := by
  funext u
  simp [one]

/-- In total a change of an account's name adds nothing. -/
theorem nameBalance_adds {uid : Key} {t : AppCall} (ht : t.account = some uid) (hlegal : LegalNames t) :
    (nameBalance uid).Adds t t.code 0 := by
  obtain ⟨hgives, htakes⟩ := hlegal
  match t with
  | .group (.registerUser x providerID email username) =>
    obtain rfl := Option.some.inj ht
    obtain ⟨name, rfl⟩ : ∃ name : Key, name.1 = username := ⟨⟨username, htakes _ rfl⟩, rfl⟩
    simp only [AppCall.code, GroupCall.code, registerUser_eq]
    refine ⟨one none - one (some name.1), one (some name.1), (by rw [one_none]; simp), ?_, ?_⟩
    · apply nameBalance_record rfl
      · exact fun db hmay => hmay rfl ⟨_, List.mem_of_getElem? (i := 2) rfl, rfl⟩
      · exact storedUsername_register x providerID email name.1
    · refine ⟨one (some name.1), 0, (add_zero _).symm, nameBalance_list name, ?_⟩
      exact Balance.adds_of_holds ⟨nameBalance_permits (leavesNames_update_field (by decide) _), trivial⟩
  | .group (.changeUsername x profileName newUsername) =>
    obtain rfl := Option.some.inj ht
    obtain ⟨old, rfl⟩ : ∃ old : Key, old.1 = profileName := ⟨⟨profileName, hgives _ rfl⟩, rfl⟩
    obtain ⟨new, rfl⟩ : ∃ new : Key, new.1 = newUsername := ⟨⟨newUsername, htakes _ rfl⟩, rfl⟩
    simp only [AppCall.code, GroupCall.code, changeUsernameAction_eq]
    refine ⟨one (some old.1) - one (some new.1), one (some new.1) + -one (some old.1), by abel, ?_, ?_⟩
    · apply nameBalance_record rfl
      · exact fun db hmay => hmay rfl ⟨_, List.mem_singleton_self _, rfl⟩
      · exact storedUsername_update x new.1
    · apply Balance.adds_write (nameBalance_list new)
      refine ⟨-one (some old.1), 0, (add_zero _).symm, nameBalance_unlist ht old, ?_⟩
      exact Balance.adds_of_holds (nameBalance_renameInGroups _ _ _)
  | .group (.deleteAccount x username) =>
    obtain rfl := Option.some.inj ht
    obtain ⟨name, rfl⟩ : ∃ name : Key, name.1 = username := ⟨⟨username, hgives _ rfl⟩, rfl⟩
    simp only [AppCall.code, GroupCall.code, confirmDeleteAction_eq]
    refine ⟨-one (some name.1), one (some name.1), by simp, nameBalance_unlist ht name, ?_⟩
    refine ⟨one (some name.1) - one none, 0, (by rw [one_none]; simp), ?_, ?_⟩
    · apply nameBalance_record rfl
      · exact fun db hmay => hmay.2 rfl
      · exact storedUsername_remove x
    · exact Balance.adds_of_holds (nameBalance_deleteFromGroups _)

/-- A call leaves the quantity of other accounts alone. -/
theorem nameBalance_holds {uid : Key} {t : AppCall} (ht : t.account ≠ some uid) (hlegal : LegalNames t) :
    (nameBalance uid).steady.Holds t t.code := by
  cases haccount : t.account with
  | none =>
    exact AppCall.holds_of_leavesNames haccount trivial fun w hw => nameBalance_permits hw
  | some x =>
    have hx : x ≠ uid := fun hsame => ht (hsame ▸ haccount)
    obtain ⟨hgives, htakes⟩ := hlegal
    match t with
    | .group (.registerUser y providerID email username) =>
      obtain rfl := Option.some.inj haccount
      obtain ⟨name, rfl⟩ : ∃ name : Key, name.1 = username := ⟨⟨username, htakes _ rfl⟩, rfl⟩
      simp only [AppCall.code, GroupCall.code, registerUser_eq]
      exact ⟨nameBalance_record_other hx rfl, nameBalance_list_other hx,
        nameBalance_record_other hx rfl, trivial⟩
    | .group (.changeUsername y profileName newUsername) =>
      obtain rfl := Option.some.inj haccount
      obtain ⟨old, rfl⟩ : ∃ old : Key, old.1 = profileName := ⟨⟨profileName, hgives _ rfl⟩, rfl⟩
      obtain ⟨new, rfl⟩ : ∃ new : Key, new.1 = newUsername := ⟨⟨newUsername, htakes _ rfl⟩, rfl⟩
      simp only [AppCall.code, GroupCall.code, changeUsernameAction_eq]
      exact ⟨nameBalance_record_other hx rfl, nameBalance_list_other hx,
        nameBalance_unlist_other haccount hx, nameBalance_renameInGroups _ _ _⟩
    | .group (.deleteAccount y username) =>
      obtain rfl := Option.some.inj haccount
      obtain ⟨name, rfl⟩ : ∃ name : Key, name.1 = username := ⟨⟨username, hgives _ rfl⟩, rfl⟩
      simp only [AppCall.code, GroupCall.code, confirmDeleteAction_eq]
      exact ⟨nameBalance_unlist_other haccount hx, nameBalance_record_other hx rfl,
        nameBalance_deleteFromGroups _⟩

/-! ### The index -/

/-- Along every schedule of all clients in which names are free where they are listed, entries are the
account's own where they are removed, and the stored name is the one that is given up, the index
agrees with the record of every account none of whose names is being changed, and no two such accounts
have one name. -/
theorem index_matches {start s : AppSys} {acts : List (Act AppCall)} (hpool : start.pool = [])
    (hstart : ∀ uid, IndexMatches start.db uid) (h : Sys.Run AppCall.code IndexStep start acts s) :
    (∀ uid, Idle s uid → IndexMatches s.db uid) ∧
      ∀ uid uid' (u : Key), Idle s uid → Idle s uid' → storedUsername s.db uid = some u.1 →
        storedUsername s.db uid' = some u.1 → uid = uid' := by
  have hmatches : ∀ uid, Idle s uid → IndexMatches s.db uid := by
    intro uid hidle
    rw [← nameBalance_eq_zero_iff]
    rw [Balance.run_balanced (fun t : AppCall => t.account = some uid) (fun s a ha => ha.meets)
      (fun s t hlegal ht => nameBalance_adds ht hlegal)
      (fun s t hlegal ht => nameBalance_holds ht hlegal) hpool h hidle]
    exact nameBalance_eq_zero_iff.mpr (hstart uid)
  refine ⟨hmatches, fun uid uid' u hidle hidle' hname hname' => ?_⟩
  have hlisted := (hmatches uid hidle u).mpr hname
  have hlisted' := (hmatches uid' hidle' u).mpr hname'
  rw [hlisted, Option.some.injEq, Value.string.injEq] at hlisted'
  exact Subtype.ext hlisted'

/-- Two registrations take turns, and one of the accounts is renamed before the other registration
is done. -/
def registerInTurn : List (Act AppCall) :=
  [Act.spawn (AppCall.group (.registerUser Sample.uidA "Firebase" "a@b.c" "alice")),
    .spawn (.group (.registerUser Sample.uidB "Firebase" "b@b.c" "bobby")),
    .run 0, .run 1, .run 0, .run 0, .run 0,
    .spawn (.group (.changeUsername Sample.uidA "alice" "carol")), .run 1, .run 0, .run 1, .run 1] ++
  List.replicate 15 (.run 0)

/-- Two registrations and a rename whose steps interleave. -/
theorem index_matches_inTurn : ∃ s : AppSys,
    (s.pool = [] ∧ storedUsername s.db Sample.uidA = some "carol") ∧
      (∀ uid, Idle s uid → IndexMatches s.db uid) ∧
      ∀ uid uid' (u : Key), Idle s uid → Idle s uid' → storedUsername s.db uid = some u.1 →
        storedUsername s.db uid' = some u.1 → uid = uid' := by
  have hend : (((⟨.empty, fun _ => "", []⟩ : AppSys).checkedRuns AppCall.code IndexStep
      registerInTurn).map fun s => (s.pool.isEmpty, storedUsername s.db Sample.uidA)) =
      some (true, some "carol") := by
    decide +kernel
  obtain ⟨s, hs, hlast⟩ := Option.map_eq_some_iff.mp hend
  obtain ⟨hpool, hname⟩ := Prod.mk.inj hlast
  refine ⟨s, ⟨List.isEmpty_iff.mp hpool, hname⟩,
    index_matches rfl (fun uid u => ?_) (Sys.run_of_checkedRuns hs)⟩
  have hnone : storedUsername (.empty : Store Value) uid = none := by
    rw [storedUsername, asString, value_snapshot, Store.get_empty]
  simp [hnone]

end GroceryListApp

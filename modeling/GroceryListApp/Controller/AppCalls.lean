import GroceryListApp.Accounts.NameIndex
import GroceryListApp.Accounts.OwnSubtrees
import GroceryListApp.Controller.EmailReload

/-!
# All calls that change the database

The screens of all clients together change the database through the calls for groups and accounts, the
calls for the lists of an account, and two settings. Only a registration, a change of username and a
deletion change which name an account has. Everything else a call writes lies below the groups, below
the lists of an account, or in another field of its record.
-/

namespace GroceryListApp

open Realtime

/-- A call that changes the database. -/
inductive AppCall where
  | group (call : GroupCall)
  | lists (call : AccountCall)
  | changeEmail (uid : Key) (email : String)
  | uploadNameName (uid : Key) (name : String)
  deriving DecidableEq

/-- The account whose name a call changes. -/
def GroupCall.account : GroupCall → Option Key
  | .registerUser uid _ _ _ | .changeUsername uid _ _ | .deleteAccount uid _ => some uid
  | _ => none

namespace AppCall

/-- The program of a call. -/
def code : AppCall → Prog (ℕ → String) Value
  | group call => call.code
  | lists call => call.code
  | changeEmail uid email => GroceryListApp.changeEmail uid email
  | uploadNameName uid name => GroceryListApp.uploadNameName uid name fun _ => .done

/-- The account whose name a call changes. -/
def account : AppCall → Option Key
  | group call => call.account
  | _ => none

/-- The name a call gives up for its account. -/
def gives : AppCall → Option String
  | group (.changeUsername _ profileName _) => some profileName
  | group (.deleteAccount _ username) => some username
  | _ => none

/-- The name a call takes for its account. -/
def takes : AppCall → Option String
  | group (.registerUser _ _ _ username) => some username
  | group (.changeUsername _ _ newUsername) => some newUsername
  | _ => none

end AppCall

/-- The names a call takes and gives up are legal keys. -/
def LegalNames (t : AppCall) : Prop :=
  (∀ name ∈ t.gives, LegalKey name) ∧ ∀ name ∈ t.takes, LegalKey name

instance (t : AppCall) : Decidable (LegalNames t) := inferInstanceAs (Decidable (_ ∧ _))

/-- The database and what is pending of all clients. -/
abbrev AppSys := Sys AppCall (ℕ → String) Value

/-- The upload of the name is one write. -/
theorem uploadNameName_eq {M : Type*} (uid : Key) (name : String) :
    (uploadNameName uid name fun _ => .done : Prog M Value) =
      .write (.update [Keys.users, uid] [([Keys.nameName], str name)]) .done := by
  simp [uploadNameName, REF_USERS, Ref.updateChildValues]

/-! ### Writes that leave the names -/

/-- A write leaves the names of all accounts and the index of names. -/
structure LeavesNames (w : Write Value) : Prop where
  stored : ∀ db uid, storedUsername (w.apply db) uid = storedUsername db uid
  index : ∀ db k, (w.apply db).get [Keys.usernames, k] = db.get [Keys.usernames, k]

/-- A write for a group leaves the names. -/
theorem leavesNames_groups {w : Write Value} (hw : [Keys.groups] <+: w.location) : LeavesNames w := by
  obtain ⟨rest, hrest⟩ := hw
  have hlocation : w.location = Keys.groups :: rest := hrest.symm
  constructor
  · exact fun db uid => storedUsername_apply_of_root db hlocation (by decide) uid
  · exact fun db k => get_apply_of_apart (hlocation ▸ apart_of_ne (by decide) _ _) db

/-- A write below another field of a record leaves the names. -/
theorem leavesNames_field {x field : Key} {w : Write Value} (hfield : field ≠ Keys.username)
    (hw : [Keys.users, x, field] <+: w.location) : LeavesNames w := by
  obtain ⟨rest, hrest⟩ := hw
  have hlocation : w.location = Keys.users :: x :: field :: rest := hrest.symm
  constructor
  · intro db uid
    have happart : Apart w.location [Keys.users, uid, Keys.username] := by
      rw [hlocation, apart_cons]
      by_cases hx : x = uid
      · rw [hx, apart_cons]
        exact apart_of_ne hfield _ _
      · exact apart_of_ne hx _ _
    simp only [storedUsername, asString, value_snapshot, get_apply_of_apart happart]
  · exact fun db k => get_apply_of_apart (hlocation ▸ apart_of_ne (by decide) _ _) db

/-- An update of another field of a record leaves the names. -/
theorem leavesNames_update_field {x field : Key} (hfield : field ≠ Keys.username) (value : Store Value) :
    LeavesNames (.update [Keys.users, x] [([field], value)]) := by
  have hput (db : Store Value) : (Write.update [Keys.users, x] [([field], value)]).apply db =
      (Write.update [Keys.users, x, field] [([], value)]).apply db := by
    simp [Write.apply]
  have hleaves : LeavesNames (.update [Keys.users, x, field] [([], value)]) :=
    leavesNames_field hfield (List.prefix_refl _)
  constructor
  · exact fun db uid => hput db ▸ hleaves.stored db uid
  · exact fun db k => hput db ▸ hleaves.index db k

/-! ### What the calls write -/

/-- The record that a registration stores has its name. -/
theorem storedUsername_register (uid : Key) (providerID email username : String) (db : Store Value) :
    storedUsername ((Write.update [Keys.users, uid] [([Keys.provider], str providerID),
      ([Keys.email], str email), ([Keys.username], str username)]).apply db) uid = some username := by
  have hpairwise : ([([Keys.provider], str providerID), ([Keys.email], str email),
      ([Keys.username], str username)] : List (Path × Store Value)).Pairwise
      fun a b => Apart a.1 b.1 := by
    simp +decide [List.pairwise_cons]
  rw [storedUsername_eq_some_iff]
  exact get_update_of_mem hpairwise (List.mem_of_getElem? (i := 2) rfl) [Keys.users, uid] [] db

/-- The stored name of a removed record is gone. -/
theorem storedUsername_remove (uid : Key) (db : Store Value) :
    storedUsername ((Write.remove [Keys.users, uid]).apply db) uid = none := by
  rw [storedUsername, asString, value_snapshot, Write.apply, Store.get_remove, if_pos (by simp)]

section

variable {T M : Type*} {c : Contract T Value} {t : T}

/-- What a change of username does to the groups: it removes members with the old name, adds members
with the new one, and edits what is not below the members. -/
theorem holds_renameInGroups (hcrash : c.crash) {profileName newUsername uid : String}
    (hedit : ∀ g p key value, (p ++ [key]).head? ≠ some Keys.members →
      c.Permits t (.update (Keys.groups :: g :: p) [([key], value)]))
    (hremove : ∀ g k, k.1 = profileName → c.Permits t (.remove [Keys.groups, g, Keys.members, k]))
    (hadd : ∀ g name, parsePath newUsername = some name →
      c.Permits t (.update [Keys.groups, g, Keys.members] [(name, str uid)])) :
    c.Holds t (.block [changeMaster profileName newUsername,
      changeUsersInGroup profileName newUsername uid, changeMarkedOffBy profileName newUsername,
      changeAddedBy profileName newUsername] : Prog M Value) := by
  apply Contract.holds_block
  intro p hp
  simp only [List.mem_cons, List.not_mem_nil, or_false] at hp
  rcases hp with rfl | rfl | rfl | rfl
  · exact holds_changeMaster (fun _ _ _ _ => Or.inr hcrash)
      fun _ g _ _ => hedit g [] _ _ (by decide)
  · exact holds_changeUsersInGroup (fun _ => hcrash) (fun _ g k _ _ hk => hremove g k hk)
      fun _ g _ name _ _ _ hname => hadd g name hname
  · exact holds_changeItemField Keys.markedOffBy (by simp) (fun _ _ _ _ _ => Or.inr hcrash)
      fun _ g k _ _ => hedit g [Keys.groceryList, k] _ _ (by simp +decide)
  · exact holds_changeItemField Keys.addedBy (by simp) (fun _ _ _ _ _ => Or.inr hcrash)
      fun _ g k _ _ => hedit g [Keys.groceryList, k] _ _ (by simp +decide)

/-- A call that changes no account's name keeps a contract that permits all writes to groups. -/
theorem GroupCall.holds_of_groups {call : GroupCall} (hcall : call.account = none) (hcrash : c.crash)
    (hgroups : ∀ w : Write Value, [Keys.groups] <+: w.location → c.Permits t w) :
    c.Holds t call.code := by
  cases hedited : call.editedGroup with
  | some g =>
    apply (GroupCall.within_code hedited).holds_of_permits hcrash
    exact fun w hw => hgroups w ((List.prefix_append [Keys.groups] [g]).trans hw)
  | none =>
    cases call <;> simp only [GroupCall.account, GroupCall.editedGroup, reduceCtorEq] at hcall hedited
    case createGroup autoId title description master usernames =>
      simp only [GroupCall.code]
      rw [createGroup_eq]
      apply Contract.holds_force fun _ => hcrash
      exact fun _ _ => ⟨hgroups _ ⟨[autoId], rfl⟩, trivial⟩
    case removeGroup g =>
      simp only [GroupCall.code]
      rw [removeGroup_eq]
      exact ⟨hgroups _ ⟨[g], rfl⟩, trivial⟩
    case removeUserFromGroup number g user =>
      exact holds_removeUserFromGroup (fun _ _ => Or.inr hcrash)
        (fun _ k _ _ _ => hgroups _ ⟨[g, Keys.members, k], rfl⟩)
        (hgroups _ ⟨[g], rfl⟩)

/-- A call for the lists of an account keeps a contract that permits every write below these lists that
stores something. -/
theorem AccountCall.holds_code (call : AccountCall) (hcrash : c.crash)
    (hlists : ∀ field (w : Write Value), field = Keys.groceryList ∨ field = Keys.lists →
      [Keys.users, call.account, field] <+: w.location → w.Stores → c.Permits t w) :
    c.Holds t (call.code : Prog M Value) := by
  have hfield (uid : Key) {name : String} {key : Key} (hname : parsePath name = some [key]) :
      ((REF_USERS.child uid).child name).Below [Keys.users, uid, key] := by
    intro q hq
    have : [Keys.users, uid, key] = q := by simpa [REF_USERS, Ref.child, hname] using hq
    exact this ▸ List.prefix_refl _
  have hown (uid : Key) :
      ((REF_USERS.child uid).child "grocery list").Below [Keys.users, uid, Keys.groceryList] :=
    hfield uid (by simp)
  have hlist (uid : Key) (name : String) :
      (((REF_USERS.child uid).child "lists").child name).Below [Keys.users, uid, Keys.lists] :=
    (hfield uid (by simp)).child name
  have hitems (uid : Key) (name : String) := (hlist uid name).child "items"
  have hgrocery (w : Write Value) := hlists Keys.groceryList w (Or.inl rfl)
  have hpersonal (w : Write Value) := hlists Keys.lists w (Or.inr rfl)
  have hcount {p : Path} {ref : Ref} (href : ref.Below p) (field : String) (delta : ℤ)
      (hp : ∀ w : Write Value, p <+: w.location → w.Stores → c.Permits t w) :
      c.Holds t (adjustCount ref field delta : Prog M Value) := by
    refine Ref.holds_observe hcrash fun snapshot => ?_
    refine Contract.holds_force (fun _ => hcrash) fun n _ => ?_
    refine Contract.holds_force (fun _ => hcrash) fun adjusted _ => ?_
    exact href.holds_update hcrash hp [] field _
  cases call with
  | uploadItem uid item description =>
    exact (((hown uid).child item).holds_update hcrash hgrocery [_] _ _).seq trivial
  | checkOffItem uid name =>
    exact ((hown uid).child name).holds_update hcrash hgrocery [] _ _
  | uncheckItem uid name =>
    exact ((hown uid).child name).holds_update hcrash hgrocery [] _ _
  | removeItem uid item =>
    exact ((hown uid).child item).holds_remove hcrash hgrocery
  | removeAllItems uid => exact (hown uid).holds_remove hcrash hgrocery
  | uploadPersonalList uid name description =>
    exact ((hlist uid name).holds_update hcrash hpersonal [_, _] _ _).seq trivial
  | createPersonalItem uid name item description =>
    exact (((hitems uid name).child item).holds_update hcrash hpersonal [_] _ _).seq trivial
  | checkOffPersonalItem uid name item =>
    exact ((hitems uid name).child item).holds_update hcrash hpersonal [] _ _
  | uncheckPersonalItem uid name item =>
    exact ((hitems uid name).child item).holds_update hcrash hpersonal [] _ _
  | removePersonalItem uid name item =>
    refine (((hitems uid name).child item).holds_remove hcrash hpersonal).seq ?_
    exact (hcount (hlist uid name) "listCount" (-1) hpersonal).seq trivial
  | removeUserList uid name =>
    exact (hlist uid name).holds_remove hcrash hpersonal
  | increasePersonalListCount uid name =>
    exact hcount (hlist uid name) "listCount" 1 hpersonal
  | decreasePersonalListCount uid name =>
    exact hcount (hlist uid name) "listCount" (-1) hpersonal
  | increasePersonalListCheckCount uid name =>
    exact hcount (hlist uid name) "listCheckCount" 1 hpersonal
  | decreasePersonalListCheckCount uid name =>
    exact hcount (hlist uid name) "listCheckCount" (-1) hpersonal

/-- A call that changes no account's name keeps a contract that permits all writes to groups, all
writes below the lists of its account, and those of its settings. -/
theorem AppCall.holds_of_account {call : AppCall} (hcall : call.account = none) (hcrash : c.crash)
    (hgroups : ∀ w : Write Value, [Keys.groups] <+: w.location → c.Permits t w)
    (hlists : ∀ uid field (w : Write Value), field = Keys.groceryList ∨ field = Keys.lists →
      [Keys.users, uid, field] <+: w.location → w.Stores → c.Permits t w)
    (hsettings : ∀ uid field text, field = Keys.email ∨ field = Keys.nameName →
      c.Permits t (.update [Keys.users, uid] [([field], str text)])) :
    c.Holds t call.code := by
  cases call with
  | group call => exact GroupCall.holds_of_groups hcall hcrash hgroups
  | lists call =>
    exact AccountCall.holds_code call hcrash fun field w hfield hw hstores =>
      hlists _ field w hfield hw hstores
  | changeEmail uid email =>
    simp only [AppCall.code]
    rw [changeEmail_eq]
    exact ⟨hsettings uid _ email (Or.inl rfl), trivial⟩
  | uploadNameName uid name =>
    simp only [AppCall.code]
    rw [uploadNameName_eq]
    exact ⟨hsettings uid _ name (Or.inr rfl), trivial⟩

/-- A call that changes no account's name issues only writes that leave all names. -/
theorem AppCall.holds_of_leavesNames {call : AppCall} (hcall : call.account = none) (hcrash : c.crash)
    (h : ∀ w, LeavesNames w → c.Permits t w) : c.Holds t call.code := by
  apply AppCall.holds_of_account hcall hcrash
  · exact fun w hw => h w (leavesNames_groups hw)
  · intro uid field w hfield hw _
    exact h w (leavesNames_field (by rcases hfield with rfl | rfl <;> decide) hw)
  · intro uid field text hfield
    exact h _ (leavesNames_update_field (by rcases hfield with rfl | rfl <;> decide) _)

end

end GroceryListApp

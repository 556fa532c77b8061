import GroceryListApp.Controller.GroupCalls
import GroceryListApp.Services.DataServiceRules

/-!
# The writes of each call

A call issues writes of a few shapes only. A contract that tolerates traps holds for a call
as soon as it permits these writes, so a property of the database that every write keeps has
to be checked once for each shape.
-/

namespace GroceryListApp

open Realtime

/-- Whether the call is a `createGroup`. -/
def GroupCall.createsGroup : GroupCall → Bool
  | .createGroup .. => true
  | _ => false

/-- The writes a call may issue, in whatever way its reads are answered. -/
inductive GroupCall.Writes : GroupCall → Write Value → Prop
  | account {t : GroupCall} {w : Write Value} {root : Key} {rest : Path}
      (hroot : root = Keys.users ∨ root = Keys.usernames) (hw : w.location = root :: rest) : Writes t w
  | createGroup {autoId : Key} {title description master : String}
      {usernames : List (String × String)} {members : Store Value}
      (hmembers : Store.dictionary (usernames.map fun entry => (entry.1, Value.string entry.2)) =
        some members) :
      Writes (.createGroup autoId title description master usernames) (.update [Keys.groups, autoId]
        [([Keys.master], str master), ([Keys.title], str title), ([Keys.description], str description),
          ([Keys.groupListCount], int 0), ([Keys.groupListCheckCount], int 0), ([Keys.members], members)])
  | count {t : GroupCall} (ht : t.createsGroup = false) (g : Key) {key : Key} {n : ℤ} (hfits : FitsInt n)
      (hkey : key = Keys.groupListCount ∨ key = Keys.groupListCheckCount) :
      Writes t (.update [Keys.groups, g] [([key], int n)])
  | master {uid : Key} {profileName newUsername : String} (g : Key) :
      Writes (.changeUsername uid profileName newUsername)
        (.update [Keys.groups, g] [([Keys.master], str newUsername)])
  | addMember {uid : Key} {profileName newUsername : String} (g : Key) {name : Path}
      (hname : parsePath newUsername = some name) :
      Writes (.changeUsername uid profileName newUsername)
        (.update [Keys.groups, g, Keys.members] [(name, str uid)])
  | removeMember {t : GroupCall} (g k : Key) : Writes t (.remove [Keys.groups, g, Keys.members, k])
  | renameItem {uid : Key} {profileName newUsername : String} (g k : Key) {key : Key}
      (hkey : key = Keys.addedBy ∨ key = Keys.markedOffBy) :
      Writes (.changeUsername uid profileName newUsername)
        (.update [Keys.groups, g, Keys.groceryList, k] [([key], str newUsername)])
  | addItem {g : Key} {item description currentUser : String} {name : Path}
      (hname : parsePath item = some name) :
      Writes (.addGroupItem g item description currentUser)
        (.update ([Keys.groups, g, Keys.groceryList] ++ name)
          [([Keys.description], str description), ([Keys.addedBy], str currentUser),
            ([Keys.markedOffBy], str "- -"), ([Keys.isSelected], bool false)])
  | checkItem {g : Key} {item username : String} {name : Path} (hname : parsePath item = some name) :
      Writes (.markeOffUser g item username) (.update ([Keys.groups, g, Keys.groceryList] ++ name)
        [([Keys.markedOffBy], str username), ([Keys.isSelected], bool true)])
  | uncheckItem {g : Key} {item : String} {name : Path} (hname : parsePath item = some name) :
      Writes (.uncheckUser g item) (.update ([Keys.groups, g, Keys.groceryList] ++ name)
        [([Keys.markedOffBy], str "- -"), ([Keys.isSelected], bool false)])
  | removeItem {g : Key} {item : String} {checkmarkIsHidden : Bool} {name : Path}
      (hname : parsePath item = some name) :
      Writes (.deleteItem g item checkmarkIsHidden)
        (.remove ([Keys.groups, g, Keys.groceryList] ++ name))
  | removeGroup {t : GroupCall} (g : Key) : Writes t (.remove [Keys.groups, g])

namespace GroupCall

variable {c : Contract GroupCall Value} {t : GroupCall}

/-- The counter functions of a group write one of its counters. -/
theorem holds_adjust (hcrash : c.crash) (h : ∀ w, t.Writes w → c.Permits t w)
    (ht : t.createsGroup = false) (g : Key) {field : String} (key : Key) (hfield : parsePath field = some [key])
    (hkey : key = Keys.groupListCount ∨ key = Keys.groupListCheckCount) (delta : ℤ) :
    c.Holds t (adjustCount (REF_GROUPS.child g.1) field delta : Prog (ℕ → String) Value) := by
  have href : REF_GROUPS.child g.1 = some [Keys.groups, g] := by simp [REF_GROUPS]
  rw [href]
  apply holds_adjustCount hfield
  · exact fun _ _ => Or.inr hcrash
  · exact fun _ n _ _ hfits => h _ (.count ht g hfits hkey)

/-- The counter of the items of a group is adjusted with permitted writes. -/
theorem holds_listCount (hcrash : c.crash) (h : ∀ w, t.Writes w → c.Permits t w)
    (ht : t.createsGroup = false) (g : Key) (delta : ℤ) :
    c.Holds t (adjustCount (REF_GROUPS.child g.1) "list count" delta : Prog (ℕ → String) Value) :=
  holds_adjust hcrash h ht g Keys.groupListCount (by simp) (Or.inl rfl) delta

/-- So is the counter of the checked items. -/
theorem holds_listCheckCount (hcrash : c.crash) (h : ∀ w, t.Writes w → c.Permits t w)
    (ht : t.createsGroup = false) (g : Key) (delta : ℤ) :
    c.Holds t
      (adjustCount (REF_GROUPS.child g.1) "list check count" delta : Prog (ℕ → String) Value) :=
  holds_adjust hcrash h ht g Keys.groupListCheckCount (by simp) (Or.inr rfl) delta

/-- Listing a name in the index is one permitted write. -/
theorem holds_addUsername (hcrash : c.crash) (h : ∀ w, t.Writes w → c.Permits t w)
    (uid username : String) : c.Holds t (addUsername uid username : Prog (ℕ → String) Value) := by
  rw [addUsername_eq]
  apply Contract.holds_force fun _ => hcrash
  exact fun name _ => ⟨h _ (.account (Or.inr rfl) rfl), trivial⟩

/-- Removing a name from the index is one permitted write. -/
theorem holds_deleteFromUsernames (hcrash : c.crash) (h : ∀ w, t.Writes w → c.Permits t w)
    (username : String) : c.Holds t (deleteFromUsernames username : Prog (ℕ → String) Value) := by
  rw [deleteFromUsernames_eq]
  apply Contract.holds_force fun _ => hcrash
  exact fun name _ => ⟨h _ (.account (Or.inr rfl) rfl), trivial⟩

/-- A contract that tolerates traps holds for every call whose writes it permits. -/
theorem holds_code (hcrash : c.crash) (h : ∀ w, t.Writes w → c.Permits t w) : c.Holds t t.code := by
  have hcount := holds_listCount hcrash h
  have hcheck := holds_listCheckCount hcrash h
  cases t with
  | registerUser uid providerID email username =>
    apply Contract.holds_block
    intro p hp
    simp only [List.mem_cons, List.not_mem_nil, or_false] at hp
    rcases hp with rfl | rfl | rfl
    · rw [createDBUser_eq]
      exact ⟨h _ (.account (Or.inl rfl) rfl), trivial⟩
    · exact holds_addUsername hcrash h uid.1 username
    · rw [addNameName_eq]
      exact ⟨h _ (.account (Or.inl rfl) rfl), trivial⟩
  | changeUsername uid profileName newUsername =>
    apply Contract.holds_block
    intro p hp
    simp only [List.mem_cons, List.not_mem_nil, or_false] at hp
    rcases hp with rfl | rfl | rfl | rfl | rfl | rfl | rfl
    · rw [changeUsername_eq]
      exact ⟨h _ (.account (Or.inl rfl) rfl), trivial⟩
    · exact holds_addUsername hcrash h uid.1 newUsername
    · exact holds_deleteFromUsernames hcrash h profileName
    · exact holds_changeMaster (fun _ _ _ _ => Or.inr hcrash) fun _ g _ _ => h _ (.master g)
    · exact holds_changeUsersInGroup (fun _ => hcrash) (fun _ g k _ _ _ => h _ (.removeMember g k))
        fun _ g _ _ _ _ _ hname => h _ (.addMember g hname)
    · exact holds_changeItemField Keys.markedOffBy (by simp)
        (fun _ _ _ _ _ => Or.inr hcrash) fun _ g k _ _ => h _ (.renameItem g k (Or.inr rfl))
    · exact holds_changeItemField Keys.addedBy (by simp)
        (fun _ _ _ _ _ => Or.inr hcrash) fun _ g k _ _ => h _ (.renameItem g k (Or.inl rfl))
  | deleteAccount uid username =>
    apply Contract.holds_block
    intro p hp
    simp only [List.mem_cons, List.not_mem_nil, or_false] at hp
    rcases hp with rfl | rfl | rfl
    · exact holds_deleteFromUsernames hcrash h username
    · rw [deleteUserFromDatabase_eq]
      exact ⟨h _ (.account (Or.inl rfl) rfl), trivial⟩
    · exact holds_deleteFromGroups fun _ g k _ _ _ => h _ (.removeMember g k)
  | createGroup autoId title description master usernames =>
    simp only [code]
    rw [createGroup_eq]
    apply Contract.holds_force fun _ => hcrash
    exact fun members hmembers => ⟨h _ (.createGroup hmembers), trivial⟩
  | addGroupItem g item description currentUser =>
    simp only [code, GroceryListApp.addGroupItem]
    rw [createGroupItem_eq]
    apply Contract.holds_force fun _ => hcrash
    exact fun name hname => ⟨h _ (.addItem hname), hcount rfl g 1⟩
  | markeOffUser g item username =>
    simp only [code]
    rw [markeOffUser_eq]
    apply Contract.holds_force fun _ => hcrash
    exact fun name hname => ⟨h _ (.checkItem hname), hcheck rfl g 1⟩
  | uncheckUser g item =>
    simp only [code]
    rw [uncheckUser_eq]
    apply Contract.holds_force fun _ => hcrash
    exact fun name hname => ⟨h _ (.uncheckItem hname), hcheck rfl g (-1)⟩
  | deleteItem g item checkmarkIsHidden =>
    apply Contract.holds_block
    intro p hp
    simp only [List.mem_cons, List.not_mem_nil, or_false] at hp
    rcases hp with rfl | rfl
    · split
      · exact hcheck rfl g (-1)
      · trivial
    · rw [removeGroupItem_eq]
      apply Contract.holds_force fun _ => hcrash
      exact fun name hname => ⟨h _ (.removeItem hname), hcount rfl g (-1)⟩
  | increaseListCount g => exact hcount rfl g 1
  | decreaseListCount g => exact hcount rfl g (-1)
  | increaseListCheckCount g => exact hcheck rfl g 1
  | decreaseListCheckCount g => exact hcheck rfl g (-1)
  | removeGroup g =>
    simp only [code]
    rw [removeGroup_eq]
    exact ⟨h _ (.removeGroup g), trivial⟩
  | removeUserFromGroup number g user =>
    exact holds_removeUserFromGroup (fun _ _ => Or.inr hcrash)
      (fun _ k _ _ _ => h _ (.removeMember g k)) (h _ (.removeGroup g))

end GroupCall

end GroceryListApp

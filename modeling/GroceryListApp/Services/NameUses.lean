import GroceryListApp.Controller.NameChecks
import GroceryListApp.Services.DataServiceRules

/-!
# Where an accepted name leads

Every function of the service that is given a name appends it to a location. Firebase takes
what is appended for a path: a name that contains a slash leads deeper, a name of slashes
only leads to the parent itself, and a reserved character raises an exception. The screens
forbid the dot in items and titles, and nothing of the kind in usernames.
-/

namespace GroceryListApp

open Realtime

/-- A dictionary of one entry is a tree exactly when its key is legal. -/
theorem dictionary_singleton (name : String) (v : Value) :
    Store.dictionary [(name, v)] = if h : LegalKey name then
      some ⟨[([⟨name, h⟩], v)], List.pairwise_singleton _ _⟩ else none := by
  by_cases h : LegalKey name
  · have hlegal : ∀ entry ∈ [(name, v)], LegalKey entry.1 := by simpa using h
    rw [Store.dictionary, dif_pos (by simp), dif_pos hlegal, dif_pos h]
    rfl
  · simp [Store.dictionary, h]

/-- The uses of a name, with the other arguments of the call. -/
inductive NameUse : NameKind → Type
  | addUsername (uid : String) : NameUse .username
  | deleteFromUsernames : NameUse .username
  | addMember (group : Key) (uid : String) : NameUse .username
  | removeMember (group : Key) : NameUse .username
  | createGroup (autoId : Key) (title description master uid : String) : NameUse .username
  | uploadItem (uid : Key) (description : String) : NameUse .item
  | checkOffItem (uid : Key) : NameUse .item
  | uncheckItem (uid : Key) : NameUse .item
  | removeItem (uid : Key) : NameUse .item
  | createPersonalItem (uid listName : Key) (description : String) : NameUse .item
  | checkOffPersonalItem (uid listName : Key) : NameUse .item
  | uncheckPersonalItem (uid listName : Key) : NameUse .item
  | removePersonalItem (uid listName : Key) : NameUse .item
  | createGroupItem (group : Key) (description addedBy : String) : NameUse .item
  | markeOffUser (group : Key) (username : String) : NameUse .item
  | uncheckUser (group : Key) : NameUse .item
  | removeGroupItem (group : Key) : NameUse .item
  | uploadPersonalList (uid : Key) (description : String) : NameUse .title
  | removeUserList (uid : Key) : NameUse .title
  | adjustListCount (uid : Key) (delta : ℤ) : NameUse .title
  | adjustListCheckCount (uid : Key) (delta : ℤ) : NameUse .title
  | listItems (uid : Key) (handler : List String → Prog Unit Value) : NameUse .title
  | getAllPersonalListItems (uid : Key) (handler : List PersonalGroceryList → Prog Unit Value) :
      NameUse .title
  | createItemOnList (uid item : Key) (description : String) : NameUse .title
  | checkOffItemOnList (uid item : Key) : NameUse .title
  | uncheckItemOnList (uid item : Key) : NameUse .title
  | removeItemOnList (uid item : Key) : NameUse .title

namespace NameUse

/-- What the service runs. The two uses of a member's name are statements of
`changeUsersInGroup`, the first of them also of `removeUserFromGroup`. -/
def program (name : String) : {kind : NameKind} → NameUse kind → Prog Unit Value
  | _, .addUsername uid => GroceryListApp.addUsername uid name
  | _, .deleteFromUsernames => GroceryListApp.deleteFromUsernames name
  | _, .addMember group uid =>
      ((REF_GROUPS.child group).child "members").updateChildValues [(name, str uid)]
  | _, .removeMember group => (((REF_GROUPS.child group).child "members").child name).removeValue
  | _, .createGroup autoId title description master uid =>
      GroceryListApp.createGroup autoId title description master [(name, uid)] fun _ => .done
  | _, .uploadItem uid description => GroceryListApp.uploadItem name description uid fun _ => .done
  | _, .checkOffItem uid => GroceryListApp.checkOffItem uid name
  | _, .uncheckItem uid => GroceryListApp.uncheckItem uid name
  | _, .removeItem uid => GroceryListApp.removeItem uid name
  | _, .createPersonalItem uid listName description =>
      GroceryListApp.createPersonalItem uid listName name description fun _ => .done
  | _, .checkOffPersonalItem uid listName => GroceryListApp.checkOffPersonalItem uid listName name
  | _, .uncheckPersonalItem uid listName => GroceryListApp.uncheckPersonalItem uid listName name
  | _, .removePersonalItem uid listName => GroceryListApp.removePersonalItem uid listName name
  | _, .createGroupItem group description addedBy =>
      GroceryListApp.createGroupItem group name description addedBy fun _ => .done
  | _, .markeOffUser group username => GroceryListApp.markeOffUser group name username
  | _, .uncheckUser group => GroceryListApp.uncheckUser group name
  | _, .removeGroupItem group => GroceryListApp.removeGroupItem group name
  | _, .uploadPersonalList uid description =>
      GroceryListApp.uploadPersonalList name description uid fun _ => .done
  | _, .removeUserList uid => GroceryListApp.removeUserList uid name
  | _, .adjustListCount uid delta =>
      adjustCount (((REF_USERS.child uid).child "lists").child name) "listCount" delta
  | _, .adjustListCheckCount uid delta =>
      adjustCount (((REF_USERS.child uid).child "lists").child name) "listCheckCount" delta
  | _, .listItems uid handler => GroceryListApp.listItems uid name handler
  | _, .getAllPersonalListItems uid handler => GroceryListApp.getAllPersonalListItems uid name handler
  | _, .createItemOnList uid item description =>
      GroceryListApp.createPersonalItem uid name item description fun _ => .done
  | _, .checkOffItemOnList uid item => GroceryListApp.checkOffPersonalItem uid name item
  | _, .uncheckItemOnList uid item => GroceryListApp.uncheckPersonalItem uid name item
  | _, .removeItemOnList uid item => GroceryListApp.removePersonalItem uid name item

/-- The node whose child the name is meant to be. -/
def parent : {kind : NameKind} → NameUse kind → Path
  | _, .addUsername _ => [Keys.usernames]
  | _, .deleteFromUsernames => [Keys.usernames]
  | _, .addMember group _ => [Keys.groups, group, Keys.members]
  | _, .removeMember group => [Keys.groups, group, Keys.members]
  | _, .createGroup autoId _ _ _ _ => [Keys.groups, autoId, Keys.members]
  | _, .uploadItem uid _ => [Keys.users, uid, Keys.groceryList]
  | _, .checkOffItem uid => [Keys.users, uid, Keys.groceryList]
  | _, .uncheckItem uid => [Keys.users, uid, Keys.groceryList]
  | _, .removeItem uid => [Keys.users, uid, Keys.groceryList]
  | _, .createPersonalItem uid listName _ => [Keys.users, uid, Keys.lists, listName, Keys.items]
  | _, .checkOffPersonalItem uid listName => [Keys.users, uid, Keys.lists, listName, Keys.items]
  | _, .uncheckPersonalItem uid listName => [Keys.users, uid, Keys.lists, listName, Keys.items]
  | _, .removePersonalItem uid listName => [Keys.users, uid, Keys.lists, listName, Keys.items]
  | _, .createGroupItem group _ _ => [Keys.groups, group, Keys.groceryList]
  | _, .markeOffUser group _ => [Keys.groups, group, Keys.groceryList]
  | _, .uncheckUser group => [Keys.groups, group, Keys.groceryList]
  | _, .removeGroupItem group => [Keys.groups, group, Keys.groceryList]
  | _, .uploadPersonalList uid _ => [Keys.users, uid, Keys.lists]
  | _, .removeUserList uid => [Keys.users, uid, Keys.lists]
  | _, .adjustListCount uid _ => [Keys.users, uid, Keys.lists]
  | _, .adjustListCheckCount uid _ => [Keys.users, uid, Keys.lists]
  | _, .listItems uid _ => [Keys.users, uid, Keys.lists]
  | _, .getAllPersonalListItems uid _ => [Keys.users, uid, Keys.lists]
  | _, .createItemOnList uid _ _ => [Keys.users, uid, Keys.lists]
  | _, .checkOffItemOnList uid _ => [Keys.users, uid, Keys.lists]
  | _, .uncheckItemOnList uid _ => [Keys.users, uid, Keys.lists]
  | _, .removeItemOnList uid _ => [Keys.users, uid, Keys.lists]

/-- What the name contributes to the location; `none` is an exception. A key of a dictionary
that is written as a value may not contain a slash at all. -/
def suffix (name : String) : {kind : NameKind} → NameUse kind → Option Path
  | _, .createGroup .. => if h : LegalKey name then some [⟨name, h⟩] else none
  | _, _ => parsePath name

/-- What is read, written or removed, given what the name contributes to the location. -/
def access : {kind : NameKind} → NameUse kind → Path → Prog Unit Value
  | _, u@(.addUsername uid), q => .write (.update u.parent [(q, str uid)]) .done
  | _, u@.deleteFromUsernames, q => .write (.remove (u.parent ++ q)) .done
  | _, u@(.addMember _ uid), q => .write (.update u.parent [(q, str uid)]) .done
  | _, u@(.removeMember _), q => .write (.remove (u.parent ++ q)) .done
  | _, .createGroup autoId title description master uid, q =>
      .write (.update [Keys.groups, autoId] [([Keys.master], str master), ([Keys.title], str title),
        ([Keys.description], str description), ([Keys.groupListCount], int 0),
        ([Keys.groupListCheckCount], int 0),
        ([Keys.members], ⟨[(q, .string uid)], List.pairwise_singleton _ _⟩)]) .done
  | _, u@(.uploadItem _ description), q =>
      .write (.update (u.parent ++ q)
        [([Keys.description], str description), ([Keys.isSelected], bool false)]) .done
  | _, u@(.checkOffItem _), q =>
      .write (.update (u.parent ++ q) [([Keys.isSelected], bool true)]) .done
  | _, u@(.uncheckItem _), q =>
      .write (.update (u.parent ++ q) [([Keys.isSelected], bool false)]) .done
  | _, u@(.removeItem _), q => .write (.remove (u.parent ++ q)) .done
  | _, u@(.createPersonalItem _ _ description), q =>
      .write (.update (u.parent ++ q)
        [([Keys.description], str description), ([Keys.isSelected], bool false)]) .done
  | _, u@(.checkOffPersonalItem _ _), q =>
      .write (.update (u.parent ++ q) [([Keys.isSelected], bool true)]) .done
  | _, u@(.uncheckPersonalItem _ _), q =>
      .write (.update (u.parent ++ q) [([Keys.isSelected], bool false)]) .done
  | _, u@(.removePersonalItem uid listName), q =>
      .write (.remove (u.parent ++ q)) (decreasePersonalListCount uid listName)
  | _, u@(.createGroupItem _ description addedBy), q =>
      .write (.update (u.parent ++ q)
        [([Keys.description], str description), ([Keys.addedBy], str addedBy),
          ([Keys.markedOffBy], str "- -"), ([Keys.isSelected], bool false)]) .done
  | _, u@(.markeOffUser group username), q =>
      .write (.update (u.parent ++ q)
        [([Keys.markedOffBy], str username), ([Keys.isSelected], bool true)])
        (increaseListCheckCount group)
  | _, u@(.uncheckUser group), q =>
      .write (.update (u.parent ++ q)
        [([Keys.markedOffBy], str "- -"), ([Keys.isSelected], bool false)])
        (decreaseListCheckCount group)
  | _, u@(.removeGroupItem group), q =>
      .write (.remove (u.parent ++ q)) (decreaseListCount group)
  | _, u@(.uploadPersonalList _ description), q =>
      .write (.update (u.parent ++ q) [([Keys.description], str description),
        ([Keys.listCount], int 0), ([Keys.listCheckCount], int 0)]) .done
  | _, u@(.removeUserList _), q => .write (.remove (u.parent ++ q)) .done
  | _, u@(.adjustListCount _ delta), q => adjustCount (some (u.parent ++ q)) "listCount" delta
  | _, u@(.adjustListCheckCount _ delta), q =>
      adjustCount (some (u.parent ++ q)) "listCheckCount" delta
  | _, u@(.listItems _ handler), q =>
      .observe (u.parent ++ q ++ [Keys.items]) (fun snapshot => handler (childKeys snapshot)) .done
  | _, u@(.getAllPersonalListItems _ handler), q =>
      .observe (u.parent ++ q ++ [Keys.items]) (fun snapshot =>
        .force (snapshot.children.mapM fun item => do
          let description ← asString (item.childSnapshot "description")
          let selected ← asBool (item.childSnapshot "isSelected")
          some ⟨item.key, description, selected⟩) handler) .done
  | _, u@(.createItemOnList _ item description), q =>
      .write (.update (u.parent ++ q ++ [Keys.items, item])
        [([Keys.description], str description), ([Keys.isSelected], bool false)]) .done
  | _, u@(.checkOffItemOnList _ item), q =>
      .write (.update (u.parent ++ q ++ [Keys.items, item]) [([Keys.isSelected], bool true)]) .done
  | _, u@(.uncheckItemOnList _ item), q =>
      .write (.update (u.parent ++ q ++ [Keys.items, item]) [([Keys.isSelected], bool false)]) .done
  | _, u@(.removeItemOnList _ item), q =>
      .write (.remove (u.parent ++ q ++ [Keys.items, item]))
        (adjustCount (some (u.parent ++ q)) "listCount" (-1))

/-- Every use goes where the parent and the name together lead. -/
theorem program_eq (name : String) {kind : NameKind} (u : NameUse kind) :
    u.program name = .force (u.suffix name) u.access := by
  cases u
  case createGroup autoId title description master uid =>
    rw [program, createGroup_eq]
    by_cases h : LegalKey name <;> simp [suffix, access, dictionary_singleton, h]
  all_goals
    cases h : parsePath name <;>
      simp [program, suffix, access, parent, h, GroceryListApp.addUsername, GroceryListApp.deleteFromUsernames,
        GroceryListApp.uploadItem, GroceryListApp.checkOffItem, GroceryListApp.uncheckItem,
        GroceryListApp.removeItem, GroceryListApp.createPersonalItem,
        GroceryListApp.checkOffPersonalItem, GroceryListApp.uncheckPersonalItem,
        GroceryListApp.removePersonalItem, GroceryListApp.createGroupItem,
        GroceryListApp.markeOffUser, GroceryListApp.uncheckUser, GroceryListApp.removeGroupItem,
        GroceryListApp.uploadPersonalList, GroceryListApp.removeUserList, GroceryListApp.listItems,
        GroceryListApp.getAllPersonalListItems, decreasePersonalListCount, adjustCount,
        REF_USERS, REF_GROUPS, REF_USERNAMES,
        Ref.child, Ref.updateChildValues, Ref.removeValue, Ref.observeSingleEvent]

/-- What a name contributes to a location is the name itself exactly when it is a legal key. -/
theorem suffix_eq_iff (name : String) {kind : NameKind} (u : NameUse kind) :
    (∃ key : Key, key.1 = name ∧ u.suffix name = some [key]) ↔ LegalKey name := by
  constructor
  · rintro ⟨key, rfl, -⟩
    exact key.2
  · intro h
    refine ⟨⟨name, h⟩, rfl, ?_⟩
    cases u
    case createGroup => simp [suffix, h]
    all_goals exact parsePath_key ⟨name, h⟩

end NameUse

/-- An accepted name denotes the one child of that name, in every use of it, exactly when it
contains neither a slash nor a reserved character; and two such names denote nodes apart. -/
theorem accepted_denotes (count : String → ℕ) {name : String} {kind : NameKind}
    (hname : Accepted count name kind) (u : NameUse kind) :
    u.program name = .force (u.suffix name) u.access ∧
    ((∃ key : Key, key.1 = name ∧ u.suffix name = some [key]) ↔
      ∀ c ∈ name.toList, c ≠ '/' ∧ c ∉ reservedChars) ∧
    ∀ {other : String} {kind' : NameKind} (u' : NameUse kind') (p q : Path),
      (∀ c ∈ name.toList, c ≠ '/' ∧ c ∉ reservedChars) → Accepted count other kind' →
      (∀ c ∈ other.toList, c ≠ '/' ∧ c ∉ reservedChars) → other ≠ name → u'.parent = u.parent →
      u.suffix name = some p → u'.suffix other = some q → Apart (u.parent ++ p) (u'.parent ++ q) := by
  refine ⟨u.program_eq name, ?_, ?_⟩
  · rw [u.suffix_eq_iff name]
    exact and_iff_right hname.ne_empty
  · intro other kind' u' p q hclean hother hclean' hne hparent hp hq
    obtain ⟨key, rfl, hkey⟩ := (u.suffix_eq_iff name).mpr ⟨hname.ne_empty, hclean⟩
    obtain ⟨key', rfl, hkey'⟩ := (u'.suffix_eq_iff other).mpr ⟨hother.ne_empty, hclean'⟩
    rw [hp, Option.some.injEq] at hkey
    rw [hq, Option.some.injEq] at hkey'
    subst hkey hkey'
    rw [hparent, apart_append_left]
    apply apart_of_ne
    intro hsame
    exact hne (congrArg Subtype.val hsame.symm)

/-- Two accepted item names denote locations apart. -/
theorem accepted_denotes_milk :
    (∃ key : Key, key.1 = "milk" ∧
      (NameUse.uncheckUser Sample.home).suffix "milk" = some [key]) ∧
    Apart [Keys.groups, Sample.home, Keys.groceryList, Sample.milk]
      [Keys.groups, Sample.home, Keys.groceryList, Sample.eggs] := by
  have hmilk : Accepted String.length "milk" .item := ⟨[], Or.inl rfl⟩
  have heggs : Accepted String.length "eggs" .item := ⟨["milk"], Or.inl (by decide)⟩
  have hlmilk : LegalKey "milk" := by decide
  have hleggs : LegalKey "eggs" := by decide
  have hpmilk : parsePath "milk" = some [Sample.milk] := parsePath_key Sample.milk
  have hpeggs : parsePath "eggs" = some [Sample.eggs] := parsePath_key Sample.eggs
  let removal : NameUse .item := .removeGroupItem Sample.home
  obtain ⟨-, hiff, hapart⟩ := accepted_denotes String.length hmilk (.uncheckUser Sample.home)
  exact ⟨hiff.mpr hlmilk.2, hapart removal _ _ hlmilk.2 heggs hleggs.2 (by decide) rfl hpmilk hpeggs⟩

/-- A username of slashes is accepted, and freeing it removes the index of all usernames. -/
theorem not_accepted_denotes : ¬ ∀ (count : String → ℕ) (name : String) (kind : NameKind),
    Accepted count name kind → ∀ u : NameUse kind,
      ∃ key : Key, key.1 = name ∧ u.program name = .force (some [key]) u.access := by
  intro hclaim
  have haccepted : Accepted String.length "/////" .username :=
    Or.inl ⟨[], "a@b", "secret", "secret", by decide⟩
  obtain ⟨key, -, hprogram⟩ := hclaim _ _ _ haccepted .deleteFromUsernames
  have hpath : parsePath "/////" = some [] := by decide
  rw [NameUse.program_eq] at hprogram
  simp [NameUse.suffix, NameUse.access, hpath] at hprogram

end GroceryListApp

import GroceryListApp.Controller.GroupCalls
import GroceryListApp.Realtime.Device
import GroceryListApp.Realtime.Subtree
import GroceryListApp.Services.DataServiceRules
import GroceryListApp.Services.UsernameScans

/-!
# The screen on which a group is created

The user searches for other users, selects some of them and presses the checkmark. Every edit of the
search field leaves one more observer on the accounts, with a query and an array of its own, and all
observers fill the same table. The user's own name is read when the screen is loaded. Selecting a row,
the answers of the reads and the values of the observers come in any order.

What an observer is handed is the state of the accounts at the time when the value was raised.
-/

namespace GroceryListApp

open Realtime

/-- The observer that an edit of the search field leaves, with the variables that its callbacks share.
The name of the user is read once. -/
structure UserSearch where
  query : String
  currentUser : String
  userArrived : Bool
  usernameArray : List String

/-- The database, the variables and the texts of the screen, whether the read of the own name is pending,
the observers, the values that were raised for them, and the names that pending presses were made with. -/
structure CreateGroups where
  db : Store Value
  usernameArray : List String
  chosenUserArray : List String
  currentUser : String
  checkmarkIsHidden : Bool
  groupText : String
  descriptionText : String
  searchText : String
  usernamePending : Bool
  searches : List UserSearch
  values : List (ℕ × Snapshot Value)
  presses : List (List String)

/-- What happens to the screen. A press names the key that is drawn for its group when it is answered. -/
inductive CreateGroupsEvent where
  | viewWillAppear
  | usernameArrives
  | groupTextDidChange (text : String)
  | descriptionDidChange (text : String)
  | textFieldDidChange (text : String)
  | searchUserArrives (search : ℕ)
  | valueArrives (index : ℕ)
  | didSelectRowAt (row : ℕ)
  | checkmarkBtnWasPressed
  | idsArrive (index : ℕ) (autoId : Key)
  | change (w : Write Value)

/-- What a read does that is answered at once; `none` is a crash. -/
def answered (p : Prog Unit Value) (db : Store Value) : Option (Store Value) :=
  let d := Device.exec (p.answer db) (Device.idle db ())
  if d.crashed then none else some d.db

namespace CreateGroups

/-- The screen after it was loaded and has appeared. -/
def loaded (db : Store Value) : CreateGroups where
  db := db
  usernameArray := []
  chosenUserArray := []
  currentUser := ""
  checkmarkIsHidden := true
  groupText := ""
  descriptionText := ""
  searchText := ""
  usernamePending := true
  searches := []
  values := []
  presses := []

/-- `textFieldDidChange`, with `getUsernames`. A new observer is handed the accounts as they are. -/
def textFieldDidChange (s : CreateGroups) (text : String) : CreateGroups :=
  if text = "" then { s with searchText := text, usernameArray := [] }
  else { s with
    searchText := text
    searches := s.searches ++ [⟨text, "", false, []⟩]
    values := s.values ++ [(s.searches.length, s.db.snapshot [Keys.users])] }

/-- The user's own name is answered to an observer. -/
def searchUserArrives (uid : Key) (s : CreateGroups) (number : ℕ) : Option CreateGroups := do
  let search ← s.searches[number]?
  if search.userArrived then none
  let returnedUsername ← storedUsername s.db uid
  some { s with
    searches := s.searches.set number { search with currentUser := returnedUsername, userArrived := true } }

/-- A value arrives at its observer, which hands its array to the table. -/
def valueArrives (s : CreateGroups) (index : ℕ) : Option CreateGroups := do
  let value ← s.values[index]?
  let search ← s.searches[value.1]?
  let usernameArray ← matchUsernames search.query search.currentUser search.usernameArray value.2
  some { s with
    usernameArray := usernameArray
    searches := s.searches.set value.1 { search with usernameArray := usernameArray }
    values := s.values.eraseIdx index }

/-- `tableView(_:didSelectRowAt:)`, on the row of a user. -/
def didSelect (s : CreateGroups) (username : String) : CreateGroups :=
  if username ∉ s.chosenUserArray then
    { s with chosenUserArray := s.chosenUserArray ++ [username], checkmarkIsHidden := false }
  else
    let chosenUserArray := s.chosenUserArray.filter (· ≠ username)
    if chosenUserArray.length > 1 then { s with chosenUserArray := chosenUserArray }
    else { s with chosenUserArray := chosenUserArray, checkmarkIsHidden := true }

/-- `checkmarkBtnWasPressed`, up to the read of the ids. -/
def checkmarkBtnWasPressed (s : CreateGroups) : CreateGroups :=
  if s.groupText ≠ "" ∧ s.descriptionText ≠ "DESCRIPTION (optional)" then
    { s with presses := s.presses ++ [s.chosenUserArray] }
  else s

/-- The read of the ids for the names that a press was made with. Its callback uses the variables of
the screen. -/
def idsRead (uid : Key) (s : CreateGroups) (autoId : Key) (usernames : List String) : Prog Unit Value :=
  getIds usernames fun usernameIdsArray =>
    .force (usernameDict s.chosenUserArray (usernameIdsArray ++ [uid.1])) fun usernameDict =>
      createGroup autoId s.groupText s.descriptionText s.currentUser usernameDict fun _ => .done

/-- The callback of a press creates the group. -/
def idsArrive (uid : Key) (s : CreateGroups) (index : ℕ) (autoId : Key) : Option CreateGroups := do
  let usernames ← s.presses[index]?
  let db ← answered (s.idsRead uid autoId usernames) s.db
  some { s with db := db, presses := s.presses.eraseIdx index }

/-- Another client changes the database. Where the accounts change, every observer is raised a value. -/
def change (s : CreateGroups) (w : Write Value) : CreateGroups :=
  if SameBelow [Keys.users] s.db (w.apply s.db) then { s with db := w.apply s.db }
  else { s with
    db := w.apply s.db
    values := s.values ++ (List.range s.searches.length).map fun search =>
      (search, (w.apply s.db).snapshot [Keys.users]) }

/-- What an event does; `none` if it cannot happen, or if a forced cast or an index fails. -/
def step (uid : Key) (s : CreateGroups) : CreateGroupsEvent → Option CreateGroups
  | .viewWillAppear => some { s with checkmarkIsHidden := true }
  | .usernameArrives =>
    if s.usernamePending then
      (storedUsername s.db uid).map fun returnedUsername => { s with
        chosenUserArray := s.chosenUserArray ++ [returnedUsername]
        currentUser := returnedUsername
        usernamePending := false }
    else none
  | .groupTextDidChange text => some { s with groupText := text }
  | .descriptionDidChange text => some { s with descriptionText := text }
  | .textFieldDidChange text => some (s.textFieldDidChange text)
  | .searchUserArrives number => s.searchUserArrives uid number
  | .valueArrives index => s.valueArrives index
  | .didSelectRowAt row => s.usernameArray[row]?.map s.didSelect
  | .checkmarkBtnWasPressed => if s.checkmarkIsHidden then none else some s.checkmarkBtnWasPressed
  | .idsArrive index autoId => s.idsArrive uid index autoId
  | .change w => some (s.change w)

/-- The group that a press with some members creates. -/
def groupWrite (s : CreateGroups) (autoId : Key) (members : Store Value) : Write Value :=
  .update [Keys.groups, autoId] [([Keys.master], str s.currentUser), ([Keys.title], str s.groupText),
    ([Keys.description], str s.descriptionText), ([Keys.groupListCount], int 0),
    ([Keys.groupListCheckCount], int 0), ([Keys.members], members)]

/-- An answered press that does not abort creates a group whose members are the dictionary of the chosen
names. -/
theorem of_idsArrive {uid : Key} {s next : CreateGroups} {index : ℕ} {autoId : Key}
    (h : s.idsArrive uid index autoId = some next) :
    ∃ ids usernames members, usernameDict s.chosenUserArray (ids ++ [uid.1]) = some usernames ∧
      Store.dictionary (usernames.map fun entry => (entry.1, Value.string entry.2)) = some members ∧
      next = { s with
        db := (s.groupWrite autoId members).apply s.db, presses := s.presses.eraseIdx index } := by
  obtain ⟨names, -, h⟩ := Option.bind_eq_some_iff.mp h
  obtain ⟨db, hdb, hnext⟩ := Option.bind_eq_some_iff.mp h
  have hread : (s.idsRead uid autoId names).answer s.db =
      .force ((s.db.snapshot [Keys.users]).children.mapM fun user => do
        let username ← asString (user.childSnapshot "username")
        some (if username ∈ names then [user.key] else [])) fun ids =>
          .force (usernameDict s.chosenUserArray (ids.flatten ++ [uid.1])) fun usernameDict =>
            createGroup autoId s.groupText s.descriptionText s.currentUser usernameDict fun _ => .done :=
    rfl
  unfold answered at hdb
  rw [hread] at hdb
  generalize ((s.db.snapshot [Keys.users]).children.mapM fun user => do
    let username ← asString (user.childSnapshot "username")
    some (if username ∈ names then [user.key] else [])) = found at hdb
  cases found with
  | none => simp at hdb
  | some found =>
    rw [Prog.force_some] at hdb
    cases hdict : usernameDict s.chosenUserArray (found.flatten ++ [uid.1]) with
    | none =>
      rw [hdict] at hdb
      simp at hdb
    | some usernames =>
      rw [hdict, Prog.force_some, createGroup_eq] at hdb
      cases hmembers : Store.dictionary
          (usernames.map fun entry => (entry.1, Value.string entry.2)) with
      | none =>
        rw [hmembers] at hdb
        simp at hdb
      | some members =>
        rw [hmembers, Prog.force_some] at hdb
        have hwritten : (s.groupWrite autoId members).apply s.db = db := by
          simpa [Device.idle, groupWrite] using hdb
        exact ⟨_, usernames, members, hdict, hmembers, hwritten ▸ (Option.some.inj hnext).symm⟩

/-- Creating a group leaves the accounts as they are. -/
theorem sameBelow_groupWrite (s : CreateGroups) (autoId : Key) (members : Store Value) :
    SameBelow [Keys.users] s.db ((s.groupWrite autoId members).apply s.db) := by
  have happart : Apart (s.groupWrite autoId members).location [Keys.users] :=
    apart_of_ne (by decide) _ _
  apply (sameBelow_iff _ _ _).mpr
  exact fun q => get_apply_of_apart (happart.symm.append_left q).symm s.db

/-- The write by which a third account is stored. -/
def storesCarol : Write Value :=
  .update [Keys.users, Sample.carol] [([Keys.username], str "carol")]

end CreateGroups

end GroceryListApp

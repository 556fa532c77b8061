import GroceryListApp.Realtime.Schedule
import GroceryListApp.Services.DataService

/-!
# What the screens ask of the data service about groups and accounts

Each call is the body a screen runs once the user has confirmed an action. Group keys and
uids come out of the database, so they are keys; item names, usernames and texts are typed
by the user. A screen may have been loaded long before the call, hence nothing relates the
arguments of a call to the database at that time.
-/

namespace GroceryListApp

open Realtime

variable {M : Type*}

/-- `AuthService.registerUser` after the account was created. -/
def registerUser (uid : Key) (providerID email username : String) : Prog M Value :=
  .block [
    createDBUser uid [("provider", str providerID), ("email", str email),
      ("username", str username)],
    addUsername uid username,
    addNameName uid]

/-- The confirmed username change of `MeVC`. -/
def changeUsernameAction (currentUID : Key) (profileName newUsername : String) : Prog M Value :=
  .block [
    changeUsername currentUID newUsername,
    addUsername currentUID newUsername,
    deleteFromUsernames profileName,
    changeMaster profileName newUsername,
    changeUsersInGroup profileName newUsername currentUID,
    changeMarkedOffBy profileName newUsername,
    changeAddedBy profileName newUsername]

/-- The confirmed account deletion of `MeVC`, after the account itself was deleted. -/
def confirmDeleteAction (currentUserUID : Key) (currentUsername : String) : Prog M Value :=
  .block [
    deleteFromUsernames currentUsername,
    deleteUserFromDatabase currentUserUID,
    deleteFromGroups currentUsername]

/-- Set an entry of a dictionary. -/
def setEntry (dict : List (String × String)) (entry : String × String) : List (String × String) :=
  (dict.filter fun other => other.1 ≠ entry.1) ++ [entry]

/-- The dictionary that `CreateGroupsVC` makes of the chosen names and the ids it was returned, to
which its own is appended; `none` is an index out of range. -/
def usernameDict (chosenUserArray usernameIds : List String) : Option (List (String × String)) :=
  if chosenUserArray.length ≤ usernameIds.length then
    some ((chosenUserArray.zip usernameIds).foldl setEntry [])
  else none

/-- `checkmarkBtnWasPressed` of `CreateGroupsVC`, once the form is filled in. -/
def createGroupAction (autoId : Key) (title description currentUser : String)
    (chosenUserArray : List String) (currentUserId : String) : Prog M Value :=
  getIds chosenUserArray fun usernameIdsArray =>
    .force (usernameDict chosenUserArray (usernameIdsArray ++ [currentUserId])) fun usernames =>
      createGroup autoId title description currentUser usernames fun _ => .done

/-- The accepted add of `AddGroupItemVC`. -/
def addGroupItem (group : Key) (item description currentUser : String) : Prog M Value :=
  createGroupItem group item description currentUser fun isComplete =>
    if isComplete then increaseListCount group else .done

/-- The `DELETE` row action of `GroupGroceryListVC`. -/
def deleteAction (uid : Key) (item : String) (checkmarkIsHidden : Bool) : Prog M Value :=
  .block [
    if checkmarkIsHidden = false then decreaseListCheckCount uid else .done,
    removeGroupItem uid item]

/-- A call of a screen. The number of a `removeUserFromGroup` call tells the variables of
different calls apart. -/
inductive GroupCall where
  | registerUser (uid : Key) (providerID email username : String)
  | changeUsername (uid : Key) (profileName newUsername : String)
  | deleteAccount (uid : Key) (username : String)
  | createGroup (autoId : Key) (title description master : String)
      (usernames : List (String × String))
  | addGroupItem (uid : Key) (item description currentUser : String)
  | markeOffUser (uid : Key) (item username : String)
  | uncheckUser (uid : Key) (item : String)
  | deleteItem (uid : Key) (item : String) (checkmarkIsHidden : Bool)
  | increaseListCount (uid : Key)
  | decreaseListCount (uid : Key)
  | increaseListCheckCount (uid : Key)
  | decreaseListCheckCount (uid : Key)
  | removeGroup (uid : Key)
  | removeUserFromGroup (number : ℕ) (uid user : Key)
  deriving DecidableEq

/-- The variable `currentUser` of one call of `removeUserFromGroup`. -/
def capturedUser (number : ℕ) : Var (ℕ → String) String where
  get m := m number
  set name m := Function.update m number name

/-- The program of a call. -/
def GroupCall.code : GroupCall → Prog (ℕ → String) Value
  | .registerUser uid providerID email username =>
      GroceryListApp.registerUser uid providerID email username
  | .changeUsername uid profileName newUsername =>
      changeUsernameAction uid profileName newUsername
  | .deleteAccount uid username => confirmDeleteAction uid username
  | .createGroup autoId title description master usernames =>
      GroceryListApp.createGroup autoId title description master usernames fun _ => .done
  | .addGroupItem uid item description currentUser =>
      GroceryListApp.addGroupItem uid item description currentUser
  | .markeOffUser uid item username => GroceryListApp.markeOffUser uid item username
  | .uncheckUser uid item => GroceryListApp.uncheckUser uid item
  | .deleteItem uid item checkmarkIsHidden => deleteAction uid item checkmarkIsHidden
  | .increaseListCount uid => GroceryListApp.increaseListCount uid
  | .decreaseListCount uid => GroceryListApp.decreaseListCount uid
  | .increaseListCheckCount uid => GroceryListApp.increaseListCheckCount uid
  | .decreaseListCheckCount uid => GroceryListApp.decreaseListCheckCount uid
  | .removeGroup uid => GroceryListApp.removeGroup uid
  | .removeUserFromGroup number uid user =>
      GroceryListApp.removeUserFromGroup (capturedUser number) uid user

/-- The database and everything that is pending in the group screens of all clients. -/
abbrev GroupSys := Sys GroupCall (ℕ → String) Value

end GroceryListApp

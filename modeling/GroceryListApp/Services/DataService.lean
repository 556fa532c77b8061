import GroceryListApp.Model.Records
import GroceryListApp.Model.Text

/-!
# The data service

Every function of the service, statement by statement. A function ends in `trap` where the
source aborts: on a failed forced cast in a callback, on a sum that an `Int` cannot hold, and
on a string that Firebase rejects in a path. The key that `childByAutoId` draws is an argument.

`guard let … as? [DataSnapshot]` never takes its `else` branch: `allObjects` of a snapshot's
children are snapshots.
-/

namespace GroceryListApp

open Realtime

variable {M : Type*}

/-- The accounts. -/
def REF_USERS : Ref := some [Keys.users]

/-- The groups. -/
def REF_GROUPS : Ref := some [Keys.groups]

/-- The index of usernames. -/
def REF_USERNAMES : Ref := some [Keys.usernames]

/-! ### Accounts and the index of usernames -/

/-- Stores the fields of an account. -/
def createDBUser (uid : String) (userData : List (String × Store Value)) : Prog M Value :=
  (REF_USERS.child uid).updateChildValues userData

/-- Enters a username with its account in the index. -/
def addUsername (uid username : String) : Prog M Value :=
  REF_USERNAMES.updateChildValues [(username, str uid)]

/-- Gives an account an empty nickname. -/
def addNameName (uid : String) : Prog M Value :=
  (REF_USERS.child uid).updateChildValues [("name name", str "")]

/-- The keys of a snapshot's children, in database order. -/
def childKeys (snapshot : Snapshot Value) : List String := snapshot.children.map (·.key)

/-- Hands on every username of the index. -/
def usernames (handler : List String → Prog M Value) : Prog M Value :=
  REF_USERNAMES.observeSingleEvent fun usernameSnapshot => handler (childKeys usernameSnapshot)

/-- Hands on the username of an account. -/
def printUsername (uid : String) (handler : String → Prog M Value) : Prog M Value :=
  (REF_USERS.child uid).observeSingleEvent fun snapshot =>
    .force (asString (snapshot.childSnapshot "username")) handler

/-- Hands on the email of an account. -/
def printDatabaseEmail (uid : String) (handler : String → Prog M Value) : Prog M Value :=
  (REF_USERS.child uid).observeSingleEvent fun snapshot =>
    .force (asString (snapshot.childSnapshot "email")) handler

/-- Hands on the nickname of an account. -/
def printNameName (uid : String) (handler : String → Prog M Value) : Prog M Value :=
  (REF_USERS.child uid).observeSingleEvent fun snapshot =>
    .force (asString (snapshot.childSnapshot "name name")) handler

/-- Stores another username for an account. -/
def changeUsername (uid username : String) : Prog M Value :=
  (REF_USERS.child uid).updateChildValues [("username", str username)]

/-- Stores another email for an account. -/
def changeEmail (uid email : String) : Prog M Value :=
  (REF_USERS.child uid).updateChildValues [("email", str email)]

/-- Stores a nickname for an account. -/
def uploadNameName (uid name : String) (sendComplete : Bool → Prog M Value) : Prog M Value :=
  .block [(REF_USERS.child uid).updateChildValues [("name name", str name)], sendComplete true]

/-- Removes a username from the index. -/
def deleteFromUsernames (username : String) : Prog M Value :=
  (REF_USERNAMES.child username).removeValue

/-- Removes an account. -/
def deleteUserFromDatabase (uid : String) : Prog M Value :=
  (REF_USERS.child uid).removeValue

/-! ### Scans over every group -/

/-- Removes a member from every group that lists it. -/
def deleteFromGroups (username : String) : Prog M Value :=
  REF_GROUPS.observeSingleEvent fun groupSnapshot =>
    .forEach groupSnapshot.children fun group =>
      ((REF_GROUPS.child group.key).child "members").observeSingleEvent fun membersSnapshot =>
        .forEach membersSnapshot.children fun member =>
          if member.key = username then
            (((REF_GROUPS.child group.key).child "members").child member.key).removeValue
          else .done

/-- The scan over the items of every group that `changeAddedBy` and `changeMarkedOffBy`
write out, each with its own field. -/
def changeItemField (field currentUsername changedUsername : String) : Prog M Value :=
  REF_GROUPS.observeSingleEvent fun groupSnapshot =>
    .forEach groupSnapshot.children fun group =>
      ((REF_GROUPS.child group.key).child "grocery list").observeSingleEvent
        fun groceryListSnapshot =>
          .forEach groceryListSnapshot.children fun groceryItem =>
            .force (asString (groceryItem.childSnapshot field)) fun recorded =>
              if recorded = currentUsername then
                (((REF_GROUPS.child group.key).child "grocery list").child
                  groceryItem.key).updateChildValues [(field, str changedUsername)]
              else .done

/-- Replaces a username where it is recorded as the one who added an item. -/
def changeAddedBy (currentUsername changedUsername : String) : Prog M Value :=
  changeItemField "added by" currentUsername changedUsername

/-- Replaces a username where it is recorded as the one who checked an item off. -/
def changeMarkedOffBy (currentUsername changedUsername : String) : Prog M Value :=
  changeItemField "marked off by" currentUsername changedUsername

/-- Replaces a username where it is recorded as the creator of a group. -/
def changeMaster (currentUsername changedUsername : String) : Prog M Value :=
  REF_GROUPS.observeSingleEvent fun groupSnapshot =>
    .forEach groupSnapshot.children fun group =>
      .force (asString (group.childSnapshot "master")) fun master =>
        if master = currentUsername then
          if changedUsername ≠ "" then
            (REF_GROUPS.child group.key).updateChildValues [("master", str changedUsername)]
          else .done
        else .done

/-- Replaces a member by its new username in every group that lists it. -/
def changeUsersInGroup (currentUsername changedUsername uid : String) : Prog M Value :=
  REF_GROUPS.observeSingleEvent fun groupSnapshot =>
    .forEach groupSnapshot.children fun group =>
      ((REF_GROUPS.child group.key).child "members").observeSingleEvent fun memberSnapshot =>
        .forEach memberSnapshot.children fun member =>
          if member.key = currentUsername then
            .block [
              (((REF_GROUPS.child group.key).child "members").child currentUsername).removeValue,
              ((REF_GROUPS.child group.key).child "members").updateChildValues
                [(changedUsername, str uid)]]
          else .done

/-! ### The user's own list and the personal lists -/

/-- Stores an item of the user's own list. -/
def uploadItem (item description uid : String) (sendComplete : Bool → Prog M Value) :
    Prog M Value :=
  .block [
    (((REF_USERS.child uid).child "grocery list").child item).updateChildValues
      [("description", str description), ("isSelected", bool false)],
    sendComplete true]

/-- Stores a personal list without items. -/
def uploadPersonalList (name description uid : String) (sendComplete : Bool → Prog M Value) :
    Prog M Value :=
  .block [
    (((REF_USERS.child uid).child "lists").child name).updateChildValues
      [("description", str description), ("listCount", int 0), ("listCheckCount", int 0)],
    sendComplete true]

/-- Hands on the items of the user's own list. -/
def userListItems (uid : String) (handler : List String → Prog M Value) : Prog M Value :=
  ((REF_USERS.child uid).child "grocery list").observeSingleEvent fun listSnapshot =>
    handler (childKeys listSnapshot)

/-- Hands on the items of a personal list. -/
def listItems (uid listName : String) (handler : List String → Prog M Value) : Prog M Value :=
  ((((REF_USERS.child uid).child "lists").child listName).child "items").observeSingleEvent
    fun snapshot => handler (childKeys snapshot)

/-- Hands on the records of the user's own list. -/
def getAllFeedMessages (uid : String) (handler : List GroceryList → Prog M Value) :
    Prog M Value :=
  ((REF_USERS.child uid).child "grocery list").observeSingleEvent fun groceryListSnapshot =>
    .force (groceryListSnapshot.children.mapM fun item => do
      let description ← asString (item.childSnapshot "description")
      let selected ← asBool (item.childSnapshot "isSelected")
      some ⟨item.key, description, selected⟩) handler

/-- Hands on the records of the items of a personal list. -/
def getAllPersonalListItems (uid listName : String)
    (handler : List PersonalGroceryList → Prog M Value) : Prog M Value :=
  ((((REF_USERS.child uid).child "lists").child listName).child "items").observeSingleEvent
    fun snapshot =>
      .force (snapshot.children.mapM fun item => do
        let description ← asString (item.childSnapshot "description")
        let selected ← asBool (item.childSnapshot "isSelected")
        some ⟨item.key, description, selected⟩) handler

/-- Hands on the records of the personal lists. -/
def getAllUserLists (uid : String) (handler : List PersonalList → Prog M Value) :
    Prog M Value :=
  ((REF_USERS.child uid).child "lists").observeSingleEvent fun listsSnapshot =>
    .force (listsSnapshot.children.mapM fun list => do
      let description ← asString (list.childSnapshot "description")
      let listCount ← asInt (list.childSnapshot "listCount")
      let listCheckCount ← asInt (list.childSnapshot "listCheckCount")
      some ⟨list.key, description, listCount, listCheckCount⟩) handler

/-- Stores an item of a personal list. -/
def createPersonalItem (uid name item description : String)
    (sendComplete : Bool → Prog M Value) : Prog M Value :=
  .block [
    (((((REF_USERS.child uid).child "lists").child name).child "items").child
      item).updateChildValues [("description", str description), ("isSelected", bool false)],
    sendComplete true]

/-- Checks an item of the user's own list off. -/
def checkOffItem (uid name : String) : Prog M Value :=
  (((REF_USERS.child uid).child "grocery list").child name).updateChildValues
    [("isSelected", bool true)]

/-- Unchecks an item of the user's own list. -/
def uncheckItem (uid name : String) : Prog M Value :=
  (((REF_USERS.child uid).child "grocery list").child name).updateChildValues
    [("isSelected", bool false)]

/-- Checks an item of a personal list off. -/
def checkOffPersonalItem (uid listName item : String) : Prog M Value :=
  (((((REF_USERS.child uid).child "lists").child listName).child "items").child
    item).updateChildValues [("isSelected", bool true)]

/-- Unchecks an item of a personal list. -/
def uncheckPersonalItem (uid listName item : String) : Prog M Value :=
  (((((REF_USERS.child uid).child "lists").child listName).child "items").child
    item).updateChildValues [("isSelected", bool false)]

/-- Removes an item of the user's own list. -/
def removeItem (uid item : String) : Prog M Value :=
  (((REF_USERS.child uid).child "grocery list").child item).removeValue

/-- Removes the user's own list. -/
def removeAllItems (uid : String) : Prog M Value :=
  ((REF_USERS.child uid).child "grocery list").removeValue

/-- Removes a personal list. -/
def removeUserList (uid listName : String) : Prog M Value :=
  (((REF_USERS.child uid).child "lists").child listName).removeValue

/-! ### Counters -/

/-- The body the eight counter functions share: read the counter once, and write the
adjusted value from the callback. -/
def adjustCount (ref : Ref) (field : String) (delta : ℤ) : Prog M Value :=
  (ref.child field).observeSingleEvent fun snapshot =>
    .force (asInt snapshot) fun listCount =>
      .force (addInt listCount delta) fun adjusted =>
        ref.updateChildValues [(field, int adjusted)]

/-- A group has an item more. -/
def increaseListCount (uid : String) : Prog M Value :=
  adjustCount (REF_GROUPS.child uid) "list count" 1

/-- A group has an item less. -/
def decreaseListCount (uid : String) : Prog M Value :=
  adjustCount (REF_GROUPS.child uid) "list count" (-1)

/-- A group has a checked item more. -/
def increaseListCheckCount (uid : String) : Prog M Value :=
  adjustCount (REF_GROUPS.child uid) "list check count" 1

/-- A group has a checked item less. -/
def decreaseListCheckCount (uid : String) : Prog M Value :=
  adjustCount (REF_GROUPS.child uid) "list check count" (-1)

/-- A personal list has an item more. -/
def increasePersonalListCount (uid listName : String) : Prog M Value :=
  adjustCount (((REF_USERS.child uid).child "lists").child listName) "listCount" 1

/-- A personal list has an item less. -/
def decreasePersonalListCount (uid listName : String) : Prog M Value :=
  adjustCount (((REF_USERS.child uid).child "lists").child listName) "listCount" (-1)

/-- A personal list has a checked item more. -/
def increasePersonalListCheckCount (uid listName : String) : Prog M Value :=
  adjustCount (((REF_USERS.child uid).child "lists").child listName) "listCheckCount" 1

/-- A personal list has a checked item less. -/
def decreasePersonalListCheckCount (uid listName : String) : Prog M Value :=
  adjustCount (((REF_USERS.child uid).child "lists").child listName) "listCheckCount" (-1)

/-- Removes an item of a personal list and counts it off. -/
def removePersonalItem (uid listName item : String) : Prog M Value :=
  .block [
    (((((REF_USERS.child uid).child "lists").child listName).child "items").child
      item).removeValue,
    decreasePersonalListCount uid listName]

/-! ### Groups and their items -/

/-- Hands on the items of a group. -/
def groupGroceryListItems (groupUID : String) (handler : List String → Prog M Value) :
    Prog M Value :=
  ((REF_GROUPS.child groupUID).child "grocery list").observeSingleEvent
    fun groceryListSnapshot => handler (childKeys groceryListSnapshot)

/-- Hands on the members of a group. -/
def getUsernamesFor (groupKey : String) (handler : List String → Prog M Value) : Prog M Value :=
  ((REF_GROUPS.child groupKey).child "members").observeSingleEvent fun usersSnapshot =>
    handler (childKeys usersSnapshot)

/-- The callback of the observer that `getUsernames(forSearchQuery:)` leaves on the accounts. The array
belongs to the observer and is not reset between events. -/
def matchUsernames (query currentUser : String) (usernameArray : List String)
    (userSnapshot : Snapshot Value) : Option (List String) :=
  userSnapshot.children.foldlM (fun usernameArray user => do
    let username ← asString (user.childSnapshot "username")
    some (if containsText username query ∧ username ≠ currentUser then usernameArray ++ [username]
      else usernameArray)) usernameArray

/-- `getUsernames(forSearchQuery:)` up to the first event of its observer. -/
def getUsernames (currentUser : Var M String) (authUid : Option String) (query : String)
    (handler : List String → Prog M Value) : Prog M Value :=
  .force authUid fun uid => .block [
    .modify (currentUser.set "") .done,
    printUsername uid fun returnedUsername => .modify (currentUser.set returnedUsername) .done,
    REF_USERS.observeSingleEvent fun userSnapshot =>
      .inspect fun m =>
        .force (matchUsernames query (currentUser.get m) [] userSnapshot) handler]

/-- Hands on the accounts that have one of the usernames. -/
def getIds (usernames : List String) (handler : List String → Prog M Value) : Prog M Value :=
  REF_USERS.observeSingleEvent fun userSnapshot =>
    .force (userSnapshot.children.mapM fun user => do
      let username ← asString (user.childSnapshot "username")
      some (if username ∈ usernames then [user.key] else []))
      fun ids => handler ids.flatten

/-- Stores a new group. -/
def createGroup (autoId : Key) (title description master : String) (usernames : List (String × String))
    (handler : Bool → Prog M Value) : Prog M Value :=
  .force (Store.dictionary (usernames.map fun entry => (entry.1, Value.string entry.2)))
    fun members => .block [
      (REF_GROUPS.childByAutoId autoId).updateChildValues
        [("master", str master), ("title", str title), ("description", str description),
          ("list count", int 0), ("list check count", int 0), ("members", members)],
      handler true]

/-- The rows of a group's grocery list. -/
def groupRows (groupList : List (Snapshot Value)) : Option (List GroupList) :=
  groupList.mapM fun item => do
    let description ← asString (item.childSnapshot "description")
    let selected ← asBool (item.childSnapshot "isSelected")
    let addedBy ← asString (item.childSnapshot "added by")
    let markedOffBy ← asString (item.childSnapshot "marked off by")
    some ⟨item.key, description, selected, addedBy, markedOffBy⟩

/-- Hands on the rows of a group. -/
def getAllGroupLists (uid : String) (handler : List GroupList → Prog M Value) : Prog M Value :=
  ((REF_GROUPS.child uid).child "grocery list").observeSingleEvent fun groupGroceryListSnapshot =>
    .force (groupRows groupGroceryListSnapshot.children) handler

/-- The body of the loop over one group's members in `getAllGroups`. The array `usernames`
belongs to the whole call and is not reset between groups. -/
def collectGroup (currentUser : String) (group : Snapshot Value)
    (found : List Group × List String) (username : String) : Option (List Group × List String) :=
  let usernames := found.2 ++ [username]
  if username = currentUser then do
    let title ← asString (group.childSnapshot "title")
    let description ← asString (group.childSnapshot "description")
    let listCount ← asInt (group.childSnapshot "list count")
    let listCheckCount ← asInt (group.childSnapshot "list check count")
    let master ← asString (group.childSnapshot "master")
    some (found.1 ++ [⟨title, description, group.key, usernames, master, listCount, listCheckCount⟩],
      usernames)
  else some (found.1, usernames)

/-- The loop over all groups in `getAllGroups`; a dictionary has no order of its own, so the
order in which it is enumerated is an argument. -/
def collectGroups (enumerate : List String → List String) (currentUser : String)
    (groupSnapshot : Snapshot Value) : Option (List Group × List String) :=
  groupSnapshot.children.foldlM (fun found group => do
    let memberDictionary ← asDictionary (group.childSnapshot "members")
    (enumerate memberDictionary).foldlM (collectGroup currentUser group) found) ([], [])

/-- Hands on the groups that the signed-in user is a member of. -/
def getAllGroups (currentUser : Var M String) (enumerate : List String → List String)
    (authUid : Option String) (handler : List Group → Prog M Value) : Prog M Value :=
  .force authUid fun uid => .block [
    .modify (currentUser.set "") .done,
    printUsername uid fun returnedUsername => .modify (currentUser.set returnedUsername) .done,
    REF_GROUPS.observeSingleEvent fun groupSnapshot =>
      .inspect fun m =>
        .force (collectGroups enumerate (currentUser.get m) groupSnapshot) fun found =>
          handler found.1]

/-- Stores an item of a group. -/
def createGroupItem (uid item description addedBy : String)
    (sendComplete : Bool → Prog M Value) : Prog M Value :=
  .block [
    (((REF_GROUPS.child uid).child "grocery list").child item).updateChildValues
      [("description", str description), ("added by", str addedBy),
        ("marked off by", str "- -"), ("isSelected", bool false)],
    sendComplete true]

/-- Checks an item of a group off and counts it. -/
def markeOffUser (uid item username : String) : Prog M Value :=
  .block [
    (((REF_GROUPS.child uid).child "grocery list").child item).updateChildValues
      [("marked off by", str username), ("isSelected", bool true)],
    increaseListCheckCount uid]

/-- Unchecks an item of a group and counts it off. -/
def uncheckUser (uid item : String) : Prog M Value :=
  .block [
    (((REF_GROUPS.child uid).child "grocery list").child item).updateChildValues
      [("marked off by", str "- -"), ("isSelected", bool false)],
    decreaseListCheckCount uid]

/-- Removes an item of a group and counts it off. -/
def removeGroupItem (uid item : String) : Prog M Value :=
  .block [
    (((REF_GROUPS.child uid).child "grocery list").child item).removeValue,
    decreaseListCount uid]

/-- Removes a group. -/
def removeGroup (groupUid : String) : Prog M Value :=
  (REF_GROUPS.child groupUid).removeValue

/-- Removes a user from a group that has more members, and the group otherwise. -/
def removeUserFromGroup (currentUser : Var M String) (groupUid uid : String) : Prog M Value :=
  .block [
    .modify (currentUser.set "") .done,
    printUsername uid fun returnedUsername => .modify (currentUser.set returnedUsername) .done,
    ((REF_GROUPS.child groupUid).child "members").observeSingleEvent fun snapshot =>
      .forEach snapshot.children fun member =>
        if snapshot.children.length > 1 then
          .inspect fun m =>
            if member.key = currentUser.get m then
              (((REF_GROUPS.child groupUid).child "members").child (currentUser.get m)).removeValue
            else .done
        else removeGroup groupUid]

end GroceryListApp

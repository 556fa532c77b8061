import GroceryListApp.Controller.AddScreens
import GroceryListApp.Realtime.Device

/-!
# The screens of a user's own lists

The feed shows the user's own grocery list, one screen lists the personal lists, and one shows the items
of a personal list. A tap on a row and the deletion of a row act on the item that the cell shows, which
is the one that the last answered reload delivered, and then reload. All of this is on one device, and
the user stays signed in.
-/

namespace GroceryListApp

open Realtime

/-- The variables of the screens. The screens of personal lists and those that add an item are numbered. -/
structure OwnMem where
  groceryListArray : List GroceryList
  listsArray : List PersonalList
  listItemsArray : ℕ → List PersonalGroceryList
  groceryItems : ℕ → List String

/-- The lists that the screens of personal lists are open for, and those that the add screens add to:
a personal one, or the user's own one. -/
structure OwnScreens where
  list : ℕ → Key
  target : ℕ → Option Key

namespace FeedVC

/-- `reloadGroceryList`: the own list is loaded and shown. -/
def reloadGroceryList (uid : Key) : Prog OwnMem Value :=
  getAllFeedMessages uid.1 fun returnedGroceryListArray =>
    .modify (fun m => { m with groceryListArray := returnedGroceryListArray }) .done

/-- `tableView(_:didSelectRowAt:)`. -/
def didSelectRowAt (uid : Key) (row : ℕ) : Prog OwnMem Value :=
  .inspect fun m => match m.groceryListArray[row]? with
    | none => .done
    | some selectedCell => .block [
        if selectedCell.isSelected then uncheckItem uid.1 selectedCell.item
        else checkOffItem uid.1 selectedCell.item,
        reloadGroceryList uid]

/-- The row action `DELETE`. -/
def deleteAction (uid : Key) (row : ℕ) : Prog OwnMem Value :=
  .inspect fun m => match m.groceryListArray[row]? with
    | none => .done
    | some selectedCell => .block [removeItem uid.1 selectedCell.item, reloadGroceryList uid]

/-- `deleteBtnWasPressed`, once confirmed. -/
def deleteAllAction (uid : Key) : Prog OwnMem Value :=
  .block [removeAllItems uid.1, reloadGroceryList uid]

end FeedVC

namespace MyListsVC

/-- `reloadPersonalList`: the personal lists are loaded and shown. -/
def reloadPersonalList (uid : Key) : Prog OwnMem Value :=
  getAllUserLists uid.1 fun returnedLists =>
    .modify (fun m => { m with listsArray := returnedLists }) .done

/-- The row action `DELETE LIST`, once confirmed, on the list that the row showed when it was swiped. -/
def deleteListAction (uid : Key) (listTitle : String) : Prog OwnMem Value :=
  .block [removeUserList uid.1 listTitle, reloadPersonalList uid]

end MyListsVC

/-- `createListBtnWasPressed` of `CreatePersonalListVC`. -/
def CreatePersonalListVC.createListAction (uid : Key) (listName description : String) :
    Prog OwnMem Value :=
  match createListBtnWasPressed listName with
  | .accepted => uploadPersonalList listName description uid.1 fun _ => .done
  | _ => .done

namespace PersonalGroceryListVC

variable (uid : Key) (screens : OwnScreens) (screen : ℕ)

/-- `reloadPersonalList`: the items of the list of the screen are loaded and shown. -/
def reloadPersonalList : Prog OwnMem Value :=
  getAllPersonalListItems uid.1 (screens.list screen).1 fun returnedItems =>
    .modify (fun m =>
      { m with listItemsArray := Function.update m.listItemsArray screen returnedItems }) .done

/-- `tableView(_:didSelectRowAt:)`. -/
def didSelectRowAt (row : ℕ) : Prog OwnMem Value :=
  .inspect fun m => match (m.listItemsArray screen)[row]? with
    | none => .done
    | some selectedCell =>
      if selectedCell.isSelected then .block [
        uncheckPersonalItem uid.1 (screens.list screen).1 selectedCell.item,
        decreasePersonalListCheckCount uid.1 (screens.list screen).1,
        reloadPersonalList uid screens screen]
      else .block [
        checkOffPersonalItem uid.1 (screens.list screen).1 selectedCell.item,
        increasePersonalListCheckCount uid.1 (screens.list screen).1,
        reloadPersonalList uid screens screen]

/-- The row action `DELETE`. -/
def deleteAction (row : ℕ) : Prog OwnMem Value :=
  .inspect fun m => match (m.listItemsArray screen)[row]? with
    | none => .done
    | some selectedCell => .block [
        removePersonalItem uid.1 (screens.list screen).1 selectedCell.item,
        if selectedCell.isSelected then decreasePersonalListCheckCount uid.1 (screens.list screen).1
        else .done,
        reloadPersonalList uid screens screen]

end PersonalGroceryListVC

/-- The variable `groceryItems` of an add screen. -/
def ownGroceryItems (screen : ℕ) : Var OwnMem (List String) where
  get m := m.groceryItems screen
  set names m := { m with groceryItems := Function.update m.groceryItems screen names }

/-- What the user does on the screens of the own lists. -/
inductive OwnCall where
  | feedAppears
  | selectItem (row : ℕ)
  | deleteItem (row : ℕ)
  | deleteAllItems
  | addAppears (screen : ℕ)
  | addItem (screen : ℕ) (item description : String)
  | listsAppear
  | createList (listName description : String)
  | deleteList (listTitle : Key)
  | listAppears (screen : ℕ)
  | selectPersonalItem (screen row : ℕ)
  | deletePersonalItem (screen row : ℕ)

/-- The program of an event. -/
def OwnCall.code (uid : Key) (screens : OwnScreens) : OwnCall → Prog OwnMem Value
  | .feedAppears => FeedVC.reloadGroceryList uid
  | .selectItem row => FeedVC.didSelectRowAt uid row
  | .deleteItem row => FeedVC.deleteAction uid row
  | .deleteAllItems => FeedVC.deleteAllAction uid
  | .addAppears screen => match screens.target screen with
    | none => CreateItemVC.reloadGroceryItems (ownGroceryItems screen) uid
    | some list => AddPersonalItemVC.reloadPersonalListItems (ownGroceryItems screen) uid list
  | .addItem screen item description => match screens.target screen with
    | none => CreateItemVC.sendBtnAction (ownGroceryItems screen) uid item description
    | some list => AddPersonalItemVC.addItemBtnAction (ownGroceryItems screen) uid list item description
  | .listsAppear => MyListsVC.reloadPersonalList uid
  | .createList listName description =>
    CreatePersonalListVC.createListAction uid listName description
  | .deleteList listTitle => MyListsVC.deleteListAction uid listTitle.1
  | .listAppears screen => PersonalGroceryListVC.reloadPersonalList uid screens screen
  | .selectPersonalItem screen row => PersonalGroceryListVC.didSelectRowAt uid screens screen row
  | .deletePersonalItem screen row => PersonalGroceryListVC.deleteAction uid screens screen row

/-- The device, with the database. -/
abbrev OwnDevice := Device OwnMem Value

/-- The app has just been started. -/
def OwnDevice.launched (db : Store Value) : OwnDevice :=
  .idle db ⟨[], [], fun _ => [], fun _ => []⟩

/-! ### The reads -/

/-- Where the personal lists are. -/
def listsPath (uid : Key) : Path := [Keys.users, uid, Keys.lists]

/-- Where the items of a list are. -/
def ownItems (uid : Key) : Option Key → Path
  | none => (AddScreen.createItem uid).items
  | some list => (AddScreen.addPersonalItem uid list).items

/-- The rows of the feed. -/
def feedRows (snapshot : Snapshot Value) : Option (List GroceryList) :=
  snapshot.children.mapM fun item => do
    let description ← asString (item.childSnapshot "description")
    let selected ← asBool (item.childSnapshot "isSelected")
    some ⟨item.key, description, selected⟩

/-- The rows of the personal lists. -/
def listRows (snapshot : Snapshot Value) : Option (List PersonalList) :=
  snapshot.children.mapM fun list => do
    let description ← asString (list.childSnapshot "description")
    let listCount ← asInt (list.childSnapshot "listCount")
    let listCheckCount ← asInt (list.childSnapshot "listCheckCount")
    some ⟨list.key, description, listCount, listCheckCount⟩

/-- The rows of the items of a personal list. -/
def itemRows (snapshot : Snapshot Value) : Option (List PersonalGroceryList) :=
  snapshot.children.mapM fun item => do
    let description ← asString (item.childSnapshot "description")
    let selected ← asBool (item.childSnapshot "isSelected")
    some ⟨item.key, description, selected⟩

/-- The counters of a personal list: of its items, and of those that are checked. -/
inductive ListCounter where
  | items
  | checks
  deriving DecidableEq

/-- Where a counter is stored below its list. -/
def ListCounter.field : ListCounter → Key
  | items => Keys.listCount
  | checks => Keys.listCheckCount

/-- The reads that the screens register. -/
inductive OwnRead where
  | feed
  | lists
  | items (screen : ℕ)
  | names (screen : ℕ)
  | count (list : Key) (counter : ListCounter) (delta : ℤ)

namespace OwnRead

/-- The location of a read and what is done with the answer. -/
def registered (uid : Key) (screens : OwnScreens) : OwnRead → Path × (Snapshot Value → Prog OwnMem Value)
  | .feed => (ownItems uid none, fun groceryListSnapshot =>
      .force (feedRows groceryListSnapshot) fun returnedGroceryListArray =>
        .modify (fun m => { m with groceryListArray := returnedGroceryListArray }) .done)
  | .lists => (listsPath uid, fun listsSnapshot =>
      .force (listRows listsSnapshot) fun returnedLists =>
        .modify (fun m => { m with listsArray := returnedLists }) .done)
  | .items screen => (ownItems uid (some (screens.list screen)), fun snapshot =>
      .force (itemRows snapshot) fun returnedItems =>
        .modify (fun m =>
          { m with listItemsArray := Function.update m.listItemsArray screen returnedItems }) .done)
  | .names screen => (ownItems uid (screens.target screen), fun snapshot =>
      keepItems (ownGroceryItems screen) (childKeys snapshot))
  | .count list counter delta => (listsPath uid ++ [list, counter.field], fun snapshot =>
      .force (asInt snapshot) fun listCount =>
        .force (addInt listCount delta) fun adjusted =>
          .write (.update (listsPath uid ++ [list]) [([counter.field], int adjusted)]) .done)

end OwnRead

/-! ### The events -/

/-- The names that are entered for an item or a list are keys. -/
def OwnCall.Named : OwnCall → Prop
  | .addItem _ item _ => LegalKey item
  | .createList listName _ => LegalKey listName
  | _ => True

instance (call : OwnCall) : Decidable call.Named := by
  induction call using OwnCall.casesOn <;> dsimp only [OwnCall.Named] <;> infer_instance

/-- The names that the rows show are keys. -/
structure RowsNamed (m : OwnMem) : Prop where
  feed : ∀ row ∈ m.groceryListArray, LegalKey row.item
  list : ∀ screen, ∀ row ∈ m.listItemsArray screen, LegalKey row.item

/-- The write of an item that is added. -/
def insertItem (uid : Key) (list : Option Key) (item : Key) (description : String) : Write Value :=
  .update (ownItems uid list ++ [item])
    [([Keys.description], str description), ([Keys.isSelected], bool false)]

/-- The write that checks an item, or unchecks it. -/
def flagItem (uid : Key) (list : Option Key) (item : Key) (selected : Bool) : Write Value :=
  .update (ownItems uid list ++ [item]) [([Keys.isSelected], bool selected)]

/-- The write of a list that is created. -/
def createListWrite (uid listName : Key) (description : String) : Write Value :=
  .update (listsPath uid ++ [listName])
    [([Keys.description], str description), ([Keys.listCount], int 0), ([Keys.listCheckCount], int 0)]

namespace OwnCall

/-- What an event writes, if anything, and the reads that it registers. -/
inductive Effect (uid : Key) (screens : OwnScreens) (m : OwnMem) :
    OwnCall → Option (Write Value) → List OwnRead → Prop
  | feedAppears : Effect uid screens m .feedAppears none [.feed]
  | selectItem {row : ℕ} {selectedCell : GroceryList} {item : Key}
      (hrow : m.groceryListArray[row]? = some selectedCell) (hitem : selectedCell.item = item.1) :
      Effect uid screens m (.selectItem row)
        (some (flagItem uid none item (!selectedCell.isSelected))) [.feed]
  | selectNoItem {row : ℕ} (hrow : m.groceryListArray[row]? = none) :
      Effect uid screens m (.selectItem row) none []
  | deleteItem {row : ℕ} {selectedCell : GroceryList} {item : Key}
      (hrow : m.groceryListArray[row]? = some selectedCell) (hitem : selectedCell.item = item.1) :
      Effect uid screens m (.deleteItem row) (some (.remove (ownItems uid none ++ [item]))) [.feed]
  | deleteNoItem {row : ℕ} (hrow : m.groceryListArray[row]? = none) :
      Effect uid screens m (.deleteItem row) none []
  | deleteAllItems : Effect uid screens m .deleteAllItems (some (.remove (ownItems uid none))) [.feed]
  | addAppears (screen : ℕ) : Effect uid screens m (.addAppears screen) none [.names screen]
  | addItem {screen : ℕ} {item : Key} (description : String) (haccepted : item.1 ≠ "ITEM")
      (havailable : item.1 ∉ m.groceryItems screen) :
      Effect uid screens m (.addItem screen item.1 description)
        (some (insertItem uid (screens.target screen) item description))
        (.names screen :: (screens.target screen).toList.map (.count · .items 1))
  | addTaken {screen : ℕ} {item : Key} (description : String) (htaken : item.1 ∈ m.groceryItems screen) :
      Effect uid screens m (.addItem screen item.1 description) none [.names screen]
  | addRefused (screen : ℕ) {item : Key} (description : String) (hrefused : item.1 = "ITEM") :
      Effect uid screens m (.addItem screen item.1 description) none []
  | listsAppear : Effect uid screens m .listsAppear none [.lists]
  | createList {listName : Key} (description : String) (haccepted : listName.1 ≠ "LIST NAME") :
      Effect uid screens m (.createList listName.1 description)
        (some (createListWrite uid listName description)) []
  | createRefused {listName : Key} (description : String) (hrefused : listName.1 = "LIST NAME") :
      Effect uid screens m (.createList listName.1 description) none []
  | deleteList (listTitle : Key) :
      Effect uid screens m (.deleteList listTitle) (some (.remove (listsPath uid ++ [listTitle]))) [.lists]
  | listAppears (screen : ℕ) : Effect uid screens m (.listAppears screen) none [.items screen]
  | selectPersonalItem {screen row : ℕ} {selectedCell : PersonalGroceryList} {item : Key}
      (hrow : (m.listItemsArray screen)[row]? = some selectedCell) (hitem : selectedCell.item = item.1) :
      Effect uid screens m (.selectPersonalItem screen row)
        (some (flagItem uid (some (screens.list screen)) item (!selectedCell.isSelected)))
        [.count (screens.list screen) .checks (if selectedCell.isSelected then -1 else 1),
          .items screen]
  | selectNoPersonalItem {screen row : ℕ} (hrow : (m.listItemsArray screen)[row]? = none) :
      Effect uid screens m (.selectPersonalItem screen row) none []
  | deletePersonalItem {screen row : ℕ} {selectedCell : PersonalGroceryList} {item : Key}
      (hrow : (m.listItemsArray screen)[row]? = some selectedCell) (hitem : selectedCell.item = item.1) :
      Effect uid screens m (.deletePersonalItem screen row)
        (some (.remove (ownItems uid (some (screens.list screen)) ++ [item])))
        (.count (screens.list screen) .items (-1) ::
          (if selectedCell.isSelected then [.count (screens.list screen) .checks (-1)] else []) ++
          [.items screen])
  | deleteNoPersonalItem {screen row : ℕ} (hrow : (m.listItemsArray screen)[row]? = none) :
      Effect uid screens m (.deletePersonalItem screen row) none []

/-- A counter that an event is going to adjust changes by one. -/
theorem Effect.delta_unit {uid : Key} {screens : OwnScreens} {m : OwnMem} {call : OwnCall}
    {w : Option (Write Value)} {reads : List OwnRead} (h : Effect uid screens m call w reads) {list : Key}
    {counter : ListCounter} {delta : ℤ} (hread : .count list counter delta ∈ reads) :
    delta = 1 ∨ delta = -1 := by
  cases h with
  | @addItem screen item description haccepted havailable =>
    cases htarget : screens.target screen <;> simp [htarget] at hread
    exact Or.inl hread.2.2
  | @selectPersonalItem screen row selectedCell item hrow hitem =>
    cases hselected : selectedCell.isSelected <;> simp [hselected] at hread
    · exact Or.inl hread.2.2
    · exact Or.inr hread.2.2
  | @deletePersonalItem screen row selectedCell item hrow hitem =>
    right
    cases hselected : selectedCell.isSelected <;> simp [hselected] at hread
    · exact hread.2.2
    · rcases hread with hread | hread <;> exact hread.2.2
  | _ => simp at hread

/-- The device after an event that writes and registers reads. -/
def after (uid : Key) (screens : OwnScreens) (d : OwnDevice) (w : Option (Write Value))
    (reads : List OwnRead) : OwnDevice :=
  { d with
    db := w.elim d.db (·.apply d.db), reads := d.reads ++ reads.map (·.registered uid screens) }

end OwnCall

/-! ### The programs -/

section

variable (uid : Key) (screens : OwnScreens)

/-- A program that registers one read. -/
def OwnRead.ask (read : OwnRead) : Prog OwnMem Value :=
  .observe (read.registered uid screens).1 (read.registered uid screens).2 .done

/-- The reload of the own list is one read of the feed. -/
theorem FeedVC.reloadGroceryList_eq :
    FeedVC.reloadGroceryList uid = OwnRead.ask uid screens .feed := by
  simp [FeedVC.reloadGroceryList, getAllFeedMessages, REF_USERS, Ref.child, Ref.observeSingleEvent]
  rfl

/-- The reload of the personal lists is one read of them. -/
theorem MyListsVC.reloadPersonalList_eq :
    MyListsVC.reloadPersonalList uid = OwnRead.ask uid screens .lists := by
  simp [MyListsVC.reloadPersonalList, getAllUserLists, REF_USERS, Ref.child, Ref.observeSingleEvent]
  rfl

/-- The reload of a list is one read of its items. -/
theorem PersonalGroceryListVC.reloadPersonalList_eq (screen : ℕ) :
    PersonalGroceryListVC.reloadPersonalList uid screens screen =
      OwnRead.ask uid screens (.items screen) := by
  simp [PersonalGroceryListVC.reloadPersonalList, getAllPersonalListItems, REF_USERS, Ref.child,
    Ref.observeSingleEvent]
  rfl

/-- Both screens that add to an own list ask for its names in the same way. -/
theorem reloadNames_eq (screen : ℕ) :
    (match screens.target screen with
      | none => CreateItemVC.reloadGroceryItems (ownGroceryItems screen) uid
      | some list => AddPersonalItemVC.reloadPersonalListItems (ownGroceryItems screen) uid list) =
      OwnRead.ask uid screens (.names screen) := by
  rw [OwnRead.ask, OwnRead.registered]
  cases screens.target screen with
  | none =>
    simp [CreateItemVC.reloadGroceryItems, userListItems, REF_USERS, Ref.child, Ref.observeSingleEvent]
    rfl
  | some list =>
    simp [AddPersonalItemVC.reloadPersonalListItems, listItems, REF_USERS, Ref.child,
      Ref.observeSingleEvent]
    rfl

/-- The counters of a personal list are adjusted below the list. -/
theorem adjustPersonal_eq (list : Key) (counter : ListCounter) {field : String}
    (hfield : parsePath field = some [counter.field]) (delta : ℤ) :
    adjustCount (some [Keys.users, uid, Keys.lists, list]) field delta =
      OwnRead.ask uid screens (.count list counter delta) := by
  rw [adjustCount_eq _ hfield]
  rfl

/-- A press whose name is a key goes on with the check, unless the name is the placeholder. -/
theorem addItemAction_key {M : Type*} (groceryItems : Var M (List String)) (reload upload : Prog M Value)
    (item : Key) :
    addItemAction groceryItems reload upload item.1 =
      if item.1 = "ITEM" then .done
      else reload.seq (.inspect fun m => if item.1 ∈ groceryItems.get m then .done else upload) := by
  have hdot : '.' ∉ item.1.toList := fun hdot => (item.2.2 _ hdot).2 (by decide)
  have hcheck : (fun m => Prog.force (nameAvailable (groceryItems.get m) item.1)
      fun available => if available then upload else .done) =
      fun m => if item.1 ∈ groceryItems.get m then .done else upload := by
    funext m
    rw [nameAvailable_eq, Prog.force_some]
    by_cases hitem : item.1 ∈ groceryItems.get m <;> simp [hitem]
  have hnonempty : item.1 ≠ "" := item.2.1
  unfold addItemAction
  rw [hcheck]
  by_cases hrefused : item.1 = "ITEM"
  · simp [hrefused]
  · simp [hrefused, hnonempty, hdot]

/-- An accepted item is written, and then counted if the list is a personal one. -/
theorem upload_eq (screen : ℕ) (item : Key) (description : String) :
    (match screens.target screen with
      | none => CreateItemVC.sendBtnAction (ownGroceryItems screen) uid item.1 description
      | some list =>
        AddPersonalItemVC.addItemBtnAction (ownGroceryItems screen) uid list item.1 description) =
      if item.1 = "ITEM" then .done
      else (OwnRead.ask uid screens (.names screen)).seq
        (.inspect fun m => if item.1 ∈ m.groceryItems screen then .done
          else .write (insertItem uid (screens.target screen) item description)
            (.block ((screens.target screen).toList.map
              fun list => OwnRead.ask uid screens (.count list .items 1)))) := by
  rw [← reloadNames_eq]
  cases screens.target screen with
  | none =>
    have hupload : (uploadItem item.1 description uid.1 fun _ => .done : Prog OwnMem Value) =
        .write (insertItem uid none item description) .done := by
      simp [uploadItem, REF_USERS, Ref.child, Ref.updateChildValues, insertItem, ownItems, AddScreen.items]
    simp only [CreateItemVC.sendBtnAction]
    rw [addItemAction_key, hupload]
    rfl
  | some list =>
    have hupload : (createPersonalItem uid.1 list.1 item.1 description fun isComplete =>
        if isComplete then increasePersonalListCount uid.1 list.1 else .done) =
        .write (insertItem uid (some list) item description)
          (OwnRead.ask uid screens (.count list .items 1)) := by
      have hfield : parsePath "listCount" = some [ListCounter.items.field] := by simp [ListCounter.field]
      simp [createPersonalItem, REF_USERS, Ref.child, Ref.updateChildValues, insertItem, ownItems,
        AddScreen.items, increasePersonalListCount, adjustPersonal_eq uid screens list _ hfield]
    simp only [AddPersonalItemVC.addItemBtnAction]
    rw [addItemAction_key, hupload]
    simp only [Option.toList_some, List.map_cons, List.map_nil, Prog.block_cons, Prog.block_nil,
      Prog.seq_done]
    rfl

end

namespace OwnCall

variable (uid : Key) (screens : OwnScreens) {d : OwnDevice}

/-- The program of an event does what one of its effects says. -/
def Effective (d : OwnDevice) (call : OwnCall) : Prop :=
  ∃ w reads, Effect uid screens d.mem call w reads ∧
    Device.exec (call.code uid screens) d = after uid screens d w reads

/-- A tap in the feed writes the check mark of the item that the cell shows. -/
theorem effective_selectItem (hrows : RowsNamed d.mem) (row : ℕ) :
    Effective uid screens d (.selectItem row) := by
  cases hrow : d.mem.groceryListArray[row]? with
  | none =>
    refine ⟨_, _, .selectNoItem hrow, ?_⟩
    simp [code, FeedVC.didSelectRowAt, hrow, after]
  | some selectedCell =>
    obtain ⟨item, hitem⟩ : ∃ item : Key, selectedCell.item = item.1 :=
      ⟨⟨_, hrows.feed _ (List.mem_of_getElem? hrow)⟩, rfl⟩
    refine ⟨_, _, .selectItem hrow hitem, ?_⟩
    cases hselected : selectedCell.isSelected <;>
      simp [code, FeedVC.didSelectRowAt, hrow, hselected, hitem, checkOffItem, uncheckItem, REF_USERS,
        Ref.child, Ref.updateChildValues, FeedVC.reloadGroceryList_eq uid screens, OwnRead.ask, after,
        flagItem, ownItems, AddScreen.items]

/-- The row action of the feed removes the item that the cell shows. -/
theorem effective_deleteItem (hrows : RowsNamed d.mem) (row : ℕ) :
    Effective uid screens d (.deleteItem row) := by
  cases hrow : d.mem.groceryListArray[row]? with
  | none =>
    refine ⟨_, _, .deleteNoItem hrow, ?_⟩
    simp [code, FeedVC.deleteAction, hrow, after]
  | some selectedCell =>
    obtain ⟨item, hitem⟩ : ∃ item : Key, selectedCell.item = item.1 :=
      ⟨⟨_, hrows.feed _ (List.mem_of_getElem? hrow)⟩, rfl⟩
    refine ⟨_, _, .deleteItem hrow hitem, ?_⟩
    simp [code, FeedVC.deleteAction, hrow, hitem, removeItem, REF_USERS, Ref.child, Ref.removeValue,
      FeedVC.reloadGroceryList_eq uid screens, OwnRead.ask, after, ownItems, AddScreen.items]

/-- A press on an add screen writes the item, unless its name is refused or taken. -/
theorem effective_addItem (screen : ℕ) (item : Key) (description : String) :
    Effective uid screens d (.addItem screen item.1 description) := by
  have hcode : code uid screens (.addItem screen item.1 description) = _ :=
    upload_eq uid screens screen item description
  rw [Effective, hcode]
  by_cases hrefused : item.1 = "ITEM"
  · refine ⟨_, _, .addRefused screen description hrefused, ?_⟩
    simp [hrefused, after]
  · by_cases htaken : item.1 ∈ d.mem.groceryItems screen
    · refine ⟨_, _, .addTaken description htaken, ?_⟩
      simp [hrefused, htaken, OwnRead.ask, after]
    · refine ⟨_, _, .addItem description hrefused htaken, ?_⟩
      cases screens.target screen <;> simp [hrefused, htaken, OwnRead.ask, after]

/-- A press that creates a list writes it, unless its name is refused. -/
theorem effective_createList (listName : Key) (description : String) :
    Effective uid screens d (.createList listName.1 description) := by
  have hdot : '.' ∉ listName.1.toList := fun hdot => (listName.2.2 _ hdot).2 (by decide)
  have hnonempty : listName.1 ≠ "" := listName.2.1
  by_cases hrefused : listName.1 = "LIST NAME"
  · refine ⟨_, _, .createRefused description hrefused, ?_⟩
    simp [code, CreatePersonalListVC.createListAction, CreatePersonalListVC.createListBtnWasPressed,
      hrefused, after]
  · refine ⟨_, _, .createList description hrefused, ?_⟩
    simp [code, CreatePersonalListVC.createListAction, CreatePersonalListVC.createListBtnWasPressed,
      hrefused, hnonempty, hdot, uploadPersonalList, REF_USERS, Ref.child, Ref.updateChildValues, after,
      createListWrite, listsPath]

/-- A tap on the screen of a personal list writes the check mark and counts it. -/
theorem effective_selectPersonalItem (hrows : RowsNamed d.mem) (screen row : ℕ) :
    Effective uid screens d (.selectPersonalItem screen row) := by
  cases hrow : (d.mem.listItemsArray screen)[row]? with
  | none =>
    refine ⟨_, _, .selectNoPersonalItem hrow, ?_⟩
    simp [code, PersonalGroceryListVC.didSelectRowAt, hrow, after]
  | some selectedCell =>
    obtain ⟨item, hitem⟩ : ∃ item : Key, selectedCell.item = item.1 :=
      ⟨⟨_, hrows.list _ _ (List.mem_of_getElem? hrow)⟩, rfl⟩
    refine ⟨_, _, .selectPersonalItem hrow hitem, ?_⟩
    have hchecks : parsePath "listCheckCount" = some [ListCounter.checks.field] := by
      simp [ListCounter.field]
    cases hselected : selectedCell.isSelected <;>
      simp [code, PersonalGroceryListVC.didSelectRowAt, hrow, hselected, hitem, checkOffPersonalItem,
        uncheckPersonalItem, REF_USERS, Ref.child, Ref.updateChildValues,
        PersonalGroceryListVC.reloadPersonalList_eq, increasePersonalListCheckCount,
        decreasePersonalListCheckCount, adjustPersonal_eq uid screens _ _ hchecks, OwnRead.ask, after,
        flagItem, ownItems, AddScreen.items]

/-- The row action of that screen removes the item and counts it off. -/
theorem effective_deletePersonalItem (hrows : RowsNamed d.mem) (screen row : ℕ) :
    Effective uid screens d (.deletePersonalItem screen row) := by
  cases hrow : (d.mem.listItemsArray screen)[row]? with
  | none =>
    refine ⟨_, _, .deleteNoPersonalItem hrow, ?_⟩
    simp [code, PersonalGroceryListVC.deleteAction, hrow, after]
  | some selectedCell =>
    obtain ⟨item, hitem⟩ : ∃ item : Key, selectedCell.item = item.1 :=
      ⟨⟨_, hrows.list _ _ (List.mem_of_getElem? hrow)⟩, rfl⟩
    refine ⟨_, _, .deletePersonalItem hrow hitem, ?_⟩
    have hcount : parsePath "listCount" = some [ListCounter.items.field] := by simp [ListCounter.field]
    have hchecks : parsePath "listCheckCount" = some [ListCounter.checks.field] := by
      simp [ListCounter.field]
    cases hselected : selectedCell.isSelected <;>
      simp [code, PersonalGroceryListVC.deleteAction, hrow, hselected, hitem, removePersonalItem,
        REF_USERS, Ref.child, Ref.removeValue, PersonalGroceryListVC.reloadPersonalList_eq,
        decreasePersonalListCount, decreasePersonalListCheckCount,
        adjustPersonal_eq uid screens _ _ hcount, adjustPersonal_eq uid screens _ _ hchecks,
        OwnRead.ask, after, ownItems, AddScreen.items]

/-- Every event has an effect when the names that it enters are keys. -/
theorem exec_code (hrows : RowsNamed d.mem) {call : OwnCall} (hnamed : call.Named) :
    Effective uid screens d call := by
  cases call with
  | feedAppears =>
    refine ⟨_, _, .feedAppears, ?_⟩
    rw [code, FeedVC.reloadGroceryList_eq uid screens]
    rfl
  | selectItem row => exact effective_selectItem uid screens hrows row
  | deleteItem row => exact effective_deleteItem uid screens hrows row
  | deleteAllItems =>
    refine ⟨_, _, .deleteAllItems, ?_⟩
    simp [code, FeedVC.deleteAllAction, removeAllItems, REF_USERS, Ref.child, Ref.removeValue,
      FeedVC.reloadGroceryList_eq uid screens, OwnRead.ask, after, ownItems, AddScreen.items]
  | addAppears screen =>
    refine ⟨_, _, .addAppears screen, ?_⟩
    rw [code, reloadNames_eq]
    rfl
  | addItem screen item description =>
    exact effective_addItem uid screens screen ⟨item, hnamed⟩ description
  | listsAppear =>
    refine ⟨_, _, .listsAppear, ?_⟩
    rw [code, MyListsVC.reloadPersonalList_eq uid screens]
    rfl
  | createList listName description =>
    exact effective_createList uid screens ⟨listName, hnamed⟩ description
  | deleteList listTitle =>
    refine ⟨_, _, .deleteList listTitle, ?_⟩
    simp [code, MyListsVC.deleteListAction, removeUserList, REF_USERS, Ref.child, Ref.removeValue,
      MyListsVC.reloadPersonalList_eq uid screens, OwnRead.ask, after, listsPath]
  | listAppears screen =>
    refine ⟨_, _, .listAppears screen, ?_⟩
    rw [code, PersonalGroceryListVC.reloadPersonalList_eq]
    rfl
  | selectPersonalItem screen row => exact effective_selectPersonalItem uid screens hrows screen row
  | deletePersonalItem screen row => exact effective_deletePersonalItem uid screens hrows screen row

end OwnCall

/-! ### The answers -/

/-- The list whose counter a read at a location asks for. -/
def countedList : Path → Option Key
  | [_, _, _, list, field] =>
    if field = Keys.listCount ∨ field = Keys.listCheckCount then some list else none
  | _ => none

/-- A read that is not one of a counter only fills the rows or names of a screen, unless a forced cast
fails. -/
theorem OwnRead.answer_reload (uid : Key) (screens : OwnScreens) (read : OwnRead)
    (hread : ∀ list counter delta, read ≠ .count list counter delta) (db : Store Value) :
    (read.registered uid screens).2 (db.snapshot (read.registered uid screens).1) = .trap ∨
      ∃ f, (read.registered uid screens).2 (db.snapshot (read.registered uid screens).1) =
        .modify f .done ∧ ∀ m, RowsNamed m → RowsNamed (f m) := by
  cases read with
  | feed =>
    simp only [registered]
    generalize hrows : feedRows (db.snapshot (ownItems uid none)) = rows
    cases rows with
    | none => exact Or.inl rfl
    | some rows =>
      refine Or.inr ⟨_, rfl, fun m hm => ⟨?_, hm.list⟩⟩
      refine legalKey_of_mapM (fun child row hrow => ?_) hrows
      obtain ⟨_, -, hrow⟩ := Option.bind_eq_some_iff.mp hrow
      obtain ⟨_, -, hrow⟩ := Option.bind_eq_some_iff.mp hrow
      exact congrArg GroceryList.item (Option.some.inj hrow).symm
  | lists =>
    simp only [registered]
    generalize listRows (db.snapshot (listsPath uid)) = rows
    cases rows with
    | none => exact Or.inl rfl
    | some rows => exact Or.inr ⟨_, rfl, fun m hm => ⟨hm.feed, hm.list⟩⟩
  | items screen =>
    simp only [registered]
    generalize hrows : itemRows (db.snapshot (ownItems uid (some (screens.list screen)))) = rows
    cases rows with
    | none => exact Or.inl rfl
    | some rows =>
      refine Or.inr ⟨_, rfl, fun m hm => ⟨hm.feed, fun other => ?_⟩⟩
      have hnamed : ∀ row ∈ rows, LegalKey row.item := by
        refine legalKey_of_mapM (fun child row hrow => ?_) hrows
        obtain ⟨_, -, hrow⟩ := Option.bind_eq_some_iff.mp hrow
        obtain ⟨_, -, hrow⟩ := Option.bind_eq_some_iff.mp hrow
        exact congrArg PersonalGroceryList.item (Option.some.inj hrow).symm
      by_cases hother : other = screen
      · simpa [hother] using hnamed
      · simpa [hother] using hm.list other
  | names screen => exact Or.inr ⟨_, rfl, fun m hm => ⟨hm.feed, hm.list⟩⟩
  | count list counter delta => exact absurd rfl (hread list counter delta)

end GroceryListApp

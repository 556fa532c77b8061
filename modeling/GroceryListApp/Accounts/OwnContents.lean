import GroceryListApp.Accounts.OwnReadable

/-!
# What the own lists are for

A user has one list of items and any number of titled lists of items. An item has a description and a
check mark. The user adds items, checks or unchecks them, deletes them, and creates and deletes lists.
The screens do this on a database and with rows that may be out of date; as long as every event finds its
records, what is stored is what the user asked for, and every load shows exactly that.
-/

namespace GroceryListApp

open Realtime

/-- Items by their names, with their descriptions and check marks. -/
abbrev Items := String → Option (String × Bool)

/-- The own list of a user, and the titled lists with their descriptions. -/
structure OwnLists where
  feed : Items
  lists : String → Option (String × Items)

/-- What a user asks for. The item is one of the list with a title, or one of the own list. -/
inductive ListChange where
  | add (title : Option String) (item description : String)
  | mark (title : Option String) (item : String) (selected : Bool)
  | delete (title : Option String) (item : String)
  | deleteAll
  | createList (title description : String)
  | deleteList (title : String)
  deriving DecidableEq

namespace OwnLists

/-- Change the items of the list with a title, if there is one, or those of the own list. -/
def onItems (s : OwnLists) (title : Option String) (f : Items → Items) : OwnLists :=
  match title with
  | none => { s with feed := f s.feed }
  | some title => { s with
      lists := Function.update s.lists title ((s.lists title).map fun list => (list.1, f list.2)) }

/-- The lists after a change. A list that is created under a title in use keeps its items. -/
def change (s : OwnLists) : ListChange → OwnLists
  | .add title item description =>
    s.onItems title fun items => Function.update items item (some (description, false))
  | .mark title item selected =>
    s.onItems title fun items => Function.update items item ((items item).map fun entry => (entry.1, selected))
  | .delete title item => s.onItems title fun items => Function.update items item none
  | .deleteAll => { s with feed := fun _ => none }
  | .createList title description => { s with
      lists := Function.update s.lists title
        (some (description, ((s.lists title).map Prod.snd).getD fun _ => none)) }
  | .deleteList title => { s with lists := Function.update s.lists title none }

end OwnLists

/-- What a user asks for with an event, by the rows that the screens show. -/
def OwnCall.requested (screens : OwnScreens) (m : OwnMem) : OwnCall → Option ListChange
  | .selectItem row => m.groceryListArray[row]?.map fun selectedCell =>
      .mark none selectedCell.item (!selectedCell.isSelected)
  | .deleteItem row => m.groceryListArray[row]?.map fun selectedCell => .delete none selectedCell.item
  | .deleteAllItems => some .deleteAll
  | .addItem screen item description =>
    if item = "ITEM" ∨ item ∈ m.groceryItems screen then none
    else some (.add ((screens.target screen).map Subtype.val) item description)
  | .createList listName description =>
    if listName = "LIST NAME" then none else some (.createList listName description)
  | .deleteList listTitle => some (.deleteList listTitle.1)
  | .selectPersonalItem screen row => (m.listItemsArray screen)[row]?.map fun selectedCell =>
      .mark (some (screens.list screen).1) selectedCell.item (!selectedCell.isSelected)
  | .deletePersonalItem screen row => (m.listItemsArray screen)[row]?.map fun selectedCell =>
      .delete (some (screens.list screen).1) selectedCell.item
  | _ => none

/-- An answer to a read asks for nothing. -/
def requestedBy (screens : OwnScreens) (d : OwnDevice) : DeviceEvent OwnCall → Option ListChange
  | .call call => call.requested screens d.mem
  | .answer _ => none

/-! ### What is stored -/

/-- A function of keys as one of strings. -/
def byName {α : Type*} (f : Key → Option α) (name : String) : Option α :=
  if legal : LegalKey name then f ⟨name, legal⟩ else none

/-- The item that is stored under a key. -/
def storedItem (db : Store Value) (p : Path) (k : Key) : Option (String × Bool) :=
  match db.get (p ++ [k, Keys.description]), db.get (p ++ [k, Keys.isSelected]) with
  | some (.string description), some (.bool selected) => some (description, selected)
  | _, _ => none

/-- The list that is stored under a key. -/
def storedList (uid : Key) (db : Store Value) (list : Key) : Option (String × Items) :=
  match db.get (listsPath uid ++ [list, Keys.description]) with
  | some (.string description) => some (description, byName (storedItem db (ownItems uid (some list))))
  | _ => none

/-- The lists that are stored for a user. -/
def contents (uid : Key) (db : Store Value) : OwnLists where
  feed := byName (storedItem db (ownItems uid none))
  lists := byName (storedList uid db)

section

variable {α : Type*} (f : Key → Option α) (k : Key)

/-- At the name of a key, what the key has. -/
@[simp] theorem byName_key : byName f k.1 = f k := dif_pos k.2

/-- Changing what is stored under a key changes it under its name. -/
theorem byName_update (a : Option α) :
    byName (Function.update f k a) = Function.update (byName f) k.1 a := by
  funext name
  by_cases hname : name = k.1
  · subst hname
    rw [byName_key, Function.update_self, Function.update_self]
  · rw [Function.update_of_ne hname]
    unfold byName
    split
    · next legal =>
      have hkey : (⟨name, legal⟩ : Key) ≠ k := fun hsame => hname (congrArg Subtype.val hsame)
      exact Function.update_of_ne hkey _ _
    · rfl

end

/-! ### Writes -/

section

variable {uid : Key} {db db' : Store Value} {p : Path} {k : Key} {w : Write Value}

/-- The items depend on what is stored below their location. -/
theorem storedItem_congr (hsame : ∀ q, db'.get (p ++ q) = db.get (p ++ q)) :
    storedItem db' p = storedItem db p := by
  funext k
  simp only [storedItem, hsame]

/-- What lies beside a child of a location is not reached by a write below the child. -/
theorem get_beside (hw : p ++ [k] <+: w.location) {l : Key} (hl : l ≠ k) (q : Path) :
    (w.apply db).get (p ++ l :: q) = db.get (p ++ l :: q) := by
  obtain ⟨rest, hrest⟩ := hw
  apply get_apply_of_apart
  rw [← hrest, List.append_assoc, apart_append_left]
  exact apart_of_ne (Ne.symm hl) _ _

/-- A write at one item leaves the others. -/
theorem storedItem_apply (hw : p ++ [k] <+: w.location) :
    storedItem (w.apply db) p = Function.update (storedItem db p) k (storedItem (w.apply db) p k) := by
  funext l
  by_cases hl : l = k
  · rw [hl, Function.update_self]
  · rw [Function.update_of_ne hl]
    simp only [storedItem, get_beside hw hl]

/-- A write at one list leaves the others. -/
theorem storedList_apply (hw : listsPath uid ++ [k] <+: w.location) :
    storedList uid (w.apply db) =
      Function.update (storedList uid db) k (storedList uid (w.apply db) k) := by
  funext list
  by_cases hl : list = k
  · rw [hl, Function.update_self]
  · rw [Function.update_of_ne hl]
    have hitems : storedItem (w.apply db) (ownItems uid (some list)) =
        storedItem db (ownItems uid (some list)) :=
      storedItem_congr fun q => get_beside hw hl (Keys.items :: q)
    simp only [storedList, get_beside hw hl, hitems]

/-- A write among the lists leaves the own list of the user. -/
theorem contents_of_lists (hw : listsPath uid <+: w.location) :
    contents uid (w.apply db) = { contents uid db with lists := byName (storedList uid (w.apply db)) } := by
  obtain ⟨rest, hrest⟩ := hw
  have hfeed : storedItem (w.apply db) (ownItems uid none) = storedItem db (ownItems uid none) := by
    refine storedItem_congr fun q => ?_
    apply get_apply_of_apart
    rw [← hrest]
    exact apart_field _ _ _ (by decide) _ _
  simp only [contents, hfeed]

/-- A write in the own list of the user leaves the others. -/
theorem contents_of_feed (hw : ownItems uid none <+: w.location) :
    contents uid (w.apply db) =
      { contents uid db with feed := byName (storedItem (w.apply db) (ownItems uid none)) } := by
  obtain ⟨rest, hrest⟩ := hw
  have hlists : storedList uid (w.apply db) = storedList uid db := by
    have hsame (q : Path) : (w.apply db).get (listsPath uid ++ q) = db.get (listsPath uid ++ q) := by
      apply get_apply_of_apart
      rw [← hrest]
      exact apart_field _ _ _ (by decide) _ _
    funext list
    have hitems : storedItem (w.apply db) (ownItems uid (some list)) =
        storedItem db (ownItems uid (some list)) :=
      storedItem_congr fun q => hsame (list :: Keys.items :: q)
    simp only [storedList, hsame, hitems]
  simp only [contents, hlists]

/-- A write at an item changes the items of its list. -/
theorem contents_item {list : Option Key} (hw : ownItems uid list ++ [k] <+: w.location) {f : Items → Items}
    (hf : f (byName (storedItem db (ownItems uid list))) =
      Function.update (byName (storedItem db (ownItems uid list))) k.1
        (storedItem (w.apply db) (ownItems uid list) k)) :
    contents uid (w.apply db) = (contents uid db).onItems (list.map Subtype.val) f := by
  have hitems : byName (storedItem (w.apply db) (ownItems uid list)) =
      f (byName (storedItem db (ownItems uid list))) := by
    rw [hf, storedItem_apply hw, byName_update, Function.update_self]
  cases list with
  | none =>
    rw [contents_of_feed ((List.prefix_append _ _).trans hw), hitems]
    rfl
  | some list =>
    have hlist : listsPath uid ++ [list] <+: w.location :=
      (List.prefix_append _ [Keys.items, k]).trans hw
    have hdescription : (w.apply db).get (listsPath uid ++ [list, Keys.description]) =
        db.get (listsPath uid ++ [list, Keys.description]) := by
      obtain ⟨rest, hrest⟩ := hw
      apply get_apply_of_apart
      rw [← hrest]
      have hfield : Keys.items ≠ Keys.description := by decide
      exact (apart_append_left (listsPath uid) (list :: Keys.items :: k :: rest) _).mpr
        ((apart_cons _ _ _).mpr (apart_of_ne hfield _ _))
    have hstored : storedList uid (w.apply db) list =
        (storedList uid db list).map fun entry => (entry.1, f entry.2) := by
      simp only [storedList, hdescription, hitems]
      split <;> rfl
    rw [contents_of_lists ((List.prefix_append _ _).trans hlist), storedList_apply hlist, hstored,
      byName_update]
    simp [OwnLists.onItems, contents]

/-- What is readable below a location is exactly what is stored there. -/
theorem storedItem_of_mem (h : Each (HasFields itemFields) db p) (hk : k ∈ db.children p) :
    ∃ description selected, db.get (p ++ [k, Keys.description]) = some (.string description) ∧
      db.get (p ++ [k, Keys.isSelected]) = some (.bool selected) ∧
      storedItem db p k = some (description, selected) := by
  have hdescription : (Keys.description, IsString) ∈ itemFields := by simp [itemFields]
  have hselected : (Keys.isSelected, IsBool) ∈ itemFields := by simp [itemFields]
  obtain ⟨_, hget, description, rfl⟩ := h k hk _ hdescription
  obtain ⟨_, hget', selected, rfl⟩ := h k hk _ hselected
  rw [List.append_assoc, List.singleton_append] at hget hget'
  refine ⟨description, selected, hget, hget', ?_⟩
  simp only [storedItem, hget, hget']

/-- Where nothing is stored there is no item. -/
theorem storedItem_of_not_mem (hk : k ∉ db.children p) : storedItem db p k = none := by
  have hnone (q : Path) : db.get (p ++ k :: q) = none := by
    cases hget : db.get (p ++ k :: q) with
    | none => rfl
    | some v => exact absurd ((Store.mem_children _ _ _).mpr ⟨q, v, hget⟩) hk
  simp only [storedItem, hnone]

/-- An item that is added is stored unchecked. -/
theorem contents_insert (list : Option Key) (item : Key) (description : String) :
    contents uid ((insertItem uid list item description).apply db) =
      (contents uid db).change (.add (list.map Subtype.val) item.1 description) := by
  have hfields : ([([Keys.description], str description), ([Keys.isSelected], bool false)] :
      List (Path × Store Value)).Pairwise fun a b => Apart a.1 b.1 := by
    simp +decide [List.pairwise_cons]
  have hdescription : ((insertItem uid list item description).apply db).get
      (ownItems uid list ++ [item, Keys.description]) = some (.string description) := by
    have hget := get_update_of_mem hfields List.mem_cons_self (ownItems uid list ++ [item]) [] db
    rw [List.append_nil, List.append_assoc] at hget
    exact hget
  have hselected : ((insertItem uid list item description).apply db).get
      (ownItems uid list ++ [item, Keys.isSelected]) = some (.bool false) := by
    have hget := get_update_of_mem hfields (List.mem_cons_of_mem _ List.mem_cons_self)
      (ownItems uid list ++ [item]) [] db
    rw [List.append_nil, List.append_assoc] at hget
    exact hget
  rw [OwnLists.change]
  apply contents_item (List.prefix_refl _)
  simp only [storedItem, hdescription, hselected]

/-- A tap sets the check mark of an item that is stored. -/
theorem contents_flag {list : Option Key} {item : Key} (h : Each (HasFields itemFields) db (ownItems uid list))
    (hitem : item ∈ db.children (ownItems uid list)) (selected : Bool) :
    contents uid ((flagItem uid list item selected).apply db) =
      (contents uid db).change (.mark (list.map Subtype.val) item.1 selected) := by
  obtain ⟨description, before, hdescription, -, hstored⟩ := storedItem_of_mem h hitem
  have hflag : ((flagItem uid list item selected).apply db).get
      (ownItems uid list ++ [item, Keys.isSelected]) = some (.bool selected) := by
    have hget := get_update_leaf (ownItems uid list ++ [item]) [Keys.isSelected] (.bool selected) db
    rwa [List.append_assoc] at hget
  have hkept : ((flagItem uid list item selected).apply db).get
      (ownItems uid list ++ [item, Keys.description]) = some (.string description) := by
    rw [← hdescription]
    apply get_update_of_apart
    intro entry hentry
    rw [List.mem_singleton.mp hentry, List.append_assoc, apart_append_left, List.singleton_append, apart_cons]
    exact apart_of_ne (by decide) _ _
  have hafter : storedItem ((flagItem uid list item selected).apply db) (ownItems uid list) item =
      some (description, selected) := by
    simp only [storedItem, hkept, hflag]
  rw [OwnLists.change]
  apply contents_item (List.prefix_refl _)
  simp only [byName_key, hstored, hafter, Option.map_some]

/-- A deletion removes the item. -/
theorem contents_removeItem (list : Option Key) (item : Key) :
    contents uid ((Write.remove (ownItems uid list ++ [item])).apply db) =
      (contents uid db).change (.delete (list.map Subtype.val) item.1) := by
  rw [OwnLists.change]
  apply contents_item (List.prefix_refl _)
  rw [storedItem_of_not_mem]
  intro hitem
  obtain ⟨r, v, hv⟩ := (Store.mem_children _ _ _).mp hitem
  rw [Write.apply, Store.get_remove_eq_some_iff] at hv
  exact hv.1 ⟨r, by simp⟩

/-- The deletion of all items leaves none. -/
theorem contents_removeAllItems :
    contents uid ((Write.remove (ownItems uid none)).apply db) = (contents uid db).change .deleteAll := by
  have hnone : byName (storedItem ((Write.remove (ownItems uid none)).apply db) (ownItems uid none)) =
      fun _ => none := by
    funext name
    unfold byName
    split
    · apply storedItem_of_not_mem
      intro hitem
      obtain ⟨r, v, hv⟩ := (Store.mem_children _ _ _).mp hitem
      rw [Write.apply, Store.get_remove_eq_some_iff] at hv
      exact hv.1 (List.prefix_append _ _)
    · rfl
  rw [contents_of_feed (List.prefix_refl _), hnone]
  rfl

/-- A list that is created keeps the items that are stored under its title. -/
theorem contents_createList (h : OwnReadable uid db) (listName : Key) (description : String) :
    contents uid ((createListWrite uid listName description).apply db) =
      (contents uid db).change (.createList listName.1 description) := by
  have hentries : ([([Keys.description], str description), ([Keys.listCount], int 0),
      ([Keys.listCheckCount], int 0)] : List (Path × Store Value)).Pairwise fun a b => Apart a.1 b.1 := by
    simp +decide [List.pairwise_cons]
  have hdescription : ((createListWrite uid listName description).apply db).get
      (listsPath uid ++ [listName, Keys.description]) = some (.string description) := by
    have hget := get_update_of_mem hentries List.mem_cons_self (listsPath uid ++ [listName]) [] db
    rw [List.append_nil, List.append_assoc] at hget
    exact hget
  have hitems : storedItem ((createListWrite uid listName description).apply db)
      (ownItems uid (some listName)) = storedItem db (ownItems uid (some listName)) := by
    refine storedItem_congr fun q => ?_
    apply get_update_of_apart
    intro entry hentry
    have hpath : ownItems uid (some listName) ++ q = (listsPath uid ++ [listName]) ++ Keys.items :: q := rfl
    rw [hpath, apart_append_left]
    simp only [List.mem_cons, List.not_mem_nil, or_false] at hentry
    rcases hentry with rfl | rfl | rfl <;> exact apart_of_ne (by decide) _ _
  have hbefore : ((storedList uid db listName).map Prod.snd).getD (fun _ => none) =
      byName (storedItem db (ownItems uid (some listName))) := by
    by_cases hlist : listName ∈ db.children (listsPath uid)
    · have hfield : (Keys.description, IsString) ∈ listFields := by simp [listFields]
      obtain ⟨_, hget, text, rfl⟩ := (h.lists listName hlist).1 _ hfield
      rw [List.append_assoc, List.singleton_append] at hget
      simp only [storedList, hget]
      rfl
    · have hnone (q : Path) : db.get (listsPath uid ++ listName :: q) = none := by
        cases hget : db.get (listsPath uid ++ listName :: q) with
        | none => rfl
        | some v => exact absurd ((Store.mem_children _ _ _).mpr ⟨q, v, hget⟩) hlist
      have hstored : byName (storedItem db (ownItems uid (some listName))) = fun _ => none := by
        funext name
        unfold byName
        split
        · apply storedItem_of_not_mem
          intro hitem
          obtain ⟨r, v, hv⟩ := (Store.mem_children _ _ _).mp hitem
          have hsome := (hnone (Keys.items :: _ :: r)).symm.trans hv
          contradiction
        · rfl
      simp only [storedList, hnone, hstored]
      rfl
  have hstored : storedList uid ((createListWrite uid listName description).apply db) listName =
      some (description, byName (storedItem db (ownItems uid (some listName)))) := by
    simp only [storedList, hdescription, hitems]
  rw [contents_of_lists (List.prefix_append _ _), storedList_apply (List.prefix_refl _), hstored,
    byName_update, ← hbefore]
  simp [OwnLists.change, contents]

/-- The deletion of a list removes it with its items. -/
theorem contents_removeList (listTitle : Key) :
    contents uid ((Write.remove (listsPath uid ++ [listTitle])).apply db) =
      (contents uid db).change (.deleteList listTitle.1) := by
  have hstored : storedList uid ((Write.remove (listsPath uid ++ [listTitle])).apply db) listTitle = none := by
    have hnone : ((Write.remove (listsPath uid ++ [listTitle])).apply db).get
        (listsPath uid ++ [listTitle, Keys.description]) = none := by
      rw [Write.apply, Store.get_remove, if_pos ⟨[Keys.description], by simp⟩]
    simp only [storedList, hnone]
  rw [contents_of_lists (List.prefix_append _ _), storedList_apply (List.prefix_refl _), hstored,
    byName_update]
  rfl

/-- An adjustment of a counter changes no list. -/
theorem contents_count (list : Key) (counter : ListCounter) (n : ℤ) :
    contents uid ((Write.update (listsPath uid ++ [list]) [([counter.field], int n)]).apply db) =
      contents uid db := by
  have hframe {q : Path} (hq : Apart [counter.field] q) :
      ((Write.update (listsPath uid ++ [list]) [([counter.field], int n)]).apply db).get
        (listsPath uid ++ list :: q) = db.get (listsPath uid ++ list :: q) := by
    apply get_update_of_apart
    intro entry hentry
    have hpath : listsPath uid ++ list :: q = (listsPath uid ++ [list]) ++ q := by simp
    rw [List.mem_singleton.mp hentry, hpath, apart_append_left]
    exact hq
  have hitems : storedItem ((Write.update (listsPath uid ++ [list]) [([counter.field], int n)]).apply db)
      (ownItems uid (some list)) = storedItem db (ownItems uid (some list)) := by
    refine storedItem_congr fun q => hframe ?_
    cases counter <;> exact apart_of_ne (by decide) _ _
  have hdescription : Apart [counter.field] [Keys.description] := by
    cases counter <;> exact apart_of_ne (by decide) _ _
  have hstored : storedList uid
      ((Write.update (listsPath uid ++ [list]) [([counter.field], int n)]).apply db) list =
        storedList uid db list := by
    simp only [storedList, hframe hdescription, hitems]
  rw [contents_of_lists (List.prefix_append _ _), storedList_apply (List.prefix_refl _), hstored,
    Function.update_eq_self]
  rfl

end

/-! ### Loads -/

/-- The rows show exactly the items, one row for each. -/
def ShowsItems (items : Items) (rows : List (String × String × Bool)) : Prop :=
  (rows.map Prod.fst).Nodup ∧ ∀ name description selected,
    (name, description, selected) ∈ rows ↔ items name = some (description, selected)

/-- The rows show exactly the lists, with their descriptions. -/
def ShowsLists (lists : String → Option (String × Items)) (rows : List (String × String)) : Prop :=
  (rows.map Prod.fst).Nodup ∧ ∀ title description,
    (title, description) ∈ rows ↔ (lists title).map Prod.fst = some description

/-- Whatever is loaded for a user in a state is what the lists contain. -/
def LoadsExactly (uid : Key) (db : Store Value) (s : OwnLists) : Prop :=
  (∃ rows, feedRows (db.snapshot (ownItems uid none)) = some rows ∧
    ShowsItems s.feed (rows.map fun row => (row.item, row.description, row.isSelected))) ∧
  (∃ rows, listRows (db.snapshot (listsPath uid)) = some rows ∧
    ShowsLists s.lists (rows.map fun row => (row.listTitle, row.listDescription))) ∧
  ∀ list : Key, ∀ entry ∈ s.lists list.1, ∃ rows,
    itemRows (db.snapshot (ownItems uid (some list))) = some rows ∧
      ShowsItems entry.2 (rows.map fun row => (row.item, row.description, row.isSelected))

section

variable {uid : Key} {db : Store Value} {p : Path}

/-- One row for each key, in the order of the keys, when each of them is mapped to a row. -/
theorem mapM_children_eq {α : Type} {f : Snapshot Value → Option α} {row : Key → α}
    (h : ∀ k ∈ db.children p, f ⟨k.1, (db.sub p).sub [k]⟩ = some (row k)) :
    (db.snapshot p).children.mapM f = some ((db.children p).map row) := by
  rw [Snapshot.children_snapshot]
  generalize db.children p = keys at h
  induction keys with
  | nil => rfl
  | cons k keys ih =>
    have hrest := ih fun l hl => h l (List.mem_cons_of_mem _ hl)
    rw [List.map_cons, List.mapM_cons, h k List.mem_cons_self, hrest]
    rfl

/-- Readable items are loaded as they are stored. -/
theorem exists_itemRows {α : Type} (row : String → String → Bool → α)
    (h : Each (HasFields itemFields) db p) :
    ∃ entry : Key → String × Bool, (∀ k ∈ db.children p, storedItem db p k = some (entry k)) ∧
      (db.snapshot p).children.mapM (fun item => do
        let description ← asString (item.childSnapshot "description")
        let selected ← asBool (item.childSnapshot "isSelected")
        some (row item.key description selected)) =
        some ((db.children p).map fun k => row k.1 (entry k).1 (entry k).2) := by
  refine ⟨fun k => (storedItem db p k).getD ("", false), fun k hk => ?_, mapM_children_eq fun k hk => ?_⟩
  · obtain ⟨description, selected, -, -, hstored⟩ := storedItem_of_mem h hk
    simp [hstored]
  · obtain ⟨description, selected, hdescription, hselected, hstored⟩ := storedItem_of_mem h hk
    have hname : parsePath "description" = some [Keys.description] := by simp
    have hstring := asString_child hname hdescription
    have hbool : asBool (Snapshot.childSnapshot ⟨k.1, (db.sub p).sub [k]⟩ "isSelected") = some selected := by
      apply (asBool_eq_some_iff _ _).mpr
      rwa [Snapshot.value_childSnapshot_child db p [Keys.isSelected] k (by simp)]
    simp only [hstring, hbool, hstored]
    rfl

/-- Rows of the stored items show exactly what is stored. -/
theorem showsItems_map {entry : Key → String × Bool}
    (hentry : ∀ k ∈ db.children p, storedItem db p k = some (entry k)) :
    ShowsItems (byName (storedItem db p)) ((db.children p).map fun k => (k.1, (entry k).1, (entry k).2)) := by
  constructor
  · rw [List.map_map]
    exact (Store.nodup_children db p).map Subtype.val_injective
  · intro name description selected
    rw [List.mem_map]
    constructor
    · rintro ⟨k, hk, hrow⟩
      simp only [Prod.mk.injEq] at hrow
      obtain ⟨rfl, rfl, rfl⟩ := hrow
      rw [byName_key]
      exact hentry k hk
    · intro hname
      unfold byName at hname
      split at hname
      · next legal =>
        have hk : (⟨name, legal⟩ : Key) ∈ db.children p := by
          by_contra habsent
          rw [storedItem_of_not_mem habsent] at hname
          contradiction
        have hsame := Option.some.inj ((hentry _ hk).symm.trans hname)
        exact ⟨⟨name, legal⟩, hk, by rw [hsame]⟩
      · contradiction

/-- Readable lists are loaded as they are stored. -/
theorem OwnReadable.loadsExactly (h : OwnReadable uid db) : LoadsExactly uid db (contents uid db) := by
  refine ⟨?_, ?_, fun list entry hentry => ?_⟩
  · obtain ⟨entry, hentry, hrows⟩ := exists_itemRows GroceryList.mk h.feed
    refine ⟨_, hrows, ?_⟩
    rw [List.map_map]
    exact showsItems_map hentry
  · have hdescription : (Keys.description, IsString) ∈ listFields := by simp [listFields]
    have hstored (list : Key) (hlist : list ∈ db.children (listsPath uid)) : ∃ description count checks,
        db.get (listsPath uid ++ [list, Keys.description]) = some (.string description) ∧
        (do
          let description ← asString
            (Snapshot.childSnapshot ⟨list.1, (db.sub (listsPath uid)).sub [list]⟩ "description")
          let listCount ← asInt
            (Snapshot.childSnapshot ⟨list.1, (db.sub (listsPath uid)).sub [list]⟩ "listCount")
          let listCheckCount ← asInt
            (Snapshot.childSnapshot ⟨list.1, (db.sub (listsPath uid)).sub [list]⟩ "listCheckCount")
          some (PersonalList.mk list.1 description listCount listCheckCount)) =
            some (PersonalList.mk list.1 description count checks) := by
      obtain ⟨hfields, -⟩ := h.lists list hlist
      obtain ⟨_, hget, description, rfl⟩ := hfields _ hdescription
      rw [List.append_assoc, List.singleton_append] at hget
      obtain ⟨count, hcount⟩ := exists_asInt hfields Keys.listCount "listCount" (by simp [listFields])
        (by simp)
      obtain ⟨checks, hchecks⟩ := exists_asInt hfields Keys.listCheckCount "listCheckCount"
        (by simp [listFields]) (by simp)
      have hname : parsePath "description" = some [Keys.description] := by simp
      have hstring := asString_child hname hget
      exact ⟨description, count, checks, hget, by simp [hstring, hcount, hchecks]⟩
    choose! description count checks hget hrow using hstored
    refine ⟨_, mapM_children_eq hrow, ?_⟩
    rw [List.map_map]
    constructor
    · rw [List.map_map]
      exact (Store.nodup_children db _).map Subtype.val_injective
    · intro title text
      rw [List.mem_map]
      constructor
      · rintro ⟨list, hlist, hsame⟩
        simp only [Function.comp_apply, Prod.mk.injEq] at hsame
        obtain ⟨rfl, rfl⟩ := hsame
        simp [contents, storedList, hget list hlist]
      · intro htitle
        simp only [contents] at htitle
        unfold byName at htitle
        split at htitle
        · next legal =>
          have hlist : (⟨title, legal⟩ : Key) ∈ db.children (listsPath uid) := by
            by_contra habsent
            cases hstored : db.get (listsPath uid ++ [⟨title, legal⟩, Keys.description]) with
            | none => simp [storedList, hstored] at htitle
            | some v => exact habsent ((Store.mem_children _ _ _).mpr ⟨_, v, hstored⟩)
          refine ⟨⟨title, legal⟩, hlist, ?_⟩
          simpa [storedList, hget _ hlist] using htitle
        · contradiction
  · simp only [contents, byName_key, storedList, Option.mem_def] at hentry
    split at hentry
    · obtain rfl := Option.some.inj hentry
      obtain ⟨entry, hstored, hrows⟩ := exists_itemRows PersonalGroceryList.mk (h.items list)
      refine ⟨_, hrows, ?_⟩
      rw [List.map_map]
      exact showsItems_map hstored
    · contradiction

end

/-! ### Every run -/

section

variable {uid : Key} {screens : OwnScreens} {d : OwnDevice}

/-- An event that finds its records changes the lists as it was asked to. -/
theorem contents_effect {call : OwnCall} {w : Option (Write Value)} {reads : List OwnRead}
    (h : OwnReadable uid d.db) (heffect : call.Effect uid screens d.mem w reads)
    (hfinds : FindsRecords uid screens d (.call call)) :
    contents uid (w.elim d.db (·.apply d.db)) =
      (call.requested screens d.mem).toList.foldl OwnLists.change (contents uid d.db) := by
  cases heffect with
  | feedAppears => rfl
  | selectItem hrow hitem =>
    simp only [FindsRecords, hrow, Option.mem_def, Option.some.injEq, forall_eq', hitem,
      rowStored_iff] at hfinds
    simp only [OwnCall.requested, hrow, Option.map_some, hitem]
    exact contents_flag h.feed hfinds _
  | selectNoItem hrow => simp [OwnCall.requested, hrow]
  | @deleteItem _ _ item hrow hitem =>
    simp only [OwnCall.requested, hrow, Option.map_some, hitem]
    exact contents_removeItem none item
  | deleteNoItem hrow => simp [OwnCall.requested, hrow]
  | deleteAllItems => exact contents_removeAllItems
  | addAppears screen => rfl
  | @addItem screen item description haccepted havailable =>
    simp only [OwnCall.requested, haccepted, havailable, or_self, if_false]
    exact contents_insert _ item description
  | addTaken description htaken => simp [OwnCall.requested, htaken]
  | addRefused screen description hrefused => simp [OwnCall.requested, hrefused]
  | listsAppear => rfl
  | @createList listName description haccepted =>
    simp only [OwnCall.requested, if_neg haccepted]
    exact contents_createList h listName description
  | createRefused description hrefused => simp [OwnCall.requested, hrefused]
  | deleteList listTitle => exact contents_removeList listTitle
  | listAppears screen => rfl
  | @selectPersonalItem screen _ _ item hrow hitem =>
    simp only [FindsRecords, hrow, Option.mem_def, Option.some.injEq, forall_eq', hitem,
      rowStored_iff] at hfinds
    simp only [OwnCall.requested, hrow, Option.map_some, hitem]
    exact contents_flag (h.items _) hfinds _
  | selectNoPersonalItem hrow => simp [OwnCall.requested, hrow]
  | @deletePersonalItem screen _ _ item hrow hitem =>
    simp only [OwnCall.requested, hrow, Option.map_some, hitem]
    exact contents_removeItem (some (screens.list screen)) item
  | deleteNoPersonalItem hrow => simp [OwnCall.requested, hrow]

/-- An answer changes no list. -/
theorem contents_answer {read : OwnRead} {p : Path} {callback : Snapshot Value → Prog OwnMem Value}
    (hregistered : read.registered uid screens = (p, callback)) (i : ℕ) :
    contents uid (Device.exec (callback (d.db.snapshot p)) { d with reads := d.reads.eraseIdx i }).db =
      contents uid d.db := by
  have hcallback : callback = (read.registered uid screens).2 := by rw [hregistered]
  have hp : p = (read.registered uid screens).1 := by rw [hregistered]
  rw [hcallback, hp]
  by_cases hcount : ∀ list counter delta, read ≠ .count list counter delta
  · rcases read.answer_reload uid screens hcount d.db with htrap | ⟨f, hf, -⟩
    · rw [htrap]
      rfl
    · rw [hf]
      rfl
  · push Not at hcount
    obtain ⟨list, counter, delta, rfl⟩ := hcount
    simp only [OwnRead.registered]
    cases asInt (d.db.snapshot (listsPath uid ++ [list, counter.field])) with
    | none => rfl
    | some n =>
      rw [Prog.force_some]
      cases addInt n delta with
      | none => rfl
      | some adjusted => exact contents_count list counter adjusted

end

/-- Along every run in which the names that are entered are keys, no counter runs out of an `Int`, and the
events find their records, what is stored is what the user has asked for, whatever the order of the answers,
and in every state a load shows exactly that. -/
theorem own_lists_refine (uid : Key) (screens : OwnScreens) {db : Store Value} (h : OwnReadable uid db)
    {events : List (DeviceEvent OwnCall)} {d : OwnDevice}
    (hfinds : Machine.Throughout (Device.step (OwnCall.code uid screens))
      (fun d e => Regular d e ∧ FindsRecords uid screens d e) (OwnDevice.launched db) events)
    (hrun : events.foldlM (Device.step (OwnCall.code uid screens)) (OwnDevice.launched db) = some d) :
    LoadsExactly uid d.db ((Machine.operations (Device.step (OwnCall.code uid screens)) (requestedBy screens)
      (OwnDevice.launched db) events).foldl OwnLists.change (contents uid db)) := by
  have hstart : (OwnDevice.launched db).Own uid screens ∧ (OwnDevice.launched db).Loads uid := by
    refine ⟨⟨⟨fun row hrow => ?_, fun screen row hrow => ?_⟩, [], rfl, by simp⟩, rfl, h⟩
    · contradiction
    · contradiction
  have hstep : ∀ (d : OwnDevice) (e : DeviceEvent OwnCall) (next : OwnDevice),
      d.Own uid screens ∧ d.Loads uid → Regular d e ∧ FindsRecords uid screens d e →
      d.step (OwnCall.code uid screens) e = some next →
      (next.Own uid screens ∧ next.Loads uid) ∧
        contents uid next.db = (requestedBy screens d e).toList.foldl OwnLists.change (contents uid d.db) := by
    intro d e next hinv ⟨hregular, hfound⟩ hnext
    obtain ⟨hown, hloads⟩ := hinv
    refine ⟨⟨hown.step hregular hnext, (hloads.step_iff hown hregular hnext).mpr hfound⟩, ?_⟩
    obtain ⟨-, ⟨call, rfl, rfl⟩ | ⟨i, p, callback, rfl, hread, rfl⟩⟩ := Device.step_eq_some hnext
    · obtain ⟨w, registered, heffect, hexec⟩ := OwnCall.exec_code uid screens hown.rows hregular
      rw [hexec]
      exact contents_effect hloads.2 heffect hfound
    · obtain ⟨reads, hreads, -⟩ := hown.reads
      obtain ⟨read, -, hregistered⟩ : ∃ read, reads[i]? = some read ∧
          read.registered uid screens = (p, callback) := by
        simpa [hreads] using hread
      exact contents_answer hregistered i
  obtain ⟨⟨-, hloads⟩, hcontents⟩ :=
    Machine.refines (I := fun d : OwnDevice => d.Own uid screens ∧ d.Loads uid) hstep hstart hfinds hrun
  have hexactly := hloads.2.loadsExactly
  rwa [hcontents] at hexactly

/-- An add and a check-off of the own list. -/
theorem own_lists_refine_addAndCheck : ∃ d : OwnDevice,
    addAndCheck.foldlM (Device.step (OwnCall.code Sample.uidA oneListOpen)) (OwnDevice.launched .empty) =
      some d ∧
    LoadsExactly Sample.uidA d.db
      (((contents Sample.uidA .empty).change (.add none "milk" "")).change (.mark none "milk" true)) := by
  have hrequested : Machine.operations (Device.step (OwnCall.code Sample.uidA oneListOpen))
      (requestedBy oneListOpen) (OwnDevice.launched .empty) addAndCheck =
        [.add none "milk" "", .mark none "milk" true] := by
    decide +kernel
  have hreached : (addAndCheck.foldlM (Device.step (OwnCall.code Sample.uidA oneListOpen))
      (OwnDevice.launched .empty)).isSome := by
    decide +kernel
  obtain ⟨d, hd⟩ := Option.isSome_iff_exists.mp hreached
  have hexactly := own_lists_refine Sample.uidA oneListOpen ⟨Each.empty _ _, Each.empty _ _⟩
    (by decide +kernel) hd
  rw [hrequested] at hexactly
  exact ⟨d, hd, hexactly⟩

end GroceryListApp

import GroceryListApp.Controller.RowActions
import GroceryListApp.Groups.Items
import GroceryListApp.Realtime.Refresh

/-!
# The screen of a group

The screen of a group loads the items and the members when it appears, and an observer of the group loads
both again on every change, by this client or another one. A row action writes to the item that the row
shows, reads a counter whose callback writes it back, and loads the items. Each time it appears the screen
leaves one more observer, and reads are answered in any order; still the screen shows what is stored
whenever everything has been delivered.

The screen aborts where something cannot be cast: an item, the name of the user, a counter that a row action
adjusts; and where the name is cut out of a label that has none.
-/

namespace GroceryListApp

open Realtime

/-- The variables of the screen of a group. -/
structure GroupScreenMem where
  groupListArray : List GroupList
  groupMembersLbl : String
  groupMembersArray : List String
  currentUser : String

namespace GroupGroceryListVC

/-- Loads the members, as an array and as a label. -/
def reloadUsernames (group : Key) : Prog GroupScreenMem Value :=
  getUsernamesFor group fun returnedUsernames => .modify (fun m =>
    { m with groupMembersLbl := ", ".intercalate returnedUsernames, groupMembersArray := returnedUsernames }) .done

/-- Loads the items. -/
def reloadGroupList (group : Key) : Prog GroupScreenMem Value :=
  getAllGroupLists group fun returnedGroupListArray =>
    .modify (fun m => { m with groupListArray := returnedGroupListArray }) .done

/-- Loads the name of the user. -/
def getCurrentUsername (userUID : Key) : Prog GroupScreenMem Value :=
  printUsername userUID fun returnedUsername =>
    .modify (fun m => { m with currentUser := returnedUsername }) .done

/-- The callback of the observer that `viewWillAppear` leaves on the group. -/
def groupChanged (group : Key) : Prog GroupScreenMem Value :=
  .block [reloadGroupList group, reloadUsernames group]

/-- What the user does on the screen. A row is swiped for its actions before one of them is tapped. -/
inductive Call where
  | viewDidAppear
  | editActionsForRowAt (row : ℕ)
  | uncheckAction (row : ℕ)
  | deleteAction (row : ℕ)
  | markOffAction (row : ℕ)

/-- The guard of the row actions: the cell of the row, if there is still one. -/
def withSelectedCell (row : ℕ) (handler : GroupGroceryListCell → Prog GroupScreenMem Value) :
    Prog GroupScreenMem Value :=
  .inspect fun m => match m.groupListArray[row]? with
    | none => .done
    | some groupList => handler (configureCell groupList)

/-- The program of what the user does. -/
def code (group userUID : Key) : Call → Prog GroupScreenMem Value
  | .viewDidAppear => .block [getCurrentUsername userUID, reloadUsernames group, reloadGroupList group]
  | .editActionsForRowAt row => .inspect fun m => .force (m.groupListArray[row]?) fun groupList =>
      .force (editActionsForRowAt m.currentUser m.groupMembersArray (configureCell groupList)) fun _ => .done
  | .uncheckAction row => withSelectedCell row fun selectedCell =>
      .block [uncheckUser group selectedCell.itemLbl, reloadGroupList group]
  | .deleteAction row => withSelectedCell row fun selectedCell =>
      .block [GroceryListApp.deleteAction group selectedCell.itemLbl selectedCell.checkmarkIsHidden,
        reloadGroupList group]
  | .markOffAction row => withSelectedCell row fun selectedCell => .inspect fun m =>
      .block [markeOffUser group selectedCell.itemLbl m.currentUser, reloadGroupList group]

/-- One event of the screen of a group. The observer notices the changes below its group. -/
def step (group userUID : Key) (s : Screen GroupScreenMem Value) (e : ScreenEvent Call Value) :
    Option (Screen GroupScreenMem Value) :=
  s.step (fun db db' => ¬ SameBelow [Keys.groups, group] db db') (groupChanged group) (code group userUID) e

/-- The screen shows the items and the members that are stored. -/
def ShowsStored (group : Key) (s : Screen GroupScreenMem Value) : Prop :=
  groupRows (s.device.db.snapshot [Keys.groups, group, Keys.groceryList]).children =
      some s.device.mem.groupListArray ∧
    s.device.mem.groupMembersArray = (s.device.db.children (membersPath group)).map (·.1) ∧
    s.device.mem.groupMembersLbl = ", ".intercalate s.device.mem.groupMembersArray

/-! ### The parts of the screen -/

/-- The items. -/
def listView (group : Key) : View GroupScreenMem Value where
  location := [Keys.groups, group, Keys.groceryList]
  fill snapshot := (groupRows snapshot.children).map fun rows m => { m with groupListArray := rows }
  idem snapshot f m h := by
    obtain ⟨rows, -, rfl⟩ := Option.map_eq_some_iff.mp h
    rfl

/-- The members, as an array and as a label. -/
def membersView (group : Key) : View GroupScreenMem Value where
  location := membersPath group
  fill snapshot := some fun m =>
    { m with groupMembersLbl := ", ".intercalate (childKeys snapshot), groupMembersArray := childKeys snapshot }
  idem snapshot f m h := by
    obtain rfl := Option.some.inj h
    rfl

/-- The name of the user, which no observer loads again. -/
def userView (userUID : Key) : View GroupScreenMem Value where
  location := [Keys.users, userUID]
  fill snapshot := (asString (snapshot.childSnapshot "username")).map fun name m => { m with currentUser := name }
  idem snapshot f m h := by
    obtain ⟨name, -, rfl⟩ := Option.map_eq_some_iff.mp h
    rfl

/-- The parts of the screen. -/
def Part (group userUID : Key) (v : View GroupScreenMem Value) : Prop :=
  v = listView group ∨ v = membersView group ∨ v = userView userUID

section

variable {group userUID : Key}

/-- The items are loaded as a part of the screen. -/
theorem reloadGroupList_eq : reloadGroupList group = (listView group).reload := by
  simp [reloadGroupList, getAllGroupLists, REF_GROUPS, Ref.child, Ref.observeSingleEvent, View.reload,
    View.read, listView, Prog.force_map]

/-- The members are loaded as a part of the screen. -/
theorem reloadUsernames_eq : reloadUsernames group = (membersView group).reload := by
  simp [reloadUsernames, getUsernamesFor, REF_GROUPS, Ref.child, Ref.observeSingleEvent, View.reload,
    View.read, membersView, membersPath]

/-- The name of the user is loaded as a part of the screen. -/
theorem getCurrentUsername_eq : getCurrentUsername userUID = (userView userUID).reload := by
  simp [getCurrentUsername, printUsername, REF_USERS, Ref.observeSingleEvent, View.reload, View.read,
    userView, Prog.force_map]

/-- The observer loads two parts of the screen. -/
theorem groupChanged_eq : groupChanged group =
    .block ([listView group, membersView group].map View.reload) := by
  simp [groupChanged, reloadGroupList_eq, reloadUsernames_eq]

/-- A read beside the screen: of a counter that a row action adjusts in the callback. -/
def CounterRead (group : Key) (read : Path × (Snapshot Value → Prog GroupScreenMem Value)) : Prop :=
  ∃ key delta, (key = Keys.groupListCount ∨ key = Keys.groupListCheckCount) ∧ (delta = 1 ∨ delta = -1) ∧
    read = ([Keys.groups, group, key], fun snapshot => .force (asInt snapshot) fun n =>
      .force (addInt n delta) fun adjusted =>
        .write (.update [Keys.groups, group] [([key], int adjusted)]) .done)

/-- A program beside the screen: it registers reads of parts and of counters, and runs through where the
variables are fit for it. -/
structure Beside (group userUID : Key) (fit : GroupScreenMem → Prop) (p : Prog GroupScreenMem Value) :
    Prop where
  registers : p.Registers (Screen.Asks (Part group userUID) (CounterRead group))
  runs : ∀ m, fit m → p.Runs m

variable {fit : GroupScreenMem → Prop} {item : String}

/-- A sequence of programs beside the screen is one. -/
theorem Beside.seq {p q : Prog GroupScreenMem Value} (hp : Beside group userUID fit p)
    (hq : Beside group userUID fit q) : Beside group userUID fit (p.seq q) :=
  ⟨hp.registers.seq hq.registers,
    fun m hm => (hp.registers.runs_seq m).mpr ⟨hp.runs m hm, hq.runs m hm⟩⟩

/-- Loading a part is beside the screen. -/
theorem beside_reload {v : View GroupScreenMem Value} (hv : Part group userUID v) :
    Beside group userUID fit v.reload :=
  ⟨⟨Or.inl ⟨v, hv, rfl⟩, trivial⟩, fun _ _ => trivial⟩

/-- Adjusting a counter of the group registers its read. -/
theorem beside_adjustCount {field : String} {key : Key} (hfield : parsePath field = some [key])
    (hkey : key = Keys.groupListCount ∨ key = Keys.groupListCheckCount) {delta : ℤ}
    (hdelta : delta = 1 ∨ delta = -1) :
    Beside group userUID fit (adjustCount (REF_GROUPS.child group.1) field delta) := by
  have href : REF_GROUPS.child group.1 = some [Keys.groups, group] := by simp [REF_GROUPS]
  rw [href, adjustCount_eq _ hfield]
  exact ⟨⟨Or.inr ⟨key, delta, hkey, hdelta, rfl⟩, trivial⟩, fun _ _ => trivial⟩

/-- A write at an item, before a counter is adjusted, needs a legal name. -/
theorem beside_write {w : Path → Write Value} {next : Prog GroupScreenMem Value}
    (hnext : Beside group userUID (fun _ => LegalKey item) next) :
    Beside group userUID (fun _ => LegalKey item) (.force (parsePath item) fun name => .write (w name) next) := by
  refine ⟨Prog.registers_force fun _ => hnext.registers, fun m hitem => ?_⟩
  rw [parsePath_key ⟨item, hitem⟩, Prog.force_some]
  exact hnext.runs m hitem

/-- Unchecking an item with a legal name is beside the screen. -/
theorem beside_uncheckUser :
    Beside group userUID (fun _ => LegalKey item) (uncheckUser group.1 item) := by
  rw [uncheckUser_eq]
  exact beside_write (beside_adjustCount (by simp) (Or.inr rfl) (Or.inr rfl))

/-- Checking off an item with a legal name is beside the screen. -/
theorem beside_markeOffUser (username : String) :
    Beside group userUID (fun _ => LegalKey item) (markeOffUser group.1 item username) := by
  rw [markeOffUser_eq]
  exact beside_write (beside_adjustCount (by simp) (Or.inr rfl) (Or.inl rfl))

/-- Deleting an item with a legal name is beside the screen. -/
theorem beside_deleteAction (checkmarkIsHidden : Bool) :
    Beside group userUID (fun _ => LegalKey item) (GroceryListApp.deleteAction group item checkmarkIsHidden) := by
  have hremoved : Beside group userUID (fun _ => LegalKey item) (removeGroupItem group.1 item) := by
    rw [removeGroupItem_eq]
    exact beside_write (beside_adjustCount (by simp) (Or.inl rfl) (Or.inr rfl))
  rw [GroceryListApp.deleteAction, Prog.block_cons, Prog.block_cons, Prog.block_nil, Prog.seq_done]
  refine Beside.seq ?_ hremoved
  split
  · exact beside_adjustCount (by simp) (Or.inr rfl) (Or.inr rfl)
  · exact ⟨trivial, fun _ _ => trivial⟩

/-- The rows that are shown have names under which items can be stored. -/
def RowsNamed (m : GroupScreenMem) : Prop := ∀ row ∈ m.groupListArray, LegalKey row.item

/-- A row that is swiped is shown, and the names behind its labels are not empty. -/
def Call.Swipes (m : GroupScreenMem) : Call → Prop
  | .editActionsForRowAt row => match m.groupListArray[row]? with
    | none => False
    | some groupList => groupList.addedBy ≠ "" ∧ groupList.markedOffBy ≠ ""
  | _ => True

instance (m : GroupScreenMem) (t : Call) : Decidable (t.Swipes m) := by
  unfold Call.Swipes
  split
  · split <;> infer_instance
  · infer_instance

/-- What is done with the cell of a row is done beside the screen where the rows have names. -/
theorem beside_withSelectedCell {row : ℕ} {handler : GroupGroceryListCell → Prog GroupScreenMem Value}
    (hfit : ∀ m, fit m → RowsNamed m)
    (h : ∀ cell, Beside group userUID (fun _ => LegalKey cell.itemLbl) (handler cell)) :
    Beside group userUID fit (withSelectedCell row handler) := by
  refine ⟨fun m => ?_, fun m hm => ?_⟩
  · change Prog.Registers _ (match m.groupListArray[row]? with
      | none => .done
      | some groupList => handler (configureCell groupList))
    split
    · trivial
    · next groupList _ => exact (h (configureCell groupList)).registers
  · change Prog.Runs (match m.groupListArray[row]? with
      | none => .done
      | some groupList => handler (configureCell groupList)) m
    split
    · trivial
    · next groupList hrow =>
      exact (h (configureCell groupList)).runs m (hfit m hm groupList (List.mem_of_getElem? hrow))

/-- The actions of a row can be told where its labels hold names. -/
theorem beside_editActionsForRowAt (row : ℕ) :
    Beside group userUID (fun m => (Call.editActionsForRowAt row).Swipes m)
      (code group userUID (.editActionsForRowAt row)) := by
  refine ⟨fun m => Prog.registers_force fun _ => Prog.registers_force fun _ => trivial, fun m hm => ?_⟩
  simp only [Call.Swipes] at hm
  simp only [code, Prog.Runs]
  cases hrow : m.groupListArray[row]? with
  | none => simp [hrow] at hm
  | some groupList =>
    simp only [hrow] at hm
    simp [editActionsForRowAt, addedBy_configureCell, markedBy_configureCell, hm.1, hm.2, Prog.Runs]

/-- Everything that the user does is beside the screen, where the rows have names and a swiped row can be
swiped. -/
theorem beside_code (group userUID : Key) (t : Call) :
    Beside group userUID (fun m => RowsNamed m ∧ t.Swipes m) (code group userUID t) := by
  have hreload {fit : GroupScreenMem → Prop} : Beside group userUID fit (reloadGroupList group) :=
    reloadGroupList_eq ▸ beside_reload (Or.inl rfl)
  cases t with
  | viewDidAppear =>
    simp only [code, Prog.block_cons, Prog.block_nil, Prog.seq_done, getCurrentUsername_eq,
      reloadUsernames_eq]
    exact (beside_reload (Or.inr (Or.inr rfl))).seq ((beside_reload (Or.inr (Or.inl rfl))).seq hreload)
  | editActionsForRowAt row =>
    exact ⟨(beside_editActionsForRowAt row).registers,
      fun m hm => (beside_editActionsForRowAt row).runs m hm.2⟩
  | uncheckAction row =>
    simp only [code, Prog.block_cons, Prog.block_nil, Prog.seq_done]
    refine beside_withSelectedCell (fun m hm => hm.1) fun cell => ?_
    exact beside_uncheckUser.seq hreload
  | deleteAction row =>
    simp only [code, Prog.block_cons, Prog.block_nil, Prog.seq_done]
    refine beside_withSelectedCell (fun m hm => hm.1) fun cell => ?_
    exact (beside_deleteAction cell.checkmarkIsHidden).seq hreload
  | markOffAction row =>
    simp only [code, Prog.block_cons, Prog.block_nil, Prog.seq_done]
    refine beside_withSelectedCell (fun m hm => hm.1) fun cell => ?_
    exact ⟨fun m => ((beside_markeOffUser m.currentUser).seq hreload).registers,
      fun m hm => ((beside_markeOffUser m.currentUser).seq hreload).runs m hm⟩

/-- Only loads fill the screen. -/
theorem loadsOnly (group userUID : Key) :
    Screen.LoadsOnly (Part group userUID) (CounterRead group) (code group userUID) := by
  refine ⟨fun t => (beside_code group userUID t).registers, ?_⟩
  rintro _ ⟨key, delta, -, -, rfl⟩ snapshot
  exact Prog.registers_force fun _ => Prog.registers_force fun _ => trivial

/-- The parts are filled independently of the items. -/
theorem independent_listView {v : View GroupScreenMem Value} (h : Part group userUID v) :
    v = listView group ∨ (listView group).Independent v := by
  refine h.imp_right fun h => ?_
  intro s s' f f' hf hf' m
  obtain ⟨rows, -, rfl⟩ := Option.map_eq_some_iff.mp hf
  rcases h with rfl | rfl
  · obtain rfl := Option.some.inj hf'
    rfl
  · obtain ⟨name, -, rfl⟩ := Option.map_eq_some_iff.mp hf'
    rfl

/-- The parts are filled independently of the members. -/
theorem independent_membersView {v : View GroupScreenMem Value} (h : Part group userUID v) :
    v = membersView group ∨ (membersView group).Independent v := by
  rcases h with rfl | rfl | rfl
  · right
    intro s s' f f' hf hf' m
    obtain rfl := Option.some.inj hf
    obtain ⟨rows, -, rfl⟩ := Option.map_eq_some_iff.mp hf'
    rfl
  · exact Or.inl rfl
  · right
    intro s s' f f' hf hf' m
    obtain rfl := Option.some.inj hf
    obtain ⟨name, -, rfl⟩ := Option.map_eq_some_iff.mp hf'
    rfl

variable {db db' : Store Value}

/-- The rows depend on what is stored below the list. -/
theorem groupRows_congr {p : Path} (h : ∀ q, db'.get (p ++ q) = db.get (p ++ q)) :
    groupRows (db'.snapshot p).children = groupRows (db.snapshot p).children := by
  have hvalue (k : Key) {name : String} {key : Key} (hname : parsePath name = some [key]) :
      (Snapshot.childSnapshot ⟨k.1, (db'.sub p).sub [k]⟩ name).value =
        (Snapshot.childSnapshot ⟨k.1, (db.sub p).sub [k]⟩ name).value := by
    rw [Snapshot.value_childSnapshot_child db' p [key] k hname,
      Snapshot.value_childSnapshot_child db p [key] k hname, h]
  have hdescription : parsePath "description" = some [Keys.description] := by simp
  have hselected : parsePath "isSelected" = some [Keys.isSelected] := by simp
  have haddedBy : parsePath "added by" = some [Keys.addedBy] := by simp
  have hmarkedOffBy : parsePath "marked off by" = some [Keys.markedOffBy] := by simp
  rw [Snapshot.children_snapshot, Snapshot.children_snapshot, children_congr h]
  generalize db.children p = keys
  induction keys with
  | nil => rfl
  | cons k keys ih =>
    rw [groupRows, groupRows] at ih ⊢
    rw [List.map_cons, List.map_cons, List.mapM_cons, List.mapM_cons, ih]
    simp only [asString, asBool, hvalue k hdescription, hvalue k hselected, hvalue k haddedBy,
      hvalue k hmarkedOffBy]

/-- A change beside the group does not concern its items. -/
theorem fill_listView (h : SameBelow [Keys.groups, group] db db') :
    (listView group).fill (db'.snapshot (listView group).location) =
      (listView group).fill (db.snapshot (listView group).location) := by
  have hsame := (sameBelow_iff _ _ _).mp h
  simp only [listView]
  rw [groupRows_congr fun q => hsame (Keys.groceryList :: q)]

/-- A change beside the group does not concern its members. -/
theorem fill_membersView (h : SameBelow [Keys.groups, group] db db') :
    (membersView group).fill (db'.snapshot (membersView group).location) =
      (membersView group).fill (db.snapshot (membersView group).location) := by
  have hsame := (sameBelow_iff _ _ _).mp h
  have hchildren : db'.children (membersPath group) = db.children (membersPath group) :=
    children_congr fun q => hsame (Keys.members :: q)
  have hkeys : childKeys (db'.snapshot (membersPath group)) = childKeys (db.snapshot (membersPath group)) := by
    rw [childKeys, childKeys, Snapshot.children_snapshot, Snapshot.children_snapshot, hchildren]
    simp
  simp only [membersView, hkeys]

/-- A screen whose parts are current shows what is stored. -/
theorem showsStored_of_current {s : Screen GroupScreenMem Value}
    (hitems : (listView group).Current s.device.db s.device.mem)
    (hmembers : (membersView group).Current s.device.db s.device.mem) : ShowsStored group s := by
  obtain ⟨f, hf, hshown⟩ := hitems
  obtain ⟨rows, hrows, rfl⟩ := Option.map_eq_some_iff.mp hf
  obtain ⟨f', hf', hshown'⟩ := hmembers
  obtain rfl := Option.some.inj hf'
  have hlist : rows = s.device.mem.groupListArray := congrArg GroupScreenMem.groupListArray hshown
  have harray := congrArg GroupScreenMem.groupMembersArray hshown'
  have hlabel := congrArg GroupScreenMem.groupMembersLbl hshown'
  refine ⟨hlist ▸ hrows, ?_, ?_⟩
  · rw [← harray]
    simp [childKeys, Snapshot.children_snapshot, membersView]
  · rw [← hlabel, ← harray]

/-- The observer loads the items and the members again when something below the group changes. -/
theorem watches (group userUID : Key) : Screen.Watches (Part group userUID)
    (fun db db' => ¬ SameBelow [Keys.groups, group] db db') (groupChanged group)
    [listView group, membersView group] := by
  refine ⟨groupChanged_eq, by simp [Part], ?_⟩
  simp only [List.mem_cons, List.not_mem_nil, or_false, not_not]
  rintro u (rfl | rfl) db db' h
  · exact fill_listView h
  · exact fill_membersView h

/-- The rows that are loaded have names under which items can be stored. -/
theorem rowsNamed_fill {v : View GroupScreenMem Value} (hv : Part group userUID v) {f : GroupScreenMem → GroupScreenMem}
    {m : GroupScreenMem} (hf : v.fill (db.snapshot v.location) = some f) (hm : RowsNamed m) :
    RowsNamed (f m) := by
  rcases hv with rfl | rfl | rfl
  · obtain ⟨rows, hrows, rfl⟩ := Option.map_eq_some_iff.mp hf
    refine legalKey_of_mapM (fun child row hrow => ?_) hrows
    obtain ⟨_, -, hrow⟩ := Option.bind_eq_some_iff.mp hrow
    obtain ⟨_, -, hrow⟩ := Option.bind_eq_some_iff.mp hrow
    obtain ⟨_, -, hrow⟩ := Option.bind_eq_some_iff.mp hrow
    obtain ⟨_, -, hrow⟩ := Option.bind_eq_some_iff.mp hrow
    exact congrArg GroupList.item (Option.some.inj hrow).symm
  · obtain rfl := Option.some.inj hf
    exact hm
  · obtain ⟨name, -, rfl⟩ := Option.map_eq_some_iff.mp hf
    exact hm

/-- A counter that can be adjusted in both directions. -/
def Adjustable (db : Store Value) (p : Path) : Prop :=
  match storedInt db p with
  | none => False
  | some n => FitsInt (n - 1) ∧ FitsInt (n + 1)

instance (db : Store Value) (p : Path) : Decidable (Adjustable db p) := by
  unfold Adjustable
  split <;> infer_instance

/-- Adjusting such a counter does not trap. -/
theorem runs_counterRead {read : Path × (Snapshot Value → Prog GroupScreenMem Value)} {m : GroupScreenMem}
    (hlist : Adjustable db [Keys.groups, group, Keys.groupListCount])
    (hlistCheck : Adjustable db [Keys.groups, group, Keys.groupListCheckCount])
    (hread : CounterRead group read) : (read.2 (db.snapshot read.1)).Runs m := by
  obtain ⟨key, delta, hkey, hdelta, rfl⟩ := hread
  have hcounter : Adjustable db [Keys.groups, group, key] := by
    rcases hkey with rfl | rfl
    · exact hlist
    · exact hlistCheck
  unfold Adjustable at hcounter
  split at hcounter
  · exact hcounter.elim
  · next n hstored =>
    have hfits : FitsInt n := ⟨by have := hcounter.1.1; omega, by have := hcounter.2.2; omega⟩
    have hcast : asInt (db.snapshot [Keys.groups, group, key]) = some n :=
      (asInt_eq_some_iff _ n).mpr ⟨by simpa using (storedInt_eq_some_iff _ _ _).mp hstored, hfits⟩
    simp only [hcast, Prog.force_some, addInt_unit hdelta hcounter]
    trivial

/-- What the screen needs in a state: the items of the group can be read, the user has a name, the
counters of the group can be adjusted, and a swiped row can be swiped. -/
def Supported (group userUID : Key) (s : Screen GroupScreenMem Value) (e : ScreenEvent Call Value) : Prop :=
  (groupRows (s.device.db.snapshot [Keys.groups, group, Keys.groceryList]).children).isSome ∧
    (storedUsername s.device.db userUID).isSome ∧
    Adjustable s.device.db [Keys.groups, group, Keys.groupListCount] ∧
    Adjustable s.device.db [Keys.groups, group, Keys.groupListCheckCount] ∧
    match e with
    | .call t => t.Swipes s.device.mem
    | _ => True

instance (s : Screen GroupScreenMem Value) (e : ScreenEvent Call Value) :
    Decidable (Supported group userUID s e) := by
  unfold Supported
  cases e <;> infer_instance

/-- Where the screen has what it needs, everything runs through. -/
theorem Supported.runsThrough {s : Screen GroupScreenMem Value} {e : ScreenEvent Call Value}
    (h : Supported group userUID s e) (hrows : RowsNamed s.device.mem) :
    Screen.RunsThrough (Part group userUID) (CounterRead group) (code group userUID) s e := by
  obtain ⟨hitems, hname, hlist, hlistCheck, hswipes⟩ := h
  refine ⟨?_, fun read hread => runs_counterRead hlist hlistCheck hread, ?_⟩
  · rintro u (rfl | rfl | rfl)
    · simpa [listView] using hitems
    · rfl
    · have hvalue := value_childSnapshot s.device.db [Keys.users, userUID] [Keys.username]
        parsePath_field.1
      have hsame : asString ((s.device.db.snapshot [Keys.users, userUID]).childSnapshot "username") =
          storedUsername s.device.db userUID := by
        simp only [asString, storedUsername, hvalue, value_snapshot]
        rfl
      simpa [userView, hsame] using hname
  · rintro t rfl
    exact (beside_code group userUID t).runs _ ⟨hrows, hswipes⟩

end

/-- Along every run of the screen of a group, with changes by anyone and answers in any order, the screen
shows the stored items and members whenever everything has been delivered. As long as it has what it needs,
it does not crash. -/
theorem group_screen_current (group userUID : Key) (db : Store Value) (m : GroupScreenMem)
    (events : List (ScreenEvent Call Value)) :
    Machine.Always (step group userUID) (fun s => s.Settled → ShowsStored group s) (.opened db m) events ∧
      (RowsNamed m → Machine.Throughout (step group userUID) (Supported group userUID) (.opened db m) events →
        Machine.Always (step group userUID) (fun s => s.device.crashed = false) (.opened db m) events) := by
  have hloads := loadsOnly group userUID
  have hwatches := watches group userUID
  constructor
  · have hitems := Screen.current_of_settled hloads hwatches (v := listView group) (by simp)
      (fun u hu => independent_listView hu) db m events
    have hmembers := Screen.current_of_settled hloads hwatches (v := membersView group) (by simp)
      (fun u hu => independent_membersView hu) db m events
    refine hitems.both (fun s hitems hmembers hsettled => ?_) hmembers
    exact showsStored_of_current (hitems hsettled) (hmembers hsettled)
  · intro hm h
    exact Screen.running_of_runsThrough hloads hwatches
      (fun u hu db f m hf hrows => rowsNamed_fill hu hf hrows)
      (fun s e hsupported hrows => hsupported.runsThrough hrows) hm h

/-- A group with one item, which a member has added. -/
def groupWithMilk : Store Value :=
  [.update [Keys.users, Sample.uidA] [([Keys.username], str "alice")],
    .update [Keys.groups, Sample.home] [([Keys.groupListCount], int 1), ([Keys.groupListCheckCount], int 0)],
    .update (membersPath Sample.home) [([Sample.alice], str "uidA")],
    .update (itemPath Sample.home Sample.milk) [([Keys.description], str ""),
      ([Keys.addedBy], str "alice"), ([Keys.markedOffBy], str "- -"), ([Keys.isSelected], bool false)]].foldl
    (fun db w => Write.apply w db) .empty

/-- The screen appears, and while its reads are pending another client adds an item to the group. Then
the user swipes a row, checks its item off and deletes it, before anything is loaded again. -/
def actedWhileLoading : List (ScreenEvent Call Value) :=
  [ScreenEvent.observe, .call .viewDidAppear, .answer 2, .firstValue,
    .change (.update (itemPath Sample.home Sample.eggs) [([Keys.description], str ""),
      ([Keys.addedBy], str "bobby"), ([Keys.markedOffBy], str "- -"), ([Keys.isSelected], bool false)]),
    .answer 0, .call (.editActionsForRowAt 0), .call (.markOffAction 0), .call (.deleteAction 0)] ++
    List.replicate 17 (.answer 0)

/-- The screen shows the one item that is left, and has not crashed on the way. -/
theorem group_screen_current_acted : ∃ s : Screen GroupScreenMem Value,
    actedWhileLoading.foldlM (step Sample.home Sample.uidA) (.opened groupWithMilk ⟨[], "", [], ""⟩) = some s ∧
      s.Settled ∧ s.device.mem.groupListArray.map (·.item) = ["eggs"] ∧ ShowsStored Sample.home s ∧
      Machine.Always (step Sample.home Sample.uidA) (fun s => s.device.crashed = false)
        (.opened groupWithMilk ⟨[], "", [], ""⟩) actedWhileLoading := by
  have hlast : (actedWhileLoading.foldlM (step Sample.home Sample.uidA) (.opened groupWithMilk
      ⟨[], "", [], ""⟩)).map (fun s => (decide s.Settled, s.device.mem.groupListArray.map (·.item))) =
      some (true, ["eggs"]) := by
    decide +kernel
  have hsupported : Machine.Throughout (step Sample.home Sample.uidA) (Supported Sample.home Sample.uidA)
      (.opened groupWithMilk ⟨[], "", [], ""⟩) actedWhileLoading := by
    decide +kernel
  obtain ⟨s, hs, hreached⟩ := Option.map_eq_some_iff.mp hlast
  obtain ⟨hsettled, hitems⟩ := Prod.mk.inj hreached
  obtain ⟨hshows, hruns⟩ := group_screen_current Sample.home Sample.uidA groupWithMilk ⟨[], "", [], ""⟩
    actedWhileLoading
  exact ⟨s, hs, of_decide_eq_true hsettled, hitems, hshows.of_foldlM hs (of_decide_eq_true hsettled),
    hruns (by simp [RowsNamed]) hsupported⟩

end GroupGroceryListVC

end GroceryListApp

import GroceryListApp.Controller.GroupCalls
import GroceryListApp.Controller.RowActions
import GroceryListApp.Services.DataServiceRules

/-!
# Decoding the labels of a row

Adding an item and checking one off record the name in the variable `currentUser` of the screen, which
is empty until the read of the username is answered. A recorded name that is empty leaves a label
without anything behind its fixed text, and cutting the name out of it again aborts. Any other name is
cut out as it was recorded.
-/

namespace GroceryListApp

open Realtime

/-- The events on the screens of groups, each screen with a number, and the writes of others outside
the groups. A press carries the name that the screen has when it is pressed. -/
inductive RowCall where
  | appears (screen : ℕ) (uid : Key)
  | add (screen : ℕ) (group : Key) (item description currentUser : String)
  | checkOff (screen : ℕ) (group : Key) (item currentUser : String)
  | uncheck (group : Key) (item : String)
  | delete (group : Key) (item : String) (checkmarkIsHidden : Bool)
  | change (w : Write Value)

/-- `loadCurrentUser` and `getCurrentUsername`. -/
def loadCurrentUser (screen : ℕ) (uid : Key) : Prog (ℕ → String) Value :=
  printUsername uid.1 fun returnedUsername => .modify ((capturedUser screen).set returnedUsername) .done

/-- The program of an event. -/
def RowCall.code : RowCall → Prog (ℕ → String) Value
  | .appears screen uid => loadCurrentUser screen uid
  | .add _ group item description currentUser => addGroupItem group item description currentUser
  | .checkOff _ group item currentUser => markeOffUser group item currentUser
  | .uncheck group item => uncheckUser group item
  | .delete group item checkmarkIsHidden => deleteAction group item checkmarkIsHidden
  | .change w => .write w .done

/-- The database and everything that is pending, with the names that the screens have. -/
abbrev RowSys := Sys RowCall (ℕ → String) Value

/-- A press records the name that its screen has, and others write outside the groups. -/
def RowCalls (s : RowSys) : Act RowCall → Prop
  | .spawn (.add screen _ _ _ currentUser) => s.mem screen = currentUser
  | .spawn (.checkOff screen _ _ currentUser) => s.mem screen = currentUser
  | .spawn (.change w) => Apart w.location [Keys.groups]
  | _ => True

/-- The screen has a name when something is added or checked off on it. -/
def NameLoaded (s : RowSys) : Act RowCall → Prop
  | .spawn (.add screen _ _ _ _) => s.mem screen ≠ ""
  | .spawn (.checkOff screen _ _ _) => s.mem screen ≠ ""
  | _ => True

/-- An event on a screen that has a name where it needs one. -/
def RowStep (s : RowSys) (a : Act RowCall) : Prop := RowCalls s a ∧ NameLoaded s a

instance (s : RowSys) (a : Act RowCall) : Decidable (RowCalls s a) := by
  unfold RowCalls
  split <;> infer_instance

instance (s : RowSys) (a : Act RowCall) : Decidable (NameLoaded s a) := by
  unfold NameLoaded
  split <;> infer_instance

instance (s : RowSys) (a : Act RowCall) : Decidable (RowStep s a) :=
  inferInstanceAs (Decidable (_ ∧ _))

/-- The two fields of an item that hold a name. -/
def IsNameField (key : Key) : Prop := key = Keys.addedBy ∨ key = Keys.markedOffBy

/-- The description of an item is not a name. -/
theorem not_isNameField_description : ¬ IsNameField Keys.description := by
  unfold IsNameField
  decide

/-- No name below a grocery list of a group is empty. -/
def NamesRecorded (db : Store Value) : Prop :=
  ∀ g q key name, IsNameField key →
    db.get (Keys.groups :: g :: Keys.groceryList :: q ++ [key]) = some (.string name) → name ≠ ""

/-- What the row of a stored item shows is decoded as it was recorded. -/
def LabelsDecode (db : Store Value) : Prop :=
  ∀ g k (row : GroupList), db.get (itemPath g k ++ [Keys.addedBy]) = some (.string row.addedBy) →
    db.get (itemPath g k ++ [Keys.markedOffBy]) = some (.string row.markedOffBy) →
    GroupGroceryListVC.addedBy (configureCell row) = some row.addedBy ∧
      GroupGroceryListVC.markedBy (configureCell row) = some row.markedOffBy

/-- Names that are not empty are decoded. -/
theorem labelsDecode_of_namesRecorded {db : Store Value} (h : NamesRecorded db) : LabelsDecode db := by
  intro g k row hadded hmarked
  have hadded' : row.addedBy ≠ "" := h g [k] Keys.addedBy _ (Or.inl rfl) hadded
  have hmarked' : row.markedOffBy ≠ "" := h g [k] Keys.markedOffBy _ (Or.inr rfl) hmarked
  rw [addedBy_configureCell, markedBy_configureCell, if_neg hadded', if_neg hmarked']
  exact ⟨rfl, rfl⟩

/-! ### The writes -/

/-- All names stay recorded. A call may trap. -/
def recordedNames : Contract RowCall Value := .invariant NamesRecorded (fun _ _ _ => True) True

namespace recordedNames

variable {t : RowCall}

/-- A write that stores nothing new below the grocery lists is permitted. -/
theorem permits_of_get {w : Write Value}
    (h : ∀ s g q v, (w.apply s).get (Keys.groups :: g :: Keys.groceryList :: q) = some v →
      s.get (Keys.groups :: g :: Keys.groceryList :: q) = some v) : recordedNames.Permits t w := by
  intro s hs _ g q key name hkey hget
  exact hs g q key name hkey (h s g (q ++ [key]) _ hget)

/-- Removals are permitted. -/
theorem permits_remove (p : Path) : recordedNames.Permits t (.remove p) :=
  permits_of_get fun s _ _ _ h => ((Store.get_remove_eq_some_iff s _ _ _).mp h).2

/-- Writes outside the groups are permitted. -/
theorem permits_elsewhere {w : Write Value} (hw : Apart w.location [Keys.groups]) :
    recordedNames.Permits t w := by
  apply permits_of_get
  intro s g q v h
  have happart : Apart w.location (Keys.groups :: g :: Keys.groceryList :: q) :=
    (hw.symm.append_left (g :: Keys.groceryList :: q)).symm
  rwa [get_apply_of_apart happart] at h

/-- An update of fields is permitted when it stores no empty name. -/
theorem permits_update (p : Path) (entries : List (Key × Value))
    (h : ∀ entry ∈ entries, IsNameField entry.1 → entry.2 ≠ .string "") :
    recordedNames.Permits t
      (.update p (entries.map fun entry => ([entry.1], .leaf entry.2))) := by
  intro s hs _ g q key name hkey hget
  have hleaves : entries.map (fun entry => (([entry.1], .leaf entry.2) : Path × Store Value)) =
      (entries.map fun entry => (([entry.1], entry.2) : Path × Value)).map
        fun entry => (entry.1, .leaf entry.2) := by
    rw [List.map_map]
    rfl
  rw [hleaves] at hget
  rcases of_get_update_leaves hget with ⟨entry, hentry, hpath, hvalue⟩ | hbefore
  · obtain ⟨field, hfield, rfl⟩ := List.mem_map.mp hentry
    obtain ⟨-, hlast⟩ := List.append_inj' hpath rfl
    have hsame : key = field.1 := List.singleton_inj.mp hlast
    rintro rfl
    exact h field hfield (hsame ▸ hkey) hvalue.symm
  · exact hs g q key name hkey hbefore

/-- A counter function stores no name. -/
theorem holds_adjustCount (g : Key) {field : String} {key : Key} (hfield : parsePath field = some [key])
    (delta : ℤ) :
    recordedNames.Holds t (adjustCount (REF_GROUPS.child g.1) field delta : Prog (ℕ → String) Value) := by
  have href : REF_GROUPS.child g.1 = some [Keys.groups, g] := by simp [REF_GROUPS]
  rw [href]
  apply GroceryListApp.holds_adjustCount hfield
  · exact fun _ _ => Or.inr trivial
  · intro s n _ _ _
    apply permits_update [Keys.groups, g] [(key, .int (n + delta))]
    simp

/-- Every event keeps all names recorded, as long as it does not record an empty name itself. -/
theorem holds_code (helsewhere : ∀ w, t = .change w → Apart w.location [Keys.groups])
    (hadd : ∀ screen group item description currentUser,
      t = .add screen group item description currentUser → currentUser ≠ "")
    (hcheck : ∀ screen group item currentUser, t = .checkOff screen group item currentUser →
      currentUser ≠ "") : recordedNames.Holds t t.code := by
  have hlist : parsePath "list count" = some [Keys.groupListCount] := by simp
  have hlistCheck : parsePath "list check count" = some [Keys.groupListCheckCount] := by simp
  cases t with
  | appears screen uid =>
    have href : REF_USERS.child uid.1 = some [Keys.users, uid] := by simp [REF_USERS]
    simp only [RowCall.code, loadCurrentUser, printUsername, href]
    exact ⟨fun s _ => Contract.holds_force (fun _ => trivial) fun _ _ => trivial, trivial⟩
  | add screen group item description currentUser =>
    simp only [RowCall.code, addGroupItem]
    rw [createGroupItem_eq]
    refine Contract.holds_force (fun _ => trivial) fun name _ => ⟨?_, holds_adjustCount group hlist 1⟩
    apply permits_update _ [(Keys.description, .string description),
      (Keys.addedBy, .string currentUser), (Keys.markedOffBy, .string "- -"), (Keys.isSelected, .bool false)]
    have hname := hadd screen group item description currentUser rfl
    intro entry hentry hfield
    simp only [List.mem_cons, List.not_mem_nil, or_false] at hentry
    rcases hentry with rfl | rfl | rfl | rfl
    · exact absurd hfield not_isNameField_description
    · simpa using hname
    · simp
    · simp
  | checkOff screen group item currentUser =>
    simp only [RowCall.code]
    rw [markeOffUser_eq]
    refine Contract.holds_force (fun _ => trivial) fun name _ =>
      ⟨?_, holds_adjustCount group hlistCheck 1⟩
    apply permits_update _ [(Keys.markedOffBy, .string currentUser), (Keys.isSelected, .bool true)]
    have hname := hcheck screen group item currentUser rfl
    intro entry hentry _
    simp only [List.mem_cons, List.not_mem_nil, or_false] at hentry
    rcases hentry with rfl | rfl
    · simpa using hname
    · simp
  | uncheck group item =>
    simp only [RowCall.code]
    rw [uncheckUser_eq]
    refine Contract.holds_force (fun _ => trivial) fun name _ =>
      ⟨?_, holds_adjustCount group hlistCheck (-1)⟩
    apply permits_update _ [(Keys.markedOffBy, .string "- -"), (Keys.isSelected, .bool false)]
    simp
  | delete group item checkmarkIsHidden =>
    apply Contract.holds_block
    intro p hp
    simp only [List.mem_cons, List.not_mem_nil, or_false] at hp
    rcases hp with rfl | rfl
    · split
      · exact holds_adjustCount group hlistCheck (-1)
      · trivial
    · rw [removeGroupItem_eq]
      exact Contract.holds_force (fun _ => trivial) fun name _ =>
        ⟨permits_remove _, holds_adjustCount group hlist (-1)⟩
  | change w => exact ⟨permits_elsewhere (helsewhere w rfl), trivial⟩

end recordedNames

/-! ### Every schedule -/

/-- The screens have no name yet and nothing is pending. -/
def RowSys.initial (db : Store Value) : RowSys := ⟨db, fun _ => "", []⟩

/-- Along every schedule in which items are added and checked off only on screens that have a name, the
labels of every stored item are decoded as they were recorded. -/
theorem labels_decode {db : Store Value} (hdb : NamesRecorded db) {acts : List (Act RowCall)} {s : RowSys}
    (h : Sys.Run RowCall.code RowStep (RowSys.initial db) acts s) : LabelsDecode s.db := by
  apply labelsDecode_of_namesRecorded
  have hspawn (s : RowSys) (t : RowCall) (ha : RowStep s (.spawn t)) : recordedNames.Holds t t.code := by
    obtain ⟨hcall, hloaded⟩ := ha
    apply recordedNames.holds_code
    · rintro w rfl
      exact hcall
    · rintro screen group item description currentUser rfl hempty
      exact hloaded (Eq.trans hcall hempty)
    · rintro screen group item currentUser rfl hempty
      exact hloaded (Eq.trans hcall hempty)
  have hpool : ∀ task ∈ (RowSys.initial db).pool, recordedNames.HoldsBody task.1 task.2 := by
    intro task htask
    simp [RowSys.initial] at htask
  have hstart : recordedNames.inv (RowSys.initial db).db := hdb
  have hmay (s : RowSys) (a : Act RowCall) (_ : RowStep s a) : s.Meets recordedNames.may a := by
    cases a with
    | spawn t => trivial
    | run i => exact fun _ _ _ _ => trivial
  exact (Contract.run_holds hmay hspawn hstart hpool h).1

/-- All names are recorded where no text is empty. -/
theorem namesRecorded_of_leaves {db : Store Value} (h : ∀ leaf ∈ db.leaves, leaf.2 ≠ .string "") :
    NamesRecorded db := by
  rintro g q key name - hget rfl
  exact h _ ((Store.get_eq_some_iff _ _ _).mp hget) rfl

/-- A group of two members with the counters of its list. -/
def countedByTwo : Store Value :=
  (Write.update [Keys.groups, Sample.home] [([Keys.groupListCount], int 0),
    ([Keys.groupListCheckCount], int 0)]).apply sharedByTwo

/-- A user of two adds an item and checks it off. -/
def addAndCheckOff : List (Act RowCall) :=
  Act.alone (RowCall.appears 0 Sample.uidA) 5 ++ Act.alone (RowCall.add 0 Sample.home "milk" "" "alice") 6 ++
    Act.alone (RowCall.checkOff 0 Sample.home "milk" "alice") 6

/-- A user adds an item before the screen has a name. -/
def addAtOnce : List (Act RowCall) :=
  .spawn (.appears 0 Sample.uidA) :: .spawn (.add 0 Sample.home "milk" "" "") ::
    List.replicate 6 (.run 1)

/-- The labels of an item are decoded after one member added it and checked it off. -/
theorem labels_decode_checked : ∃ s, Sys.Run RowCall.code RowStep (RowSys.initial countedByTwo) addAndCheckOff s ∧
    s.db.get (itemPath Sample.home Sample.milk ++ [Keys.markedOffBy]) = some (.string "alice") ∧
    LabelsDecode s.db := by
  have hdb : NamesRecorded countedByTwo := namesRecorded_of_leaves (by decide)
  have hsome : ((RowSys.initial countedByTwo).checkedRuns RowCall.code RowStep addAndCheckOff).isSome := by
    decide +kernel
  have hmarked : (((RowSys.initial countedByTwo).checkedRuns RowCall.code RowStep addAndCheckOff).bind
      fun s => s.db.get (itemPath Sample.home Sample.milk ++ [Keys.markedOffBy])) =
      some (.string "alice") := by
    decide +kernel
  obtain ⟨s, hs⟩ := Option.isSome_iff_exists.mp hsome
  have hrun := Sys.run_of_checkedRuns hs
  rw [hs] at hmarked
  exact ⟨s, hrun, hmarked, labels_decode hdb hrun⟩

/-- An item that is added before the screen has a name has a label that cannot be decoded. -/
theorem not_labels_decode : ¬ ∀ (db : Store Value), NamesRecorded db → ∀ acts s,
    Sys.Run RowCall.code RowCalls (RowSys.initial db) acts s → LabelsDecode s.db := by
  intro hclaim
  have hdb : NamesRecorded countedByTwo := namesRecorded_of_leaves (by decide)
  have hsome : ((RowSys.initial countedByTwo).checkedRuns RowCall.code RowCalls addAtOnce).isSome := by
    decide +kernel
  have hadded : (((RowSys.initial countedByTwo).checkedRuns RowCall.code RowCalls addAtOnce).bind
      fun s => s.db.get (itemPath Sample.home Sample.milk ++ [Keys.addedBy])) = some (.string "") := by
    decide +kernel
  have hmarked : (((RowSys.initial countedByTwo).checkedRuns RowCall.code RowCalls addAtOnce).bind
      fun s => s.db.get (itemPath Sample.home Sample.milk ++ [Keys.markedOffBy])) =
      some (.string "- -") := by
    decide +kernel
  obtain ⟨s, hs⟩ := Option.isSome_iff_exists.mp hsome
  rw [hs] at hadded hmarked
  have hdecodes := hclaim countedByTwo hdb addAtOnce s (Sys.run_of_checkedRuns hs)
  have hlabel := (hdecodes Sample.home Sample.milk ⟨"milk", "", false, "", "- -"⟩ hadded hmarked).1
  rw [addedBy_configureCell, if_pos rfl] at hlabel
  exact Option.some_ne_none _ hlabel.symm

end GroceryListApp

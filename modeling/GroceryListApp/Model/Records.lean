import GroceryListApp.Realtime.Collection

/-!
# The values in the database and the records of the screens

Stored values are strings, integers and booleans. A forced cast of a snapshot succeeds on
a value of the right kind only; in particular it fails on a missing node. A cast to a
dictionary needs a node with children.
-/

namespace GroceryListApp

open Realtime

/-! ### The fixed keys of the database tree -/

namespace Keys

/-- The accounts. -/
def users : Key := .lit "users"

/-- The groups. -/
def groups : Key := .lit "groups"

/-- The index of usernames. -/
def usernames : Key := .lit "usernames"

/-- The name of an account. -/
def username : Key := .lit "username"

/-- The email of an account. -/
def email : Key := .lit "email"

/-- The sign-in provider of an account. -/
def provider : Key := .lit "provider"

/-- The nickname of an account. -/
def nameName : Key := .lit "name name"

/-- The items of a group, or of a user's own list. -/
def groceryList : Key := .lit "grocery list"

/-- The personal lists of an account. -/
def lists : Key := .lit "lists"

/-- The items of a personal list. -/
def items : Key := .lit "items"

/-- The description of an item, a list or a group. -/
def description : Key := .lit "description"

/-- Whether an item is checked off. -/
def isSelected : Key := .lit "isSelected"

/-- The number of items of a personal list. -/
def listCount : Key := .lit "listCount"

/-- The number of checked items of a personal list. -/
def listCheckCount : Key := .lit "listCheckCount"

/-- The number of items of a group. -/
def groupListCount : Key := .lit "list count"

/-- The number of checked items of a group. -/
def groupListCheckCount : Key := .lit "list check count"

/-- The title of a group. -/
def title : Key := .lit "title"

/-- The name of the member that created a group. -/
def master : Key := .lit "master"

/-- The members of a group. -/
def members : Key := .lit "members"

/-- Who added an item of a group. -/
def addedBy : Key := .lit "added by"

/-- Who checked an item of a group off. -/
def markedOffBy : Key := .lit "marked off by"

end Keys

/-! ### Keys of the examples -/

namespace Sample

/-- A group or a list. -/
def home : Key := .lit "home"

/-- Another group or list. -/
def work : Key := .lit "work"

/-- An item. -/
def milk : Key := .lit "milk"

/-- Another item. -/
def eggs : Key := .lit "eggs"

/-- A username. -/
def alice : Key := .lit "alice"

/-- The username of a second user. -/
def bobby : Key := .lit "bobby"

/-- A username that is free. -/
def carol : Key := .lit "carol"

/-- Another free username. -/
def david : Key := .lit "david"

/-- The account of alice. -/
def uidA : Key := .lit "uidA"

/-- The account of bobby. -/
def uidB : Key := .lit "uidB"

end Sample

/-- The strings by which the source names the fixed keys. -/
@[simp] theorem parsePath_field :
    parsePath "username" = some [Keys.username] ∧ parsePath "email" = some [Keys.email] ∧
    parsePath "provider" = some [Keys.provider] ∧ parsePath "name name" = some [Keys.nameName] ∧
    parsePath "grocery list" = some [Keys.groceryList] ∧ parsePath "lists" = some [Keys.lists] ∧
    parsePath "items" = some [Keys.items] ∧ parsePath "description" = some [Keys.description] ∧
    parsePath "isSelected" = some [Keys.isSelected] ∧
    parsePath "listCount" = some [Keys.listCount] ∧
    parsePath "listCheckCount" = some [Keys.listCheckCount] ∧
    parsePath "list count" = some [Keys.groupListCount] ∧
    parsePath "list check count" = some [Keys.groupListCheckCount] ∧
    parsePath "title" = some [Keys.title] ∧ parsePath "master" = some [Keys.master] ∧
    parsePath "members" = some [Keys.members] ∧ parsePath "added by" = some [Keys.addedBy] ∧
    parsePath "marked off by" = some [Keys.markedOffBy] := by
  and_intros <;> decide

/-- The numbers that an `Int` can hold. -/
def FitsInt (number : ℤ) : Prop := -9223372036854775808 ≤ number ∧ number ≤ 9223372036854775807

instance : DecidablePred FitsInt := fun number => inferInstanceAs (Decidable (_ ≤ number ∧ number ≤ _))

/-- `+` on `Int`, which traps where the sum does not fit. -/
def addInt (a b : ℤ) : Option ℤ := if FitsInt (a + b) then some (a + b) else none

/-- A sum that fits is the sum of the numbers. -/
theorem addInt_eq_some_iff (a b sum : ℤ) : addInt a b = some sum ↔ a + b = sum ∧ FitsInt sum := by
  unfold addInt
  split
  · next hfits =>
    rw [Option.some.injEq]
    exact ⟨fun hsum => ⟨hsum, hsum ▸ hfits⟩, And.left⟩
  · next hfits => exact iff_of_false (fun h => by contradiction) fun h => hfits (h.1 ▸ h.2)

/-- A counter with room on both sides can be changed by one. -/
theorem addInt_unit {n delta : ℤ} (hdelta : delta = 1 ∨ delta = -1) (h : FitsInt (n - 1) ∧ FitsInt (n + 1)) :
    addInt n delta = some (n + delta) := by
  refine (addInt_eq_some_iff _ _ _).mpr ⟨rfl, ?_⟩
  rcases hdelta with rfl | rfl
  · exact h.2
  · exact h.1

/-- A value in the database. -/
inductive Value where
  | string (text : String)
  | int (number : ℤ)
  | bool (flag : Bool)
  deriving DecidableEq, Repr

/-- A leaf that holds a string. -/
def str (text : String) : Store Value := .leaf (.string text)

/-- A leaf that holds an integer. -/
def int (number : ℤ) : Store Value := .leaf (.int number)

/-- A leaf that holds a boolean. -/
def bool (flag : Bool) : Store Value := .leaf (.bool flag)

/-- The forced cast `value as! String`. -/
def asString (snapshot : Snapshot Value) : Option String :=
  match snapshot.value with
  | some (.string text) => some text
  | _ => none

/-- The forced cast `value as! Int`. -/
def asInt (snapshot : Snapshot Value) : Option ℤ :=
  match snapshot.value with
  | some (.int number) => if FitsInt number then some number else none
  | _ => none

/-- The forced cast `value as! Bool`. -/
def asBool (snapshot : Snapshot Value) : Option Bool :=
  match snapshot.value with
  | some (.bool flag) => some flag
  | _ => none

/-- The keys of the forced cast `value as! NSDictionary`. -/
def asDictionary (snapshot : Snapshot Value) : Option (List String) :=
  if snapshot.node.children [] = [] then none else some (snapshot.node.children [])

/-- An item of the user's own grocery list. -/
structure GroceryList where
  item : String
  description : String
  isSelected : Bool
  deriving DecidableEq, Repr

/-- An item of a personal list. -/
structure PersonalGroceryList where
  item : String
  description : String
  isSelected : Bool
  deriving DecidableEq, Repr

/-- A personal list with its counters. -/
structure PersonalList where
  listTitle : String
  listDescription : String
  listCount : ℤ
  listCheckCount : ℤ
  deriving DecidableEq, Repr

/-- An item of a group's grocery list. -/
structure GroupList where
  item : String
  description : String
  isSelected : Bool
  addedBy : String
  markedOffBy : String
  deriving DecidableEq, Repr

/-- A group as the groups screen lists it. -/
structure Group where
  groupTitle : String
  groupDesc : String
  key : String
  members : List String
  master : String
  listCount : ℤ
  listCheckCount : ℤ
  deriving DecidableEq, Repr

/-- A forced cast to a string succeeds on a string leaf only. -/
theorem asString_eq_some_iff (snapshot : Snapshot Value) (text : String) :
    asString snapshot = some text ↔ snapshot.value = some (.string text) := by
  unfold asString
  split <;> simp_all

/-- A forced cast to an integer succeeds on a leaf with a number that fits only. -/
theorem asInt_eq_some_iff (snapshot : Snapshot Value) (number : ℤ) :
    asInt snapshot = some number ↔ snapshot.value = some (.int number) ∧ FitsInt number := by
  unfold asInt
  split
  · next n hn =>
    rw [hn, Option.some.injEq, Value.int.injEq]
    constructor
    · intro h
      obtain ⟨hfits, hsame⟩ := Option.ite_none_right_eq_some.mp h
      obtain rfl := Option.some.inj hsame
      exact ⟨rfl, hfits⟩
    · rintro ⟨rfl, hfits⟩
      exact if_pos hfits
  · next hother => exact iff_of_false (fun h => by contradiction) fun h => hother number h.1

/-- A forced cast to a boolean succeeds on a boolean leaf only. -/
theorem asBool_eq_some_iff (snapshot : Snapshot Value) (flag : Bool) :
    asBool snapshot = some flag ↔ snapshot.value = some (.bool flag) := by
  unfold asBool
  split
  · simp_all
  · next h => exact ⟨fun hflag => by contradiction, fun hflag => (h flag hflag).elim⟩

/-- The number that is stored at a location. -/
def storedInt (db : Store Value) (p : Path) : Option ℤ :=
  match db.get p with
  | some (.int number) => some number
  | _ => none

/-- A number is stored where the value is that number. -/
theorem storedInt_eq_some_iff (db : Store Value) (p : Path) (number : ℤ) :
    storedInt db p = some number ↔ db.get p = some (.int number) := by
  unfold storedInt
  split
  · simp_all
  · next h => exact ⟨fun hnumber => by contradiction, fun hnumber => (h number hnumber).elim⟩

/-- The values on which `as! String` succeeds. -/
def IsString (v : Value) : Prop := ∃ text, v = .string text

/-- The values on which `as! Int` succeeds. -/
def IsInt (v : Value) : Prop := ∃ number, v = .int number ∧ FitsInt number

/-- The values on which `as! Bool` succeeds. -/
def IsBool (v : Value) : Prop := ∃ flag, v = .bool flag

/-- What the groups screen reads of a group, beside its members. -/
def groupFields : Fields Value :=
  [(Keys.title, IsString), (Keys.description, IsString), (Keys.master, IsString),
    (Keys.groupListCount, IsInt), (Keys.groupListCheckCount, IsInt)]

/-- What the screen of a group reads of an item. -/
def groupItemFields : Fields Value :=
  [(Keys.description, IsString), (Keys.isSelected, IsBool), (Keys.addedBy, IsString),
    (Keys.markedOffBy, IsString)]

/-- What the screens read of an item of the user's own. -/
def itemFields : Fields Value := [(Keys.description, IsString), (Keys.isSelected, IsBool)]

/-- What the screens read of a personal list, beside its items. -/
def listFields : Fields Value :=
  [(Keys.description, IsString), (Keys.listCount, IsInt), (Keys.listCheckCount, IsInt)]

/-- The value below a snapshot is the value stored at that location. -/
theorem value_childSnapshot (db : Store Value) (p q : Path) {name : String}
    (h : parsePath name = some q) :
    ((db.snapshot p).childSnapshot name).value = db.get (p ++ q) := by
  simp [Snapshot.value, Snapshot.childSnapshot, Store.snapshot, h]

/-- The value of a snapshot is the value stored at its location. -/
@[simp] theorem value_snapshot (db : Store Value) (p : Path) :
    (db.snapshot p).value = db.get p := by
  simp [Snapshot.value, Store.snapshot]

/-- The location of the members of a group. -/
def membersPath (g : Key) : Path := [Keys.groups, g, Keys.members]

/-- The location of an item. -/
def itemPath (g k : Key) : Path := [Keys.groups, g, Keys.groceryList, k]

/-- Different items lie apart. -/
theorem apart_itemPath {g k g' k' : Key} (h : itemPath g k ≠ itemPath g' k') :
    Apart (itemPath g k) (itemPath g' k') := by
  rw [itemPath, itemPath, apart_cons]
  by_cases hg : g = g'
  · subst hg
    rw [apart_cons, apart_cons]
    apply apart_of_ne
    rintro rfl
    exact h rfl
  · exact apart_of_ne hg _ _

/-- Different fields of items lie apart. -/
theorem apart_itemField {key field : Key} (h : key ≠ field) (g k g' k' : Key) :
    Apart (itemPath g k ++ [key]) (itemPath g' k' ++ [field]) := by
  by_cases hsame : itemPath g k = itemPath g' k'
  · rw [hsame, apart_append_left]
    exact apart_of_ne h [] []
  · exact (((apart_itemPath hsame).append_left [key]).symm.append_left [field]).symm

/-- The username stored for an account. -/
def storedUsername (db : Store Value) (uid : Key) : Option String :=
  asString (db.snapshot [Keys.users, uid, Keys.username])

/-- The username stored for an account is the string at its place. -/
theorem storedUsername_eq_some_iff (db : Store Value) (uid : Key) (user : String) :
    storedUsername db uid = some user ↔
      db.get [Keys.users, uid, Keys.username] = some (.string user) := by
  rw [storedUsername, asString_eq_some_iff, value_snapshot]

/-- A write below another root than the accounts leaves the stored usernames. -/
theorem storedUsername_apply_of_root {w : Write Value} {root : Key} {rest : Path} (db : Store Value)
    (hw : w.location = root :: rest) (hroot : root ≠ Keys.users) (uid : Key) :
    storedUsername (w.apply db) uid = storedUsername db uid := by
  simp only [storedUsername, asString, value_snapshot]
  rw [get_apply_of_apart (hw ▸ apart_of_ne hroot _ _)]

/-- A write for one account leaves the usernames of the others. -/
theorem storedUsername_apply_of_ne {w : Write Value} {uid other : Key} (db : Store Value)
    (hw : w.location = [Keys.users, uid]) (hne : uid ≠ other) :
    storedUsername (w.apply db) other = storedUsername db other := by
  have happart : Apart w.location [Keys.users, other, Keys.username] :=
    hw ▸ (apart_cons _ _ _).mpr (apart_of_ne hne [] [Keys.username])
  simp only [storedUsername, asString, value_snapshot, get_apply_of_apart happart]

/-- A change of username stores the new name. -/
theorem storedUsername_update (uid : Key) (new : String) (db : Store Value) :
    storedUsername ((Write.update [Keys.users, uid] [([Keys.username], str new)]).apply db) uid =
      some new := by
  apply (asString_eq_some_iff _ _).mpr
  rw [value_snapshot]
  exact get_update_leaf [Keys.users, uid] [Keys.username] _ _

/-- The usernames that are stored. -/
def storedUsernames (db : Store Value) : List String :=
  (db.children [Keys.users]).filterMap (storedUsername db)

/-- A username is stored when it is the one of some account. -/
theorem mem_storedUsernames {db : Store Value} {name : String} :
    name ∈ storedUsernames db ↔ ∃ uid, storedUsername db uid = some name := by
  rw [storedUsernames, List.mem_filterMap]
  constructor
  · rintro ⟨uid, -, hname⟩
    exact ⟨uid, hname⟩
  · rintro ⟨uid, hname⟩
    refine ⟨uid, ?_, hname⟩
    exact (Store.mem_children _ _ _).mpr ⟨_, _, (storedUsername_eq_some_iff _ _ _).mp hname⟩

/-- Different accounts are stored with different names. -/
def DistinctNames (db : Store Value) : Prop :=
  ∀ uid uid' name, storedUsername db uid = some name → storedUsername db uid' = some name → uid = uid'

/-- A group of two members. -/
def sharedByTwo : Store Value :=
  [.update [Keys.users, Sample.uidA] [([Keys.username], str "alice")],
    .update [Keys.users, Sample.uidB] [([Keys.username], str "bobby")],
    .update (membersPath Sample.home)
      [([Sample.alice], str "uidA"), ([Sample.bobby], str "uidB")]].foldl
    (fun db w => Write.apply w db) .empty

/-- Its members have different names. -/
theorem distinctNames_sharedByTwo : DistinctNames sharedByTwo := by
  have hchildren : sharedByTwo.children [Keys.users] = [Sample.uidA, Sample.uidB] := by decide
  have halice : storedUsername sharedByTwo Sample.uidA = some "alice" := by decide
  have hbobby : storedUsername sharedByTwo Sample.uidB = some "bobby" := by decide
  have hlisted {uid : Key} {name : String} (h : storedUsername sharedByTwo uid = some name) :
      uid = Sample.uidA ∧ name = "alice" ∨ uid = Sample.uidB ∧ name = "bobby" := by
    have huid : uid ∈ sharedByTwo.children [Keys.users] :=
      (Store.mem_children _ _ _).mpr ⟨_, _, (storedUsername_eq_some_iff _ _ _).mp h⟩
    rw [hchildren] at huid
    simp only [List.mem_cons, List.not_mem_nil, or_false] at huid
    rcases huid with rfl | rfl
    · exact Or.inl ⟨rfl, Option.some.inj (h.symm.trans halice)⟩
    · exact Or.inr ⟨rfl, Option.some.inj (h.symm.trans hbobby)⟩
  intro uid uid' name hname hname'
  rcases hlisted hname with ⟨rfl, rfl⟩ | ⟨rfl, rfl⟩ <;>
    rcases hlisted hname' with ⟨rfl, h⟩ | ⟨rfl, h⟩
  · rfl
  · exact absurd h (by decide)
  · exact absurd h (by decide)
  · rfl

/-- The forced cast of a field of a child yields the string that is stored there. -/
theorem asString_child {db : Store Value} {p : Path} {k key : Key} {name text : String}
    (hname : parsePath name = some [key]) (h : db.get (p ++ [k, key]) = some (.string text)) :
    asString (Snapshot.childSnapshot ⟨k.1, (db.sub p).sub [k]⟩ name) = some text :=
  (asString_eq_some_iff _ text).mpr
    ((Snapshot.value_childSnapshot_child db p [key] k hname).trans h)

/-- The forced cast of a string field of a record succeeds. -/
theorem exists_asString {fields : Fields Value} {db : Store Value} {p : Path} {k : Key}
    (h : HasFields fields db (p ++ [k])) (key : Key) (name : String)
    (hkey : (key, IsString) ∈ fields) (hname : parsePath name = some [key]) :
    ∃ text, asString (Snapshot.childSnapshot ⟨k.1, (db.sub p).sub [k]⟩ name) = some text := by
  obtain ⟨v, hv, text, rfl⟩ := h _ hkey
  refine ⟨text, (asString_eq_some_iff _ _).mpr ?_⟩
  rw [Snapshot.value_childSnapshot_child db p [key] k hname, ← hv, List.append_assoc]
  rfl

/-- The forced cast of an integer field of a record succeeds. -/
theorem exists_asInt {fields : Fields Value} {db : Store Value} {p : Path} {k : Key}
    (h : HasFields fields db (p ++ [k])) (key : Key) (name : String)
    (hkey : (key, IsInt) ∈ fields) (hname : parsePath name = some [key]) :
    ∃ n, asInt (Snapshot.childSnapshot ⟨k.1, (db.sub p).sub [k]⟩ name) = some n := by
  obtain ⟨v, hv, n, rfl, hfits⟩ := h _ hkey
  refine ⟨n, (asInt_eq_some_iff _ _).mpr ⟨?_, hfits⟩⟩
  rw [Snapshot.value_childSnapshot_child db p [key] k hname, ← hv, List.append_assoc]
  rfl

/-- The forced cast of a boolean field of a record succeeds. -/
theorem exists_asBool {fields : Fields Value} {db : Store Value} {p : Path} {k : Key}
    (h : HasFields fields db (p ++ [k])) (key : Key) (name : String)
    (hkey : (key, IsBool) ∈ fields) (hname : parsePath name = some [key]) :
    ∃ flag, asBool (Snapshot.childSnapshot ⟨k.1, (db.sub p).sub [k]⟩ name) = some flag := by
  obtain ⟨v, hv, flag, rfl⟩ := h _ hkey
  refine ⟨flag, (asBool_eq_some_iff _ _).mpr ?_⟩
  rw [Snapshot.value_childSnapshot_child db p [key] k hname, ← hv, List.append_assoc]
  rfl

/-- Nothing below a location differs between two databases. -/
def SameBelow (p : Path) (db db' : Store Value) : Prop :=
  (∀ leaf ∈ db.leaves, p <+: leaf.1 → db'.get leaf.1 = some leaf.2) ∧
    ∀ leaf ∈ db'.leaves, p <+: leaf.1 → db.get leaf.1 = some leaf.2

instance (p : Path) (db db' : Store Value) : Decidable (SameBelow p db db') :=
  inferInstanceAs (Decidable (_ ∧ _))

/-- What lies below a location is the same. -/
theorem sameBelow_iff (p : Path) (db db' : Store Value) :
    SameBelow p db db' ↔ ∀ q, db'.get (p ++ q) = db.get (p ++ q) := by
  constructor
  · intro h q
    refine Option.ext fun v => ⟨fun hv => ?_, fun hv => ?_⟩
    · exact h.2 _ ((Store.get_eq_some_iff _ _ _).mp hv) (List.prefix_append _ _)
    · exact h.1 _ ((Store.get_eq_some_iff _ _ _).mp hv) (List.prefix_append _ _)
  · intro h
    constructor
    · rintro ⟨_, v⟩ hleaf ⟨q, rfl⟩
      exact (h q).trans ((Store.get_eq_some_iff _ _ _).mpr hleaf)
    · rintro ⟨_, v⟩ hleaf ⟨q, rfl⟩
      exact (h q).symm.trans ((Store.get_eq_some_iff _ _ _).mpr hleaf)

/-- The same accounts have the same usernames. -/
theorem SameBelow.storedUsername_eq {db db' : Store Value} (h : SameBelow [Keys.users] db db') (uid : Key) :
    storedUsername db' uid = storedUsername db uid := by
  have hsame : db'.get [Keys.users, uid, Keys.username] = db.get [Keys.users, uid, Keys.username] :=
    (sameBelow_iff [Keys.users] db db').mp h [uid, Keys.username]
  simp only [storedUsername, asString, value_snapshot, hsame]

/-- The same accounts are listed with the same usernames. -/
theorem SameBelow.storedUsernames_eq {db db' : Store Value} (h : SameBelow [Keys.users] db db') :
    storedUsernames db' = storedUsernames db := by
  have hsame := (sameBelow_iff [Keys.users] db db').mp h
  have hchildren : db'.children [Keys.users] = db.children [Keys.users] := by
    apply Store.children_eq_of_mem_iff
    intro k
    rw [Store.mem_children, Store.mem_children]
    refine exists_congr fun r => exists_congr fun v => ?_
    rw [hsame (k :: r)]
  have hnames : storedUsername db' = storedUsername db := funext h.storedUsername_eq
  rw [storedUsernames, storedUsernames, hchildren, hnames]

/-- A loop that may fail succeeds when no round fails. -/
theorem isSome_foldlM {α β : Type*} {f : β → α → Option β} {values : List α}
    (h : ∀ b, ∀ a ∈ values, (f b a).isSome) (b : β) : (values.foldlM f b).isSome := by
  induction values generalizing b with
  | nil => rfl
  | cons a rest ih =>
    obtain ⟨next, hnext⟩ := Option.isSome_iff_exists.mp (h b a List.mem_cons_self)
    rw [List.foldlM_cons, hnext]
    exact ih (fun b a ha => h b a (List.mem_cons_of_mem _ ha)) next

/-- A map that may fail succeeds when it does for every element. -/
theorem isSome_mapM {α β : Type*} {f : α → Option β} {values : List α}
    (h : ∀ a ∈ values, (f a).isSome) : (values.mapM f).isSome := by
  induction values with
  | nil => rfl
  | cons a rest ih =>
    obtain ⟨b, hb⟩ := Option.isSome_iff_exists.mp (h a List.mem_cons_self)
    obtain ⟨mapped, hmapped⟩ := Option.isSome_iff_exists.mp
      (ih fun a ha => h a (List.mem_cons_of_mem _ ha))
    simp [List.mapM_cons, hb, hmapped]

/-- What a map that may fail delivers comes from the elements. -/
theorem of_mem_mapM {α β : Type*} {f : α → Option β} {values : List α} {mapped : List β}
    (h : values.mapM f = some mapped) : ∀ b ∈ mapped, ∃ a ∈ values, f a = some b := by
  induction values generalizing mapped with
  | nil =>
    rw [List.mapM_nil] at h
    intro b hb
    rw [← Option.some.inj h] at hb
    contradiction
  | cons a rest ih =>
    rw [List.mapM_cons] at h
    obtain ⟨first, hfirst, h⟩ := Option.bind_eq_some_iff.mp h
    obtain ⟨others, hothers, h⟩ := Option.bind_eq_some_iff.mp h
    intro b hb
    rw [← Option.some.inj h] at hb
    rcases List.mem_cons.mp hb with rfl | hb
    · exact ⟨a, List.mem_cons_self, hfirst⟩
    · obtain ⟨a', ha', hmapped⟩ := ih hothers b hb
      exact ⟨a', List.mem_cons_of_mem _ ha', hmapped⟩

/-- The names of the rows that are mapped from the children of a location are keys. -/
theorem legalKey_of_mapM {α : Type*} {f : Snapshot Value → Option α} {name : α → String}
    (hname : ∀ child row, f child = some row → name row = child.key) {db : Store Value} {p : Path}
    {rows : List α} (h : (db.snapshot p).children.mapM f = some rows) : ∀ row ∈ rows, LegalKey (name row) := by
  intro row hrow
  obtain ⟨child, hchild, hmapped⟩ := of_mem_mapM h row hrow
  rw [Snapshot.children_snapshot] at hchild
  obtain ⟨k, -, rfl⟩ := List.mem_map.mp hchild
  rw [hname _ _ hmapped]
  exact k.2

end GroceryListApp

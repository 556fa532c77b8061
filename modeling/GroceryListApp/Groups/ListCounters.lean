import GroceryListApp.Accounts.OwnCounters
import GroceryListApp.Groups.Authority
import GroceryListApp.Groups.Items
import GroceryListApp.Realtime.Balance

/-!
# The counters of the groups

A group stores how many items are on its list and how many of them are checked. A call of a screen
changes one item at once, and each of its counters when a read of it has been answered. What a counter
stores and what the pending calls still add make up the number of items that it counts, along every
schedule of all clients, as long as a counter is adjusted by what the change of the item calls for, an
added item is new, and every other write to an item finds the item as its row showed it. Then the label
that the groups screen has for a group agrees with the rows of the group's own screen.
-/

namespace GroceryListApp

open Realtime

/-! ### The label of the groups screen -/

/-- The background of the label `listCountLbl`. -/
inductive CountColor where
  | green
  | gray
  deriving DecidableEq

/-- The label `listCountLbl`. It keeps its text while it is hidden. -/
structure CountLabel where
  isHidden : Bool
  text : Option String
  backgroundColor : CountColor
  deriving DecidableEq

/-- The cell of a group on the groups screen. -/
structure GroupCell where
  groupTitleLbl : String
  descriptionLbl : String
  listCountLbl : CountLabel
  deriving DecidableEq

/-- `configureCell` of the row of a group. -/
def GroupCell.configureCell (title description : String) (listCount listCheckCount : ℤ) : GroupCell where
  groupTitleLbl := title
  descriptionLbl := description
  listCountLbl :=
    { isHidden := listCount = 0
      text := if listCount = 0 then none else some s!"{listCheckCount} / {listCount}"
      backgroundColor := if listCount = listCheckCount then .green else .gray }

/-- `cellForRowAt` of `GroupsVC`. -/
def GroupsVC.cellForRowAt (group : Group) : GroupCell :=
  .configureCell group.groupTitle group.groupDesc group.listCount group.listCheckCount

/-- A row of the groups screen agrees with the rows of the group's own screen: it counts them and the
checked ones, has no label for an empty list, and a green one when everything is checked. -/
def ShowsProgress (group : Group) (groupListArray : List GroupList) : Prop :=
  group.listCount = groupListArray.length ∧
    group.listCheckCount = groupListArray.countP (·.isSelected) ∧
    ((GroupsVC.cellForRowAt group).listCountLbl.isHidden = true ↔ groupListArray = []) ∧
    ((GroupsVC.cellForRowAt group).listCountLbl.backgroundColor = .green ↔
      ∀ item ∈ groupListArray, item.isSelected = true)

/-! ### What is stored -/

/-- Where the list of a group is stored. -/
def groupItems (g : Key) : Path := [Keys.groups, g, Keys.groceryList]

/-- The key of a counter in the record of a group. -/
def ListCounter.groupField : ListCounter → Key
  | items => Keys.groupListCount
  | checks => Keys.groupListCheckCount

/-- The number that a counter of a group stores. -/
def storedCount (db : Store Value) (g : Key) (counter : ListCounter) : Option ℤ :=
  storedInt db [Keys.groups, g, counter.groupField]

/-- Both counters of a group are the numbers of items that they count. -/
def GroupCounted (db : Store Value) (g : Key) : Prop :=
  ∀ counter : ListCounter, storedCount db g counter = some (tally counter.test db (groupItems g) : ℤ)

/-- An item is stored with a check mark that is set or not, or it is not stored. -/
def ItemShows (db : Store Value) (p : Path) (k : Key) : Option Bool → Prop
  | none => k ∉ db.children p
  | some flag => db.get (p ++ [k, Keys.isSelected]) = some (.bool flag)

/-- What an item with some check mark counts for. -/
def ListCounter.weight : ListCounter → Option Bool → ℤ
  | items, flag => if flag.isSome then 1 else 0
  | checks, flag => if flag = some true then 1 else 0

/-! ### The calls -/

/-- A change of one item in the list of a group. -/
structure GroupItemChange where
  group : Key
  before : Option Bool
  after : Option Bool

/-- The change that a call makes to its item, by what its row showed. -/
def GroupCall.itemChange : GroupCall → Option GroupItemChange
  | .addGroupItem g _ _ _ => some ⟨g, none, some false⟩
  | .markeOffUser g _ _ => some ⟨g, some false, some true⟩
  | .uncheckUser g _ => some ⟨g, some true, some false⟩
  | .deleteItem g _ checkmarkIsHidden => some ⟨g, some (!checkmarkIsHidden), none⟩
  | _ => none

/-- The group whose list a call changes. -/
def GroupCall.listGroup (t : GroupCall) : Option Key := t.itemChange.map (·.group)

/-- What a change of an item adds to a counter of a group. -/
def GroupCall.delta (g : Key) (counter : ListCounter) (t : GroupCall) : ℤ :=
  match t.itemChange with
  | some change => if change.group = g then counter.weight change.after - counter.weight change.before else 0
  | none => 0

/-- A call finds its item as its row showed it, and a rename finds an item that is still listed. -/
def GroupCall.FindsItem (t : GroupCall) (db : Store Value) (g k : Key) : Prop :=
  match t.itemChange with
  | some change => ItemShows db (groupItems g) k change.before
  | none => k ∈ db.children (groupItems g)

/-- A write to an item of the group finds it, a counter of the group is adjusted by what the change of
the item calls for, and the group is not removed. -/
def CountsInOrder (g : Key) (t : GroupCall) (db : Store Value) : Write Value → Prop
  | .update [a, x] entries => a = Keys.groups → x = g → ∀ counter ∈ [ListCounter.items, .checks],
      ∀ entry ∈ entries, entry.1 = [counter.groupField] →
        entry.2.get [] = (storedCount db g counter).map fun n => .int (n + t.delta g counter)
  | .update [a, x, b, k] _ => a = Keys.groups → x = g → b = Keys.groceryList → t.FindsItem db g k
  | .remove [a, x] => a = Keys.groups → x ≠ g
  | .remove [a, x, b, k] => a = Keys.groups → x = g → b = Keys.groceryList → t.FindsItem db g k
  | _ => True

/-- A step with a legal name of the item whose write finds the list of the group in order. -/
def ListStep (g : Key) (s : GroupSys) : Act GroupCall → Prop
  | .spawn t => ∀ item ∈ t.itemName, LegalKey item
  | .run i =>
    match s.pool[i]? with
    | some (t, .run (.write w _)) => CountsInOrder g t s.db w
    | _ => True

/-- The writes of a step find the list in order. -/
theorem ListStep.meets {g : Key} {s : GroupSys} {a : Act GroupCall} (h : ListStep g s a) :
    s.Meets (CountsInOrder g) a := by
  cases a with
  | spawn t => trivial
  | run i =>
    intro t w next hget
    simpa only [ListStep, hget] using h

/-! ### What writes change -/

/-- How far a counter of a group is ahead of its items. -/
def countBalance (g : Key) (counter : ListCounter) : Balance GroupCall (WithTop ℤ) Value where
  value db := surplus (storedCount db g counter) counter.test db (groupItems g)
  may := CountsInOrder g

section

variable {g k : Key} {t : GroupCall} {db db' : Store Value} {w : Write Value} {counter : ListCounter}
  {before after : Option Bool}

/-- A counter that nothing is written to keeps its number. -/
theorem storedCount_congr (h : db'.get [Keys.groups, g, counter.groupField] =
    db.get [Keys.groups, g, counter.groupField]) : storedCount db' g counter = storedCount db g counter := by
  simp only [storedCount, storedInt, h]

/-- The quantity stays when neither the counter nor the list changes. -/
theorem countBalance_congr (hcount : storedCount db' g counter = storedCount db g counter)
    (hlist : ∀ q, db'.get (groupItems g ++ q) = db.get (groupItems g ++ q)) :
    (countBalance g counter).value db' = (countBalance g counter).value db := by
  simp only [countBalance, hcount, surplus, tally_congr (localTest_test counter) hlist]

/-- An update adjusts each counter that it writes. -/
theorem storedCount_update {entries : List (Path × Store Value)} {entry : Path × Store Value}
    (hapart : entries.Pairwise fun a b => Apart a.1 b.1) (hentry : entry ∈ entries)
    (hkey : entry.1 = [counter.groupField])
    (hmay : CountsInOrder g t db (.update [Keys.groups, g] entries)) :
    storedCount ((Write.update [Keys.groups, g] entries).apply db) g counter =
      (storedCount db g counter).map (· + t.delta g counter) := by
  have hvalue := hmay rfl rfl counter (by cases counter <;> simp) entry hentry hkey
  have hget := get_update_of_mem hapart hentry [Keys.groups, g] [] db
  rw [hkey, hvalue] at hget
  have hafter : ((Write.update [Keys.groups, g] entries).apply db).get
      [Keys.groups, g, counter.groupField] =
        (storedCount db g counter).map fun n => .int (n + t.delta g counter) := hget
  rw [storedCount, storedInt, hafter]
  cases storedCount db g counter <;> rfl

/-- A call for another list adds nothing. -/
theorem delta_of_ne (ht : t.listGroup ≠ some g) : t.delta g counter = 0 := by
  unfold GroupCall.delta
  unfold GroupCall.listGroup at ht
  cases hchange : t.itemChange with
  | none => rfl
  | some change =>
    rw [hchange, Option.map_some, ne_eq, Option.some.injEq] at ht
    exact if_neg ht

/-- A call for the list adds what its change of the item calls for. -/
theorem delta_of_change (ht : t.itemChange = some ⟨g, before, after⟩) :
    t.delta g counter = counter.weight after - counter.weight before := by
  simp [GroupCall.delta, ht]

/-- An item is counted by what it shows. -/
theorem passes_of_itemShows {p : Path} {flag : Option Bool} (h : ItemShows db p k flag) :
    (if Passes counter.test db p k then (1 : ℤ) else 0) = counter.weight flag := by
  cases flag with
  | none =>
    have hnot : ¬ Passes counter.test db p k := fun hpasses => h hpasses.1
    rw [if_neg hnot]
    cases counter <;> rfl
  | some flag =>
    have hget : db.get (p ++ [k, Keys.isSelected]) = some (.bool flag) := h
    cases counter with
    | items =>
      have hk : k ∈ db.children p := (Store.mem_children _ _ _).mpr ⟨_, _, hget⟩
      rw [if_pos ((passes_items db p k).mpr hk)]
      rfl
    | checks =>
      simp only [passes_checks, hget]
      cases flag <;> simp [ListCounter.weight]

/-- A change of one item changes the number of items by what the item counts for. -/
theorem tally_change {p : Path} (hw : p ++ [k] <+: w.location) (hbefore : ItemShows db p k before)
    (hafter : ItemShows (w.apply db) p k after) :
    (tally counter.test (w.apply db) p : ℤ) =
      tally counter.test db p + (counter.weight after - counter.weight before) := by
  have htally := tally_apply_below (s := db) (localTest_test counter) hw
  rw [← passes_of_itemShows hbefore, ← passes_of_itemShows hafter]
  split_ifs at htally ⊢ <;> omega

/-- Another field of a listed item than its check mark leaves the quantity alone. -/
theorem countBalance_edit {key : Key} (hlisted : k ∈ db.children (groupItems g))
    (hkey : key ≠ Keys.isSelected) (value : Value) :
    (countBalance g counter).value ((Write.update (itemPath g k) [([key], .leaf value)]).apply db) =
      (countBalance g counter).value db := by
  have hfield : Keys.groceryList ≠ counter.groupField := by cases counter <;> decide
  have hcount : storedCount ((Write.update (itemPath g k) [([key], .leaf value)]).apply db) g counter =
      storedCount db g counter :=
    storedCount_congr (get_apply_of_apart (w := .update _ _) (apart_field _ _ _ hfield _ _) db)
  have hwithin : groupItems g ++ [k] <+: (Write.update (itemPath g k) [([key], .leaf value)]).location :=
    List.prefix_refl _
  have hpasses : Passes counter.test ((Write.update (itemPath g k) [([key], .leaf value)]).apply db)
      (groupItems g) k ↔ Passes counter.test db (groupItems g) k := by
    cases counter with
    | items =>
      rw [passes_items, passes_items]
      refine iff_of_true ((Store.mem_children _ _ _).mpr ⟨[key], value, ?_⟩) hlisted
      exact get_update_leaf (itemPath g k) [key] value db
    | checks =>
      rw [passes_checks, passes_checks, get_update_of_apart]
      intro entry hentry
      rw [List.mem_singleton.mp hentry]
      exact (apart_append_left (itemPath g k) _ _).mpr (apart_of_ne hkey [] [])
  have htally := tally_apply_below (s := db) (localTest_test counter) hwithin
  simp only [hpasses] at htally
  simp only [countBalance, hcount, surplus, Nat.add_right_cancel htally]

/-- A write beside the group leaves the quantity alone. -/
theorem permits_beside (hw : Apart w.location [Keys.groups, g]) :
    (countBalance g counter).steady.Permits t w := by
  intro db _ _
  apply countBalance_congr
  · exact storedCount_congr (get_apply_of_apart (hw.symm.append_left [counter.groupField]).symm db)
  · exact fun q => get_apply_of_apart (hw.symm.append_left (Keys.groceryList :: q)).symm db

/-- A write to another group leaves the quantity alone. -/
theorem permits_otherGroup {x : Key} (hx : x ≠ g) {rest : Path} (hw : w.location = Keys.groups :: x :: rest) :
    (countBalance g counter).steady.Permits t w := by
  apply permits_beside
  rw [hw, apart_cons]
  exact apart_of_ne hx _ _

/-- A write to the members leaves the quantity alone. -/
theorem permits_members {x : Key} {rest : Path} (hw : w.location = Keys.groups :: x :: Keys.members :: rest) :
    (countBalance g counter).steady.Permits t w := by
  intro db _ _
  have hfield : Keys.members ≠ counter.groupField := by cases counter <;> decide
  apply countBalance_congr
  · exact storedCount_congr (get_apply_of_apart (hw ▸ apart_field _ _ _ hfield _ _) db)
  · exact fun q => get_apply_of_apart (hw ▸ apart_field _ _ _ (by decide) _ _) db

/-- A call for another list leaves the quantity alone when it updates fields of a group. -/
theorem permits_update_group (ht : t.listGroup ≠ some g) (x : Key) {entries : List (Path × Store Value)}
    (hapart : entries.Pairwise fun a b => Apart a.1 b.1)
    (hfields : ∀ entry ∈ entries, ∃ key, entry.1 = [key] ∧ key ≠ Keys.groceryList) :
    (countBalance g counter).steady.Permits t (.update [Keys.groups, x] entries) := by
  by_cases hx : x = g
  · subst hx
    intro db _ hmay
    apply countBalance_congr
    · by_cases hwritten : ∃ entry ∈ entries, entry.1 = [counter.groupField]
      · obtain ⟨entry, hentry, hkey⟩ := hwritten
        rw [storedCount_update hapart hentry hkey hmay, delta_of_ne ht]
        simp
      · apply storedCount_congr
        apply get_update_of_apart
        intro entry hentry
        obtain ⟨key, hkey, -⟩ := hfields entry hentry
        have hne : key ≠ counter.groupField := fun hsame => hwritten ⟨entry, hentry, hsame ▸ hkey⟩
        rw [hkey]
        exact apart_field _ _ _ hne _ _
    · intro q
      apply get_update_of_apart
      intro entry hentry
      obtain ⟨key, hkey, hne⟩ := hfields entry hentry
      rw [hkey]
      exact apart_field _ _ _ hne _ _
  · exact permits_otherGroup hx rfl

/-- What a call for another list writes leaves the quantity alone. -/
theorem permits_writes (ht : t.listGroup ≠ some g) (hw : t.Writes w) :
    (countBalance g counter).steady.Permits t w := by
  have hother {x : Key} {name : Path} (hx : GroupCall.listGroup t = some x) {w : Write Value}
      (hlocation : w.location = [Keys.groups, x, Keys.groceryList] ++ name) :
      (countBalance g counter).steady.Permits t w :=
    permits_otherGroup (fun hsame => ht (hsame ▸ hx)) hlocation
  cases hw with
  | @account _ w root rest hroot hw =>
    apply permits_beside
    rw [hw]
    rcases hroot with rfl | rfl <;> exact apart_of_ne (by decide) _ _
  | createGroup hmembers =>
    refine permits_update_group ht _ (pairwise_createGroup _ _ _ _) fun entry hentry => ?_
    simp only [List.mem_cons, List.not_mem_nil, or_false] at hentry
    rcases hentry with rfl | rfl | rfl | rfl | rfl | rfl <;> exact ⟨_, rfl, by decide⟩
  | count hcreates x _ hkey =>
    refine permits_update_group ht x (List.pairwise_singleton _ _) fun entry hentry => ?_
    rw [List.mem_singleton.mp hentry]
    exact ⟨_, rfl, by rcases hkey with rfl | rfl <;> decide⟩
  | master x =>
    refine permits_update_group ht x (List.pairwise_singleton _ _) fun entry hentry => ?_
    rw [List.mem_singleton.mp hentry]
    exact ⟨_, rfl, by decide⟩
  | addMember x hname => exact permits_members rfl
  | removeMember x k => exact permits_members rfl
  | @renameItem uid profileName newUsername x k key hkey =>
    by_cases hx : x = g
    · subst hx
      intro db _ hmay
      have hlisted : k ∈ db.children (groupItems x) := hmay rfl rfl rfl
      exact countBalance_edit hlisted (by rcases hkey with rfl | rfl <;> decide) _
    · exact permits_otherGroup hx rfl
  | addItem hname => exact hother rfl rfl
  | checkItem hname => exact hother rfl rfl
  | uncheckItem hname => exact hother rfl rfl
  | removeItem hname => exact hother rfl rfl
  | removeGroup x =>
    by_cases hx : x = g
    · intro db _ hmay
      exact absurd hx (hmay rfl)
    · exact permits_otherGroup hx rfl

/-! ### What the calls for the list add -/

/-- A change of an item makes each counter fall behind by what the change calls for. -/
theorem changes_item (ht : t.itemChange = some ⟨g, before, after⟩) (hw : w.location = groupItems g ++ [k])
    (hmay : ∀ db, CountsInOrder g t db w → t.FindsItem db g k)
    (hafter : ∀ db, ItemShows (w.apply db) (groupItems g) k after) :
    (countBalance g counter).Changes t w
      ((0 - (counter.weight after - counter.weight before) : ℤ) : WithTop ℤ) := by
  intro db hdb
  have hbefore : ItemShows db (groupItems g) k before := by
    have hfinds := hmay db hdb
    rwa [GroupCall.FindsItem, ht] at hfinds
  have hfield : Keys.groceryList ≠ counter.groupField := by cases counter <;> decide
  apply surplus_add
  · rw [storedCount_congr (get_apply_of_apart (hw ▸ apart_field _ _ _ hfield _ _) db)]
    simp
  · exact tally_change (hw ▸ List.prefix_refl _) hbefore (hafter db)

/-- A counter function makes its counter come ahead by what the change of the item calls for. -/
theorem adds_adjust (adjusted : ListCounter) {field : String} {delta : ℤ}
    (hfield : parsePath field = some [adjusted.groupField]) (hdelta : t.delta g adjusted = delta) :
    (countBalance g counter).Adds t
      (adjustCount (REF_GROUPS.child g.1) field delta : Prog (ℕ → String) Value)
      ((if adjusted = counter then delta else 0 : ℤ) : WithTop ℤ) := by
  have href : REF_GROUPS.child g.1 = some [Keys.groups, g] := by simp [REF_GROUPS]
  rw [href, adjustCount_eq _ hfield]
  refine ⟨_, 0, (add_zero _).symm, fun db => ?_, rfl⟩
  beta_reduce
  cases asInt (db.snapshot ([Keys.groups, g] ++ [adjusted.groupField])) with
  | none => trivial
  | some n =>
    cases hsum : addInt n delta with
    | none => simp [Prog.force, hsum, Balance.Adds]
    | some sum =>
    obtain ⟨rfl, -⟩ := (addInt_eq_some_iff _ _ _).mp hsum
    simp only [Prog.force, hsum]
    refine ⟨_, 0, (add_zero _).symm, fun db hmay => ?_, rfl⟩
    have hplain : ∀ entry ∈ [([adjusted.groupField], int (n + delta))], entry.1 = [adjusted.groupField] :=
      fun entry hentry => by rw [List.mem_singleton.mp hentry]
    have hlist (q : Path) :
        ((Write.update [Keys.groups, g] [([adjusted.groupField], int (n + delta))]).apply db).get
          (groupItems g ++ q) = db.get (groupItems g ++ q) := by
      apply get_update_of_apart
      intro entry hentry
      rw [hplain entry hentry]
      exact apart_field _ _ _ (by cases adjusted <;> decide) _ _
    split
    · next hsame =>
      subst hsame
      have hcount := storedCount_update (List.pairwise_singleton _ _) (List.mem_singleton_self _) rfl hmay
      have htally : (tally adjusted.test
          ((Write.update [Keys.groups, g] [([adjusted.groupField], int (n + delta))]).apply db)
          (groupItems g) : ℤ) = tally adjusted.test db (groupItems g) + 0 := by
        rw [tally_congr (localTest_test adjusted) hlist, add_zero]
      have hadds := surplus_add hcount htally
      rwa [hdelta, sub_zero] at hadds
    · next hother =>
      rw [WithTop.coe_zero, add_zero]
      refine countBalance_congr (storedCount_congr (get_update_of_apart ?_ db)) hlist
      intro entry hentry
      rw [hplain entry hentry]
      refine apart_field _ _ _ (fun hfields => hother ?_) _ _
      cases adjusted <;> cases counter <;> first | rfl | exact absurd hfields (by decide)

/-- An update of an item shows the check mark that it writes. -/
theorem itemShows_update {entries : List (Path × Store Value)} {flag : Bool}
    (hapart : entries.Pairwise fun a b => Apart a.1 b.1) (hflag : ([Keys.isSelected], bool flag) ∈ entries)
    (db : Store Value) :
    ItemShows ((Write.update (itemPath g k) entries).apply db) (groupItems g) k (some flag) :=
  get_update_of_mem hapart hflag (itemPath g k) [] db

/-- A change of an item and the counter function after it make each counter come ahead by what only one
of them adds. -/
theorem adds_itemChange (ht : t.itemChange = some ⟨g, before, after⟩) (hw : w.location = groupItems g ++ [k])
    (hmay : ∀ db, CountsInOrder g t db w → t.FindsItem db g k)
    (hafter : ∀ db, ItemShows (w.apply db) (groupItems g) k after) (adjusted : ListCounter) {field : String}
    {delta d : ℤ} {next : Prog (ℕ → String) Value} (hnext : next = adjustCount (REF_GROUPS.child g.1) field delta)
    (hfield : parsePath field = some [adjusted.groupField])
    (hdelta : adjusted.weight after - adjusted.weight before = delta)
    (hd : (if adjusted = counter then delta else 0) - (counter.weight after - counter.weight before) = d) :
    (countBalance g counter).Adds t (.write w next) (d : WithTop ℤ) := by
  have hadjusted : t.delta g adjusted = delta := by rw [delta_of_change ht, hdelta]
  have hadds : (countBalance g counter).Adds t
      (.write w (adjustCount (REF_GROUPS.child g.1) field delta) : Prog (ℕ → String) Value) _ :=
    Balance.adds_write (changes_item ht hw hmay hafter) (adds_adjust adjusted hfield hadjusted)
  rw [← WithTop.coe_add] at hadds
  subst hnext
  convert hadds using 2
  omega

/-- An update of an item finds it. -/
theorem finds_update {entries : List (Path × Store Value)}
    (hmay : CountsInOrder g t db (.update (itemPath g k) entries)) : t.FindsItem db g k := hmay rfl rfl rfl

/-- A removal of an item finds it. -/
theorem finds_remove (hmay : CountsInOrder g t db (.remove (itemPath g k))) : t.FindsItem db g k :=
  hmay rfl rfl rfl

/-- A removed item is not stored. -/
theorem itemShows_remove (db : Store Value) :
    ItemShows ((Write.remove (itemPath g k)).apply db) (groupItems g) k none := by
  intro hk
  obtain ⟨rest, v, hv⟩ := (Store.mem_children _ _ _).mp hk
  exact ((Store.get_remove_eq_some_iff _ _ _ _).mp hv).1 ⟨rest, by simp [itemPath, groupItems]⟩

/-- The calls for the list of the group add nothing in total. -/
theorem adds_code (ht : t.listGroup = some g) (hlegal : ∀ item ∈ t.itemName, LegalKey item) :
    (countBalance g counter).Adds t t.code 0 := by
  have hlist : parsePath "list count" = some [ListCounter.items.groupField] := by
    simp [ListCounter.groupField]
  have hcheck : parsePath "list check count" = some [ListCounter.checks.groupField] := by
    simp [ListCounter.groupField]
  have hkey {item : String} (hitem : t.itemName = some item) : ∃ k : Key, k.1 = item :=
    ⟨⟨item, hlegal item hitem⟩, rfl⟩
  cases t <;> simp only [GroupCall.listGroup, GroupCall.itemChange, Option.map_some, Option.map_none,
    reduceCtorEq, Option.some.injEq] at ht
  case addGroupItem x item description currentUser =>
    obtain ⟨k, rfl⟩ := hkey rfl
    subst ht
    simp only [GroupCall.code, addGroupItem]
    rw [createGroupItem_eq, parsePath_key]
    refine adds_itemChange (k := k) rfl rfl (fun _ => finds_update) (fun db => ?_) .items rfl hlist rfl ?_
    · exact itemShows_update (by simp +decide) (by simp) db
    · cases counter <;> rfl
  case markeOffUser x item username =>
    obtain ⟨k, rfl⟩ := hkey rfl
    subst ht
    simp only [GroupCall.code]
    rw [markeOffUser_eq, parsePath_key]
    refine adds_itemChange (k := k) rfl rfl (fun _ => finds_update) (fun db => ?_) .checks rfl hcheck rfl ?_
    · exact itemShows_update (by simp +decide) (by simp) db
    · cases counter <;> rfl
  case uncheckUser x item =>
    obtain ⟨k, rfl⟩ := hkey rfl
    subst ht
    simp only [GroupCall.code]
    rw [uncheckUser_eq, parsePath_key]
    refine adds_itemChange (k := k) rfl rfl (fun _ => finds_update) (fun db => ?_) .checks rfl hcheck rfl ?_
    · exact itemShows_update (by simp +decide) (by simp) db
    · cases counter <;> rfl
  case deleteItem x item checkmarkIsHidden =>
    obtain ⟨k, rfl⟩ := hkey rfl
    subst ht
    have hremove : (countBalance x counter).Adds (.deleteItem x k.1 checkmarkIsHidden)
        (removeGroupItem x.1 k.1 : Prog (ℕ → String) Value)
        ((if counter = .checks ∧ checkmarkIsHidden = false then 1 else 0 : ℤ) : WithTop ℤ) := by
      rw [removeGroupItem_eq, parsePath_key]
      refine adds_itemChange (k := k) rfl rfl (fun _ => finds_remove) itemShows_remove .items rfl hlist ?_ ?_
      · cases checkmarkIsHidden <;> rfl
      · cases counter <;> cases checkmarkIsHidden <;> rfl
    have hcheckOff : (countBalance x counter).Adds (.deleteItem x k.1 checkmarkIsHidden)
        (if checkmarkIsHidden = false then decreaseListCheckCount x.1 else .done : Prog (ℕ → String) Value)
        ((if counter = .checks ∧ checkmarkIsHidden = false then -1 else 0 : ℤ) : WithTop ℤ) := by
      cases checkmarkIsHidden with
      | true => cases counter <;> rfl
      | false =>
        have hadds : (countBalance x counter).Adds (.deleteItem x k.1 false) _ _ :=
          adds_adjust .checks hcheck (delta_of_change rfl)
        cases counter <;> exact hadds
    have hblock := Balance.adds_seq hcheckOff (Balance.adds_seq hremove
      (show (countBalance x counter).Adds _ (.done : Prog (ℕ → String) Value) 0 from rfl))
    have hzero : ((if counter = .checks ∧ checkmarkIsHidden = false then -1 else 0) +
        if counter = .checks ∧ checkmarkIsHidden = false then 1 else 0 : ℤ) = 0 := by split <;> rfl
    rw [add_zero, ← WithTop.coe_add, hzero] at hblock
    exact hblock

end

/-! ### What the screens show -/

/-- What is loaded of a list counts as what is stored. -/
theorem counts_of_mapM {α β : Type*} {f : α → Option β} {r : α → Bool} {q : β → Bool}
    (hf : ∀ a b, f a = some b → q b = r a) {values : List α} {mapped : List β}
    (h : values.mapM f = some mapped) : mapped.length = values.length ∧ mapped.countP q = values.countP r := by
  induction values generalizing mapped with
  | nil =>
    have hnil : [] = mapped := by simpa using h
    simp [← hnil]
  | cons a values ih =>
    rw [List.mapM_cons] at h
    obtain ⟨b, hb, h⟩ := Option.bind_eq_some_iff.mp h
    obtain ⟨rest, hrest, h⟩ := Option.bind_eq_some_iff.mp h
    obtain rfl : b :: rest = mapped := by simpa using h
    obtain ⟨hlength, hcount⟩ := ih hrest
    exact ⟨by simp [hlength], by simp [List.countP_cons, hcount, hf a b hb]⟩

section

variable {g : Key} {db : Store Value}

/-- The rows of a group's screen are as many as its items, and as many of them are checked. -/
theorem counts_groupRows {rows : List GroupList}
    (h : groupRows (db.snapshot (groupItems g)).children = some rows) :
    rows.length = tally ListCounter.items.test db (groupItems g) ∧
      rows.countP (·.isSelected) = tally ListCounter.checks.test db (groupItems g) := by
  have hflag (item : Snapshot Value) (row : GroupList) (hrow : (do
      let description ← asString (item.childSnapshot "description")
      let selected ← asBool (item.childSnapshot "isSelected")
      let addedBy ← asString (item.childSnapshot "added by")
      let markedOffBy ← asString (item.childSnapshot "marked off by")
      some (⟨item.key, description, selected, addedBy, markedOffBy⟩ : GroupList)) = some row) :
      row.isSelected = decide ((item.childSnapshot "isSelected").value = some (.bool true)) := by
    obtain ⟨description, -, hrow⟩ := Option.bind_eq_some_iff.mp hrow
    obtain ⟨selected, hselected, hrow⟩ := Option.bind_eq_some_iff.mp hrow
    obtain ⟨addedBy, -, hrow⟩ := Option.bind_eq_some_iff.mp hrow
    obtain ⟨markedOffBy, -, hrow⟩ := Option.bind_eq_some_iff.mp hrow
    obtain rfl := Option.some.inj hrow
    rw [(asBool_eq_some_iff _ _).mp hselected]
    cases selected <;> rfl
  obtain ⟨hlength, hcount⟩ := counts_of_mapM hflag h
  have hchildren := Snapshot.children_snapshot db (groupItems g)
  refine ⟨?_, ?_⟩
  · simp [hlength, hchildren, tally, ListCounter.test]
  · rw [hcount, hchildren, List.countP_map, tally]
    congr 1
    funext k
    have hname : parsePath "isSelected" = some [Keys.isSelected] := by simp
    have hvalue := Snapshot.value_childSnapshot_child db (groupItems g) [Keys.isSelected] k hname
    simp [ListCounter.test, hvalue]

/-- Every row of the groups screen shows the counters that are stored. -/
def ShowsCounts (db : Store Value) (found : List Group × List String) : Prop :=
  ∀ row ∈ found.1, ∃ g : Key, row.key = g.1 ∧
    storedCount db g .items = some row.listCount ∧ storedCount db g .checks = some row.listCheckCount

/-- A round over the members of a group adds rows with the counters that are stored. -/
theorem ShowsCounts.collectGroup {user name : String} {found found' : List Group × List String}
    (hfound : ShowsCounts db found)
    (h : collectGroup user ⟨g.1, (db.sub [Keys.groups]).sub [g]⟩ found name = some found') :
    ShowsCounts db found' := by
  have hcount {field : String} {counter : ListCounter} {n : ℤ}
      (hfield : parsePath field = some [counter.groupField])
      (hn : asInt (Snapshot.childSnapshot ⟨g.1, (db.sub [Keys.groups]).sub [g]⟩ field) = some n) :
      storedCount db g counter = some n := by
    rw [asInt_eq_some_iff, Snapshot.value_childSnapshot_child db [Keys.groups] _ g hfield] at hn
    exact (storedInt_eq_some_iff _ _ _).mpr hn.1
  simp only [GroceryListApp.collectGroup] at h
  split at h
  · obtain ⟨title, -, h⟩ := Option.bind_eq_some_iff.mp h
    obtain ⟨description, -, h⟩ := Option.bind_eq_some_iff.mp h
    obtain ⟨listCount, hitems, h⟩ := Option.bind_eq_some_iff.mp h
    obtain ⟨listCheckCount, hchecks, h⟩ := Option.bind_eq_some_iff.mp h
    obtain ⟨master, -, h⟩ := Option.bind_eq_some_iff.mp h
    rw [Option.some.injEq] at h
    subst h
    intro row hrow
    rcases List.mem_append.mp hrow with hrow | hrow
    · exact hfound row hrow
    · rw [List.mem_singleton.mp hrow]
      refine ⟨g, rfl, hcount ?_ hitems, hcount ?_ hchecks⟩ <;> simp [ListCounter.groupField]
  · rw [Option.some.injEq] at h
    subst h
    exact hfound

/-- In whatever state the groups are, the rows show the counters that are stored. -/
theorem showsCounts_collectGroups {enumerate : List String → List String} {user : String}
    {found : List Group × List String}
    (h : collectGroups enumerate user (db.snapshot [Keys.groups]) = some found) : ShowsCounts db found := by
  unfold collectGroups at h
  rw [Snapshot.children_snapshot] at h
  have hstart : ShowsCounts db ([], []) := by simp [ShowsCounts]
  refine of_foldlM (P := ShowsCounts db) ?_ hstart h
  intro rows group hgroup rows' hrows hround
  obtain ⟨g, -, rfl⟩ := List.mem_map.mp hgroup
  obtain ⟨names, -, hwalk⟩ := Option.bind_eq_some_iff.mp hround
  exact of_foldlM (P := ShowsCounts db) (fun _ _ _ _ hfound hname => hfound.collectGroup hname) hrows hwalk

/-- Where the counters are right, the two screens agree. -/
theorem GroupCounted.showsProgress (hcounted : GroupCounted db g) {group : Group} {rows : List GroupList}
    (hitems : storedCount db g .items = some group.listCount)
    (hchecks : storedCount db g .checks = some group.listCheckCount)
    (hrows : groupRows (db.snapshot (groupItems g)).children = some rows) : ShowsProgress group rows := by
  obtain ⟨hlength, hcount⟩ := counts_groupRows hrows
  have hlistCount : group.listCount = rows.length := by
    rw [hcounted, Option.some.injEq] at hitems
    rw [← hitems, hlength]
  have hlistCheckCount : group.listCheckCount = rows.countP (·.isSelected) := by
    rw [hcounted, Option.some.injEq] at hchecks
    rw [← hchecks, hcount]
  refine ⟨hlistCount, hlistCheckCount, ?_, ?_⟩
  · simp [GroupsVC.cellForRowAt, GroupCell.configureCell, hlistCount]
  · have hall : rows.length = rows.countP (·.isSelected) ↔ ∀ item ∈ rows, item.isSelected = true := by
      rw [eq_comm]
      exact List.countP_eq_length
    simp [GroupsVC.cellForRowAt, GroupCell.configureCell, hlistCount, hlistCheckCount, hall]

end

/-- Along every schedule of all clients in which counters are adjusted by what the changes of items call
for, added items are new and other writes find their items as the rows showed them, the counters of a
group that is not removed are right whenever no change of its list is pending. Every row that the groups
screen then has for the group agrees with the rows that the group's own screen has. -/
theorem group_counters_match (g : Key) {start s : GroupSys} {acts : List (Act GroupCall)}
    (hpool : start.pool = []) (hstart : GroupCounted start.db g)
    (h : Sys.Run GroupCall.code (ListStep g) start acts s)
    (hidle : ∀ task ∈ s.pool, task.1.listGroup ≠ some g) :
    GroupCounted s.db g ∧ ∀ enumerate user found rows,
      collectGroups enumerate user (s.db.snapshot [Keys.groups]) = some found →
        groupRows (s.db.snapshot (groupItems g)).children = some rows →
          ∀ row ∈ found.1, row.key = g.1 → ShowsProgress row rows := by
  have hcounted : GroupCounted s.db g := by
    intro counter
    apply surplus_eq_zero_iff.mp
    have hbalanced : (countBalance g counter).value s.db = (countBalance g counter).value start.db :=
      Balance.run_balanced (fun t : GroupCall => t.listGroup = some g) (fun s a ha => ha.meets)
        (fun s t hlegal ht => adds_code ht hlegal)
        (fun s t _ ht => GroupCall.holds_code trivial fun w hw => permits_writes ht hw) hpool h hidle
    exact hbalanced.trans (surplus_eq_zero_iff.mpr (hstart counter))
  refine ⟨hcounted, fun enumerate user found rows hfound hrows row hrow hkey => ?_⟩
  obtain ⟨g', hkey', hitems, hchecks⟩ := showsCounts_collectGroups hfound row hrow
  obtain rfl : g' = g := Subtype.ext (hkey'.symm.trans hkey)
  exact hcounted.showsProgress hitems hchecks hrows

instance (db : Store Value) (p : Path) (k : Key) (flag : Option Bool) : Decidable (ItemShows db p k flag) :=
  match flag with
  | none => inferInstanceAs (Decidable (k ∉ db.children p))
  | some flag => inferInstanceAs (Decidable (db.get (p ++ [k, Keys.isSelected]) = some (.bool flag)))

instance (t : GroupCall) (db : Store Value) (g k : Key) : Decidable (t.FindsItem db g k) := by
  dsimp only [GroupCall.FindsItem]
  generalize t.itemChange = change
  exact match change with
    | some change => inferInstanceAs (Decidable (ItemShows db (groupItems g) k change.before))
    | none => inferInstanceAs (Decidable (k ∈ db.children (groupItems g)))

instance (g : Key) (t : GroupCall) (db : Store Value) (w : Write Value) :
    Decidable (CountsInOrder g t db w) :=
  match w with
  | .update [] _ | .update [_] _ | .update [_, _, _] _ => isTrue trivial
  | .update (_ :: _ :: _ :: _ :: _ :: _) _ => isTrue trivial
  | .remove [] | .remove [_] | .remove [_, _, _] | .remove (_ :: _ :: _ :: _ :: _ :: _) => isTrue trivial
  | .update [a, x] entries => inferInstanceAs (Decidable (a = Keys.groups → x = g →
      ∀ counter ∈ [ListCounter.items, .checks], ∀ entry ∈ entries, entry.1 = [counter.groupField] →
        entry.2.get [] = (storedCount db g counter).map fun n => .int (n + t.delta g counter)))
  | .update [a, x, b, k] _ | .remove [a, x, b, k] =>
    inferInstanceAs (Decidable (a = Keys.groups → x = g → b = Keys.groceryList → t.FindsItem db g k))
  | .remove [a, x] => inferInstanceAs (Decidable (a = Keys.groups → x ≠ g))

instance (g : Key) (s : GroupSys) (a : Act GroupCall) : Decidable (ListStep g s a) :=
  match a with
  | .spawn t => inferInstanceAs (Decidable (∀ item ∈ t.itemName, LegalKey item))
  | .run i => by
    dsimp only [ListStep]
    generalize s.pool[i]? = task
    exact match task with
      | some (t, .run (.write w _)) => inferInstanceAs (Decidable (CountsInOrder g t s.db w))
      | none | some (_, .await ..) | some (_, .run .done) | some (_, .run .trap)
      | some (_, .run (.observe ..)) | some (_, .run (.inspect _)) | some (_, .run (.modify ..)) =>
        isTrue trivial

/-- A new group of one user. -/
def newHome : Store Value :=
  (Write.update [Keys.groups, Sample.home] [([Keys.master], str "alice"), ([Keys.title], str "home"),
    ([Keys.description], str ""), ([Keys.groupListCount], int 0), ([Keys.groupListCheckCount], int 0),
    ([Keys.members, Sample.alice], str "uidA")]).apply .empty

/-- Two items are added at the same time, and one of them is checked off. -/
def addTogether : List (Act GroupCall) :=
  Act.spawn (GroupCall.addGroupItem Sample.home "milk" "" "alice") ::
    Act.spawn (GroupCall.addGroupItem Sample.home "eggs" "" "alice") ::
    [1, 0, 1, 0, 2, 0, 0, 0, 0, 0, 0, 0].map Act.run ++
  Act.spawn (GroupCall.markeOffUser Sample.home "milk" "alice") :: List.replicate 6 (Act.run 0)

/-- Two adds and a check-off of two members at once. -/
theorem group_counters_match_together : ∃ s : GroupSys,
    (s.pool = [] ∧ storedCount s.db Sample.home .items = some 2 ∧
      storedCount s.db Sample.home .checks = some 1) ∧
      GroupCounted s.db Sample.home ∧ ∀ enumerate user found rows,
        collectGroups enumerate user (s.db.snapshot [Keys.groups]) = some found →
          groupRows (s.db.snapshot (groupItems Sample.home)).children = some rows →
            ∀ row ∈ found.1, row.key = Sample.home.1 → ShowsProgress row rows := by
  have hstart : GroupCounted newHome Sample.home := by
    intro counter
    cases counter <;> decide +kernel
  have hend : (((⟨newHome, fun _ => "", []⟩ : GroupSys).checkedRuns GroupCall.code (ListStep Sample.home)
      addTogether).map fun s => (s.pool.isEmpty, storedCount s.db Sample.home .items,
        storedCount s.db Sample.home .checks)) = some (true, some 2, some 1) := by
    decide +kernel
  obtain ⟨s, hs, hlast⟩ := Option.map_eq_some_iff.mp hend
  obtain ⟨hpool, hitems, hchecks⟩ : s.pool.isEmpty = true ∧ storedCount s.db Sample.home .items = some 2 ∧
      storedCount s.db Sample.home .checks = some 1 := by
    simpa using hlast
  have hempty : s.pool = [] := List.isEmpty_iff.mp hpool
  exact ⟨s, ⟨hempty, hitems, hchecks⟩,
    group_counters_match Sample.home rfl hstart (Sys.run_of_checkedRuns hs) (by simp [hempty])⟩

end GroceryListApp

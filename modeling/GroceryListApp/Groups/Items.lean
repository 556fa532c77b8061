import GroceryListApp.Realtime.Collection
import GroceryListApp.Controller.GroupCallWrites

/-!
# Readable items of a group

The screen of a group casts four fields of every item, and the scans of a rename cast one.
An add writes all four. A check-off, an uncheck and a rename write some of them, from a row
or a scan that may be older than the removal of the item, and would bring back a part of it.
As long as they only reach items that are still on the list, every item stays readable.
-/

namespace GroceryListApp

open Realtime

/-- Every item of every group has the fields that are read of it. -/
def ItemsReadable (db : Store Value) : Prop :=
  ∀ g, Each (HasFields groupItemFields) db [Keys.groups, g, Keys.groceryList]

/-- The name of the item a call is about. -/
def GroupCall.itemName : GroupCall → Option String
  | .addGroupItem _ item _ _ => some item
  | .markeOffUser _ item _ => some item
  | .uncheckUser _ item => some item
  | .deleteItem _ item _ => some item
  | _ => none

/-- Whether the call writes an item with all its fields. -/
def GroupCall.addsItem : GroupCall → Bool
  | .addGroupItem .. => true
  | _ => false

/-- A write of some fields of an item reaches an item that is still on the list. -/
def OnListedItem (t : GroupCall) (db : Store Value) (w : Write Value) : Prop :=
  t.addsItem = false → ∀ g k entries,
    w = .update [Keys.groups, g, Keys.groceryList, k] entries →
    k ∈ db.children [Keys.groups, g, Keys.groceryList]

/-- The same, by the shape of the write. -/
theorem onListedItem_iff (t : GroupCall) (db : Store Value) (w : Write Value) : OnListedItem t db w ↔
    match w with
    | .update [root, g, field, k] _ => t.addsItem = false → root = Keys.groups →
      field = Keys.groceryList → k ∈ db.children [Keys.groups, g, Keys.groceryList]
    | _ => True := by
  constructor
  · intro h
    split
    · rintro ht rfl rfl
      exact h ht _ _ _ rfl
    · trivial
  · rintro h ht g k entries rfl
    exact h ht rfl rfl

instance (t : GroupCall) (db : Store Value) (w : Write Value) : Decidable (OnListedItem t db w) := by
  refine @decidable_of_iff' _ _ (onListedItem_iff t db w) ?_
  split <;> infer_instance

/-- What a step has to meet for the items to stay readable: the item of a call is a legal key,
and updates of parts reach listed items. -/
def ItemStep (s : GroupSys) : Act GroupCall → Prop
  | .spawn t => ∀ item, t.itemName = some item → LegalKey item
  | a => s.Meets OnListedItem a

instance (s : GroupSys) (a : Act GroupCall) : Decidable (ItemStep s a) := by
  cases a with
  | spawn t =>
    exact decidable_of_iff (∀ item ∈ t.itemName, LegalKey item) (by simp [ItemStep, Option.mem_def])
  | run i => exact inferInstanceAs (Decidable (s.Meets OnListedItem (.run i)))

/-- All items are readable, and the calls about legal names keep them readable. -/
def readableItems : Contract GroupCall Value :=
  .invariant ItemsReadable OnListedItem True

namespace readableItems

variable {t : GroupCall}

/-- Writes outside every grocery list are permitted. -/
theorem permits_elsewhere {p : Path} {entries : List (Path × Store Value)}
    (h : ∀ g, ∀ entry ∈ entries, Apart (p ++ entry.1) [Keys.groups, g, Keys.groceryList]) :
    readableItems.Permits t (.update p entries) := by
  intro s hs _ g
  exact Each.update_of_apart (HasFields.isLocal _) (hs g) (h g)

/-- Removals outside every grocery list are permitted. -/
theorem permits_removeElsewhere {p : Path} (h : ∀ g, Apart p [Keys.groups, g, Keys.groceryList]) :
    readableItems.Permits t (.remove p) := by
  intro s hs _ g
  exact Each.apply_of_apart (HasFields.isLocal _) (hs g) (h g)

/-- A write at an item is permitted when it keeps that item readable. -/
theorem permits_item {w : Write Value} {g k : Key}
    (hw : w.location = [Keys.groups, g, Keys.groceryList, k])
    (hkeep : ∀ s, ItemsReadable s → OnListedItem t s w →
      k ∈ (w.apply s).children [Keys.groups, g, Keys.groceryList] →
      HasFields groupItemFields (w.apply s) [Keys.groups, g, Keys.groceryList, k]) :
    readableItems.Permits t w := by
  intro s hs hmay g'
  by_cases hg : g' = g
  · subst hg
    apply Each.apply_below (HasFields.isLocal _) (hs g') (k := k)
    · rw [hw]
      exact List.prefix_refl _
    · exact hkeep s hs hmay
  · apply Each.apply_of_apart (HasFields.isLocal _) (hs g')
    rw [hw, apart_cons]
    exact apart_of_ne (Ne.symm hg) _ _

/-- Writing some fields of a listed item is permitted. -/
theorem permits_fields (ht : t.addsItem = false) (g k : Key) {entries : List (Path × Store Value)}
    (hapart : entries.Pairwise fun a b => Apart a.1 b.1)
    (h : ∀ field ∈ groupItemFields, (∃ v, field.2 v ∧ ∃ entry ∈ entries, entry.1 = [field.1] ∧
        entry.2.get [] = some v) ∨ ∀ entry ∈ entries, Apart entry.1 [field.1]) :
    readableItems.Permits t (.update [Keys.groups, g, Keys.groceryList, k] entries) := by
  apply permits_item rfl
  intro s hs hmay _
  apply HasFields.update hapart
  intro field hfield
  have hstored := hs g k (hmay ht g k entries rfl) field hfield
  exact (h field hfield).imp id fun hkept => ⟨hkept, hstored⟩

/-- Every write of a call about a legal item name is permitted. -/
theorem permits_writes (hlegal : ∀ item, t.itemName = some item → LegalKey item) {w : Write Value}
    (h : t.Writes w) : readableItems.Permits t w := by
  have hparse {item : String} {name : Path} (hitem : t.itemName = some item)
      (hname : parsePath item = some name) : ∃ k, name = [k] := by
    have hkey := parsePath_key ⟨item, hlegal item hitem⟩
    exact ⟨_, Option.some.inj (hname.symm.trans hkey)⟩
  cases h with
  | @account _ w root rest hroot hw =>
    intro s hs _ g
    apply Each.apply_of_apart (HasFields.isLocal _) (hs g)
    rw [hw]
    rcases hroot with rfl | rfl <;> exact apart_of_ne (by decide) _ _
  | createGroup hmembers =>
    apply permits_elsewhere
    intro g entry hentry
    simp only [List.mem_cons, List.not_mem_nil, or_false] at hentry
    rcases hentry with rfl | rfl | rfl | rfl | rfl | rfl <;>
      exact apart_field _ _ _ (by decide) _ _
  | count ht g _ hkey =>
    apply permits_elsewhere
    intro g' entry hentry
    rw [List.mem_singleton.mp hentry]
    rcases hkey with rfl | rfl <;> exact apart_field _ _ _ (by decide) _ _
  | master g =>
    apply permits_elsewhere
    intro g' entry hentry
    rw [List.mem_singleton.mp hentry]
    exact apart_field _ _ _ (by decide) _ _
  | addMember g hname =>
    apply permits_elsewhere
    intro g' entry hentry
    rw [List.mem_singleton.mp hentry]
    exact apart_field _ _ _ (by decide) _ _
  | removeMember g k =>
    apply permits_removeElsewhere
    intro g'
    exact apart_field _ _ _ (by decide) _ _
  | renameItem g k hkey =>
    apply permits_fields rfl g k (List.pairwise_singleton _ _)
    intro field hfield
    simp only [groupItemFields, List.mem_cons, List.not_mem_nil, or_false] at hfield
    rcases hkey with rfl | rfl <;> rcases hfield with rfl | rfl | rfl | rfl <;>
      simp +decide [IsString, str]
  | @addItem g item description currentUser name hname =>
    obtain ⟨k, rfl⟩ := hparse rfl hname
    apply permits_item (g := g) (k := k) rfl
    intro s _ _ _
    apply HasFields.update (by simp +decide)
    intro field hfield
    left
    simp only [groupItemFields, List.mem_cons, List.not_mem_nil, or_false] at hfield
    rcases hfield with rfl | rfl | rfl | rfl <;> simp +decide [IsString, IsBool, str, bool]
  | @checkItem g item username name hname =>
    obtain ⟨k, rfl⟩ := hparse rfl hname
    apply permits_fields rfl g k (by simp +decide)
    intro field hfield
    simp only [groupItemFields, List.mem_cons, List.not_mem_nil, or_false] at hfield
    rcases hfield with rfl | rfl | rfl | rfl <;> simp +decide [IsString, IsBool, str, bool]
  | @uncheckItem g item name hname =>
    obtain ⟨k, rfl⟩ := hparse rfl hname
    apply permits_fields rfl g k (by simp +decide)
    intro field hfield
    simp only [groupItemFields, List.mem_cons, List.not_mem_nil, or_false] at hfield
    rcases hfield with rfl | rfl | rfl | rfl <;> simp +decide [IsString, IsBool, str, bool]
  | @removeItem g item checkmarkIsHidden name hname =>
    obtain ⟨k, rfl⟩ := hparse rfl hname
    apply permits_item (g := g) (k := k) rfl
    intro s _ _ hk
    obtain ⟨r, v, hv⟩ := (Store.mem_children _ _ _).mp hk
    exact absurd ⟨r, by simp⟩ ((Store.get_remove_eq_some_iff _ _ _ _).mp hv).1
  | removeGroup g =>
    intro s hs _ g'
    by_cases hg : g' = g
    · subst hg
      apply Each.remove_above
      exact List.prefix_append [Keys.groups, g'] [Keys.groceryList]
    · apply Each.apply_of_apart (HasFields.isLocal _) (hs g')
      simp only [Write.location, apart_cons]
      exact apart_of_ne (Ne.symm hg) _ _

end readableItems

/-! ### The casts of the readers -/

/-- No cast of `getAllGroupLists` fails on readable items. -/
theorem isSome_groupRows {db : Store Value} (h : ItemsReadable db) (g : Key) :
    (groupRows (db.snapshot [Keys.groups, g, Keys.groceryList]).children).isSome := by
  apply isSome_mapM
  intro item hitem
  rw [Snapshot.children_snapshot] at hitem
  obtain ⟨k, hk, rfl⟩ := List.mem_map.mp hitem
  have hfields := h g k hk
  obtain ⟨description, hdescription⟩ := exists_asString hfields Keys.description "description" (by simp [groupItemFields]) (by simp)
  obtain ⟨selected, hselected⟩ := exists_asBool hfields Keys.isSelected "isSelected" (by simp [groupItemFields]) (by simp)
  obtain ⟨addedBy, haddedBy⟩ := exists_asString hfields Keys.addedBy "added by"
    (by simp [groupItemFields]) (by simp)
  obtain ⟨markedOffBy, hmarked⟩ := exists_asString hfields Keys.markedOffBy "marked off by" (by simp [groupItemFields]) (by simp)
  simp [hdescription, hselected, haddedBy, hmarked]

/-- The screen of a group can be loaded whenever the items are readable. -/
theorem safe_getAllGroupLists {M : Type*} {reached : Store Value → Prop}
    (h : ∀ db, reached db → ItemsReadable db) (g : Key) :
    Contract.Safe reached (getAllGroupLists g.1 (fun _ => .done) : Prog M Value) := by
  have href : (REF_GROUPS.child g.1).child "grocery list" =
      some [Keys.groups, g, Keys.groceryList] := by
    simp [REF_GROUPS, Ref.child]
  rw [getAllGroupLists, href]
  refine ⟨fun db hdb => Contract.holds_force (fun hnone => ?_) fun _ _ => trivial, trivial⟩
  have hsome := isSome_groupRows (h db hdb) g
  rw [hnone] at hsome
  contradiction

/-- The scan over a string field of the items does not trap when the items are readable. -/
theorem safe_changeItemField {M : Type*} {reached : Store Value → Prop}
    (h : ∀ db, reached db → ItemsReadable db) {field : String} (key : Key)
    (hfield : parsePath field = some [key]) (hkey : (key, IsString) ∈ groupItemFields)
    (currentUsername changedUsername : String) :
    Contract.Safe reached
      (changeItemField field currentUsername changedUsername : Prog M Value) := by
  apply holds_changeItemField key hfield
  · intro db g k hdb hk
    obtain ⟨v, hv, text, rfl⟩ := h db hdb g k hk _ hkey
    exact Or.inl ⟨text, hv⟩
  · exact fun _ _ _ _ _ _ _ hmay => hmay.elim

/-! ### Every schedule -/

/-- Along every schedule whose steps meet the condition all items stay readable, and neither
the screen of a group nor the two scans of a rename trap. -/
theorem groupItems_readable {start : GroupSys} (hpool : start.pool = [])
    (hstart : ItemsReadable start.db) :
    (∀ db, Sys.Reaches GroupCall.code ItemStep start db → ItemsReadable db) ∧
      (∀ g : Key, Contract.Safe (Sys.Reaches GroupCall.code ItemStep start)
        (getAllGroupLists g.1 (fun _ => .done) : Prog (ℕ → String) Value)) ∧
      ∀ currentUsername changedUsername,
        Contract.Safe (Sys.Reaches GroupCall.code ItemStep start)
          (changeAddedBy currentUsername changedUsername : Prog (ℕ → String) Value) ∧
        Contract.Safe (Sys.Reaches GroupCall.code ItemStep start)
          (changeMarkedOffBy currentUsername changedUsername : Prog (ℕ → String) Value) := by
  have hreadable : ∀ db, Sys.Reaches GroupCall.code ItemStep start db → ItemsReadable db := by
    rintro db ⟨acts, s, hrun, rfl⟩
    have hmeets : ∀ (s : GroupSys) a, ItemStep s a → s.Meets readableItems.may a := by
      intro s a ha
      cases a with
      | spawn t => trivial
      | run i => exact ha
    exact (Contract.run_holds (c := readableItems) hmeets
      (fun _ t ht => GroupCall.holds_code trivial fun _ hw => readableItems.permits_writes ht hw)
      hstart (by simp [hpool]) hrun).1
  refine ⟨hreadable, safe_getAllGroupLists hreadable, fun currentUsername changedUsername => ⟨?_, ?_⟩⟩
  · exact safe_changeItemField hreadable Keys.addedBy (by simp) (by simp [groupItemFields])
      currentUsername changedUsername
  · exact safe_changeItemField hreadable Keys.markedOffBy (by simp)
      (by simp [groupItemFields]) currentUsername changedUsername

/-- Two members share a group with two items. While the name of one member is changed, the other one
checks off the first item and deletes the second one. -/
def checkOffBesideRename : List (Act GroupCall) :=
  Act.alone (GroupCall.registerUser Sample.uidA "Firebase" "alice@mail.com" "alice") 4 ++
  Act.alone (GroupCall.registerUser Sample.uidB "Firebase" "bobby@mail.com" "bobby") 4 ++
  Act.alone (GroupCall.createGroup Sample.home "Home" "" "alice" [("alice", "uidA"), ("bobby", "uidB")]) 2 ++
  Act.alone (GroupCall.addGroupItem Sample.home "milk" "" "alice") 6 ++
  Act.alone (GroupCall.addGroupItem Sample.home "eggs" "" "bobby") 6 ++
  [Act.spawn (GroupCall.changeUsername Sample.uidA "alice" "carol"),
    Act.spawn (GroupCall.markeOffUser Sample.home "milk" "bobby"),
    Act.spawn (GroupCall.deleteItem Sample.home "eggs" true)] ++
  [0, 1, 2, 0, 1, 1, 0, 1, 2, 1, 2, 2, 0, 1, 2, 0, 0, 2, 3, 4, 0, 3, 1, 2, 3, 1, 5, 3, 0, 5, 0, 3, 0, 1, 1, 2,
    0, 1, 0, 0, 0].map Act.run

/-- The item that is left is readable after that, with the new name of who added it. -/
theorem groupItems_readable_checkOffBesideRename : ∃ s,
    (⟨.empty, fun _ => "", []⟩ : GroupSys).checkedRuns GroupCall.code ItemStep checkOffBesideRename = some s ∧
      s.db.get [Keys.groups, Sample.home, Keys.groceryList, Sample.milk, Keys.addedBy] =
        some (.string "carol") ∧
      ItemsReadable s.db := by
  have hlast : ((⟨.empty, fun _ => "", []⟩ : GroupSys).checkedRuns GroupCall.code ItemStep
      checkOffBesideRename).map (fun s =>
        s.db.get [Keys.groups, Sample.home, Keys.groceryList, Sample.milk, Keys.addedBy]) =
      some (some (.string "carol")) := by
    decide +kernel
  obtain ⟨s, hs, hname⟩ := Option.map_eq_some_iff.mp hlast
  have hempty : (⟨.empty, fun _ => "", []⟩ : GroupSys).pool = [] := rfl
  exact ⟨s, hs, hname, (groupItems_readable hempty fun _ => Each.empty _ _).1 s.db
    ⟨_, s, Sys.run_of_checkedRuns hs, rfl⟩⟩

/-- A group with one item, which is deleted and then checked off from a row that still shows it. -/
def checkOffAfterRemoval : List (Act GroupCall) :=
  Act.alone (GroupCall.createGroup Sample.home "Home" "" "alice" [("alice", "uidA"), ("bobby", "uidB")]) 2 ++
  Act.alone (GroupCall.addGroupItem Sample.home "milk" "" "alice") 6 ++
  Act.alone (GroupCall.deleteItem Sample.home "milk" true) 6 ++
  Act.alone (GroupCall.markeOffUser Sample.home "milk" "bobby") 6

/-- The item names in a schedule. -/
def itemNames (acts : List (Act GroupCall)) : List String :=
  acts.filterMap fun
    | .spawn t => t.itemName
    | .run _ => none

/-- The check-off of a removed item leaves a part of an item, and the group cannot be loaded. -/
theorem not_groupItems_readable : ¬ ∀ (acts : List (Act GroupCall)) (s : GroupSys),
    (∀ item ∈ itemNames acts, LegalKey item) →
    (⟨.empty, fun _ => "", []⟩ : GroupSys).runs GroupCall.code acts = some s →
    ItemsReadable s.db := by
  intro hclaim
  have hlast : ((⟨.empty, fun _ => "", []⟩ : GroupSys).runs GroupCall.code checkOffAfterRemoval).map
      (fun s => (s.db.children [Keys.groups, Sample.home, Keys.groceryList],
        s.db.get [Keys.groups, Sample.home, Keys.groceryList, Sample.milk, Keys.description])) =
        some ([Sample.milk], none) := by
    decide
  obtain ⟨s, hs, hitem⟩ := Option.map_eq_some_iff.mp hlast
  obtain ⟨hlisted, hdescription⟩ := Prod.mk.injEq _ _ _ _ ▸ hitem
  obtain ⟨v, hv, -⟩ := hclaim checkOffAfterRemoval s (by decide) hs Sample.home Sample.milk
    (by simp [hlisted]) (Keys.description, IsString) (by simp [groupItemFields])
  exact absurd (hdescription.symm.trans hv) (by simp)

end GroceryListApp

import GroceryListApp.Controller.OwnScreens
import GroceryListApp.Realtime.Machine

/-!
# Readable own lists

The screens cast every field of the items and lists that they read. A tap writes the check mark of the
item that its cell shows, an add writes an item below the list its screen was opened for, and the answer
to a counter is written back to its list. Each of them leaves a part of a record where the rest has been
removed in the meantime, or finds no counter to cast.
-/

namespace GroceryListApp

open Realtime

/-- A personal list has the fields that are read of it, and so have its items. -/
def ListReadable (db : Store Value) (p : Path) : Prop :=
  HasFields listFields db p ∧ Each (HasFields itemFields) db (p ++ [Keys.items])

/-- Everything the screens of the own lists read has the fields that are cast. -/
structure OwnReadable (uid : Key) (db : Store Value) : Prop where
  feed : Each (HasFields itemFields) db (ownItems uid none)
  lists : Each ListReadable db (listsPath uid)

/-- No forced cast has failed, and none of those ahead is going to. -/
def OwnDevice.Loads (uid : Key) (d : OwnDevice) : Prop := d.crashed = false ∧ OwnReadable uid d.db

/-- The item that a row shows is stored. -/
def RowStored (db : Store Value) (p : Path) (item : String) : Prop :=
  item ∈ (db.children p).map Subtype.val

/-- A tap finds the item of its row, an accepted item finds its list, and so does the answer to a
counter. -/
def FindsRecords (uid : Key) (screens : OwnScreens) (d : OwnDevice) : DeviceEvent OwnCall → Prop
  | .call (.selectItem row) => ∀ selectedCell ∈ d.mem.groceryListArray[row]?,
      RowStored d.db (ownItems uid none) selectedCell.item
  | .call (.selectPersonalItem screen row) => ∀ selectedCell ∈ (d.mem.listItemsArray screen)[row]?,
      RowStored d.db (ownItems uid (some (screens.list screen))) selectedCell.item
  | .call (.addItem screen item _) => ∀ list ∈ screens.target screen,
      item ≠ "ITEM" → item ∉ d.mem.groceryItems screen → list ∈ d.db.children (listsPath uid)
  | .answer i => ∀ read ∈ d.reads[i]?, ∀ list ∈ countedList read.1, list ∈ d.db.children (listsPath uid)
  | _ => True

/-- The names that are entered are keys, and there is room in an `Int` on both sides of a counter that is
answered. -/
def Regular (d : OwnDevice) : DeviceEvent OwnCall → Prop
  | .call call => call.Named
  | .answer i => ∀ read ∈ d.reads[i]?, (countedList read.1).isSome →
      ∀ n ∈ storedInt d.db read.1, FitsInt (n - 1) ∧ FitsInt (n + 1)

instance (db : Store Value) (p : Path) (item : String) : Decidable (RowStored db p item) :=
  inferInstanceAs (Decidable (_ ∈ _))

instance (uid : Key) (screens : OwnScreens) (d : OwnDevice) (e : DeviceEvent OwnCall) :
    Decidable (FindsRecords uid screens d e) := by
  induction e using DeviceEvent.casesOn with
  | call call =>
    induction call using OwnCall.casesOn <;> dsimp only [FindsRecords] <;> infer_instance
  | answer i =>
    dsimp only [FindsRecords]
    infer_instance

instance (d : OwnDevice) (e : DeviceEvent OwnCall) : Decidable (Regular d e) := by
  induction e using DeviceEvent.casesOn <;> dsimp only [Regular] <;> infer_instance

/-! ### Writes of items -/

section

variable {db : Store Value} {p : Path} {k : Key}

/-- The name of a row is stored when its key is. -/
theorem rowStored_iff (db : Store Value) (p : Path) (k : Key) : RowStored db p k.1 ↔ k ∈ db.children p := by
  rw [RowStored, List.mem_map]
  constructor
  · rintro ⟨other, hother, hsame⟩
    rwa [← Subtype.ext hsame]
  · exact fun hk => ⟨k, hk, rfl⟩

/-- A check mark is kept in a whole record exactly when the item is stored. -/
theorem each_flag_iff (h : Each (HasFields itemFields) db p) (k : Key) (selected : Bool) :
    Each (HasFields itemFields)
        ((Write.update (p ++ [k]) [([Keys.isSelected], bool selected)]).apply db) p ↔
      k ∈ db.children p := by
  constructor
  · intro hafter
    have hflag := get_update_leaf (p ++ [k]) [Keys.isSelected] (.bool selected) db
    have hk : k ∈ ((Write.update (p ++ [k]) [([Keys.isSelected], bool selected)]).apply db).children p := by
      apply (Store.mem_children _ _ _).mpr
      refine ⟨[Keys.isSelected], .bool selected, ?_⟩
      rwa [List.append_assoc] at hflag
    obtain ⟨v, hv, -⟩ := hafter k hk (Keys.description, IsString) (by simp [itemFields])
    have happart : ∀ entry ∈ [([Keys.isSelected], bool selected)],
        Apart ((p ++ [k]) ++ entry.1) ((p ++ [k]) ++ [Keys.description]) := by
      intro entry hentry
      rw [List.mem_singleton.mp hentry, apart_append_left]
      exact apart_of_ne (by decide) _ _
    rw [get_update_of_apart happart] at hv
    apply (Store.mem_children _ _ _).mpr
    refine ⟨[Keys.description], v, ?_⟩
    rwa [List.append_assoc] at hv
  · intro hk
    apply h.apply_below (k := k) (HasFields.isLocal _) (List.prefix_refl _)
    intro _
    have hfield : (Keys.isSelected, IsBool) ∈ itemFields := by simp [itemFields]
    exact (h k hk).update_field (by decide) hfield ⟨selected, rfl⟩

/-- An item that is added has all its fields. -/
theorem each_insert (h : Each (HasFields itemFields) db p) (k : Key) (description : String) :
    Each (HasFields itemFields)
      ((Write.update (p ++ [k])
        [([Keys.description], str description), ([Keys.isSelected], bool false)]).apply db) p := by
  apply h.apply_below (k := k) (HasFields.isLocal _) (List.prefix_refl _)
  intro _
  apply HasFields.update
  · simp +decide [List.pairwise_cons]
  · intro field hfield
    simp only [itemFields, List.mem_cons, List.not_mem_nil, or_false] at hfield
    rcases hfield with rfl | rfl
    · exact Or.inl ⟨_, ⟨description, rfl⟩, ([Keys.description], str description), by simp, rfl, rfl⟩
    · exact Or.inl ⟨_, ⟨false, rfl⟩, ([Keys.isSelected], bool false), by simp, rfl, rfl⟩

end

/-! ### Writes of lists -/

section

variable {uid list : Key} {db : Store Value} {w : Write Value}

/-- Whether a list is readable depends on what is stored for it. -/
theorem isLocal_listReadable : Local ListReadable := by
  intro s s' p hsame h
  refine ⟨HasFields.isLocal _ hsame h.1, h.2.congr (HasFields.isLocal _) fun q => ?_⟩
  rw [List.append_assoc]
  exact hsame _

/-- The items of every list are readable, also of those that are not stored. -/
theorem OwnReadable.items (h : OwnReadable uid db) (list : Key) :
    Each (HasFields itemFields) db (ownItems uid (some list)) := by
  intro k hk
  obtain ⟨r, v, hv⟩ := (Store.mem_children _ _ _).mp hk
  have hlist : list ∈ db.children (listsPath uid) :=
    (Store.mem_children _ _ _).mpr ⟨Keys.items :: k :: r, v, hv⟩
  exact (h.lists list hlist).2 k hk

/-- A write among the items of a list keeps the lists readable exactly when it keeps the items so, and
does not make a list of them. -/
theorem lists_below_iff (h : OwnReadable uid db) (hw : ownItems uid (some list) <+: w.location) :
    Each ListReadable (w.apply db) (listsPath uid) ↔
      Each (HasFields itemFields) (w.apply db) (ownItems uid (some list)) ∧
        (list ∈ (w.apply db).children (listsPath uid) → list ∈ db.children (listsPath uid)) := by
  obtain ⟨rest, hrest⟩ := hw
  have hlocation : w.location = (listsPath uid ++ [list]) ++ Keys.items :: rest := hrest.symm
  have hitems : Keys.items ∉ listFields.map Prod.fst := by decide
  constructor
  · intro hafter
    constructor
    · intro k hk
      obtain ⟨r, v, hv⟩ := (Store.mem_children _ _ _).mp hk
      have hlist : list ∈ (w.apply db).children (listsPath uid) :=
        (Store.mem_children _ _ _).mpr ⟨Keys.items :: k :: r, v, hv⟩
      exact (hafter list hlist).2 k hk
    · intro hlist
      have hfield : (Keys.description, IsString) ∈ listFields := by simp [listFields]
      obtain ⟨v, hv, -⟩ := (hafter list hlist).1 _ hfield
      rw [get_apply_of_apart (hlocation ▸ HasFields.apart_field hitems _ _ hfield)] at hv
      exact (Store.mem_children _ _ _).mpr ⟨[Keys.description], v, hv⟩
  · rintro ⟨hafter, hlist⟩
    apply h.lists.apply_below (k := list) isLocal_listReadable
    · rw [hlocation]
      exact List.prefix_append _ _
    · intro hk
      exact ⟨(h.lists list (hlist hk)).1.apply_below hitems hlocation, hafter⟩

/-- A write among the lists does not concern the feed. -/
theorem feed_of_lists (h : OwnReadable uid db) (hw : listsPath uid <+: w.location) :
    Each (HasFields itemFields) (w.apply db) (ownItems uid none) := by
  obtain ⟨rest, hrest⟩ := hw
  apply h.feed.apply_of_apart (HasFields.isLocal _)
  rw [← hrest]
  exact apart_field _ _ _ (by decide) _ _

/-- A write in the feed does not concern the lists. -/
theorem lists_of_feed (h : OwnReadable uid db) (hw : ownItems uid none <+: w.location) :
    Each ListReadable (w.apply db) (listsPath uid) := by
  obtain ⟨rest, hrest⟩ := hw
  apply h.lists.apply_of_apart isLocal_listReadable
  rw [← hrest]
  exact apart_field _ _ _ (by decide) _ _

/-- A list that is created has all its fields, and keeps its items. -/
theorem lists_create (h : OwnReadable uid db) (listName : Key) (description : String) :
    Each ListReadable ((createListWrite uid listName description).apply db) (listsPath uid) := by
  apply h.lists.apply_below (k := listName) isLocal_listReadable (List.prefix_refl _)
  intro _
  constructor
  · apply HasFields.update
    · simp +decide [List.pairwise_cons]
    · intro field hfield
      simp only [listFields, List.mem_cons, List.not_mem_nil, or_false] at hfield
      rcases hfield with rfl | rfl | rfl
      · exact Or.inl ⟨_, ⟨description, rfl⟩, ([Keys.description], str description), by simp, rfl, rfl⟩
      · exact Or.inl ⟨_, ⟨0, rfl, by decide⟩, ([Keys.listCount], int 0), by simp, rfl, rfl⟩
      · exact Or.inl ⟨_, ⟨0, rfl, by decide⟩, ([Keys.listCheckCount], int 0), by simp, rfl, rfl⟩
  · refine (h.items listName).update_of_apart (HasFields.isLocal _) fun entry hentry => ?_
    have hitems : ownItems uid (some listName) = (listsPath uid ++ [listName]) ++ [Keys.items] := rfl
    rw [hitems, apart_append_left]
    simp only [List.mem_cons, List.not_mem_nil, or_false] at hentry
    rcases hentry with rfl | rfl | rfl <;> exact apart_of_ne (by decide) _ _

/-- A counter is kept in a whole record when the list is stored. -/
theorem lists_count (h : OwnReadable uid db) (hlist : list ∈ db.children (listsPath uid))
    (counter : ListCounter) {n : ℤ} (hfits : FitsInt n) :
    Each ListReadable ((Write.update (listsPath uid ++ [list]) [([counter.field], int n)]).apply db)
      (listsPath uid) := by
  obtain ⟨hfields, hitems⟩ := h.lists list hlist
  apply h.lists.apply_below (k := list) isLocal_listReadable (List.prefix_refl _)
  intro _
  constructor
  · have hfield : (counter.field, IsInt) ∈ listFields := by
      cases counter <;> simp [listFields, ListCounter.field]
    exact hfields.update_field (by decide) hfield ⟨n, rfl, hfits⟩
  · apply hitems.update_of_apart (HasFields.isLocal _)
    intro entry hentry
    rw [List.mem_singleton.mp hentry, apart_append_left]
    cases counter <;> exact apart_of_ne (by decide) _ _

end

/-! ### The events -/

section

variable {uid : Key} {screens : OwnScreens} {d : OwnDevice}

/-- A write in the feed keeps everything readable exactly when it keeps the feed so. -/
theorem ownReadable_feed_iff {db : Store Value} {w : Write Value} (h : OwnReadable uid db)
    (hw : ownItems uid none <+: w.location) :
    OwnReadable uid (w.apply db) ↔ Each (HasFields itemFields) (w.apply db) (ownItems uid none) :=
  ⟨OwnReadable.feed, fun hfeed => ⟨hfeed, lists_of_feed h hw⟩⟩

/-- A write among the lists keeps everything readable exactly when it keeps the lists so. -/
theorem ownReadable_lists_iff {db : Store Value} {w : Write Value} (h : OwnReadable uid db)
    (hw : listsPath uid <+: w.location) :
    OwnReadable uid (w.apply db) ↔ Each ListReadable (w.apply db) (listsPath uid) :=
  ⟨OwnReadable.lists, fun hlists => ⟨feed_of_lists h hw, hlists⟩⟩

/-- A check mark keeps everything readable exactly when its item is stored. -/
theorem ownReadable_flag_iff {db : Store Value} (h : OwnReadable uid db) (list : Option Key) (item : Key)
    (selected : Bool) :
    OwnReadable uid ((flagItem uid list item selected).apply db) ↔ item ∈ db.children (ownItems uid list) := by
  cases list with
  | none =>
    rw [ownReadable_feed_iff h (List.prefix_append _ _)]
    exact each_flag_iff h.feed item selected
  | some list =>
    have hwithin : ownItems uid (some list) <+: (flagItem uid (some list) item selected).location :=
      List.prefix_append _ _
    have hlists : listsPath uid <+: (flagItem uid (some list) item selected).location :=
      (List.prefix_append _ [list, Keys.items]).trans hwithin
    rw [ownReadable_lists_iff h hlists, lists_below_iff h hwithin]
    constructor
    · exact fun hafter => (each_flag_iff (h.items list) item selected).mp hafter.1
    · intro hitem
      refine ⟨(each_flag_iff (h.items list) item selected).mpr hitem, fun _ => ?_⟩
      obtain ⟨r, v, hv⟩ := (Store.mem_children _ _ _).mp hitem
      exact (Store.mem_children _ _ _).mpr ⟨Keys.items :: item :: r, v, hv⟩

/-- An item that is added keeps everything readable exactly when its list is stored. -/
theorem ownReadable_insert_iff {db : Store Value} (h : OwnReadable uid db) (list : Option Key) (item : Key)
    (description : String) :
    OwnReadable uid ((insertItem uid list item description).apply db) ↔
      ∀ listName ∈ list, listName ∈ db.children (listsPath uid) := by
  cases list with
  | none =>
    rw [ownReadable_feed_iff h (List.prefix_append _ _)]
    exact iff_of_true (each_insert h.feed item description) (by simp)
  | some list =>
    have hwithin : ownItems uid (some list) <+: (insertItem uid (some list) item description).location :=
      List.prefix_append _ _
    have hlists : listsPath uid <+: (insertItem uid (some list) item description).location :=
      (List.prefix_append _ [list, Keys.items]).trans hwithin
    have hinsert : Each (HasFields itemFields) ((insertItem uid (some list) item description).apply db)
        (ownItems uid (some list)) := each_insert (h.items list) item description
    have hfields : ([([Keys.description], str description), ([Keys.isSelected], bool false)] :
        List (Path × Store Value)).Pairwise fun a b => Apart a.1 b.1 := by
      simp +decide [List.pairwise_cons]
    have hstored : list ∈ ((insertItem uid (some list) item description).apply db).children (listsPath uid) := by
      have hget := get_update_of_mem hfields List.mem_cons_self (ownItems uid (some list) ++ [item]) [] db
      exact (Store.mem_children _ _ _).mpr ⟨[Keys.items, item, Keys.description], _, hget⟩
    rw [ownReadable_lists_iff h hlists, lists_below_iff h hwithin, and_iff_right hinsert]
    simp [hstored]

/-- The removal of an item keeps everything readable. -/
theorem OwnReadable.removeItem {db : Store Value} (h : OwnReadable uid db) (list : Option Key) (item : Key) :
    OwnReadable uid ((Write.remove (ownItems uid list ++ [item])).apply db) := by
  cases list with
  | none =>
    apply (ownReadable_feed_iff h (List.prefix_append _ _)).mpr
    exact h.feed.remove_child (HasFields.isLocal _) item
  | some list =>
    have hwithin : ownItems uid (some list) <+:
        (Write.remove (ownItems uid (some list) ++ [item]) : Write Value).location :=
      List.prefix_append _ _
    apply (ownReadable_lists_iff h ((List.prefix_append _ [list, Keys.items]).trans hwithin)).mpr
    apply (lists_below_iff h hwithin).mpr
    refine ⟨(h.items list).remove_child (HasFields.isLocal _) item, fun hlist => ?_⟩
    obtain ⟨r, v, hv⟩ := (Store.mem_children _ _ _).mp hlist
    exact (Store.mem_children _ _ _).mpr ⟨r, v, ((Store.get_remove_eq_some_iff _ _ _ _).mp hv).2⟩

/-- An event keeps everything readable exactly when it finds its records. -/
theorem ownReadable_effect_iff {call : OwnCall} {w : Option (Write Value)} {reads : List OwnRead}
    (h : OwnReadable uid d.db) (heffect : call.Effect uid screens d.mem w reads) :
    OwnReadable uid (w.elim d.db (·.apply d.db)) ↔ FindsRecords uid screens d (.call call) := by
  cases heffect with
  | feedAppears => exact iff_of_true h trivial
  | selectItem hrow hitem =>
    simp only [FindsRecords, hrow, Option.mem_def, Option.some.injEq, forall_eq', hitem, rowStored_iff]
    exact ownReadable_flag_iff h none _ _
  | selectNoItem hrow => exact iff_of_true h (by simp [FindsRecords, hrow])
  | deleteItem hrow hitem => exact iff_of_true (h.removeItem none _) trivial
  | deleteNoItem hrow => exact iff_of_true h trivial
  | deleteAllItems =>
    apply iff_of_true _ trivial
    exact (ownReadable_feed_iff h (List.prefix_refl _)).mpr (Each.remove_above (List.prefix_refl _))
  | addAppears screen => exact iff_of_true h trivial
  | @addItem screen item description haccepted havailable =>
    rw [Option.elim_some, ownReadable_insert_iff h]
    simp [FindsRecords, haccepted, havailable]
  | addTaken description htaken => exact iff_of_true h (by simp [FindsRecords, htaken])
  | addRefused screen description hrefused => exact iff_of_true h (by simp [FindsRecords, hrefused])
  | listsAppear => exact iff_of_true h trivial
  | createList description haccepted =>
    apply iff_of_true _ trivial
    exact (ownReadable_lists_iff h (List.prefix_append _ _)).mpr (lists_create h _ description)
  | createRefused description hrefused => exact iff_of_true h trivial
  | deleteList listTitle =>
    apply iff_of_true _ trivial
    have hwithin : listsPath uid <+: (Write.remove (listsPath uid ++ [listTitle]) : Write Value).location :=
      List.prefix_append _ _
    exact (ownReadable_lists_iff h hwithin).mpr (h.lists.remove_child isLocal_listReadable listTitle)
  | listAppears screen => exact iff_of_true h trivial
  | selectPersonalItem hrow hitem =>
    simp only [FindsRecords, hrow, Option.mem_def, Option.some.injEq, forall_eq', hitem, rowStored_iff]
    exact ownReadable_flag_iff h (some _) _ _
  | selectNoPersonalItem hrow => exact iff_of_true h (by simp [FindsRecords, hrow])
  | deletePersonalItem hrow hitem => exact iff_of_true (h.removeItem (some _) _) trivial
  | deleteNoPersonalItem hrow => exact iff_of_true h trivial

/-! ### The answers -/

/-- Rows are mapped from all children of a location when it has the fields that each of them needs. -/
theorem isSome_mapM_children {α : Type*} {P : Store Value → Path → Prop} {db : Store Value} {p : Path}
    (h : Each P db p) {f : Snapshot Value → Option α}
    (hf : ∀ k, P db (p ++ [k]) → (f ⟨k.1, (db.sub p).sub [k]⟩).isSome) :
    ((db.snapshot p).children.mapM f).isSome := by
  apply isSome_mapM
  intro child hchild
  rw [Snapshot.children_snapshot] at hchild
  obtain ⟨k, hk, rfl⟩ := List.mem_map.mp hchild
  exact hf k (h k hk)

/-- The casts of a list of items succeed when the items are readable. -/
theorem isSome_itemCasts {db : Store Value} {p : Path} {k : Key} {α : Type} (row : String → Bool → α)
    (h : HasFields itemFields db (p ++ [k])) :
    (do
      let description ← asString (Snapshot.childSnapshot ⟨k.1, (db.sub p).sub [k]⟩ "description")
      let selected ← asBool (Snapshot.childSnapshot ⟨k.1, (db.sub p).sub [k]⟩ "isSelected")
      some (row description selected)).isSome := by
  obtain ⟨description, hdescription⟩ := exists_asString h Keys.description "description"
    (by simp [itemFields]) (by simp)
  obtain ⟨selected, hselected⟩ := exists_asBool h Keys.isSelected "isSelected"
    (by simp [itemFields]) (by simp)
  simp [hdescription, hselected]

/-- No cast of `getAllFeedMessages`, `getAllUserLists` and `getAllPersonalListItems` fails on readable
lists. -/
theorem OwnReadable.rows {db : Store Value} (h : OwnReadable uid db) :
    (feedRows (db.snapshot (ownItems uid none))).isSome ∧
      (listRows (db.snapshot (listsPath uid))).isSome ∧
      ∀ list, (itemRows (db.snapshot (ownItems uid (some list)))).isSome := by
  refine ⟨isSome_mapM_children h.feed fun k hk => isSome_itemCasts (GroceryList.mk k.1) hk,
    isSome_mapM_children h.lists fun k hk => ?_,
    fun list => isSome_mapM_children (h.items list) fun k hk =>
      isSome_itemCasts (PersonalGroceryList.mk k.1) hk⟩
  obtain ⟨description, hdescription⟩ := exists_asString hk.1 Keys.description "description"
    (by simp [listFields]) (by simp)
  obtain ⟨count, hcount⟩ := exists_asInt hk.1 Keys.listCount "listCount" (by simp [listFields]) (by simp)
  obtain ⟨checks, hchecks⟩ := exists_asInt hk.1 Keys.listCheckCount "listCheckCount"
    (by simp [listFields]) (by simp)
  simp [hdescription, hcount, hchecks]

/-- A reload of readable lists does not trap. -/
theorem OwnReadable.answer_ne_trap {db : Store Value} (h : OwnReadable uid db) {read : OwnRead}
    (hread : ∀ list counter delta, read ≠ .count list counter delta) :
    (read.registered uid screens).2 (db.snapshot (read.registered uid screens).1) ≠ .trap := by
  obtain ⟨hfeed, hlists, hitems⟩ := h.rows
  have hforce {α : Type} {rows : Option α} (hrows : rows.isSome) (f : α → OwnMem → OwnMem) :
      (Prog.force rows fun rows => .modify (f rows) .done : Prog OwnMem Value) ≠ .trap := by
    obtain ⟨rows, rfl⟩ := Option.isSome_iff_exists.mp hrows
    simp
  cases read with
  | feed => exact hforce hfeed _
  | lists => exact hforce hlists _
  | items screen => exact hforce (hitems _) _
  | names screen => simp [OwnRead.registered, keepItems]
  | count list counter delta => exact absurd rfl (hread list counter delta)

/-- A read that is to adjust a counter changes it by one. -/
def OwnRead.Unit (read : OwnRead) : Prop :=
  ∀ list counter delta, read = .count list counter delta → delta = 1 ∨ delta = -1

/-- What is pending on the device are its own reads, and the rows show names of stored items. -/
structure OwnDevice.Own (uid : Key) (screens : OwnScreens) (d : OwnDevice) : Prop where
  rows : RowsNamed d.mem
  reads : ∃ reads : List OwnRead, d.reads = reads.map (·.registered uid screens) ∧ ∀ read ∈ reads, read.Unit

/-- Every event keeps the reads the device's own. -/
theorem OwnDevice.Own.step (h : d.Own uid screens) {e : DeviceEvent OwnCall} {next : OwnDevice}
    (hregular : Regular d e) (hstep : d.step (OwnCall.code uid screens) e = some next) :
    next.Own uid screens := by
  obtain ⟨reads, hreads, hunit⟩ := h.reads
  obtain ⟨-, ⟨call, rfl, rfl⟩ | ⟨i, p, callback, rfl, hread, rfl⟩⟩ := Device.step_eq_some hstep
  · obtain ⟨w, registered, heffect, hexec⟩ := OwnCall.exec_code uid screens h.rows hregular
    rw [hexec]
    refine ⟨h.rows, reads ++ registered, by simp [OwnCall.after, hreads], fun read hread => ?_⟩
    rcases List.mem_append.mp hread with hread | hread
    · exact hunit read hread
    · rintro list counter delta rfl
      exact heffect.delta_unit hread
  · obtain ⟨read, hget, hregistered⟩ : ∃ read, reads[i]? = some read ∧
        read.registered uid screens = (p, callback) := by
      simpa [hreads] using hread
    have hrest : d.reads.eraseIdx i = (reads.eraseIdx i).map (·.registered uid screens) := by
      rw [hreads, List.eraseIdx_map]
    have hrestUnit : ∀ read ∈ reads.eraseIdx i, read.Unit :=
      fun read hread => hunit read (List.mem_of_mem_eraseIdx hread)
    have hcallback : callback = (read.registered uid screens).2 := by rw [hregistered]
    have hp : p = (read.registered uid screens).1 := by rw [hregistered]
    rw [hcallback, hp, hrest]
    by_cases hcount : ∀ list counter delta, read ≠ .count list counter delta
    · rcases read.answer_reload uid screens hcount d.db with htrap | ⟨f, hf, hkeeps⟩
      · rw [htrap]
        exact ⟨h.rows, _, rfl, hrestUnit⟩
      · rw [hf]
        exact ⟨hkeeps _ h.rows, _, rfl, hrestUnit⟩
    · push Not at hcount
      obtain ⟨list, counter, delta, rfl⟩ := hcount
      simp only [OwnRead.registered]
      generalize asInt _ = count
      cases count with
      | none => exact ⟨h.rows, _, rfl, hrestUnit⟩
      | some n =>
        rw [Prog.force_some]
        generalize addInt n delta = adjusted
        cases adjusted <;> exact ⟨h.rows, _, rfl, hrestUnit⟩

/-- A counter is stored exactly for a list that is stored, as an integer. -/
theorem OwnReadable.count_iff {db : Store Value} (h : OwnReadable uid db) (list : Key) (counter : ListCounter) :
    (∃ n, db.get (listsPath uid ++ [list, counter.field]) = some (.int n) ∧ FitsInt n) ↔
      list ∈ db.children (listsPath uid) := by
  constructor
  · rintro ⟨n, hn, -⟩
    exact (Store.mem_children _ _ _).mpr ⟨[counter.field], _, hn⟩
  · intro hlist
    have hfield : (counter.field, IsInt) ∈ listFields := by
      cases counter <;> simp [listFields, ListCounter.field]
    obtain ⟨v, hv, n, rfl, hfits⟩ := (h.lists list hlist).1 _ hfield
    refine ⟨n, ?_, hfits⟩
    rwa [List.append_assoc] at hv

/-- Only the answer to a counter is about one. -/
theorem countedList_registered (read : OwnRead) :
    countedList (read.registered uid screens).1 =
      match read with
      | .count list _ _ => some list
      | _ => none := by
  cases read with
  | feed => rfl
  | lists => rfl
  | items screen => rfl
  | names screen => cases htarget : screens.target screen <;> simp [OwnRead.registered, htarget] <;> rfl
  | count list counter delta => cases counter <;> rfl

/-- There is room on both sides of a counter that is answered. -/
theorem Regular.room {i : ℕ} {read : Path × (Snapshot Value → Prog OwnMem Value)} {list : Key}
    {counter : ListCounter} {n : ℤ} (h : Regular d (.answer i)) (hread : d.reads[i]? = some read)
    (hlocation : read.1 = listsPath uid ++ [list, counter.field])
    (hn : d.db.get (listsPath uid ++ [list, counter.field]) = some (.int n)) :
    FitsInt (n - 1) ∧ FitsInt (n + 1) := by
  refine h read hread ?_ n (hlocation ▸ (storedInt_eq_some_iff _ _ _).mpr hn)
  rw [hlocation]
  cases counter <;> rfl

/-- The device loads on after an event exactly when the event finds its records. -/
theorem OwnDevice.Loads.step_iff (hloads : d.Loads uid) (hown : d.Own uid screens)
    {e : DeviceEvent OwnCall} {next : OwnDevice} (hregular : Regular d e)
    (hstep : d.step (OwnCall.code uid screens) e = some next) :
    next.Loads uid ↔ FindsRecords uid screens d e := by
  obtain ⟨hrunning, hreadable⟩ := hloads
  obtain ⟨reads, hreads, hunit⟩ := hown.reads
  obtain ⟨-, ⟨call, rfl, rfl⟩ | ⟨i, p, callback, rfl, hread, rfl⟩⟩ := Device.step_eq_some hstep
  · obtain ⟨w, registered, heffect, hexec⟩ := OwnCall.exec_code uid screens hown.rows hregular
    rw [hexec, ← ownReadable_effect_iff hreadable heffect]
    exact and_iff_right hrunning
  · obtain ⟨read, hget, hregistered⟩ : ∃ read, reads[i]? = some read ∧
        read.registered uid screens = (p, callback) := by
      simpa [hreads] using hread
    have hcounted : FindsRecords uid screens d (.answer i) ↔
        ∀ list ∈ countedList (read.registered uid screens).1, list ∈ d.db.children (listsPath uid) := by
      simp [FindsRecords, hread, hregistered]
    have hcallback : callback = (read.registered uid screens).2 := by rw [hregistered]
    have hp : p = (read.registered uid screens).1 := by rw [hregistered]
    rw [hcounted, countedList_registered, hcallback, hp]
    by_cases hcount : ∀ list counter delta, read ≠ .count list counter delta
    · have hnone : (match read with | .count list _ _ => some list | _ => none) = none := by
        cases read with
        | count list counter delta => exact absurd rfl (hcount list counter delta)
        | _ => rfl
      obtain ⟨f, hf, -⟩ := (read.answer_reload uid screens hcount d.db).resolve_left
        (hreadable.answer_ne_trap hcount)
      rw [hf, hnone]
      exact iff_of_true ⟨hrunning, hreadable⟩ (by simp)
    · push Not at hcount
      obtain ⟨list, counter, delta, rfl⟩ := hcount
      have hiff := hreadable.count_iff list counter
      simp only [OwnRead.registered, Option.mem_def, Option.some.injEq, forall_eq']
      rw [← hiff]
      cases hasInt : asInt (d.db.snapshot (listsPath uid ++ [list, counter.field])) with
      | none =>
        apply iff_of_false
        · intro hnext
          exact absurd hnext.1 (by simp)
        · rintro ⟨n, hn, hfits⟩
          rw [(asInt_eq_some_iff _ n).mpr ⟨by rwa [value_snapshot], hfits⟩] at hasInt
          contradiction
      | some n =>
        obtain ⟨hstored, hfits⟩ := (asInt_eq_some_iff _ n).mp hasInt
        rw [value_snapshot] at hstored
        apply iff_of_true _ ⟨n, hstored, hfits⟩
        have hsum : addInt n delta = some (n + delta) :=
          addInt_unit (hunit _ (List.mem_of_getElem? hget) _ _ _ rfl) (hregular.room hread hp hstored)
        have hafter : FitsInt (n + delta) := ((addInt_eq_some_iff _ _ _).mp hsum).2
        rw [Prog.force_some, hsum]
        have hwithin : listsPath uid <+: (Write.update (listsPath uid ++ [list])
            [([counter.field], int (n + delta))] : Write Value).location := List.prefix_append _ _
        exact ⟨hrunning, (ownReadable_lists_iff hreadable hwithin).mpr
          (lists_count hreadable (hiff.mp ⟨n, hstored, hfits⟩) counter hafter)⟩

end

/-- Along every run of the screens of the own lists on one device, in which the names that are entered are
keys and no counter runs out of an `Int`, nothing fails to load if and only if taps find the items of their
rows, accepted items find their list, and so do the answers to counters. -/
theorem own_loads_iff (uid : Key) (screens : OwnScreens) {db : Store Value} (h : OwnReadable uid db)
    (events : List (DeviceEvent OwnCall))
    (hregular : Machine.Throughout (Device.step (OwnCall.code uid screens)) Regular (OwnDevice.launched db)
      events) :
    Machine.Always (Device.step (OwnCall.code uid screens)) (OwnDevice.Loads uid)
        (OwnDevice.launched db) events ↔
      Machine.Throughout (Device.step (OwnCall.code uid screens)) (FindsRecords uid screens)
        (OwnDevice.launched db) events := by
  have hown : (OwnDevice.launched db).Own uid screens :=
    ⟨⟨fun row hrow => by contradiction, fun screen row hrow => by contradiction⟩, [], rfl, by simp⟩
  have hloads : (OwnDevice.launched db).Loads uid := ⟨rfl, h⟩
  refine Machine.always_iff_throughout_of (I := OwnDevice.Own uid screens) ?_ events hown hloads hregular
  intro d e next hinv hP hregular hstep
  exact ⟨hinv.step hregular hstep, hP.step_iff hinv hregular hstep⟩

/-- All screens are open for one personal list, and the add screens are for the user's own one. -/
def oneListOpen : OwnScreens := ⟨fun _ => Sample.home, fun _ => none⟩

/-- An item is added, shown by a reload, checked off, and the list is reloaded. -/
def addAndCheck : List (DeviceEvent OwnCall) :=
  [.call (.addItem 0 "milk" ""), .answer 0, .call .feedAppears, .answer 0,
    .call (.selectItem 0), .answer 0]

/-- An add and a check-off keep the own lists loading. -/
theorem own_loads_iff_addAndCheck :
    Machine.Always (Device.step (OwnCall.code Sample.uidA oneListOpen)) (OwnDevice.Loads Sample.uidA)
      (OwnDevice.launched .empty) addAndCheck :=
  (own_loads_iff Sample.uidA oneListOpen ⟨Each.empty _ _, Each.empty _ _⟩ addAndCheck
    (by decide +kernel)).mpr (by decide +kernel)

end GroceryListApp

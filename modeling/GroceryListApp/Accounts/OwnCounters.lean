import GroceryListApp.Accounts.OwnReadable
import GroceryListApp.Realtime.Tally

/-!
# The counters of the personal lists

A personal list stores how many items it has and how many of them are checked. Every add, tap and
deletion changes the items at once, and adjusts the counters when a read of them has been answered. What
is stored is therefore the number of items less what the pending reads are going to add, as long as every
event changes what its row showed and a list is created where nothing is stored or pending.
-/

namespace GroceryListApp

open Realtime

/-- The items that a counter counts. -/
def ListCounter.test : ListCounter → Store Value → Path → Bool
  | items => fun _ _ => true
  | checks => fun db p => db.get (p ++ [Keys.isSelected]) = some (.bool true)

/-- How many items a counter should count. -/
def ListCounter.actual (counter : ListCounter) (uid list : Key) (db : Store Value) : ℕ :=
  tally counter.test db (ownItems uid (some list))

/-- Every counter of every personal list is the number of items that it counts. -/
def CountersMatch (uid : Key) (db : Store Value) : Prop :=
  ∀ list ∈ db.children (listsPath uid), ∀ counter : ListCounter,
    db.get (listsPath uid ++ [list, counter.field]) = some (.int (counter.actual uid list db))

/-- Where no read is pending, the counters match. -/
def OwnDevice.Counted (uid : Key) (d : OwnDevice) : Prop := d.reads = [] → CountersMatch uid d.db

/-- A row shows an item as it is stored. -/
def RowCurrent (db : Store Value) (p : Path) (row : PersonalGroceryList) : Prop :=
  ∃ k ∈ db.children p, k.1 = row.item ∧ db.get (p ++ [k, Keys.isSelected]) = some (.bool row.isSelected)

/-- Rows are current when they are tapped or deleted, an accepted item is new to a list that is stored,
and a list that is created has no items and no counter that is being adjusted. -/
def CountsRight (uid : Key) (screens : OwnScreens) (d : OwnDevice) : DeviceEvent OwnCall → Prop
  | .call (.createList listName _) => listName ≠ "LIST NAME" → ∀ legal : LegalKey listName,
      d.db.children (ownItems uid (some ⟨listName, legal⟩)) = [] ∧
        ∀ read ∈ d.reads, countedList read.1 ≠ some ⟨listName, legal⟩
  | .call (.addItem screen item _) => ∀ list ∈ screens.target screen,
      item ≠ "ITEM" → item ∉ d.mem.groceryItems screen →
        list ∈ d.db.children (listsPath uid) ∧ ¬ RowStored d.db (ownItems uid (some list)) item
  | .call (.selectPersonalItem screen row) => ∀ selectedCell ∈ (d.mem.listItemsArray screen)[row]?,
      RowCurrent d.db (ownItems uid (some (screens.list screen))) selectedCell
  | .call (.deletePersonalItem screen row) => ∀ selectedCell ∈ (d.mem.listItemsArray screen)[row]?,
      RowCurrent d.db (ownItems uid (some (screens.list screen))) selectedCell
  | _ => True

instance (db : Store Value) (p : Path) (row : PersonalGroceryList) : Decidable (RowCurrent db p row) :=
  inferInstanceAs (Decidable (∃ k ∈ db.children p, _))

instance (uid : Key) (screens : OwnScreens) (d : OwnDevice) (e : DeviceEvent OwnCall) :
    Decidable (CountsRight uid screens d e) := by
  induction e using DeviceEvent.casesOn with
  | call call =>
    induction call using OwnCall.casesOn <;> dsimp only [CountsRight] <;> infer_instance
  | answer i => exact isTrue trivial

/-! ### What the reads are going to add -/

/-- What a read is going to add to a counter. -/
def OwnRead.owes (list : Key) (counter : ListCounter) : OwnRead → ℤ
  | .count l c delta => if l = list ∧ c = counter then delta else 0
  | _ => 0

/-- What the pending reads are going to add to a counter. -/
def owed (list : Key) (counter : ListCounter) (reads : List OwnRead) : ℤ :=
  (reads.map (OwnRead.owes list counter)).sum

/-- Every counter and what is going to be added make up the number of items that it counts. -/
def CountersAddUp (uid : Key) (db : Store Value) (reads : List OwnRead) : Prop :=
  ∀ list ∈ db.children (listsPath uid), ∀ counter : ListCounter, ∃ n,
    db.get (listsPath uid ++ [list, counter.field]) = some (.int n) ∧
      n + owed list counter reads = counter.actual uid list db

@[simp] theorem owed_nil (list : Key) (counter : ListCounter) : owed list counter [] = 0 := rfl

@[simp] theorem owed_cons (list : Key) (counter : ListCounter) (read : OwnRead) (reads : List OwnRead) :
    owed list counter (read :: reads) = read.owes list counter + owed list counter reads := by
  simp [owed]

@[simp] theorem owed_append (list : Key) (counter : ListCounter) (reads more : List OwnRead) :
    owed list counter (reads ++ more) = owed list counter reads + owed list counter more := by
  simp [owed]

/-- A read that is answered is not pending any more. -/
theorem owed_eraseIdx (list : Key) (counter : ListCounter) {reads : List OwnRead} {i : ℕ} {read : OwnRead}
    (h : reads[i]? = some read) :
    read.owes list counter + owed list counter (reads.eraseIdx i) = owed list counter reads := by
  obtain ⟨hi, hget⟩ := List.getElem?_eq_some_iff.mp h
  have hperm := (List.getElem_cons_eraseIdx_perm hi).map (OwnRead.owes list counter)
  rw [hget, List.map_cons] at hperm
  have hsum := hperm.sum_eq
  rwa [List.sum_cons] at hsum

/-- Whether an item counts depends on what is stored for it. -/
theorem localTest_test (counter : ListCounter) : LocalTest counter.test := by
  intro s s' p hsame
  cases counter with
  | items => rfl
  | checks => simp [ListCounter.test, hsame]

/-! ### What events add -/

section

variable {uid list : Key} {db : Store Value} {w : Write Value} {reads more : List OwnRead}

/-- A stored item counts among the items. -/
theorem passes_items (db : Store Value) (p : Path) (k : Key) :
    Passes ListCounter.items.test db p k ↔ k ∈ db.children p :=
  and_iff_left rfl

/-- An item whose check mark is set counts among the checked ones. -/
theorem passes_checks (db : Store Value) (p : Path) (k : Key) :
    Passes ListCounter.checks.test db p k ↔ db.get (p ++ [k, Keys.isSelected]) = some (.bool true) := by
  simp only [Passes, ListCounter.test, List.append_assoc, List.singleton_append, decide_eq_true_eq]
  exact and_iff_right_of_imp fun hflag => (Store.mem_children _ _ _).mpr ⟨_, _, hflag⟩

/-- A change elsewhere keeps the counters, and reads of no counter add nothing. -/
theorem CountersAddUp.of_same (h : CountersAddUp uid db reads) {db' : Store Value}
    (hsame : ∀ q, db'.get (listsPath uid ++ q) = db.get (listsPath uid ++ q))
    (hmore : ∀ list counter, owed list counter more = 0) : CountersAddUp uid db' (reads ++ more) := by
  intro list hlist counter
  rw [children_congr hsame] at hlist
  obtain ⟨n, hn, hsum⟩ := h list hlist counter
  refine ⟨n, (hsame _).trans hn, ?_⟩
  have hactual : counter.actual uid list db' = counter.actual uid list db :=
    tally_congr (localTest_test counter) fun r => hsame (list :: Keys.items :: r)
  rw [owed_append, hmore, hactual, ← hsum]
  omega

/-- A write among the items of a stored list keeps the counters when the reads that come with it add
what it changes. -/
theorem CountersAddUp.apply_items (h : CountersAddUp uid db reads) (hlist : list ∈ db.children (listsPath uid))
    (hw : ownItems uid (some list) <+: w.location)
    (hothers : ∀ other counter, other ≠ list → owed other counter more = 0)
    (hactual : ∀ counter : ListCounter, (counter.actual uid list (w.apply db) : ℤ) =
      counter.actual uid list db + owed list counter more) :
    CountersAddUp uid (w.apply db) (reads ++ more) := by
  obtain ⟨rest, hrest⟩ := hw
  have hlocation : w.location = listsPath uid ++ list :: Keys.items :: rest := hrest.symm
  have hframe {other : Key} (hother : other ≠ list) (q : Path) :
      (w.apply db).get (listsPath uid ++ other :: q) = db.get (listsPath uid ++ other :: q) := by
    apply get_apply_of_apart
    rw [hlocation, apart_append_left]
    exact apart_of_ne (Ne.symm hother) _ _
  intro other hother counter
  by_cases hsame : other = list
  · subst hsame
    obtain ⟨n, hn, hsum⟩ := h other hlist counter
    have hfield : counter.field ≠ Keys.items := by cases counter <;> decide
    refine ⟨n, ?_, ?_⟩
    · rw [get_apply_of_apart, hn]
      rw [hlocation, apart_append_left, apart_cons]
      exact apart_of_ne (Ne.symm hfield) _ _
    · rw [owed_append, hactual, ← hsum]
      omega
  · have hstored : other ∈ db.children (listsPath uid) := by
      rw [Store.mem_children] at hother ⊢
      simpa only [hframe hsame] using hother
    obtain ⟨n, hn, hsum⟩ := h other hstored counter
    have hkept : counter.actual uid other (w.apply db) = counter.actual uid other db :=
      tally_congr (localTest_test counter) fun r => hframe hsame (Keys.items :: r)
    refine ⟨n, (hframe hsame _).trans hn, ?_⟩
    rw [owed_append, hothers other counter hsame, hkept, ← hsum]
    omega

/-- An item that is new to its list adds one to the items. -/
theorem actual_insert {item : Key} (habsent : item ∉ db.children (ownItems uid (some list)))
    (description : String) (counter : ListCounter) :
    (counter.actual uid list ((insertItem uid (some list) item description).apply db) : ℤ) =
      counter.actual uid list db + owed list counter [.count list .items 1] := by
  have hfields : ([([Keys.description], str description), ([Keys.isSelected], bool false)] :
      List (Path × Store Value)).Pairwise fun a b => Apart a.1 b.1 := by
    simp +decide [List.pairwise_cons]
  have hflag : ((insertItem uid (some list) item description).apply db).get
      (ownItems uid (some list) ++ [item, Keys.isSelected]) = some (.bool false) := by
    have hget := get_update_of_mem hfields (List.mem_cons_of_mem _ List.mem_cons_self)
      (ownItems uid (some list) ++ [item]) [] db
    rw [List.append_nil, List.append_assoc] at hget
    exact hget
  have hwithin : ownItems uid (some list) ++ [item] <+:
      (insertItem uid (some list) item description).location := List.prefix_refl _
  have htally := tally_apply_below (s := db) (localTest_test counter) hwithin
  rw [← ListCounter.actual, ← ListCounter.actual] at htally
  cases counter with
  | items =>
    have hafter : item ∈ ((insertItem uid (some list) item description).apply db).children
        (ownItems uid (some list)) := by
      apply (Store.mem_children _ _ _).mpr
      exact ⟨[Keys.isSelected], .bool false, hflag⟩
    rw [if_neg (mt (passes_items _ _ _).mp habsent), if_pos ((passes_items _ _ _).mpr hafter)] at htally
    simp [OwnRead.owes]
    omega
  | checks =>
    have hbefore : ¬ Passes ListCounter.checks.test db (ownItems uid (some list)) item :=
      fun hpasses => habsent hpasses.1
    have hafter : ¬ Passes ListCounter.checks.test
        ((insertItem uid (some list) item description).apply db) (ownItems uid (some list)) item := by
      rw [passes_checks, hflag]
      simp
    rw [if_neg hbefore, if_neg hafter] at htally
    simp [OwnRead.owes]
    omega

/-- A tap on a current row moves one item into the checked ones, or out of them. -/
theorem actual_flag {item : Key} {selected : Bool} (hitem : item ∈ db.children (ownItems uid (some list)))
    (hcurrent : db.get (ownItems uid (some list) ++ [item, Keys.isSelected]) = some (.bool selected))
    (counter : ListCounter) :
    (counter.actual uid list ((flagItem uid (some list) item (!selected)).apply db) : ℤ) =
      counter.actual uid list db +
        owed list counter [.count list .checks (if selected then -1 else 1)] := by
  have hflag : ((flagItem uid (some list) item (!selected)).apply db).get
      (ownItems uid (some list) ++ [item, Keys.isSelected]) = some (.bool (!selected)) := by
    have hget := get_update_leaf (ownItems uid (some list) ++ [item]) [Keys.isSelected]
      (.bool (!selected)) db
    rwa [List.append_assoc] at hget
  have hwithin : ownItems uid (some list) ++ [item] <+:
      (flagItem uid (some list) item (!selected)).location := List.prefix_refl _
  have htally := tally_apply_below (s := db) (localTest_test counter) hwithin
  rw [← ListCounter.actual, ← ListCounter.actual] at htally
  cases counter with
  | items =>
    have hafter : item ∈ ((flagItem uid (some list) item (!selected)).apply db).children
        (ownItems uid (some list)) :=
      (Store.mem_children _ _ _).mpr ⟨[Keys.isSelected], _, hflag⟩
    rw [if_pos ((passes_items _ _ _).mpr hitem), if_pos ((passes_items _ _ _).mpr hafter)] at htally
    simp [OwnRead.owes]
    omega
  | checks =>
    simp only [passes_checks, hflag, hcurrent, Option.some.injEq, Value.bool.injEq] at htally
    cases selected <;> simp [OwnRead.owes] at htally ⊢ <;> omega

/-- The deletion of a current row takes one item out, and out of the checked ones if it was checked. -/
theorem actual_remove {item : Key} {selected : Bool} (hitem : item ∈ db.children (ownItems uid (some list)))
    (hcurrent : db.get (ownItems uid (some list) ++ [item, Keys.isSelected]) = some (.bool selected))
    (counter : ListCounter) :
    (counter.actual uid list ((Write.remove (ownItems uid (some list) ++ [item])).apply db) : ℤ) =
      counter.actual uid list db + owed list counter
        (.count list .items (-1) :: if selected then [.count list .checks (-1)] else []) := by
  have hwithin : ownItems uid (some list) ++ [item] <+:
      (Write.remove (ownItems uid (some list) ++ [item]) : Write Value).location := List.prefix_refl _
  have htally := tally_apply_below (s := db) (localTest_test counter) hwithin
  rw [← ListCounter.actual, ← ListCounter.actual, if_neg (not_passes_remove item)] at htally
  cases counter with
  | items =>
    rw [if_pos ((passes_items _ _ _).mpr hitem)] at htally
    cases selected <;> simp [OwnRead.owes] <;> omega
  | checks =>
    simp only [passes_checks, hcurrent, Option.some.injEq, Value.bool.injEq] at htally
    cases selected <;> simp [OwnRead.owes] at htally ⊢ <;> omega

/-- A list that is created where nothing is stored or pending has counters of zero. -/
theorem CountersAddUp.create (h : CountersAddUp uid db reads)
    (hempty : db.children (ownItems uid (some list)) = []) (hnone : ∀ counter, owed list counter reads = 0)
    (description : String) :
    CountersAddUp uid ((createListWrite uid list description).apply db) reads := by
  have hentries : ([([Keys.description], str description), ([Keys.listCount], int 0),
      ([Keys.listCheckCount], int 0)] : List (Path × Store Value)).Pairwise fun a b => Apart a.1 b.1 := by
    simp +decide [List.pairwise_cons]
  have hlocation : (createListWrite uid list description).location = listsPath uid ++ [list] := rfl
  intro other hother counter
  by_cases hsame : other = list
  · subst hsame
    refine ⟨0, ?_, ?_⟩
    · have hmem : ([counter.field], int 0) ∈ [([Keys.description], str description),
          ([Keys.listCount], int 0), ([Keys.listCheckCount], int 0)] := by
        cases counter <;> simp [ListCounter.field]
      have hget := get_update_of_mem hentries hmem (listsPath uid ++ [other]) [] db
      rw [List.append_nil, List.append_assoc] at hget
      exact hget
    · have hkept : counter.actual uid other ((createListWrite uid other description).apply db) =
          counter.actual uid other db := by
        apply tally_update_of_apart (localTest_test counter)
        intro entry hentry
        have hitems : ownItems uid (some other) = (listsPath uid ++ [other]) ++ [Keys.items] := rfl
        rw [hitems, apart_append_left]
        simp only [List.mem_cons, List.not_mem_nil, or_false] at hentry
        rcases hentry with rfl | rfl | rfl <;> exact apart_of_ne (by decide) _ _
      rw [hnone, hkept, ListCounter.actual, tally_of_children_eq_nil hempty]
      rfl
  · have hframe (q : Path) : ((createListWrite uid list description).apply db).get
        (listsPath uid ++ other :: q) = db.get (listsPath uid ++ other :: q) := by
      apply get_apply_of_apart
      rw [hlocation, apart_append_left]
      exact apart_of_ne (Ne.symm hsame) _ _
    have hstored : other ∈ db.children (listsPath uid) := by
      rw [Store.mem_children] at hother ⊢
      simpa only [hframe] using hother
    obtain ⟨n, hn, hsum⟩ := h other hstored counter
    have hkept : counter.actual uid other ((createListWrite uid list description).apply db) =
        counter.actual uid other db :=
      tally_congr (localTest_test counter) fun r => hframe (Keys.items :: r)
    exact ⟨n, (hframe _).trans hn, hkept ▸ hsum⟩

/-- The lists that are left when one is deleted keep their counters. -/
theorem CountersAddUp.deleteList (h : CountersAddUp uid db reads) (list : Key) :
    CountersAddUp uid ((Write.remove (listsPath uid ++ [list])).apply db) reads := by
  intro other hother counter
  have hsame : other ≠ list := by
    rintro rfl
    obtain ⟨r, v, hv⟩ := (Store.mem_children _ _ _).mp hother
    rw [Write.apply, Store.get_remove_eq_some_iff] at hv
    exact hv.1 ⟨r, by simp⟩
  have hframe (q : Path) : ((Write.remove (listsPath uid ++ [list])).apply db).get
      (listsPath uid ++ other :: q) = db.get (listsPath uid ++ other :: q) := by
    apply get_apply_of_apart
    rw [Write.location, apart_append_left]
    exact apart_of_ne (Ne.symm hsame) _ _
  have hstored : other ∈ db.children (listsPath uid) := by
    rw [Store.mem_children] at hother ⊢
    simpa only [hframe] using hother
  obtain ⟨n, hn, hsum⟩ := h other hstored counter
  have hkept : counter.actual uid other ((Write.remove (listsPath uid ++ [list])).apply db) =
      counter.actual uid other db :=
    tally_congr (localTest_test counter) fun r => hframe (Keys.items :: r)
  exact ⟨n, (hframe _).trans hn, hkept ▸ hsum⟩

/-- The answer to a counter of a stored list adds what the read was going to add. -/
theorem CountersAddUp.answer {i : ℕ} {counter : ListCounter} {delta n : ℤ}
    (h : CountersAddUp uid db reads) (hread : reads[i]? = some (.count list counter delta))
    (hn : db.get (listsPath uid ++ [list, counter.field]) = some (.int n)) :
    CountersAddUp uid ((Write.update (listsPath uid ++ [list]) [([counter.field], int (n + delta))]).apply db)
      (reads.eraseIdx i) := by
  have hframe {q : Path} (hq : Apart [list, counter.field] q) :
      ((Write.update (listsPath uid ++ [list]) [([counter.field], int (n + delta))]).apply db).get
        (listsPath uid ++ q) = db.get (listsPath uid ++ q) := by
    apply get_update_of_apart
    intro entry hentry
    rw [List.mem_singleton.mp hentry, List.append_assoc, apart_append_left]
    exact hq
  intro other hother c
  have hstored : other ∈ db.children (listsPath uid) := by
    by_cases hsame : other = list
    · subst hsame
      exact (Store.mem_children _ _ _).mpr ⟨[counter.field], _, hn⟩
    · rw [Store.mem_children] at hother ⊢
      obtain ⟨r, v, hv⟩ := hother
      exact ⟨r, v, (hframe (apart_of_ne (Ne.symm hsame) _ _)).symm.trans hv⟩
  have hkept : c.actual uid other
      ((Write.update (listsPath uid ++ [list]) [([counter.field], int (n + delta))]).apply db) =
        c.actual uid other db := by
    apply tally_congr (localTest_test c)
    intro r
    have hfield : counter.field ≠ Keys.items := by cases counter <;> decide
    apply hframe (q := other :: Keys.items :: r)
    by_cases hsame : other = list
    · rw [hsame, apart_cons]
      exact apart_of_ne hfield _ _
    · exact apart_of_ne (Ne.symm hsame) _ _
  obtain ⟨m, hm, hsum⟩ := h other hstored c
  have howed := owed_eraseIdx other c hread
  by_cases hsame : list = other ∧ counter = c
  · obtain ⟨rfl, rfl⟩ := hsame
    have hmn : m = n := by
      have hvalue := hm.symm.trans hn
      simpa using hvalue
    refine ⟨n + delta, ?_, ?_⟩
    · have hget := get_update_leaf (listsPath uid ++ [list]) [counter.field] (.int (n + delta)) db
      rwa [List.append_assoc] at hget
    · simp only [OwnRead.owes, and_self, if_true] at howed
      rw [hkept, ← hsum, ← howed, hmn]
      omega
  · refine ⟨m, ?_, ?_⟩
    · rw [hframe, hm]
      by_cases hlist : list = other
      · rw [hlist, apart_cons]
        apply apart_of_ne
        intro hfields
        apply hsame ⟨hlist, _⟩
        cases counter <;> cases c <;> first | rfl | exact absurd hfields (by decide)
      · exact apart_of_ne hlist _ _
    · simp only [OwnRead.owes, if_neg hsame, zero_add] at howed
      rw [hkept, ← hsum, howed]

/-- The answer to a counter that is not stored concerns no stored list. -/
theorem CountersAddUp.answer_none {i : ℕ} {counter : ListCounter} {delta : ℤ}
    (h : CountersAddUp uid db reads) (hread : reads[i]? = some (.count list counter delta))
    (hnone : ∀ n, db.get (listsPath uid ++ [list, counter.field]) ≠ some (.int n)) :
    CountersAddUp uid db (reads.eraseIdx i) := by
  intro other hother c
  obtain ⟨m, hm, hsum⟩ := h other hother c
  have howed := owed_eraseIdx other c hread
  have hother : ¬ (list = other ∧ counter = c) := by
    rintro ⟨rfl, rfl⟩
    exact hnone m hm
  simp only [OwnRead.owes, if_neg hother, zero_add] at howed
  exact ⟨m, hm, howed ▸ hsum⟩

/-- The answer to another read adds nothing. -/
theorem CountersAddUp.answer_other {i : ℕ} {read : OwnRead} (h : CountersAddUp uid db reads)
    (hread : reads[i]? = some read) (hcount : ∀ list counter delta, read ≠ .count list counter delta) :
    CountersAddUp uid db (reads.eraseIdx i) := by
  intro other hother c
  obtain ⟨m, hm, hsum⟩ := h other hother c
  have howed := owed_eraseIdx other c hread
  have hnothing : read.owes other c = 0 := by
    cases read with
    | count list counter delta => exact absurd rfl (hcount list counter delta)
    | _ => rfl
  rw [hnothing, zero_add] at howed
  exact ⟨m, hm, howed ▸ hsum⟩

end

/-! ### Every run -/

section

variable {uid : Key} {screens : OwnScreens} {d next : OwnDevice}

/-- Nothing is going to be added to a counter that no pending read asks for. -/
theorem owed_eq_zero {reads : List OwnRead} {list : Key}
    (h : ∀ read ∈ reads, countedList (read.registered uid screens).1 ≠ some list) (counter : ListCounter) :
    owed list counter reads = 0 := by
  apply List.sum_eq_zero
  intro n hn
  obtain ⟨read, hread, rfl⟩ := List.mem_map.mp hn
  have hother := h read hread
  rw [countedList_registered] at hother
  cases read with
  | count l c delta =>
    have hne : ¬ (l = list ∧ c = counter) := fun hsame => hother (congrArg some hsame.1)
    exact if_neg hne
  | _ => rfl

/-- An event that changes what its row showed changes the items by what its reads are going to add. -/
theorem CountersAddUp.effect {call : OwnCall} {w : Option (Write Value)} {reads registered : List OwnRead}
    (h : CountersAddUp uid d.db reads) (hreads : d.reads = reads.map (·.registered uid screens))
    (heffect : call.Effect uid screens d.mem w registered) (hright : CountsRight uid screens d (.call call)) :
    CountersAddUp uid (w.elim d.db (·.apply d.db)) (reads ++ registered) := by
  have hfeed {w : Write Value} (hw : ownItems uid none <+: w.location) (q : Path) :
      (w.apply d.db).get (listsPath uid ++ q) = d.db.get (listsPath uid ++ q) := by
    obtain ⟨rest, hrest⟩ := hw
    apply get_apply_of_apart
    rw [← hrest]
    exact apart_field _ _ _ (by decide) _ _
  have hsame (q : Path) : d.db.get (listsPath uid ++ q) = d.db.get (listsPath uid ++ q) := rfl
  have hcell {screen : ℕ} {selectedCell : PersonalGroceryList} {item : Key}
      (hitem : selectedCell.item = item.1)
      (hcurrent : RowCurrent d.db (ownItems uid (some (screens.list screen))) selectedCell) :
      item ∈ d.db.children (ownItems uid (some (screens.list screen))) ∧
        d.db.get (ownItems uid (some (screens.list screen)) ++ [item, Keys.isSelected]) =
          some (.bool selectedCell.isSelected) := by
    obtain ⟨k, hk, hname, hflag⟩ := hcurrent
    have hsame : k = item := Subtype.ext (hname.trans hitem)
    exact hsame ▸ ⟨hk, hflag⟩
  have hlisted {list item : Key} (hitem : item ∈ d.db.children (ownItems uid (some list))) :
      list ∈ d.db.children (listsPath uid) := by
    obtain ⟨r, v, hv⟩ := (Store.mem_children _ _ _).mp hitem
    exact (Store.mem_children _ _ _).mpr ⟨Keys.items :: item :: r, v, hv⟩
  cases heffect with
  | feedAppears => exact h.of_same hsame fun _ _ => rfl
  | selectItem hrow hitem =>
    rw [Option.elim_some]
    exact h.of_same (hfeed (List.prefix_append _ _)) fun _ _ => rfl
  | selectNoItem hrow => exact h.of_same hsame fun _ _ => rfl
  | deleteItem hrow hitem =>
    rw [Option.elim_some]
    exact h.of_same (hfeed (List.prefix_append _ _)) fun _ _ => rfl
  | deleteNoItem hrow => exact h.of_same hsame fun _ _ => rfl
  | deleteAllItems =>
    rw [Option.elim_some]
    exact h.of_same (hfeed (List.prefix_refl _)) fun _ _ => rfl
  | addAppears screen => exact h.of_same hsame fun _ _ => rfl
  | @addItem screen item description haccepted havailable =>
    rw [Option.elim_some]
    cases htarget : screens.target screen with
    | none => exact h.of_same (hfeed (List.prefix_append _ _)) fun _ _ => rfl
    | some list =>
      obtain ⟨hlist, habsent⟩ := hright list htarget haccepted havailable
      rw [rowStored_iff] at habsent
      apply h.apply_items hlist (List.prefix_append _ _)
      · intro other counter hother
        simp [OwnRead.owes, Ne.symm hother]
      · intro counter
        have hinsert := actual_insert habsent description counter
        simpa [OwnRead.owes] using hinsert
  | addTaken description htaken => exact h.of_same hsame fun _ _ => rfl
  | addRefused screen description hrefused => exact h.of_same hsame fun _ _ => rfl
  | listsAppear => exact h.of_same hsame fun _ _ => rfl
  | @createList listName description haccepted =>
    obtain ⟨hempty, hpending⟩ := hright haccepted listName.2
    have hnone : ∀ read ∈ reads, countedList (read.registered uid screens).1 ≠ some listName := by
      intro read hread
      apply hpending
      rw [hreads]
      exact List.mem_map_of_mem hread
    rw [Option.elim_some, List.append_nil]
    exact h.create hempty (owed_eq_zero hnone) description
  | createRefused description hrefused => exact h.of_same hsame fun _ _ => rfl
  | deleteList listTitle =>
    intro other hother counter
    obtain ⟨n, hn, hsum⟩ := h.deleteList listTitle other hother counter
    refine ⟨n, hn, ?_⟩
    rw [Option.elim_some, ← hsum, owed_append]
    simp [OwnRead.owes]
  | listAppears screen => exact h.of_same hsame fun _ _ => rfl
  | selectPersonalItem hrow hitem =>
    obtain ⟨hstored, hflag⟩ := hcell hitem (hright _ hrow)
    rw [Option.elim_some]
    apply h.apply_items (hlisted hstored) (List.prefix_append _ _)
    · intro other counter hother
      simp [OwnRead.owes, Ne.symm hother]
    · intro counter
      have htap := actual_flag hstored hflag counter
      simpa [OwnRead.owes] using htap
  | selectNoPersonalItem hrow => exact h.of_same hsame fun _ _ => rfl
  | @deletePersonalItem screen row selectedCell item hrow hitem =>
    obtain ⟨hstored, hflag⟩ := hcell hitem (hright _ hrow)
    rw [Option.elim_some]
    apply h.apply_items (hlisted hstored) (List.prefix_append _ _)
    · intro other counter hother
      cases selectedCell.isSelected <;> simp [OwnRead.owes, Ne.symm hother]
    · intro counter
      have hdelete := actual_remove hstored hflag counter
      rw [hdelete, owed_append]
      simp [OwnRead.owes]
  | deleteNoPersonalItem hrow => exact h.of_same hsame fun _ _ => rfl

/-- The own reads that are pending, with counters that they complete. -/
structure OwnDevice.Counting (uid : Key) (screens : OwnScreens) (d : OwnDevice) : Prop where
  rows : RowsNamed d.mem
  reads : ∃ reads : List OwnRead, d.reads = reads.map (·.registered uid screens) ∧
    (∀ read ∈ reads, read.Unit) ∧ CountersAddUp uid d.db reads

/-- Every event that changes what its row showed keeps the counters adding up. -/
theorem OwnDevice.Counting.step (h : d.Counting uid screens) {e : DeviceEvent OwnCall}
    (hregular : Regular d e) (hright : CountsRight uid screens d e)
    (hstep : d.step (OwnCall.code uid screens) e = some next) : next.Counting uid screens := by
  obtain ⟨reads, hreads, hunit, haddUp⟩ := h.reads
  obtain ⟨-, ⟨call, rfl, rfl⟩ | ⟨i, p, callback, rfl, hread, rfl⟩⟩ := Device.step_eq_some hstep
  · obtain ⟨w, registered, heffect, hexec⟩ := OwnCall.exec_code uid screens h.rows hregular
    rw [hexec]
    refine ⟨h.rows, reads ++ registered, by simp [OwnCall.after, hreads], fun read hread => ?_,
      haddUp.effect hreads heffect hright⟩
    rcases List.mem_append.mp hread with hread | hread
    · exact hunit read hread
    · rintro list counter delta rfl
      exact heffect.delta_unit hread
  · obtain ⟨read, hget, hregistered⟩ : ∃ read, reads[i]? = some read ∧
        read.registered uid screens = (p, callback) := by
      simpa [hreads] using hread
    have hrest : d.reads.eraseIdx i = (reads.eraseIdx i).map (·.registered uid screens) := by
      rw [hreads, List.eraseIdx_map]
    have hrestUnit : ∀ read ∈ reads.eraseIdx i, read.Unit :=
      fun read hread => hunit read (List.mem_of_mem_eraseIdx hread)
    have hcallback : callback = (read.registered uid screens).2 := by rw [hregistered]
    have hp : p = (read.registered uid screens).1 := by rw [hregistered]
    rw [hcallback, hp, hrest]
    by_cases hcount : ∀ list counter delta, read ≠ .count list counter delta
    · rcases read.answer_reload uid screens hcount d.db with htrap | ⟨f, hf, hkeeps⟩
      · rw [htrap]
        exact ⟨h.rows, _, rfl, hrestUnit, haddUp.answer_other hget hcount⟩
      · rw [hf]
        exact ⟨hkeeps _ h.rows, _, rfl, hrestUnit, haddUp.answer_other hget hcount⟩
    · push Not at hcount
      obtain ⟨list, counter, delta, rfl⟩ := hcount
      simp only [OwnRead.registered]
      cases hasInt : asInt (d.db.snapshot (listsPath uid ++ [list, counter.field])) with
      | none =>
        refine ⟨h.rows, _, rfl, hrestUnit, ?_⟩
        refine haddUp.answer_none hget fun n hn => ?_
        obtain ⟨hbelow, habove⟩ := hregular.room hread hp hn
        have hfits : FitsInt n := ⟨by have := hbelow.1; omega, by have := habove.2; omega⟩
        rw [(asInt_eq_some_iff _ n).mpr ⟨by rwa [value_snapshot], hfits⟩] at hasInt
        contradiction
      | some n =>
        obtain ⟨hn, -⟩ := (asInt_eq_some_iff _ n).mp hasInt
        rw [value_snapshot] at hn
        have hroom := hregular.room hread hp hn
        rw [Prog.force_some, addInt_unit (hunit _ (List.mem_of_getElem? hget) _ _ _ rfl) hroom]
        exact ⟨h.rows, _, rfl, hrestUnit, haddUp.answer hget hn⟩

/-- Where the counters add up and no read is pending, they match. -/
theorem OwnDevice.Counting.counted (h : d.Counting uid screens) : d.Counted uid := by
  intro hnone list hlist counter
  obtain ⟨reads, hreads, -, haddUp⟩ := h.reads
  have hnil : reads = [] := List.map_eq_nil_iff.mp (hreads.symm.trans hnone)
  obtain ⟨n, hn, hsum⟩ := haddUp list hlist counter
  rw [hnil, owed_nil, add_zero] at hsum
  rw [hn, hsum]

end

/-- Along every run of the screens of the own lists on one device, whatever the order of the answers, the
counters of all personal lists match their items whenever no read is pending, as long as the names that are
entered are keys, no counter runs out of an `Int`, rows are current when they are tapped or deleted, accepted
items are new to their list, and no list is created over items or adjustments that are pending. -/
theorem own_counters_match (uid : Key) (screens : OwnScreens) {db : Store Value} (h : CountersMatch uid db)
    {events : List (DeviceEvent OwnCall)}
    (hright : Machine.Throughout (Device.step (OwnCall.code uid screens))
      (fun d e => Regular d e ∧ CountsRight uid screens d e) (OwnDevice.launched db) events) :
    Machine.Always (Device.step (OwnCall.code uid screens)) (OwnDevice.Counted uid)
      (OwnDevice.launched db) events := by
  have hstart : (OwnDevice.launched db).Counting uid screens := by
    refine ⟨⟨fun row hrow => by contradiction, fun screen row hrow => by contradiction⟩, [], rfl,
      by simp, ?_⟩
    intro list hlist counter
    refine ⟨_, h list hlist counter, ?_⟩
    rw [owed_nil, add_zero]
    rfl
  apply Machine.always_of_throughout (I := OwnDevice.Counting uid screens) _ _ hstart hright
  · exact fun d hd => hd.counted
  · exact fun d e next hd hallowed hstep => hd.step hallowed.1 hallowed.2 hstep

/-- All screens are open for one personal list. -/
def onOneList : OwnScreens := ⟨fun _ => Sample.home, fun _ => some Sample.home⟩

/-- A list is created, and an item is added to it and checked, before the counter of the add is answered. -/
def countLate : List (DeviceEvent OwnCall) :=
  [.call (.createList "home" ""), .call (.addItem 0 "milk" ""), .call (.listAppears 0),
    .answer 2, .call (.selectPersonalItem 0 0), .answer 2, .answer 1, .answer 0, .answer 0]

/-- A counter that is read after later writes agrees once all reads are answered. -/
theorem own_counters_match_late : ∃ d : OwnDevice,
    countLate.foldlM (Device.step (OwnCall.code Sample.uidA onOneList)) (OwnDevice.launched .empty) = some d ∧
      d.reads = [] ∧ Sample.home ∈ d.db.children (listsPath Sample.uidA) ∧
      d.Counted Sample.uidA := by
  have hempty : CountersMatch Sample.uidA .empty := fun list hlist => by simp [Store.mem_children] at hlist
  have hlast : (countLate.foldlM (Device.step (OwnCall.code Sample.uidA onOneList))
      (OwnDevice.launched .empty)).map (fun d =>
        (d.reads.length, decide (Sample.home ∈ d.db.children (listsPath Sample.uidA)))) =
      some (0, true) := by
    decide +kernel
  obtain ⟨d, hd, hreached⟩ := Option.map_eq_some_iff.mp hlast
  obtain ⟨hreads, hlist⟩ := Prod.mk.inj hreached
  refine ⟨d, hd, List.eq_nil_of_length_eq_zero hreads, of_decide_eq_true hlist, ?_⟩
  exact (own_counters_match Sample.uidA onOneList hempty (by decide +kernel)).of_foldlM hd

end GroceryListApp

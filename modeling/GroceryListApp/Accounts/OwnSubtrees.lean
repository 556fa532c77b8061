import GroceryListApp.Groups.ItemWrites
import GroceryListApp.Realtime.Isolation

/-!
# Each account and each group in its own subtree

The operations on the feed and on the personal lists of an account splice names the user
typed into locations below `users/<uid>`, those on the list of a group into locations below
`groups/<key>`. A string can lead to a location above the item it is meant for, but not out
of these subtrees. So accounts do not notice each other, and groups do not.
-/

namespace GroceryListApp

open Realtime

variable {M : Type*}

/-- An operation on the own list, on a personal list or on a counter of a personal list. -/
inductive AccountCall where
  | uploadItem (uid : Key) (item description : String)
  | checkOffItem (uid : Key) (name : String)
  | uncheckItem (uid : Key) (name : String)
  | removeItem (uid : Key) (item : String)
  | removeAllItems (uid : Key)
  | uploadPersonalList (uid : Key) (name description : String)
  | createPersonalItem (uid : Key) (name item description : String)
  | checkOffPersonalItem (uid : Key) (listName item : String)
  | uncheckPersonalItem (uid : Key) (listName item : String)
  | removePersonalItem (uid : Key) (listName item : String)
  | removeUserList (uid : Key) (listName : String)
  | increasePersonalListCount (uid : Key) (listName : String)
  | decreasePersonalListCount (uid : Key) (listName : String)
  | increasePersonalListCheckCount (uid : Key) (listName : String)
  | decreasePersonalListCheckCount (uid : Key) (listName : String)
  deriving DecidableEq

namespace AccountCall

/-- The program of a call. -/
def code : AccountCall → Prog M Value
  | uploadItem uid item description =>
      GroceryListApp.uploadItem item description uid fun _ => .done
  | checkOffItem uid name => GroceryListApp.checkOffItem uid name
  | uncheckItem uid name => GroceryListApp.uncheckItem uid name
  | removeItem uid item => GroceryListApp.removeItem uid item
  | removeAllItems uid => GroceryListApp.removeAllItems uid
  | uploadPersonalList uid name description =>
      GroceryListApp.uploadPersonalList name description uid fun _ => .done
  | createPersonalItem uid name item description =>
      GroceryListApp.createPersonalItem uid name item description fun _ => .done
  | checkOffPersonalItem uid listName item =>
      GroceryListApp.checkOffPersonalItem uid listName item
  | uncheckPersonalItem uid listName item => GroceryListApp.uncheckPersonalItem uid listName item
  | removePersonalItem uid listName item => GroceryListApp.removePersonalItem uid listName item
  | removeUserList uid listName => GroceryListApp.removeUserList uid listName
  | increasePersonalListCount uid listName =>
      GroceryListApp.increasePersonalListCount uid listName
  | decreasePersonalListCount uid listName =>
      GroceryListApp.decreasePersonalListCount uid listName
  | increasePersonalListCheckCount uid listName =>
      GroceryListApp.increasePersonalListCheckCount uid listName
  | decreasePersonalListCheckCount uid listName =>
      GroceryListApp.decreasePersonalListCheckCount uid listName

/-- The account an operation belongs to. -/
def account : AccountCall → Key
  | uploadItem uid _ _ | checkOffItem uid _ | uncheckItem uid _ | removeItem uid _ => uid
  | removeAllItems uid | uploadPersonalList uid _ _ | createPersonalItem uid _ _ _ => uid
  | checkOffPersonalItem uid _ _ | uncheckPersonalItem uid _ _ | removePersonalItem uid _ _ => uid
  | removeUserList uid _ => uid
  | increasePersonalListCount uid _ | decreasePersonalListCount uid _ => uid
  | increasePersonalListCheckCount uid _ | decreasePersonalListCheckCount uid _ => uid

end AccountCall

/-- The group an edit of an item or an adjustment of a counter belongs to. -/
def GroupCall.editedGroup : GroupCall → Option Key
  | .addGroupItem uid _ _ _ | .markeOffUser uid _ _ | .uncheckUser uid _ => some uid
  | .deleteItem uid _ _ | .increaseListCount uid | .decreaseListCount uid => some uid
  | .increaseListCheckCount uid | .decreaseListCheckCount uid => some uid
  | _ => none

/-- A counter function stays in the subtree of its reference. -/
theorem within_adjustCount {p : Path} {ref : Ref} (h : ref.Below p) (field : String) (delta : ℤ) :
    (adjustCount ref field delta : Prog M Value).Within p := by
  apply (h.child field).observeSingleEvent
  intro snapshot
  apply Prog.within_force
  intro n _
  apply Prog.within_force
  intro adjusted _
  exact h.updateChildValues _

/-- Every operation on the lists of an account stays in the subtree of the account. -/
theorem AccountCall.within_code (t : AccountCall) :
    (t.code : Prog M Value).Within [Keys.users, t.account] := by
  have huser (uid : Key) : (REF_USERS.child uid).Below [Keys.users, uid] := by
    intro q hq
    have : [Keys.users, uid] = q := by simpa [REF_USERS] using hq
    exact this ▸ List.prefix_refl _
  have hown (uid : Key) := (huser uid).child "grocery list"
  have hlists (uid : Key) := (huser uid).child "lists"
  have hitems (uid : Key) (name : String) := ((hlists uid).child name).child "items"
  have hcount (uid : Key) (name field : String) (delta : ℤ) :=
    within_adjustCount (M := M) ((hlists uid).child name) field delta
  cases t with
  | uploadItem uid item description =>
    exact (((hown uid).child item).updateChildValues _).seq trivial
  | checkOffItem uid name => exact ((hown uid).child name).updateChildValues _
  | uncheckItem uid name => exact ((hown uid).child name).updateChildValues _
  | removeItem uid item => exact ((hown uid).child item).removeValue
  | removeAllItems uid => exact (hown uid).removeValue
  | uploadPersonalList uid name description =>
    exact (((hlists uid).child name).updateChildValues _).seq trivial
  | createPersonalItem uid name item description =>
    exact (((hitems uid name).child item).updateChildValues _).seq trivial
  | checkOffPersonalItem uid name item => exact ((hitems uid name).child item).updateChildValues _
  | uncheckPersonalItem uid name item => exact ((hitems uid name).child item).updateChildValues _
  | removePersonalItem uid name item =>
    exact ((hitems uid name).child item).removeValue.seq ((hcount uid name "listCount" (-1)).seq trivial)
  | removeUserList uid name => exact ((hlists uid).child name).removeValue
  | increasePersonalListCount uid name => exact hcount uid name "listCount" 1
  | decreasePersonalListCount uid name => exact hcount uid name "listCount" (-1)
  | increasePersonalListCheckCount uid name => exact hcount uid name "listCheckCount" 1
  | decreasePersonalListCheckCount uid name => exact hcount uid name "listCheckCount" (-1)

/-- Every operation on the items and counters of a group stays in the subtree of the group. -/
theorem GroupCall.within_code {t : GroupCall} {g : Key} (h : t.editedGroup = some g) :
    t.code.Within [Keys.groups, g] := by
  have hgroup (uid : Key) : (REF_GROUPS.child uid).Below [Keys.groups, uid] := by
    intro q hq
    have : [Keys.groups, uid] = q := by simpa [REF_GROUPS] using hq
    exact this ▸ List.prefix_refl _
  have hlist (uid : Key) := (hgroup uid).child "grocery list"
  have hcount (uid : Key) (field : String) (delta : ℤ) :=
    within_adjustCount (M := ℕ → String) (hgroup uid) field delta
  cases t <;> simp only [editedGroup, Option.some.injEq, reduceCtorEq] at h <;> subst h
  case addGroupItem uid item description currentUser =>
    exact (((hlist uid).child item).updateChildValues _).seq ((hcount uid "list count" 1).seq trivial)
  case markeOffUser uid item username =>
    exact (((hlist uid).child item).updateChildValues _).seq
      ((hcount uid "list check count" 1).seq trivial)
  case uncheckUser uid item =>
    exact (((hlist uid).child item).updateChildValues _).seq
      ((hcount uid "list check count" (-1)).seq trivial)
  case deleteItem uid item checkmarkIsHidden =>
    refine Prog.Within.seq ?_ (Prog.Within.seq ?_ trivial)
    · split
      · exact hcount uid "list check count" (-1)
      · trivial
    · exact ((hlist uid).child item).removeValue.seq ((hcount uid "list count" (-1)).seq trivial)
  case increaseListCount uid => exact hcount uid "list count" 1
  case decreaseListCount uid => exact hcount uid "list count" (-1)
  case increaseListCheckCount uid => exact hcount uid "list check count" 1
  case decreaseListCheckCount uid => exact hcount uid "list check count" (-1)

/-- The calls of a schedule belong to two owners. -/
def OfTwo {T M : Type*} (owner : T → Option Key) (a b : Key) (_ : Sys T M Value) (act : Act T) :
    Prop :=
  ∀ t, act = .spawn t → owner t = some a ∨ owner t = some b

/-- The same, by the shape of the step. -/
theorem ofTwo_iff {T M : Type*} (owner : T → Option Key) (a b : Key) (s : Sys T M Value) (act : Act T) :
    OfTwo owner a b s act ↔ match act with
      | .spawn t => owner t = some a ∨ owner t = some b
      | .run _ => True := by
  cases act with
  | spawn t => exact ⟨fun h => h t rfl, fun h t' ht => Act.spawn.inj ht ▸ h⟩
  | run i => exact iff_of_true (fun _ ht => nomatch ht) trivial

instance {T M : Type*} (owner : T → Option Key) (a b : Key) (s : Sys T M Value) (act : Act T) :
    Decidable (OfTwo owner a b s act) := by
  induction act using Act.casesOn with
  | spawn t => exact decidable_of_iff' (owner t = some a ∨ owner t = some b) (ofTwo_iff owner a b s (.spawn t))
  | run i => exact decidable_of_iff' True (ofTwo_iff owner a b s (.run i))

/-- What two owners of subtrees do in a schedule is the same for the first as without the second:
its calls are as far, with the same callbacks trapped, and its subtree is the same. Nothing
outside the two subtrees is changed. -/
def Undisturbed {T : Type*} (code : T → Prog M Value) (owner : T → Option Key) (root : Key) : Prop :=
  ∀ (a b : Key), a ≠ b → ∀ (start s : Sys T M Value) (acts : List (Act T)), start.pool = [] →
    Sys.Run code (OfTwo owner a b) start acts s →
    (∃ alone, start.runs code (start.only code (fun t => owner t = some a) acts) = some alone ∧
      alone.db.sub [root, a] = s.db.sub [root, a] ∧
      alone.pool = s.pool.filter fun task => owner task.1 = some a) ∧
    ∀ q, Apart [root, a] q → Apart [root, b] q → s.db.get q = start.db.get q

/-- Owners whose calls stay in their subtrees are undisturbed. -/
theorem undisturbed_of_within {T : Type*} {code : T → Prog M Value} {owner : T → Option Key}
    {root : Key} (hcode : ∀ t a, owner t = some a → (code t).Within [root, a]) :
    Undisturbed code owner root := by
  intro a b hne start s acts hpool hrun
  let region (t : T) : Path := (owner t).elim [] fun o => [root, o]
  have hregion {t : T} {o : Key} (ht : owner t = some o) : region t = [root, o] := by
    simp [region, ht]
  have hmine : (fun t => decide (region t = [root, a])) = fun t => decide (owner t = some a) := by
    funext t
    cases ht : owner t <;> simp [region, ht]
  have hapart : Apart [root, b] [root, a] := by
    rw [apart_cons]
    exact apart_of_ne hne.symm [] []
  constructor
  · have hseparate : Sys.Separate code region [root, a] acts := by
      intro t ht
      obtain ⟨mid, hmid⟩ := hrun.allowed_spawn ht
      rcases hmid t rfl with howner | howner
      · rw [hregion howner]
        exact ⟨hcode t a howner, Or.inl rfl⟩
      · rw [hregion howner]
        exact ⟨hcode t b howner, Or.inr hapart⟩
    obtain ⟨alone, hruns, halone⟩ := Sys.runs_only hseparate hpool hrun.runs_eq
    rw [hmine] at hruns halone
    exact ⟨alone, hruns, halone.sub_eq, halone.pool_eq⟩
  · intro q ha hb
    refine Sys.Run.get_of_apart region (fun _ t ht => ?_) hpool hrun
    rcases ht t rfl with howner | howner
    · rw [hregion howner]
      exact ⟨hcode t a howner, ha⟩
    · rw [hregion howner]
      exact ⟨hcode t b howner, hb⟩

/-- The operations of two accounts on their lists, and those of two groups on their items, do not
disturb each other, whatever names are typed. -/
theorem lists_undisturbed :
    Undisturbed (AccountCall.code : AccountCall → Prog M Value) (fun t => some t.account) Keys.users ∧
      Undisturbed GroupCall.code GroupCall.editedGroup Keys.groups :=
  ⟨undisturbed_of_within fun t _ h => Option.some.inj h ▸ t.within_code,
    undisturbed_of_within fun _ _ h => GroupCall.within_code h⟩

/-- Nothing is stored and nothing is pending. -/
def noAccounts : Sys AccountCall Unit Value := ⟨.empty, (), []⟩

/-- One account creates a list and counts an item on it. Meanwhile the other one adds an item by a name of
two keys, removes its whole own list by a name of none, and aborts on the counter of a missing list. -/
def accountsInterleaved : List (Act AccountCall) :=
  [Act.spawn (AccountCall.uploadPersonalList Sample.uidA "home" ""), .spawn (.uploadItem Sample.uidB "milk/eggs" ""),
    .run 1, .run 0, .spawn (.increasePersonalListCount Sample.uidA "home"),
    .spawn (.removeItem Sample.uidB "//"), .spawn (.increasePersonalListCount Sample.uidB "home")] ++
  [4, 3, 5, 0, 1, 0, 0, 0, 0, 0, 0, 0].map .run

/-- A group with a counter is stored and nothing is pending. -/
def homeCounted : GroupSys :=
  ⟨Store.empty.put [Keys.groups, Sample.home, Keys.groupListCount] (int 0), fun _ => "", []⟩

/-- The group gets an item and its counter is raised, while an item is added to a group that is not
stored, which aborts on the counter. -/
def groupsInterleaved : List (Act GroupCall) :=
  [Act.spawn (GroupCall.addGroupItem Sample.home "milk" "" "alice"),
    .spawn (.addGroupItem Sample.work "eggs" "" "bobby")] ++
  [1, 0, 1, 0, 3, 1, 1, 0, 0, 0].map .run

/-- In these schedules the first account and the first group reach what they reach alone. -/
theorem lists_undisturbed_interleaved :
    (∃ s alone, noAccounts.checkedRuns AccountCall.code
        (OfTwo (fun t => some t.account) Sample.uidA Sample.uidB) accountsInterleaved = some s ∧
      noAccounts.runs AccountCall.code (noAccounts.only AccountCall.code
        (fun t => some t.account = some Sample.uidA) accountsInterleaved) = some alone ∧
      alone.db.sub [Keys.users, Sample.uidA] = s.db.sub [Keys.users, Sample.uidA] ∧
      s.db.get [Keys.users, Sample.uidA, Keys.lists, Sample.home, Keys.listCount] = some (.int 1) ∧
      s.pool.length = 1) ∧
    ∃ s alone, homeCounted.checkedRuns GroupCall.code
        (OfTwo GroupCall.editedGroup Sample.home Sample.work) groupsInterleaved = some s ∧
      homeCounted.runs GroupCall.code (homeCounted.only GroupCall.code
        (fun t => t.editedGroup = some Sample.home) groupsInterleaved) = some alone ∧
      alone.db.sub [Keys.groups, Sample.home] = s.db.sub [Keys.groups, Sample.home] ∧
      s.db.get [Keys.groups, Sample.home, Keys.groupListCount] = some (.int 1) ∧ s.pool.length = 1 := by
  obtain ⟨haccounts, hgroups⟩ := lists_undisturbed (M := Unit)
  constructor
  · have hlast : (noAccounts.checkedRuns AccountCall.code (OfTwo (fun t => some t.account) Sample.uidA
        Sample.uidB) accountsInterleaved).map (fun s => (s.db.get [Keys.users, Sample.uidA, Keys.lists,
          Sample.home, Keys.listCount], s.pool.length)) = some (some (.int 1), 1) := by
      decide
    obtain ⟨s, hs, hreached⟩ := Option.map_eq_some_iff.mp hlast
    obtain ⟨hcount, hpool⟩ := Prod.mk.inj hreached
    obtain ⟨alone, hruns, hsub, -⟩ :=
      (haccounts Sample.uidA Sample.uidB (by decide) _ s _ rfl (Sys.run_of_checkedRuns hs)).1
    exact ⟨s, alone, hs, hruns, hsub, hcount, hpool⟩
  · have hlast : (homeCounted.checkedRuns GroupCall.code (OfTwo GroupCall.editedGroup Sample.home
        Sample.work) groupsInterleaved).map (fun s => (s.db.get [Keys.groups, Sample.home,
          Keys.groupListCount], s.pool.length)) = some (some (.int 1), 1) := by
      decide
    obtain ⟨s, hs, hreached⟩ := Option.map_eq_some_iff.mp hlast
    obtain ⟨hcount, hpool⟩ := Prod.mk.inj hreached
    obtain ⟨alone, hruns, hsub, -⟩ :=
      (hgroups Sample.home Sample.work (by decide) _ s _ rfl (Sys.run_of_checkedRuns hs)).1
    exact ⟨s, alone, hs, hruns, hsub, hcount, hpool⟩

end GroceryListApp

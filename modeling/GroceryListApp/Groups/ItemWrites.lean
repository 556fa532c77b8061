import GroceryListApp.Groups.Items
import GroceryListApp.Realtime.Story
import GroceryListApp.Realtime.Subtree

/-!
# Edits of different items

The calls about the items of groups change one item each, and the two counters of its group.
Items are separate subtrees and the counters lie beside the list, so what an item is in the
end is decided by the changes made at that item, in the order they were made; and the list is
decided by these orders.
-/

namespace GroceryListApp

open Realtime

/-- Whether the call edits an item or adjusts a counter of a group. -/
def GroupCall.editsItems : GroupCall → Bool
  | .addGroupItem .. | .markeOffUser .. | .uncheckUser .. | .deleteItem .. => true
  | .increaseListCount _ | .decreaseListCount _ => true
  | .increaseListCheckCount _ | .decreaseListCheckCount _ => true
  | _ => false

/-- The calls of a schedule edit items under names that are legal keys, in any order. -/
def EditsItems (_ : List (GroupCall × Event Value)) (_ : GroupSys) (a : Act GroupCall) : Prop :=
  ∀ t, a = .spawn t → t.editsItems = true ∧ ∀ item, t.itemName = some item → LegalKey item

/-- The changes of a story that are addressed to an item, in the order they were made. -/
def itemChanges (g k : Key) (past : List (GroupCall × Event Value)) : List (Write Value) :=
  (changes past).filter fun w => w.location = itemPath g k

/-- The changes that edits of items make. -/
inductive ItemChange : Write Value → Prop
  | write (g k : Key) (entries : List (Path × Store Value)) (flag : Bool) :
      ItemChange (.update (itemPath g k) (entries ++ [([Keys.isSelected], bool flag)]))
  | remove (g k : Key) : ItemChange (.remove (itemPath g k))
  | count (g : Key) {key : Key} (n : ℤ)
      (hkey : key = Keys.groupListCount ∨ key = Keys.groupListCheckCount) :
      ItemChange (.update [Keys.groups, g] [([key], int n)])

/-- The counter functions of a group make changes of that kind. -/
theorem holds_itemChange_adjust (t : GroupCall) (g : Key) {field : String} (key : Key)
    (hfield : parsePath field = some [key])
    (hkey : key = Keys.groupListCount ∨ key = Keys.groupListCheckCount) (delta : ℤ) :
    (Contract.issues fun (_ : GroupCall) => ItemChange).Holds t
      (adjustCount (REF_GROUPS.child g.1) field delta : Prog (ℕ → String) Value) := by
  have href : REF_GROUPS.child g.1 = some [Keys.groups, g] := by simp [REF_GROUPS]
  rw [href]
  apply holds_adjustCount hfield
  · exact fun _ _ => Or.inr trivial
  · exact fun _ n _ _ _ => Contract.permits_issues_iff.mpr (.count g (n + delta) hkey)

/-- The edits of items under legal names make changes of that kind only. -/
theorem holds_itemChange {t : GroupCall} (hedits : t.editsItems = true)
    (hlegal : ∀ item, t.itemName = some item → LegalKey item) :
    (Contract.issues fun (_ : GroupCall) => ItemChange).Holds t t.code := by
  have hfields : parsePath "list count" = some [Keys.groupListCount] ∧
      parsePath "list check count" = some [Keys.groupListCheckCount] := by simp
  have hcount (g : Key) := holds_itemChange_adjust t g Keys.groupListCount hfields.1 (Or.inl rfl)
  have hcheck (g : Key) := holds_itemChange_adjust t g Keys.groupListCheckCount hfields.2 (Or.inr rfl)
  have hparse {item : String} {name : Path} (hitem : t.itemName = some item)
      (hname : parsePath item = some name) : ∃ k, name = [k] :=
    ⟨_, Option.some.inj (hname.symm.trans (parsePath_key ⟨item, hlegal item hitem⟩))⟩
  have hissues {w : Write Value} (hw : ItemChange w) :
      (Contract.issues fun (_ : GroupCall) => ItemChange).Permits t w :=
    Contract.permits_issues_iff.mpr hw
  cases t with
  | registerUser | changeUsername | deleteAccount | createGroup | removeGroup
  | removeUserFromGroup => contradiction
  | increaseListCount g => exact hcount g 1
  | decreaseListCount g => exact hcount g (-1)
  | increaseListCheckCount g => exact hcheck g 1
  | decreaseListCheckCount g => exact hcheck g (-1)
  | addGroupItem g item description currentUser =>
    simp only [GroupCall.code, addGroupItem]
    rw [createGroupItem_eq]
    apply Contract.holds_force fun _ => trivial
    intro name hname
    obtain ⟨k, rfl⟩ := hparse rfl hname
    exact ⟨hissues (.write g k [([Keys.description], str description),
      ([Keys.addedBy], str currentUser), ([Keys.markedOffBy], str "- -")] false), hcount g 1⟩
  | markeOffUser g item username =>
    simp only [GroupCall.code]
    rw [markeOffUser_eq]
    apply Contract.holds_force fun _ => trivial
    intro name hname
    obtain ⟨k, rfl⟩ := hparse rfl hname
    exact ⟨hissues (.write g k [([Keys.markedOffBy], str username)] true), hcheck g 1⟩
  | uncheckUser g item =>
    simp only [GroupCall.code]
    rw [uncheckUser_eq]
    apply Contract.holds_force fun _ => trivial
    intro name hname
    obtain ⟨k, rfl⟩ := hparse rfl hname
    exact ⟨hissues (.write g k [([Keys.markedOffBy], str "- -")] false), hcheck g (-1)⟩
  | deleteItem g item checkmarkIsHidden =>
    apply Contract.holds_block
    intro p hp
    simp only [List.mem_cons, List.not_mem_nil, or_false] at hp
    rcases hp with rfl | rfl
    · split
      · exact hcheck g (-1)
      · trivial
    · rw [removeGroupItem_eq]
      apply Contract.holds_force fun _ => trivial
      intro name hname
      obtain ⟨k, rfl⟩ := hparse rfl hname
      exact ⟨hissues (.remove g k), hcount g (-1)⟩

namespace ItemChange

variable {w : Write Value}

/-- A change that is not addressed to an item leaves the item as it is. -/
theorem sub_apply (h : ItemChange w) {g k : Key} (hw : w.location ≠ itemPath g k)
    (s : Store Value) : (w.apply s).sub (itemPath g k) = s.sub (itemPath g k) := by
  cases h with
  | write g' k' entries flag =>
    exact Write.sub_update_of_apart (fun entry _ => (apart_itemPath hw).append_left entry.1) s
  | remove g' k' => exact Store.sub_remove_of_apart (apart_itemPath hw) s
  | count g' n hkey =>
    apply Write.sub_update_of_apart
    intro entry hentry
    rw [List.mem_singleton.mp hentry]
    rcases hkey with rfl | rfl <;> exact apart_field _ _ _ (by decide) _ _

/-- A change that writes an item of a list removes a value stored in place of the list. -/
theorem get_list_update (g k : Key) (entries : List (Path × Store Value))
    (h : ItemChange (.update (itemPath g k) entries)) (s : Store Value) :
    ((Write.update (itemPath g k) entries).apply s).get [Keys.groups, g, Keys.groceryList] =
      none := by
  generalize hw : Write.update (itemPath g k) entries = w at h
  cases h with
  | write g' k' entries' flag =>
    simp only [Write.update.injEq, itemPath, List.cons.injEq, and_true, true_and] at hw
    obtain ⟨⟨rfl, rfl⟩, -⟩ := hw
    refine Option.eq_none_iff_forall_ne_some.mpr fun v hv => ?_
    have hstored := get_update_leaf (itemPath g k) [Keys.isSelected] (.bool flag)
      ((Write.update (itemPath g k) entries').apply s)
    have hbelow := Store.get_append_of_get hv (q := [k, Keys.isSelected]) (by simp)
    rw [Write.apply, List.foldl_append] at hbelow
    exact absurd (hstored.symm.trans hbelow) (by simp)
  | remove g' k' => contradiction
  | count g' n hkey => simp [itemPath] at hw

/-- A change that writes no item of a list leaves a value stored in place of the list alone. -/
theorem get_list_other (h : ItemChange w) {g : Key}
    (hw : ∀ k entries, w ≠ .update (itemPath g k) entries) (s : Store Value) :
    (w.apply s).get [Keys.groups, g, Keys.groceryList] =
      s.get [Keys.groups, g, Keys.groceryList] := by
  cases h with
  | write g' k entries flag =>
    have hg : g' ≠ g := by
      rintro rfl
      exact hw k _ rfl
    apply get_apply_of_apart
    exact (apart_cons _ _ _).mpr (apart_of_ne hg _ _)
  | remove g' k =>
    rw [Write.apply, Store.get_remove, if_neg]
    intro hprefix
    have hlength := hprefix.length_le
    simp [itemPath] at hlength
  | count g' n hkey =>
    apply get_update_of_apart
    intro entry hentry
    rw [List.mem_singleton.mp hentry]
    rcases hkey with rfl | rfl <;> exact apart_field _ _ _ (by decide) _ _

/-- What is stored in place of a list is gone once an item was written, and is kept otherwise. -/
theorem get_list_foldl {ws : List (Write Value)} (h : ∀ w ∈ ws, ItemChange w) (g : Key)
    (s : Store Value) :
    ((∃ k entries, .update (itemPath g k) entries ∈ ws) →
      (ws.foldl (fun s w => w.apply s) s).get [Keys.groups, g, Keys.groceryList] = none) ∧
    ((∀ k entries, .update (itemPath g k) entries ∉ ws) →
      (ws.foldl (fun s w => w.apply s) s).get [Keys.groups, g, Keys.groceryList] =
        s.get [Keys.groups, g, Keys.groceryList]) := by
  induction ws generalizing s with
  | nil => simp
  | cons w rest ih =>
    obtain ⟨hwritten, hkept⟩ := ih (fun v hv => h v (List.mem_cons_of_mem _ hv)) (w.apply s)
    rw [List.foldl_cons]
    constructor
    · rintro ⟨k, entries, hmem⟩
      by_cases hrest : ∃ k entries, .update (itemPath g k) entries ∈ rest
      · exact hwritten hrest
      · simp only [not_exists] at hrest
        rw [hkept hrest]
        obtain rfl := (List.mem_cons.mp hmem).resolve_right (hrest k entries)
        exact get_list_update g k entries (h _ List.mem_cons_self) s
    · intro hnone
      rw [hkept fun k entries hmem => hnone k entries (List.mem_cons_of_mem _ hmem)]
      apply (h w List.mem_cons_self).get_list_other
      rintro k entries rfl
      exact hnone k entries List.mem_cons_self

end ItemChange

/-- A check-off of one item and an add of another. -/
def checkMilk : GroupCall := .markeOffUser Sample.home "milk" "bobby"

/-- A call that adds another item of the group. -/
def addEggs : GroupCall := .addGroupItem Sample.home "eggs" "ten" "alice"

end GroceryListApp

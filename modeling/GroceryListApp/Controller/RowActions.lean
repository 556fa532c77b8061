import GroceryListApp.Model.Records
import GroceryListApp.Model.Text

/-!
# The actions of a row in a group's list

The cell of an item shows who added it and who checked it off, each behind a fixed text. The row
actions are not computed from the item but from these labels: the names are cut out of them again
by position, and whether a name is the viewer's own is tested by searching the whole label for it.
A name that occurs inside another one, or inside the fixed text, is then taken for the viewer's.
-/

namespace GroceryListApp

open Realtime

/-- The labels of a row, with whether its check mark is hidden. -/
structure GroupGroceryListCell where
  itemLbl : String
  descriptionLbl : String
  addedByLbl : String
  markedByLbl : String
  checkmarkIsHidden : Bool
  deriving DecidableEq, Repr

/-- `configureCell`, as the table calls it for a row. -/
def configureCell (row : GroupList) : GroupGroceryListCell where
  itemLbl := row.item
  descriptionLbl := row.description
  addedByLbl := "Added by: " ++ row.addedBy
  markedByLbl := "Checked off by: " ++ row.markedOffBy
  checkmarkIsHidden := !row.isSelected

/-- The actions of a row. -/
inductive RowAction where
  | uncheck
  | delete
  | checkOff
  deriving DecidableEq, Repr

namespace GroupGroceryListVC

/-- The name that is cut out of the label of who added the item. -/
def addedBy (cell : GroupGroceryListCell) : Option String := sliceToEnd cell.addedByLbl 10

/-- The name that is cut out of the label of who checked the item off. -/
def markedBy (cell : GroupGroceryListCell) : Option String := sliceToEnd cell.markedByLbl 16

/-- The actions of a row, in the order they are appended; `none` is an abort. -/
def editActionsForRowAt (currentUser : String) (groupMembersArray : List String)
    (cell : GroupGroceryListCell) : Option (List RowAction) := do
  let addedBy ← addedBy cell
  let markedBy ← markedBy cell
  some (
    (if markedBy ∉ groupMembersArray ∧ cell.markedByLbl ≠ "Checked off by: - -" then
      (if ¬ containsText cell.markedByLbl currentUser then [RowAction.uncheck] else []) else []) ++
    (if addedBy ∉ groupMembersArray then
      (if ¬ containsText cell.addedByLbl currentUser then [.delete] else []) else []) ++
    (if containsText cell.addedByLbl currentUser then [.delete] else []) ++
    (if containsText cell.markedByLbl currentUser then [.uncheck] else []) ++
    (if cell.checkmarkIsHidden then [.checkOff] else []))

end GroupGroceryListVC

/-- What the screens accept as a username. -/
def IsUsername (name : String) : Prop :=
  5 ≤ name.toList.length ∧ name.toList.length ≤ 17 ∧ ' ' ∉ name.toList

instance (name : String) : Decidable (IsUsername name) :=
  inferInstanceAs (Decidable (_ ∧ _ ∧ _))

/-- A row as the screens write it: the names are usernames, and nobody is named as having checked off
an item that is not checked. -/
structure WellRecorded (row : GroupList) : Prop where
  addedBy : IsUsername row.addedBy
  unmarked : row.markedOffBy = "- -" ↔ row.isSelected = false
  markedOffBy : row.isSelected = true → IsUsername row.markedOffBy

/-- What a member may do with a row. -/
def Permitted (user : String) (members : List String) (row : GroupList) : RowAction → Prop
  | .delete => row.addedBy = user ∨ row.addedBy ∉ members
  | .uncheck => row.isSelected = true ∧ (row.markedOffBy = user ∨ row.markedOffBy ∉ members)
  | .checkOff => row.isSelected = false

/-- The row offers exactly what is permitted, each action once. -/
def FollowsRule (user : String) (members : List String) (row : GroupList) : Prop :=
  ∃ actions, GroupGroceryListVC.editActionsForRowAt user members (configureCell row) = some actions ∧
    actions.Nodup ∧ ∀ action, action ∈ actions ↔ Permitted user members row action

/-- The name of the viewer occurs neither in the name of another member that the row shows, nor in
the words of the labels where these would be taken for it. -/
def NotMistaken (user : String) (members : List String) (row : GroupList) : Prop :=
  (row.addedBy ∈ members → row.addedBy ≠ user →
    user ≠ "Added" ∧ containsText row.addedBy user = false) ∧
  (row.isSelected = true → row.markedOffBy ∈ members → row.markedOffBy ≠ user →
    containsText "Checked" user = false ∧ containsText row.markedOffBy user = false) ∧
  (row.isSelected = false → containsText "Checked" user = false)

instance (user : String) (members : List String) (row : GroupList) :
    Decidable (NotMistaken user members row) := inferInstanceAs (Decidable (_ ∧ _ ∧ _))

/-! ### The labels -/

/-- A label is cut behind its fixed text. -/
theorem addedBy_configureCell (row : GroupList) :
    GroupGroceryListVC.addedBy (configureCell row) =
      if row.addedBy = "" then none else some row.addedBy :=
  sliceToEnd_append "Added by: " row.addedBy

/-- What is sliced off the label of a row is the marker, when there is one. -/
theorem markedBy_configureCell (row : GroupList) :
    GroupGroceryListVC.markedBy (configureCell row) =
      if row.markedOffBy = "" then none else some row.markedOffBy :=
  sliceToEnd_append "Checked off by: " row.markedOffBy

/-- No username is empty. -/
theorem IsUsername.ne_empty {name : String} (h : IsUsername name) : name ≠ "" := by
  rintro rfl
  exact absurd h.1 (by decide)

/-- The label of who added an item contains a username that is `Added`, or that the name contains. -/
theorem containsText_addedByLbl {user : String} (huser : IsUsername user) (row : GroupList) :
    containsText (configureCell row).addedByLbl user =
      (user = "Added" || containsText row.addedBy user) := by
  have hlabel : (configureCell row).addedByLbl = "Added" ++ " " ++ ("by:" ++ " " ++ row.addedBy) := by
    rw [configureCell, ← String.toList_inj]
    simp
  have hby : containsText "by:" user = false := containsText_of_length_lt (by
    have := huser.1
    simp
    omega)
  have hadded : containsText "Added" user = decide (user = "Added") := by
    rw [Bool.eq_iff_iff, decide_eq_true_eq]
    constructor
    · intro h
      obtain ⟨-, hwithin⟩ := of_decide_eq_true h
      have hlength : "Added".toList.length ≤ user.toList.length := huser.1
      exact String.toList_inj.mp (hwithin.eq_of_length_le hlength)
    · rintro rfl
      decide
  rw [hlabel, containsText_append_space huser.2.2, containsText_append_space huser.2.2, hby, hadded,
    Bool.false_or]

/-- The label of who checked an item off contains a username that `Checked` or the name contains. -/
theorem containsText_markedByLbl {user : String} (huser : IsUsername user) (row : GroupList) :
    containsText (configureCell row).markedByLbl user =
      (containsText "Checked" user || containsText row.markedOffBy user) := by
  have hlabel : (configureCell row).markedByLbl =
      "Checked" ++ " " ++ ("off" ++ " " ++ ("by:" ++ " " ++ row.markedOffBy)) := by
    rw [configureCell, ← String.toList_inj]
    simp
  have hshort (text : String) (htext : text.toList.length < 5) : containsText text user = false :=
    containsText_of_length_lt (htext.trans_le huser.1)
  rw [hlabel, containsText_append_space huser.2.2, containsText_append_space huser.2.2,
    containsText_append_space huser.2.2, hshort "off" (by decide), hshort "by:" (by decide),
    Bool.false_or, Bool.false_or]

/-! ### The actions -/

section

variable {user : String} {members : List String} {row : GroupList}

/-- Nobody is shown as having checked off the item exactly when it is not checked. -/
theorem markedByLbl_eq_iff (row : GroupList) :
    (configureCell row).markedByLbl = "Checked off by: - -" ↔ row.markedOffBy = "- -" := by
  have htext : "Checked off by: - -" = "Checked off by: " ++ "- -" := by decide
  rw [configureCell, htext]
  constructor
  · intro h
    simpa [← String.toList_inj] using congrArg String.toList h
  · intro h
    rw [h]

/-- A well recorded row never aborts, whoever views it. -/
theorem editActionsForRowAt_eq (user : String) (members : List String) (hrow : WellRecorded row) :
    GroupGroceryListVC.editActionsForRowAt user members (configureCell row) = some (
      (if row.markedOffBy ∉ members ∧ row.markedOffBy ≠ "- -" then
        (if ¬ containsText (configureCell row).markedByLbl user then [RowAction.uncheck] else []) else []) ++
      (if row.addedBy ∉ members then
        (if ¬ containsText (configureCell row).addedByLbl user then [.delete] else []) else []) ++
      (if containsText (configureCell row).addedByLbl user then [.delete] else []) ++
      (if containsText (configureCell row).markedByLbl user then [.uncheck] else []) ++
      (if row.isSelected = false then [.checkOff] else [])) := by
  have hmarked : row.markedOffBy ≠ "" := by
    intro hempty
    cases hselected : row.isSelected with
    | false => exact absurd (hempty.symm.trans (hrow.unmarked.mpr hselected)) (by decide)
    | true => exact (hrow.markedOffBy hselected).ne_empty hempty
  have hhidden : (configureCell row).checkmarkIsHidden = true ↔ row.isSelected = false := by
    simp [configureCell]
  simp only [GroupGroceryListVC.editActionsForRowAt, addedBy_configureCell, markedBy_configureCell,
    if_neg hrow.addedBy.ne_empty, if_neg hmarked, Option.bind_eq_bind, Option.bind_some,
    ne_eq, markedByLbl_eq_iff, hhidden]

/-- The row follows the rule when the labels tell the viewer apart from the others that it shows. -/
theorem followsRule_iff_labels (hrow : WellRecorded row) : FollowsRule user members row ↔
    (row.addedBy ∉ members ∨ containsText (configureCell row).addedByLbl user = true ↔
      Permitted user members row .delete) ∧
    (row.markedOffBy ∉ members ∧ row.markedOffBy ≠ "- -" ∨
      containsText (configureCell row).markedByLbl user = true ↔ Permitted user members row .uncheck) := by
  rw [FollowsRule, editActionsForRowAt_eq user members hrow]
  constructor
  · rintro ⟨actions, hactions, -, hpermitted⟩
    rw [Option.some.injEq] at hactions
    subst hactions
    constructor
    · rw [← hpermitted]
      by_cases hmember : row.addedBy ∈ members <;>
        by_cases hlabel : containsText (configureCell row).addedByLbl user <;> simp [hmember, hlabel]
    · rw [← hpermitted]
      by_cases hmarked : row.markedOffBy ∉ members ∧ row.markedOffBy ≠ "- -" <;>
        by_cases hlabel : containsText (configureCell row).markedByLbl user <;> simp [hmarked, hlabel]
  · rintro ⟨hdelete, huncheck⟩
    refine ⟨_, rfl, ?_, fun action => ?_⟩
    · split_ifs <;> simp_all
    · cases action with
      | delete =>
        rw [← hdelete]
        by_cases hmember : row.addedBy ∈ members <;>
          by_cases hlabel : containsText (configureCell row).addedByLbl user <;> simp [hmember, hlabel]
      | uncheck =>
        rw [← huncheck]
        by_cases hmarked : row.markedOffBy ∉ members ∧ row.markedOffBy ≠ "- -" <;>
          by_cases hlabel : containsText (configureCell row).markedByLbl user <;> simp [hmarked, hlabel]
      | checkOff => simp [Permitted]

/-- For a name that the row shows, searching the label is right when no other member's is found. -/
theorem shown_iff (members : List String) (name : String) (mistaken : Prop) {found : Prop} (hself : name = user → found) :
    (name ∉ members ∨ mistaken ∨ found ↔ name = user ∨ name ∉ members) ↔
      (name ∈ members → name ≠ user → ¬ mistaken ∧ ¬ found) := by
  constructor
  · intro h hmember hne
    have hnone : ¬ (name ∉ members ∨ mistaken ∨ found) := by
      rw [h]
      tauto
    tauto
  · intro h
    constructor
    · intro hoffered
      by_contra hnone
      have hright := h (by tauto) (by tauto)
      tauto
    · rintro (hsame | hmember)
      · exact Or.inr (Or.inr (hself hsame))
      · exact Or.inl hmember

end

end GroceryListApp

import Mathlib.Tactic.Common

/-!
# The checks of names on the screens

Six screens accept a name that the user typed: two a username, three an item and one the
title of a list. Each runs its own chain of checks and shows a warning when one of them
fails. The number of characters of a string depends on how Swift groups code points into
characters, so it is an argument.

`usernameAvailable` and `itemAvailable` are one loop, written out in five screens. It
unwraps an optional at its end.
-/

namespace GroceryListApp

/-- What pressing the button of a screen leads to. -/
inductive Press where
  | accepted
  | warning (text : String)
  | trap
  deriving DecidableEq

/-- The loop over the known names, with the variable `available`. -/
def availableLoop (name : String) : List String → Option Bool → Option Bool
  | [], available => available
  | known :: rest, _ => if known = name then some false else availableLoop name rest (some true)

/-- The availability of a name; `none` is the failed unwrapping of `available!`. -/
def nameAvailable (names : List String) (name : String) : Option Bool :=
  if names.length ≥ 1 then availableLoop name names none else some true

/-- After some rounds the loop has not met the name so far. -/
theorem availableLoop_some (name : String) (names : List String) :
    availableLoop name names (some true) = some (decide (name ∉ names)) := by
  induction names with
  | nil => simp [availableLoop]
  | cons known rest ih =>
    rw [availableLoop, ih]
    by_cases h : known = name
    · simp [h]
    · simp [h, Ne.symm h]

/-- A name is available when it is not among the known names, and the check never traps. -/
theorem nameAvailable_eq (names : List String) (name : String) :
    nameAvailable names name = some (decide (name ∉ names)) := by
  cases names with
  | nil => rfl
  | cons known rest =>
    rw [← availableLoop_some name (known :: rest)]
    simp [nameAvailable, availableLoop]

/-- Go on when a name is available, and warn when it is not. -/
def Press.ifAvailable (available : Option Bool) (next : Press) (text : String) : Press :=
  match available with
  | some true => next
  | some false => .warning text
  | none => .trap

namespace CreateAccountVC

/-- `usernameAvailable`. -/
def usernameAvailable (usernameArray : List String) (username : String) : Option Bool :=
  nameAvailable usernameArray username

/-- `signUpBtnWasPressed`; an accepted press calls `registerUser`. -/
def signUpBtnWasPressed (count : String → ℕ) (usernameArray : List String)
    (username email password confirmPassword : String) : Press :=
  if username ≠ "" ∧ username ≠ "USERNAME" ∧ email ≠ "" then
    if 5 ≤ count username ∧ count username ≤ 17 then
      if ' ' ∉ username.toList then
        .ifAvailable (usernameAvailable usernameArray username)
          (if password = confirmPassword then .accepted else .warning "Passwords do not match.")
          "An account with that username already exists."
      else .warning "Username must not contain a space."
    else .warning "Username must be between 5 and 17 characters."
  else .warning "Please fill in all forms above."

end CreateAccountVC

namespace MeVC

/-- `usernameAvailable`. -/
def usernameAvailable (usernamesArray : List String) (username : String) : Option Bool :=
  nameAvailable usernamesArray username

/-- `changeUsernameBtnWasPressed`; an accepted press asks for a confirmation. -/
def changeUsernameBtnWasPressed (count : String → ℕ) (usernamesArray : List String)
    (profileName newUsername : String) : Press :=
  if newUsername ≠ "" ∧ newUsername ≠ "new username" then
    if newUsername ≠ profileName then
      if 5 ≤ count newUsername ∧ count newUsername ≤ 17 then
        if ' ' ∉ newUsername.toList then
          .ifAvailable (usernameAvailable usernamesArray newUsername) .accepted
            "An account with that username already exists."
        else .warning "New username must not contain a space."
      else .warning "Username must be between 5 and 17 characters."
    else .warning "New username is the same as current username. Please try again."
  else .warning "Please fill in the form above."

end MeVC

/-- The chain of checks the three item screens share, each with its own last warning. -/
def addItemPress (groceryItems : List String) (item taken : String) : Press :=
  if item ≠ "" ∧ item ≠ "ITEM" then
    if '.' ∉ item.toList then .ifAvailable (nameAvailable groceryItems item) .accepted taken
    else .warning "Item name cannot contain '.'"
  else .warning "Please fill in the form above."

/-- `sendBtnWasPressed` of `CreateItemVC`. -/
def CreateItemVC.sendBtnWasPressed (groceryItems : List String) (item : String) : Press :=
  addItemPress groceryItems item "You already have that item on your list."

/-- `addBtnWasPressed` of `AddGroupItemVC`. -/
def AddGroupItemVC.addBtnWasPressed (groceryItems : List String) (item : String) : Press :=
  addItemPress groceryItems item "That item is already on the list."

/-- `addItemBtnWasPressed` of `AddPersonalItemVC`. -/
def AddPersonalItemVC.addItemBtnWasPressed (groceryItems : List String) (item : String) : Press :=
  addItemPress groceryItems item "That item is already on the list."

/-- `createListBtnWasPressed` of `CreatePersonalListVC`; `reloadLists` is empty in the source. -/
def CreatePersonalListVC.createListBtnWasPressed (listName : String) : Press :=
  if listName ≠ "" ∧ listName ≠ "LIST NAME" then
    if '.' ∉ listName.toList then .accepted else .warning "List name cannot contain '.'"
  else .warning "Please fill in the form above."

/-- The kinds of names that are typed by the user. -/
inductive NameKind where
  | username
  | item
  | title
  deriving DecidableEq

/-- A screen accepts a name of a kind, whatever it has loaded and whatever the other fields hold. -/
def Accepted (count : String → ℕ) (name : String) : NameKind → Prop
  | .username =>
      (∃ names email password confirmPassword, CreateAccountVC.signUpBtnWasPressed count names name
        email password confirmPassword = .accepted) ∨
      ∃ names profileName, MeVC.changeUsernameBtnWasPressed count names profileName name = .accepted
  | .item => ∃ names, CreateItemVC.sendBtnWasPressed names name = .accepted ∨
      AddGroupItemVC.addBtnWasPressed names name = .accepted ∨
      AddPersonalItemVC.addItemBtnWasPressed names name = .accepted
  | .title => CreatePersonalListVC.createListBtnWasPressed name = .accepted

/-- No accepted name is empty. -/
theorem Accepted.ne_empty {count : String → ℕ} {name : String} {kind : NameKind}
    (h : Accepted count name kind) : name ≠ "" := by
  rintro rfl
  cases kind with
  | username =>
    rcases h with ⟨names, email, password, confirmPassword, h⟩ | ⟨names, profileName, h⟩
    · simp [CreateAccountVC.signUpBtnWasPressed] at h
    · simp [MeVC.changeUsernameBtnWasPressed] at h
  | item =>
    obtain ⟨names, h⟩ := h
    simp [CreateItemVC.sendBtnWasPressed, AddGroupItemVC.addBtnWasPressed,
      AddPersonalItemVC.addItemBtnWasPressed, addItemPress] at h
  | title => simp [Accepted, CreatePersonalListVC.createListBtnWasPressed] at h

/-- An accepted username has 5 to 17 characters and no space. -/
theorem Accepted.username {count : String → ℕ} {name : String} (h : Accepted count name .username) :
    5 ≤ count name ∧ count name ≤ 17 ∧ ' ' ∉ name.toList := by
  rcases h with ⟨names, email, password, confirmPassword, h⟩ | ⟨names, profileName, h⟩
  · unfold CreateAccountVC.signUpBtnWasPressed at h
    grind
  · unfold MeVC.changeUsernameBtnWasPressed at h
    grind

end GroceryListApp

import GroceryListApp.Controller.GroupCalls
import GroceryListApp.Controller.NameChecks
import GroceryListApp.Realtime.Story
import GroceryListApp.Services.DataServiceRules

/-!
# The screens that add an item

Three screens add an item to a list: to the user's own list, to a personal list and to the list of a
group. A press first asks for the names on the list again and then checks the new name against the names
that an earlier read has delivered. The check and the write of the item are separate steps of a schedule,
between which others write. An item that has been stored since the names were read is overwritten, and
its check mark is lost.
-/

namespace GroceryListApp

open Realtime

/-- The list that an add screen is open for: the user's own one, a personal one or that of a group. -/
inductive AddScreen where
  | createItem (uid : Key)
  | addPersonalItem (uid listName : Key)
  | addGroupItem (group : Key)
  deriving DecidableEq

/-- Where the items of the list are. -/
def AddScreen.items : AddScreen → Path
  | .createItem uid => [Keys.users, uid, Keys.groceryList]
  | .addPersonalItem uid listName => [Keys.users, uid, Keys.lists, listName, Keys.items]
  | .addGroupItem group => [Keys.groups, group, Keys.groceryList]

/-- The handler by which all three screens keep the names they are handed, in their `groceryItems`. -/
def keepItems {M : Type*} (groceryItems : Var M (List String)) (returnedItems : List String) :
    Prog M Value :=
  .modify (groceryItems.set returnedItems) .done

section

variable {M : Type*} (groceryItems : Var M (List String))

/-- `reloadGroceryItems` of the own list. -/
def CreateItemVC.reloadGroceryItems (uid : Key) : Prog M Value :=
  userListItems uid.1 (keepItems groceryItems)

/-- `reloadPersonalListItems` of a personal list. -/
def AddPersonalItemVC.reloadPersonalListItems (uid listName : Key) : Prog M Value :=
  listItems uid.1 listName.1 (keepItems groceryItems)

/-- `reloadGroceryItems` of a group. -/
def AddGroupItemVC.reloadGroceryItems (group : Key) : Prog M Value :=
  groupGroceryListItems group.1 (keepItems groceryItems)

/-- The press of the button, as the three screens write it out: two checks of the text, the reload, and
the check of the name against the names that the screen has. -/
def addItemAction (reload upload : Prog M Value) (item : String) : Prog M Value :=
  if item ≠ "" ∧ item ≠ "ITEM" then
    if '.' ∉ item.toList then
      .block [
        reload,
        .inspect fun m =>
          .force (nameAvailable (groceryItems.get m) item) fun available =>
            if available then upload else .done]
    else .done
  else .done

/-- `sendBtnWasPressed`. -/
def CreateItemVC.sendBtnAction (uid : Key) (item description : String) : Prog M Value :=
  addItemAction groceryItems (reloadGroceryItems groceryItems uid)
    (uploadItem item description uid.1 fun _ => .done) item

/-- `addItemBtnWasPressed`. -/
def AddPersonalItemVC.addItemBtnAction (uid listName : Key) (item description : String) : Prog M Value :=
  addItemAction groceryItems (reloadPersonalListItems groceryItems uid listName)
    (createPersonalItem uid.1 listName.1 item description fun isComplete =>
      if isComplete then increasePersonalListCount uid.1 listName.1 else .done) item

/-- `addBtnWasPressed`. -/
def AddGroupItemVC.addBtnAction (group : Key) (item description currentUser : String) : Prog M Value :=
  addItemAction groceryItems (reloadGroceryItems groceryItems group)
    (createGroupItem group.1 item description currentUser fun isComplete =>
      if isComplete then increaseListCount group.1 else .done) item

end

/-- The variable `groceryItems` of a screen. -/
def groceryItems (screen : ℕ) : Var (ℕ → List String) (List String) where
  get m := m screen
  set names m := Function.update m screen names

/-- The events on the add screens, each with a number, and the writes of other clients. A press carries
the texts of the fields and the name of the user as the screen has it. -/
inductive AddCall where
  | appears (screen : ℕ)
  | press (screen : ℕ) (item : Key) (description currentUser : String)
  | change (w : Write Value)

/-- The program of an event, on screens that are open for the given lists. -/
def AddCall.code (screens : ℕ → AddScreen) : AddCall → Prog (ℕ → List String) Value
  | .appears screen => match screens screen with
    | .createItem uid => CreateItemVC.reloadGroceryItems (groceryItems screen) uid
    | .addPersonalItem uid listName =>
      AddPersonalItemVC.reloadPersonalListItems (groceryItems screen) uid listName
    | .addGroupItem group => AddGroupItemVC.reloadGroceryItems (groceryItems screen) group
  | .press screen item description currentUser => match screens screen with
    | .createItem uid => CreateItemVC.sendBtnAction (groceryItems screen) uid item.1 description
    | .addPersonalItem uid listName =>
      AddPersonalItemVC.addItemBtnAction (groceryItems screen) uid listName item.1 description
    | .addGroupItem group =>
      AddGroupItemVC.addBtnAction (groceryItems screen) group item.1 description currentUser
  | .change w => .write w .done

/-- The database and everything that is pending, with the names that the screens have. -/
abbrev AddSys := Sys AddCall (ℕ → List String) Value

/-- The list and the item that an accepted press is about to write. -/
def pendingAdd (screens : ℕ → AddScreen) : AddCall × Body (ℕ → List String) Value → Option (AddScreen × Key)
  | (.press screen item _ _, .run (.write w _)) =>
    if w.location = (screens screen).items ++ [item] then some (screens screen, item) else none
  | _ => none

/-- An item is stored on a list. -/
def ItemStored (db : Store Value) (target : AddScreen × Key) : Prop :=
  target.2 ∈ db.children target.1.items

instance (db : Store Value) (target : AddScreen × Key) : Decidable (ItemStored db target) :=
  inferInstanceAs (Decidable (_ ∈ _))

/-- When the check of a press runs, the screen knows the name if the item is stored. -/
def ChecksCurrentNames (screens : ℕ → AddScreen) (s : AddSys) : Act AddCall → Prop
  | .spawn _ => True
  | .run i => match s.pool[i]? with
    | some (.press screen item _ _, .run (.inspect _)) =>
      ItemStored s.db (screens screen, item) → item.1 ∈ (groceryItems screen).get s.mem
    | _ => True

/-- No write stores an item that another press has been accepted for and is about to write. -/
def LeavesPendingAdds (screens : ℕ → AddScreen) (s : AddSys) : Act AddCall → Prop
  | .spawn _ => True
  | .run i => match s.pool[i]? with
    | some (_, .run (.write w _)) =>
      ∀ target ∈ (s.pool.eraseIdx i).filterMap (pendingAdd screens),
        ItemStored (w.apply s.db) target → ItemStored s.db target
    | _ => True

/-- A step that checks current names and leaves accepted adds alone. -/
def AddStep (screens : ℕ → AddScreen) (s : AddSys) (a : Act AddCall) : Prop :=
  ChecksCurrentNames screens s a ∧ LeavesPendingAdds screens s a

instance (screens : ℕ → AddScreen) (s : AddSys) (a : Act AddCall) :
    Decidable (ChecksCurrentNames screens s a) := by
  unfold ChecksCurrentNames
  split
  · infer_instance
  · split <;> infer_instance

instance (screens : ℕ → AddScreen) (s : AddSys) (a : Act AddCall) :
    Decidable (LeavesPendingAdds screens s a) := by
  unfold LeavesPendingAdds
  split
  · infer_instance
  · split <;> infer_instance

instance (screens : ℕ → AddScreen) (s : AddSys) (a : Act AddCall) : Decidable (AddStep screens s a) :=
  inferInstanceAs (Decidable (_ ∧ _))

/-- The write of an accepted add changes no field of an item that is stored. -/
def OnlyInserts (screens : ℕ → AddScreen) (s : AddSys) : Prop :=
  ∀ task ∈ s.pool, (pendingAdd screens task).isSome → ∀ w next, task.2 = .run (.write w next) →
    ∀ target, ItemStored s.db target → ∀ field,
      (w.apply s.db).get (target.1.items ++ [target.2, field]) =
        s.db.get (target.1.items ++ [target.2, field])

/-! ### The lists -/

/-- Items of different lists lie apart. -/
theorem AddScreen.apart_items {list list' : AddScreen} (h : list ≠ list') :
    Apart list.items list'.items := by
  have hlists : Keys.groceryList ≠ Keys.lists := by decide
  have hroots : Keys.users ≠ Keys.groups := by decide
  cases list with
  | createItem uid =>
    cases list' with
    | createItem uid' =>
      rw [items, items, apart_cons]
      exact apart_of_ne (fun hsame => h (congrArg createItem hsame)) _ _
    | addPersonalItem uid' listName => exact apart_field _ _ _ hlists _ _
    | addGroupItem group => exact apart_of_ne hroots _ _
  | addPersonalItem uid listName =>
    cases list' with
    | createItem uid' => exact apart_field _ _ _ hlists.symm _ _
    | addPersonalItem uid' listName' =>
      rw [items, items, apart_cons]
      by_cases huid : uid = uid'
      · rw [huid, apart_cons, apart_cons]
        exact apart_of_ne (fun hsame => h (by rw [huid, hsame])) _ _
      · exact apart_of_ne huid _ _
    | addGroupItem group => exact apart_of_ne hroots _ _
  | addGroupItem group =>
    cases list' with
    | createItem uid => exact apart_of_ne hroots.symm _ _
    | addPersonalItem uid listName => exact apart_of_ne hroots.symm _ _
    | addGroupItem group' =>
      rw [items, items, apart_cons]
      exact apart_of_ne (fun hsame => h (congrArg addGroupItem hsame)) _ _

/-- Different items lie apart. -/
theorem AddScreen.apart_item {target target' : AddScreen × Key} (h : target ≠ target') (q : Path) :
    Apart (target.1.items ++ [target.2]) (target'.1.items ++ target'.2 :: q) := by
  by_cases hlist : target.1 = target'.1
  · have hitem : target.2 ≠ target'.2 := fun hsame => h (Prod.ext hlist hsame)
    rw [hlist, apart_append_left]
    exact apart_of_ne hitem _ _
  · exact ((apart_items hlist).append_left _).symm.append_left _ |>.symm

/-! ### The programs -/

/-- The write of an accepted press. Only the items of a group record who added them. -/
def AddScreen.insertion (list : AddScreen) (item : Key) (description currentUser : String) :
    Write Value :=
  .update (list.items ++ [item]) (match list with
    | .addGroupItem _ => [([Keys.description], str description), ([Keys.addedBy], str currentUser),
        ([Keys.markedOffBy], str "- -"), ([Keys.isSelected], bool false)]
    | _ => [([Keys.description], str description), ([Keys.isSelected], bool false)])

/-- No write of the program is addressed to the item. -/
def AddScreen.Spares (list : AddScreen) (item : Key) (p : Prog (ℕ → List String) Value) : Prop :=
  (Contract.issues fun (_ : Unit) w => w.location ≠ list.items ++ [item]).Holds () p

/-- A press checks the name where its reload is registered, and then writes the item. -/
theorem addItemAction_eq {M : Type*} (groceryItems : Var M (List String)) {p : Path} {w : Write Value}
    {next : Prog M Value} {callback : Snapshot Value → Prog M Value} (item : String) :
    addItemAction groceryItems (.observe p callback .done) (.write w next) item = .done ∨
      addItemAction groceryItems (.observe p callback .done) (.write w next) item =
        .observe p callback (.inspect fun m =>
          if item ∈ groceryItems.get m then .done else .write w next) := by
  have hcheck : (fun m => Prog.force (nameAvailable (groceryItems.get m) item)
      fun available => if available then Prog.write w next else .done) =
      fun m => if item ∈ groceryItems.get m then .done else .write w next := by
    funext m
    rw [nameAvailable_eq, Prog.force_some]
    by_cases hitem : item ∈ groceryItems.get m <;> simp [hitem]
  unfold addItemAction
  split
  · split
    · right
      rw [hcheck]
      simp
    · exact Or.inl rfl
  · exact Or.inl rfl

/-- Adjusting a counter beside a list does not address an item. -/
theorem AddScreen.spares_adjustCount {list : AddScreen} {p : Path} {field : String} (key : Key)
    (hfield : parsePath field = some [key]) (hp : p <+: list.items) (delta : ℤ) (item : Key) :
    list.Spares item (adjustCount (some p) field delta) := by
  have hlocation : p ≠ list.items ++ [item] := by
    rintro rfl
    have hlength := hp.length_le
    simp at hlength
  apply holds_adjustCount hfield
  · exact fun _ _ => Or.inr trivial
  · exact fun _ _ _ _ _ => Contract.permits_issues_iff.mpr hlocation

/-- The program of a press on an add screen. -/
theorem code_press (screens : ℕ → AddScreen) (screen : ℕ) (item : Key) (description currentUser : String) :
    AddCall.code screens (.press screen item description currentUser) = .done ∨
      ∃ next, (screens screen).Spares item next ∧
        AddCall.code screens (.press screen item description currentUser) =
          .observe (screens screen).items (fun snapshot => keepItems (groceryItems screen) (childKeys snapshot))
            (.inspect fun m => if item.1 ∈ m screen then .done
              else .write ((screens screen).insertion item description currentUser) next) := by
  simp only [AddCall.code]
  cases screens screen with
  | createItem uid =>
    have hreload : CreateItemVC.reloadGroceryItems (groceryItems screen) uid =
        .observe (AddScreen.createItem uid).items
          (fun snapshot => keepItems (groceryItems screen) (childKeys snapshot)) .done := by
      simp [CreateItemVC.reloadGroceryItems, userListItems, REF_USERS, Ref.child,
        Ref.observeSingleEvent, AddScreen.items]
    have hupload : (uploadItem item.1 description uid.1 fun _ => .done) =
        .write ((AddScreen.createItem uid).insertion item description currentUser)
          (.done : Prog (ℕ → List String) Value) := by
      simp [uploadItem, REF_USERS, Ref.child, Ref.updateChildValues, AddScreen.insertion,
        AddScreen.items]
    simp only [CreateItemVC.sendBtnAction]
    rw [hreload, hupload]
    exact (addItemAction_eq (groceryItems screen) item.1).imp id fun h => ⟨.done, trivial, h⟩
  | addPersonalItem uid listName =>
    have hreload : AddPersonalItemVC.reloadPersonalListItems (groceryItems screen) uid listName =
        .observe (AddScreen.addPersonalItem uid listName).items
          (fun snapshot => keepItems (groceryItems screen) (childKeys snapshot)) .done := by
      simp [AddPersonalItemVC.reloadPersonalListItems, listItems, REF_USERS, Ref.child,
        Ref.observeSingleEvent, AddScreen.items]
    have hupload : (createPersonalItem uid.1 listName.1 item.1 description fun isComplete =>
        if isComplete then increasePersonalListCount uid.1 listName.1 else .done) =
        .write ((AddScreen.addPersonalItem uid listName).insertion item description currentUser)
          (increasePersonalListCount uid.1 listName.1 : Prog (ℕ → List String) Value) := by
      simp [createPersonalItem, REF_USERS, Ref.child, Ref.updateChildValues, AddScreen.insertion,
        AddScreen.items]
    have hcount : (AddScreen.addPersonalItem uid listName).Spares item
        (increasePersonalListCount uid.1 listName.1) := by
      have href : ((REF_USERS.child uid.1).child "lists").child listName.1 =
          some [Keys.users, uid, Keys.lists, listName] := by
        simp [REF_USERS, Ref.child]
      rw [increasePersonalListCount, href]
      exact AddScreen.spares_adjustCount Keys.listCount (by simp) (List.prefix_append _ [Keys.items]) 1 item
    simp only [AddPersonalItemVC.addItemBtnAction]
    rw [hreload, hupload]
    exact (addItemAction_eq (groceryItems screen) item.1).imp id fun h => ⟨_, hcount, h⟩
  | addGroupItem group =>
    have hreload : AddGroupItemVC.reloadGroceryItems (groceryItems screen) group =
        .observe (AddScreen.addGroupItem group).items
          (fun snapshot => keepItems (groceryItems screen) (childKeys snapshot)) .done := by
      simp [AddGroupItemVC.reloadGroceryItems, groupGroceryListItems, REF_GROUPS, Ref.child,
        Ref.observeSingleEvent, AddScreen.items]
    have hupload : (createGroupItem group.1 item.1 description currentUser fun isComplete =>
        if isComplete then increaseListCount group.1 else .done) =
        .write ((AddScreen.addGroupItem group).insertion item description currentUser)
          (increaseListCount group.1 : Prog (ℕ → List String) Value) := by
      rw [createGroupItem_eq, parsePath_key]
      rfl
    have hcount : (AddScreen.addGroupItem group).Spares item (increaseListCount group.1) := by
      have href : REF_GROUPS.child group.1 = some [Keys.groups, group] := by simp [REF_GROUPS]
      rw [increaseListCount, href]
      exact AddScreen.spares_adjustCount Keys.groupListCount (by simp)
        (List.prefix_append _ [Keys.groceryList]) 1 item
    simp only [AddGroupItemVC.addBtnAction]
    rw [hreload, hupload]
    exact (addItemAction_eq (groceryItems screen) item.1).imp id fun h => ⟨_, hcount, h⟩

/-! ### The stages of a press -/

/-- What a press has yet to do: the reload, the check, the write of an item that is not stored, or nothing
that is addressed to the item. -/
inductive PressStage (list : AddScreen) (screen : ℕ) (item : Key) (description currentUser : String)
    (db : Store Value) : Body (ℕ → List String) Value → Prop
  | asks {next : Prog (ℕ → List String) Value} (hnext : list.Spares item next) :
      PressStage list screen item description currentUser db
        (.run (.observe list.items (fun snapshot => keepItems (groceryItems screen) (childKeys snapshot))
          (.inspect fun m => if item.1 ∈ m screen then .done
            else .write (list.insertion item description currentUser) next)))
  | checks {next : Prog (ℕ → List String) Value} (hnext : list.Spares item next) :
      PressStage list screen item description currentUser db
        (.run (.inspect fun m => if item.1 ∈ m screen then .done
          else .write (list.insertion item description currentUser) next))
  | writes {next : Prog (ℕ → List String) Value} (hnext : list.Spares item next)
      (habsent : ¬ ItemStored db (list, item)) :
      PressStage list screen item description currentUser db
        (.run (.write (list.insertion item description currentUser) next))
  | spares {body : Body (ℕ → List String) Value}
      (hbody : (Contract.issues fun (_ : Unit) w => w.location ≠ list.items ++ [item]).HoldsBody () body) :
      PressStage list screen item description currentUser db body

namespace PressStage

variable {list : AddScreen} {screen : ℕ} {item : Key} {description currentUser : String}
  {db db' : Store Value} {body : Body (ℕ → List String) Value}

/-- A stage lasts while others do not store the item. -/
theorem of_notStored (h : PressStage list screen item description currentUser db body)
    (hkeeps : ∀ w next, body = .run (.write w next) → w.location = list.items ++ [item] →
      ItemStored db' (list, item) → ItemStored db (list, item)) :
    PressStage list screen item description currentUser db' body := by
  cases h with
  | asks hnext => exact .asks hnext
  | checks hnext => exact .checks hnext
  | writes hnext habsent => exact .writes hnext fun hstored => habsent (hkeeps _ _ rfl rfl hstored)
  | spares hbody => exact .spares hbody

/-- A step leads on to the next stage when a check knows the item if it is stored. -/
theorem rest {mem mem' : ℕ → List String} {rest : List (Body (ℕ → List String) Value)}
    (h : PressStage list screen item description currentUser db body)
    (hcheck : ∀ next, body = .run (.inspect next) → ItemStored db (list, item) → item.1 ∈ mem screen)
    (hstep : body.step db mem = some (db', mem', rest)) :
    ∀ b ∈ rest, PressStage list screen item description currentUser db' b := by
  cases h with
  | @asks next hnext =>
    simp only [Body.step, Option.some.injEq, Prod.mk.injEq] at hstep
    obtain ⟨rfl, rfl, rfl⟩ := hstep
    intro b hb
    simp only [List.mem_cons, List.not_mem_nil, or_false] at hb
    rcases hb with rfl | rfl
    · exact .checks hnext
    · exact .spares fun _ _ => trivial
  | @checks next hnext =>
    simp only [Body.step, Option.some.injEq, Prod.mk.injEq] at hstep
    obtain ⟨rfl, rfl, rfl⟩ := hstep
    intro b hb
    rw [List.mem_singleton.mp hb]
    by_cases hknown : item.1 ∈ mem screen
    · rw [if_pos hknown]
      exact .spares trivial
    · rw [if_neg hknown]
      exact .writes hnext fun hstored => hknown (hcheck _ rfl hstored)
  | @writes next hnext _ =>
    simp only [Body.step, Option.some.injEq, Prod.mk.injEq] at hstep
    obtain ⟨rfl, rfl, rfl⟩ := hstep
    intro b hb
    rw [List.mem_singleton.mp hb]
    exact .spares hnext
  | spares hbody =>
    intro b hb
    exact .spares (hbody.rest trivial hstep b hb)

end PressStage

/-- Every pending part of a press is in a stage. -/
def InStages (screens : ℕ → AddScreen) (s : AddSys) : Prop :=
  ∀ screen item description currentUser body, (.press screen item description currentUser, body) ∈ s.pool →
    PressStage (screens screen) screen item description currentUser s.db body

namespace InStages

variable {screens : ℕ → AddScreen} {s s' : AddSys}

/-- The program of a press begins in a stage. -/
theorem code (screens : ℕ → AddScreen) (screen : ℕ) (item : Key) (description currentUser : String)
    (db : Store Value) : PressStage (screens screen) screen item description currentUser db
      (.run (AddCall.code screens (.press screen item description currentUser))) := by
  rcases code_press screens screen item description currentUser with hdone | ⟨next, hnext, hcode⟩
  · rw [hdone]
    exact .spares trivial
  · rw [hcode]
    exact .asks hnext

/-- Every step that checks current names and leaves accepted adds alone keeps the stages. -/
theorem step {a : Act AddCall} (h : InStages screens s) (ha : AddStep screens s a)
    (hstep : s.step (AddCall.code screens) a = some s') : InStages screens s' := by
  cases a with
  | spawn t =>
    simp only [Sys.step, Option.some.injEq] at hstep
    subst hstep
    intro screen item description currentUser body hbody
    rcases List.mem_append.mp hbody with hbefore | hnew
    · exact h screen item description currentUser body hbefore
    · obtain ⟨rfl, rfl⟩ := Prod.mk.inj (List.mem_singleton.mp hnew)
      exact code screens screen item description currentUser s.db
  | run i =>
    obtain ⟨before, t, body, after, db, mem, rest, hsplit, hget, hbody, rfl⟩ :=
      Sys.step_run_eq_some hstep
    obtain ⟨hcheck, hleaves⟩ := ha
    simp only [ChecksCurrentNames, LeavesPendingAdds, hget] at hcheck hleaves
    have hothers : (s.pool.eraseIdx i).Perm (before ++ after) := by
      obtain ⟨hi, hitem⟩ := List.getElem?_eq_some_iff.mp hget
      have hcons := List.getElem_cons_eraseIdx_perm hi
      rw [hitem] at hcons
      exact (List.perm_cons _).mp ((hcons.trans (hsplit ▸ List.Perm.refl _)).trans List.perm_middle)
    intro screen item description currentUser b hb
    have hkept (hother : (.press screen item description currentUser, b) ∈ before ++ after) :
        PressStage (screens screen) screen item description currentUser db b := by
      have hstage : PressStage (screens screen) screen item description currentUser s.db b := by
        apply h
        rw [hsplit]
        exact List.perm_middle.mem_iff.mpr (List.mem_cons_of_mem _ hother)
      apply hstage.of_notStored
      rintro u next rfl hlocation hstored
      rcases Body.step_write hbody with ⟨rfl, -⟩ | ⟨w, following, rfl, rfl, -⟩
      · exact hstored
      · apply hleaves (screens screen, item) _ hstored
        apply List.mem_filterMap.mpr
        exact ⟨_, hothers.mem_iff.mpr hother, if_pos hlocation⟩
    simp only [List.append_assoc, List.mem_append, List.mem_map] at hb
    rcases hb with hbefore | ⟨b', hb', hsame⟩ | hafter
    · exact hkept (List.mem_append_left _ hbefore)
    · obtain ⟨rfl, rfl⟩ := Prod.mk.inj hsame
      have hstage := h screen item description currentUser body (by simp [hsplit])
      apply hstage.rest _ hbody b' hb'
      rintro next rfl
      exact hcheck
    · exact hkept (List.mem_append_right _ hafter)

/-- Where every press is in a stage, only items that are not stored are about to be added. -/
theorem onlyInserts (h : InStages screens s) : OnlyInserts screens s := by
  rintro ⟨t, body⟩ htask hpending w next rfl target hstored field
  cases t with
  | appears screen => simp [pendingAdd] at hpending
  | change u => simp [pendingAdd] at hpending
  | press screen item description currentUser =>
    have hlocation : w.location = (screens screen).items ++ [item] := by
      by_contra hne
      simp [pendingAdd, hne] at hpending
    cases h screen item description currentUser _ htask with
    | writes hnext habsent =>
      have hother : (screens screen, item) ≠ target := fun hsame => habsent (hsame ▸ hstored)
      apply get_apply_of_apart
      rw [hlocation]
      exact AddScreen.apart_item hother [field]
    | spares hbody => exact absurd hlocation (Contract.permits_issues_iff.mp hbody.1)

end InStages

/-- Where accepted adds only insert, the step in which one is made changes no item that is stored. -/
theorem OnlyInserts.get_step {screens : ℕ → AddScreen} {s s' : AddSys} (h : OnlyInserts screens s) {i : ℕ}
    (hpending : (s.pool[i]?.bind (pendingAdd screens)).isSome)
    (hstep : s.step (AddCall.code screens) (.run i) = some s') {target : AddScreen × Key}
    (hstored : ItemStored s.db target) (field : Key) :
    s'.db.get (target.1.items ++ [target.2, field]) = s.db.get (target.1.items ++ [target.2, field]) := by
  obtain ⟨before, t, body, after, db, mem, rest, hsplit, hget, hbody, rfl⟩ :=
    Sys.step_run_eq_some hstep
  rw [hget, Option.bind_some] at hpending
  rcases Body.step_write hbody with ⟨rfl, -⟩ | ⟨w, next, rfl, rfl, -⟩
  · rfl
  · exact h (t, .run (.write w next)) (by simp [hsplit]) hpending w next rfl target hstored field

/-! ### Every schedule -/

/-- The screens have no names yet and nothing is pending. -/
def AddSys.initial (db : Store Value) : AddSys := ⟨db, fun _ => [], []⟩

/-- Along every schedule in which the checks of presses know every stored item they ask about, and in which
nobody stores an item between the check and the write of a press, the writes of accepted presses change
no item that is stored. -/
theorem add_only_inserts (screens : ℕ → AddScreen) (db : Store Value) {acts : List (Act AddCall)}
    {s : AddSys} (h : Sys.Run (AddCall.code screens) (AddStep screens) (AddSys.initial db) acts s) :
    OnlyInserts screens s := by
  suffices hstages : InStages screens s from hstages.onlyInserts
  induction h with
  | nil =>
    intro screen item description currentUser body hbody
    simp [AddSys.initial] at hbody
  | snoc _ ha hstep ih => exact ih.step ha hstep

/-- The write of a client that checks an item of the user's own list off. -/
def checksMilkOff : Write Value :=
  .update [Keys.users, Sample.uidA, Keys.groceryList, Sample.milk] [([Keys.isSelected], bool true)]

/-- The write of another client that stores an item on the user's own list. -/
def storesEggs : Write Value :=
  .update [Keys.users, Sample.uidA, Keys.groceryList, Sample.eggs]
    [([Keys.description], str ""), ([Keys.isSelected], bool false)]

/-- A screen has read the list before another client adds to it, and is about to add another item. -/
def addAnother : List (Act AddCall) :=
  Act.alone (AddCall.appears 0) 5 ++ Act.alone (AddCall.change storesEggs) 2 ++
    Act.alone (AddCall.press 0 Sample.milk "" "alice") 2

/-- An item is added and checked off, and is about to be added again before the reload is answered. -/
def addTwice : List (Act AddCall) :=
  Act.alone (AddCall.press 0 Sample.milk "" "alice") 3 ++
    [Act.spawn (AddCall.change checksMilkOff), .run 2, .spawn (.press 0 Sample.milk "" "alice"), .run 3, .run 3]

/-- All screens are open for the own list of one user. -/
def onOwnList (_ : ℕ) : AddScreen := .createItem Sample.uidA

/-- One item is stored while the add of another one is pending. -/
theorem add_only_inserts_another : ∃ s,
    Sys.Run (AddCall.code onOwnList) (AddStep onOwnList) (AddSys.initial .empty) addAnother s ∧
      s.pool.filterMap (pendingAdd onOwnList) = [(.createItem Sample.uidA, Sample.milk)] ∧
      ItemStored s.db (.createItem Sample.uidA, Sample.eggs) ∧ OnlyInserts onOwnList s := by
  have hlast : ((AddSys.initial .empty).checkedRuns (AddCall.code onOwnList) (AddStep onOwnList)
      addAnother).map (fun s => (s.pool.filterMap (pendingAdd onOwnList),
        decide (ItemStored s.db (.createItem Sample.uidA, Sample.eggs)))) =
      some ([(.createItem Sample.uidA, Sample.milk)], true) := by
    decide +kernel
  obtain ⟨s, hs, hreached⟩ := Option.map_eq_some_iff.mp hlast
  obtain ⟨hpending, hstored⟩ := Prod.mk.inj hreached
  have hrun := Sys.run_of_checkedRuns hs
  exact ⟨s, hrun, hpending, of_decide_eq_true hstored, add_only_inserts onOwnList .empty hrun⟩

/-- An item that is added twice before the reload is answered loses its check mark. -/
theorem not_add_only_inserts : ¬ ∀ (screens : ℕ → AddScreen) (db : Store Value) (acts : List (Act AddCall))
    (s : AddSys), Sys.Run (AddCall.code screens) (fun _ _ => True) (AddSys.initial db) acts s →
      OnlyInserts screens s := by
  intro hclaim
  have hlast : ((AddSys.initial .empty).runs (AddCall.code onOwnList) addTwice).bind (fun s =>
      (s.step (AddCall.code onOwnList) (.run 3)).map fun s' =>
        ((s.pool[3]?.bind (pendingAdd onOwnList)).isSome,
          decide (ItemStored s.db (.createItem Sample.uidA, Sample.milk)),
          s.db.get [Keys.users, Sample.uidA, Keys.groceryList, Sample.milk, Keys.isSelected],
          s'.db.get [Keys.users, Sample.uidA, Keys.groceryList, Sample.milk, Keys.isSelected])) =
      some (true, true, some (.bool true), some (.bool false)) := by
    decide +kernel
  obtain ⟨s, hs, hreached⟩ := Option.bind_eq_some_iff.mp hlast
  obtain ⟨s', hstep, hsame⟩ := Option.map_eq_some_iff.mp hreached
  simp only [Prod.mk.injEq] at hsame
  obtain ⟨hpending, hstored, hbefore, hafter⟩ := hsame
  have hrun : Sys.Run (AddCall.code onOwnList) (fun _ _ => True) (AddSys.initial .empty) addTwice s :=
    Sys.run_of_runs (fun _ _ _ => trivial) hs
  have hkept := (hclaim onOwnList .empty addTwice s hrun).get_step hpending hstep
    (of_decide_eq_true hstored) Keys.isSelected
  have hchanged : some (Value.bool false) = some (Value.bool true) :=
    hafter.symm.trans (hkept.trans hbefore)
  simp at hchanged

end GroceryListApp

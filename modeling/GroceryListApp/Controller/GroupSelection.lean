import GroceryListApp.Controller.CreateGroups
import GroceryListApp.Groups.Creation

/-!
# Who is in a created group

A row is selected by one tap and deselected by the next. The creator is not selected but put among the
chosen names when the own username arrives; still, a search that does not know that name yet also lists
the creator, whose row is toggled like any other. The checkmark is only shown while somebody else is
selected, but a press reads the selection again when it is answered.
-/

namespace GroceryListApp

open Realtime

namespace CreateGroups

/-- The name on the row that an event taps. -/
def tapped (s : CreateGroups) : CreateGroupsEvent → List String
  | .didSelectRowAt row => s.usernameArray[row]?.toList
  | _ => []

/-- Some events happened one after the other, each where it is allowed, with the names that were tapped,
the latest first. -/
inductive SelectionRun (uid : Key) (allowed : CreateGroups → CreateGroupsEvent → Prop)
    (start : CreateGroups) : List String → CreateGroups → Prop
  | nil : SelectionRun uid allowed start [] start
  | snoc {past : List String} {s next : CreateGroups} {e : CreateGroupsEvent} :
      SelectionRun uid allowed start past s → allowed s e → s.step uid e = some next →
      SelectionRun uid allowed start (s.tapped e ++ past) next

/-- A name is selected when its rows were tapped an odd number of times. -/
def Selected (past : List String) (name : String) : Prop := past.count name % 2 = 1

instance (past : List String) (name : String) : Decidable (Selected past name) :=
  inferInstanceAs (Decidable (_ = _))

/-- The group has the creator as master and as a member, at least two members, and as members the creator
and those who are selected. -/
structure IsGroupOf (creator : String) (past : List String) (db : Store Value) (group : Key) : Prop where
  master : db.get [Keys.groups, group, Keys.master] = some (.string creator)
  creator_mem : creator ∈ (db.children (membersPath group)).map Subtype.val
  two_le : 2 ≤ (db.children (membersPath group)).length
  mem_iff : ∀ name, name ∈ (db.children (membersPath group)).map Subtype.val ↔
    name = creator ∨ Selected past name

/-- A username of somebody else. -/
def IsOther (uid : Key) (s : CreateGroups) (name : String) : Prop := some name ≠ storedUsername s.db uid

/-- What keeps the creator in the selection: a press is answered after the own username has arrived, the
row of the creator is not tapped, the only other selected user is not deselected while a press is pending,
and nobody changes the creator's username. -/
def KeepsCreator (uid : Key) (s : CreateGroups) : CreateGroupsEvent → Prop
  | .idsArrive _ _ => s.usernamePending = false
  | .didSelectRowAt row => ∀ name ∈ s.usernameArray[row]?, IsOther uid s name ∧
    (s.presses ≠ [] → name ∈ s.chosenUserArray →
      ∃ other ∈ s.chosenUserArray, other ≠ name ∧ IsOther uid s other)
  | .change w => storedUsername (w.apply s.db) uid = storedUsername s.db uid
  | _ => True

instance (uid : Key) (s : CreateGroups) (name : String) : Decidable (IsOther uid s name) :=
  inferInstanceAs (Decidable (_ ≠ _))

instance (uid : Key) (s : CreateGroups) (e : CreateGroupsEvent) : Decidable (KeepsCreator uid s e) := by
  unfold KeepsCreator
  split <;> infer_instance

/-! ### The selection -/

/-- What holds of the selection: the other chosen users are those that are selected, the creator is chosen
once the own username has arrived, and where the checkmark is shown or a press is pending, somebody else
is chosen. -/
structure SelectionInv (uid : Key) (past : List String) (s : CreateGroups) : Prop where
  nodup : s.chosenUserArray.Nodup
  untapped : ∀ name ∈ past, IsOther uid s name
  selected : ∀ name, IsOther uid s name → (name ∈ s.chosenUserArray ↔ Selected past name)
  pending : s.usernamePending = true → ∀ name ∈ s.chosenUserArray, IsOther uid s name
  arrived : s.usernamePending = false →
    storedUsername s.db uid = some s.currentUser ∧ s.currentUser ∈ s.chosenUserArray
  others : s.checkmarkIsHidden = false ∨ s.presses ≠ [] → ∃ name ∈ s.chosenUserArray, IsOther uid s name

/-- One more tap selects a name that was not selected. -/
theorem selected_cons_self (past : List String) (name : String) :
    Selected (name :: past) name ↔ ¬ Selected past name := by
  rw [Selected, Selected, List.count_cons_self]
  omega

/-- A tap does not matter for other names. -/
theorem selected_cons_of_ne (past : List String) {tapped name : String} (h : name ≠ tapped) :
    Selected (tapped :: past) name ↔ Selected past name := by
  rw [Selected, Selected, List.count_cons_of_ne (Ne.symm h)]

/-- Of two chosen names one is somebody else's. -/
theorem exists_isOther {uid : Key} {s : CreateGroups} {names : List String} (hnodup : names.Nodup)
    (hlength : 1 < names.length) : ∃ name ∈ names, IsOther uid s name := by
  by_contra hnone
  have hown (name : String) (hname : name ∈ names) : some name = storedUsername s.db uid := by
    by_contra hother
    exact hnone ⟨name, hname, hother⟩
  match names, hnodup, hlength with
  | first :: second :: rest, hnodup, _ =>
    have hsame : first = second :=
      Option.some.inj ((hown first (by simp)).trans (hown second (by simp)).symm)
    exact (List.nodup_cons.mp hnodup).1 (by simp [hsame])

namespace SelectionInv

variable {uid : Key} {past : List String} {s next : CreateGroups}

/-- Nothing changes for the selection while the chosen names stay, and what is known of the creator. -/
theorem frame (h : SelectionInv uid past s) (hchosen : next.chosenUserArray = s.chosenUserArray)
    (hpending : next.usernamePending = s.usernamePending) (hcurrent : next.currentUser = s.currentUser)
    (hname : storedUsername next.db uid = storedUsername s.db uid)
    (hothers : next.checkmarkIsHidden = false ∨ next.presses ≠ [] →
      s.checkmarkIsHidden = false ∨ s.presses ≠ []) : SelectionInv uid past next := by
  constructor
  · exact hchosen ▸ h.nodup
  · simpa only [IsOther, hname] using h.untapped
  · simpa only [IsOther, hname, hchosen] using h.selected
  · simpa only [IsOther, hname, hchosen, hpending] using h.pending
  · simpa only [hname, hchosen, hpending, hcurrent] using h.arrived
  · simpa only [IsOther, hname, hchosen] using fun hshown => h.others (hothers hshown)

/-- The own username is chosen when it arrives. -/
theorem usernameArrives (h : SelectionInv uid past s) (hpending : s.usernamePending = true) {own : String}
    (hown : storedUsername s.db uid = some own) :
    SelectionInv uid past { s with
      chosenUserArray := s.chosenUserArray ++ [own], currentUser := own, usernamePending := false } := by
  have hnew : own ∉ s.chosenUserArray := fun hmem => h.pending hpending own hmem hown.symm
  constructor
  · exact List.nodup_append.mpr ⟨h.nodup, List.nodup_singleton _, by
      rintro name hname _ hlast rfl
      exact hnew (List.mem_singleton.mp hlast ▸ hname)⟩
  · exact h.untapped
  · intro name hother
    have hne : name ≠ own := fun hsame => hother (hsame ▸ hown.symm)
    rw [List.mem_append, List.mem_singleton, or_iff_left hne]
    exact h.selected name hother
  · exact fun hfalse => absurd hfalse Bool.false_ne_true
  · exact fun _ => ⟨hown, by simp⟩
  · intro hshown
    obtain ⟨name, hmem, hother⟩ := h.others hshown
    exact ⟨name, List.mem_append_left _ hmem, hother⟩

/-- Tapping a row selects another user. -/
theorem select (h : SelectionInv uid past s) {name : String} (hother : IsOther uid s name)
    (hnew : name ∉ s.chosenUserArray) :
    SelectionInv uid (name :: past) { s with
      chosenUserArray := s.chosenUserArray ++ [name], checkmarkIsHidden := false } := by
  constructor
  · exact List.nodup_append.mpr ⟨h.nodup, List.nodup_singleton _, by
      rintro user huser _ hlast rfl
      exact hnew (List.mem_singleton.mp hlast ▸ huser)⟩
  · intro user huser
    rcases List.mem_cons.mp huser with rfl | hbefore
    · exact hother
    · exact h.untapped user hbefore
  · intro user huser
    have hbefore := h.selected user huser
    rw [List.mem_append, List.mem_singleton]
    by_cases hsame : user = name
    · subst hsame
      rw [selected_cons_self]
      exact iff_of_true (Or.inr rfl) (mt hbefore.mpr hnew)
    · rw [or_iff_left hsame, selected_cons_of_ne past hsame]
      exact hbefore
  · intro hpending user huser
    rcases List.mem_append.mp huser with hbefore | hlast
    · exact h.pending hpending user hbefore
    · exact List.mem_singleton.mp hlast ▸ hother
  · intro harrived
    obtain ⟨hown, hmem⟩ := h.arrived harrived
    exact ⟨hown, List.mem_append_left _ hmem⟩
  · exact fun _ => ⟨name, by simp, hother⟩

/-- Tapping a selected row deselects another user, of whom somebody else has to be left where the
checkmark stays or a press is pending. -/
theorem deselect (h : SelectionInv uid past s) {name : String} (hother : IsOther uid s name)
    (hchosen : name ∈ s.chosenUserArray) {hidden : Bool}
    (hleft : hidden = false ∨ s.presses ≠ [] →
      ∃ other ∈ s.chosenUserArray.filter (· ≠ name), IsOther uid s other) :
    SelectionInv uid (name :: past) { s with
      chosenUserArray := s.chosenUserArray.filter (· ≠ name), checkmarkIsHidden := hidden } := by
  have hmem {user : String} : user ∈ s.chosenUserArray.filter (· ≠ name) ↔
      user ∈ s.chosenUserArray ∧ user ≠ name := by
    simp
  constructor
  · exact h.nodup.filter _
  · intro user huser
    rcases List.mem_cons.mp huser with rfl | hbefore
    · exact hother
    · exact h.untapped user hbefore
  · intro user huser
    have hbefore := h.selected user huser
    rw [hmem]
    by_cases hsame : user = name
    · subst hsame
      rw [selected_cons_self]
      exact iff_of_false (fun hkept => hkept.2 rfl) (not_not.mpr (hbefore.mp hchosen))
    · rw [selected_cons_of_ne past hsame, and_iff_left hsame]
      exact hbefore
  · exact fun hpending user huser => h.pending hpending user (hmem.mp huser).1
  · intro harrived
    obtain ⟨hown, hcreator⟩ := h.arrived harrived
    refine ⟨hown, hmem.mpr ⟨hcreator, fun hsame => hother ?_⟩⟩
    rw [← hsame]
    exact hown.symm
  · exact hleft

/-- Every event that keeps the creator keeps what holds of the selection. -/
theorem step (h : SelectionInv uid past s) {e : CreateGroupsEvent} (hallowed : KeepsCreator uid s e)
    (hstep : s.step uid e = some next) : SelectionInv uid (s.tapped e ++ past) next := by
  cases e with
  | viewWillAppear =>
    obtain rfl := Option.some.inj hstep
    exact h.frame rfl rfl rfl rfl fun hshown => Or.inr (hshown.resolve_left (by simp))
  | groupTextDidChange text | descriptionDidChange text =>
    obtain rfl := Option.some.inj hstep
    exact h.frame rfl rfl rfl rfl id
  | usernameArrives =>
    simp only [CreateGroups.step] at hstep
    split at hstep
    · next hpending =>
      obtain ⟨own, hown, rfl⟩ := Option.map_eq_some_iff.mp hstep
      exact h.usernameArrives hpending hown
    · contradiction
  | textFieldDidChange text =>
    obtain rfl := Option.some.inj hstep
    change SelectionInv uid past (s.textFieldDidChange text)
    unfold CreateGroups.textFieldDidChange
    split <;> exact h.frame rfl rfl rfl rfl id
  | searchUserArrives number =>
    obtain ⟨search, -, hstep⟩ := Option.bind_eq_some_iff.mp hstep
    split at hstep
    · contradiction
    · obtain ⟨returnedUsername, -, hnext⟩ := Option.bind_eq_some_iff.mp hstep
      obtain rfl := Option.some.inj hnext
      exact h.frame rfl rfl rfl rfl id
  | valueArrives index =>
    obtain ⟨value, -, hstep⟩ := Option.bind_eq_some_iff.mp hstep
    obtain ⟨search, -, hstep⟩ := Option.bind_eq_some_iff.mp hstep
    obtain ⟨usernameArray, -, hnext⟩ := Option.bind_eq_some_iff.mp hstep
    obtain rfl := Option.some.inj hnext
    exact h.frame rfl rfl rfl rfl id
  | didSelectRowAt row =>
    obtain ⟨name, hrow, rfl⟩ := Option.map_eq_some_iff.mp hstep
    obtain ⟨hother, hpresses⟩ := hallowed name hrow
    have htapped : s.tapped (.didSelectRowAt row) = [name] := by simp [tapped, hrow]
    rw [htapped, List.singleton_append]
    unfold CreateGroups.didSelect
    split
    · next hnew => exact h.select hother hnew
    · next hchosen =>
      rw [not_not] at hchosen
      dsimp only
      split
      · next hmany =>
        apply h.deselect hother hchosen
        exact fun _ => exists_isOther (h.nodup.filter _) hmany
      · apply h.deselect hother hchosen
        intro hshown
        have hpending : s.presses ≠ [] := hshown.resolve_left (by simp)
        obtain ⟨other, hmem, hne, hisOther⟩ := hpresses hpending hchosen
        exact ⟨other, by simp [hmem, hne], hisOther⟩
  | checkmarkBtnWasPressed =>
    simp only [CreateGroups.step] at hstep
    split at hstep
    · contradiction
    · next hshown =>
      obtain rfl := Option.some.inj hstep
      change SelectionInv uid past s.checkmarkBtnWasPressed
      unfold CreateGroups.checkmarkBtnWasPressed
      split
      · exact h.frame rfl rfl rfl rfl fun _ => Or.inl (Bool.eq_false_iff.mpr hshown)
      · exact h
  | idsArrive index autoId =>
    obtain ⟨ids, usernames, members, -, -, rfl⟩ := of_idsArrive hstep
    refine h.frame rfl rfl rfl ?_ ?_
    · exact (s.sameBelow_groupWrite autoId members).storedUsername_eq uid
    · rintro (hshown | hpresses)
      · exact Or.inl hshown
      · refine Or.inr fun hnone => hpresses ?_
        simp [hnone]
  | change w =>
    obtain rfl := Option.some.inj hstep
    change SelectionInv uid past (s.change w)
    unfold CreateGroups.change
    split <;> exact h.frame rfl rfl rfl hallowed id

end SelectionInv

/-- The invariant holds along every run that keeps the creator. -/
theorem SelectionRun.inv {uid : Key} {db : Store Value} {past : List String} {s : CreateGroups}
    (h : SelectionRun uid (KeepsCreator uid) (loaded db) past s) : SelectionInv uid past s := by
  induction h with
  | nil =>
    constructor
    · exact List.nodup_nil
    · simp
    · simp [loaded, Selected]
    · simp [loaded]
    · simp [loaded]
    · simp [loaded]
  | snoc _ hallowed hstep ih => exact ih.step hallowed hstep

/-! ### The group -/

/-- The members of a created group are the chosen names. -/
theorem mem_groupWrite {s : CreateGroups} (autoId : Key) {ids : List String}
    {usernames : List (String × String)} {members : Store Value} (hchosen : s.chosenUserArray.Nodup)
    (hdict : usernameDict s.chosenUserArray ids = some usernames)
    (hmembers : Store.dictionary (usernames.map fun entry => (entry.1, Value.string entry.2)) =
      some members) (name : String) :
    name ∈ (((s.groupWrite autoId members).apply s.db).children (membersPath autoId)).map Subtype.val ↔
      name ∈ s.chosenUserArray := by
  have hget (p : Path) : ((s.groupWrite autoId members).apply s.db).get (membersPath autoId ++ p) =
      members.get p := get_createGroup autoId s.groupText s.descriptionText s.currentUser members p s.db
  have hnames : usernames.map Prod.fst = s.chosenUserArray := by
    rw [usernameDict_eq hchosen] at hdict
    split at hdict
    · next hlength =>
      obtain rfl := Option.some.inj hdict
      exact List.map_fst_zip hlength
    · contradiction
  constructor
  · intro h
    obtain ⟨key, hkey, rfl⟩ := List.mem_map.mp h
    obtain ⟨rest, v, hv⟩ := (Store.mem_children _ _ _).mp hkey
    rw [hget] at hv
    obtain ⟨found, hpath, hentry⟩ := Store.of_get_dictionary hmembers hv
    obtain ⟨entry, hmem, hsame⟩ := List.mem_map.mp hentry
    rw [← hnames, (List.cons.inj hpath).1, ← (Prod.mk.inj hsame).1]
    exact List.mem_map_of_mem hmem
  · intro h
    rw [← hnames] at h
    obtain ⟨entry, hmem, rfl⟩ := List.mem_map.mp h
    obtain ⟨key, hkey, hv⟩ := Store.get_dictionary hmembers (List.mem_map_of_mem hmem)
    exact List.mem_map.mpr ⟨key, (Store.mem_children _ _ _).mpr ⟨[], _, (hget [key]).trans hv⟩, hkey⟩

/-- In every run whose events keep the creator, a press that is answered creates a group of the creator
and of those who are selected then. -/
theorem created_group {uid : Key} {db : Store Value} {past : List String} {s next : CreateGroups}
    {index : ℕ} {autoId : Key} (h : SelectionRun uid (KeepsCreator uid) (loaded db) past s)
    (hallowed : KeepsCreator uid s (.idsArrive index autoId))
    (hstep : s.step uid (.idsArrive index autoId) = some next) :
    ∃ creator, storedUsername next.db uid = some creator ∧ IsGroupOf creator past next.db autoId := by
  have hinv := h.inv
  obtain ⟨hown, hcreator⟩ := hinv.arrived hallowed
  have hpresses : s.presses ≠ [] := by
    intro hnone
    obtain ⟨usernames, hget, -⟩ := Option.bind_eq_some_iff.mp hstep
    simp [hnone] at hget
  obtain ⟨other, hother, hisOther⟩ := hinv.others (Or.inr hpresses)
  obtain ⟨ids, usernames, members, hdict, hmembers, rfl⟩ := of_idsArrive hstep
  have hmem := mem_groupWrite autoId hinv.nodup hdict hmembers
  refine ⟨s.currentUser, ?_, ⟨?_, (hmem _).mpr hcreator, ?_, fun name => ?_⟩⟩
  · rw [(s.sameBelow_groupWrite autoId members).storedUsername_eq]
    exact hown
  · exact get_update_of_mem (pairwise_createGroup s.currentUser s.groupText s.descriptionText members)
      (List.mem_of_getElem? (i := 0) rfl) [Keys.groups, autoId] [] s.db
  · have hne : other ≠ s.currentUser := fun hsame => hisOther (hsame ▸ hown.symm)
    have htwo : ({s.currentUser, other} : Finset String).card ≤
        ((((s.groupWrite autoId members).apply s.db).children (membersPath autoId)).map
          Subtype.val).toFinset.card := by
      apply Finset.card_le_card
      intro name hname
      rw [List.mem_toFinset, hmem]
      rcases Finset.mem_insert.mp hname with rfl | hname
      · exact hcreator
      · exact Finset.mem_singleton.mp hname ▸ hother
    rw [Finset.card_pair hne.symm] at htwo
    exact htwo.trans ((List.toFinset_card_le _).trans (List.length_map _).le)
  · rw [hmem]
    by_cases hsame : name = s.currentUser
    · subst hsame
      exact iff_of_true hcreator (Or.inl rfl)
    · have hisOther' : IsOther uid s name := by
        rw [IsOther, hown]
        exact fun h => hsame (Option.some.inj h)
      rw [or_iff_right hsame]
      exact hinv.selected name hisOther'

/-- Take the events in order, each only where it is allowed. -/
def checkedSelection (uid : Key) (allowed : CreateGroups → CreateGroupsEvent → Prop)
    [∀ s e, Decidable (allowed s e)] : List CreateGroupsEvent → List String × CreateGroups →
      Option (List String × CreateGroups)
  | [], reached => some reached
  | e :: events, (past, s) =>
    if allowed s e then
      (s.step uid e).bind fun next => checkedSelection uid allowed events (s.tapped e ++ past, next)
    else none

/-- Events that can be taken where they are allowed are a run. -/
theorem SelectionRun.of_checkedSelection {uid : Key} {allowed : CreateGroups → CreateGroupsEvent → Prop}
    [∀ s e, Decidable (allowed s e)] {start s last : CreateGroups} {past past' : List String}
    {events : List CreateGroupsEvent} (h : SelectionRun uid allowed start past s)
    (hchecked : checkedSelection uid allowed events (past, s) = some (past', last)) :
    SelectionRun uid allowed start past' last := by
  induction events generalizing past s with
  | nil =>
    obtain ⟨rfl, rfl⟩ := Prod.mk.inj (Option.some.inj hchecked)
    exact h
  | cons e events ih =>
    rw [checkedSelection] at hchecked
    split at hchecked
    · next hallowed =>
      obtain ⟨next, hstep, hrest⟩ := Option.bind_eq_some_iff.mp hchecked
      exact ih (h.snoc hallowed hstep) hrest
    · contradiction

/-- The creator finds another user, selects the row and presses the checkmark. -/
def selectBobby : List CreateGroupsEvent :=
  [.usernameArrives, .textFieldDidChange "bo", .searchUserArrives 0, .valueArrives 0, .didSelectRowAt 0,
    .groupTextDidChange "Home", .checkmarkBtnWasPressed]

/-- A search that does not know the own username yet lists the creator, whose row is tapped before that of
another user. -/
def tapOwnRow : List CreateGroupsEvent :=
  [.textFieldDidChange "a", .valueArrives 0, .usernameArrives, .didSelectRowAt 1, .didSelectRowAt 0,
    .groupTextDidChange "Home", .checkmarkBtnWasPressed]

/-- A member is found, selected, and the group is created. -/
theorem created_group_selectBobby : ∃ past s next,
    SelectionRun Sample.uidA (KeepsCreator Sample.uidA) (loaded sharedByTwo) past s ∧
      s.step Sample.uidA (.idsArrive 0 Sample.work) = some next ∧ Selected past "bobby" ∧
      ∃ creator, storedUsername next.db Sample.uidA = some creator ∧
        IsGroupOf creator past next.db Sample.work := by
  have hlast : (checkedSelection Sample.uidA (KeepsCreator Sample.uidA) selectBobby
      ([], loaded sharedByTwo)).map (fun reached => (reached.1, reached.2.usernamePending,
        (reached.2.step Sample.uidA (.idsArrive 0 Sample.work)).isSome)) =
      some (["bobby"], false, true) := by
    decide +kernel
  obtain ⟨⟨past, s⟩, hs, hreached⟩ := Option.map_eq_some_iff.mp hlast
  simp only [Prod.mk.injEq] at hreached
  obtain ⟨hpast, harrived, hsome⟩ := hreached
  obtain ⟨next, hnext⟩ := Option.isSome_iff_exists.mp hsome
  have hrun := SelectionRun.of_checkedSelection .nil hs
  have hselected : Selected past "bobby" := by
    rw [hpast]
    decide
  exact ⟨past, s, next, hrun, hnext, hselected, created_group hrun harrived hnext⟩

/-- Whose own row was tapped is not a member of the group that is created. -/
theorem not_created_group : ¬ ∀ (uid : Key) (db : Store Value) (past : List String) (s next : CreateGroups)
    (index : ℕ) (autoId : Key), SelectionRun uid (fun _ _ => True) (loaded db) past s →
      s.step uid (.idsArrive index autoId) = some next →
      ∃ creator, storedUsername next.db uid = some creator ∧ IsGroupOf creator past next.db autoId := by
  intro hclaim
  have hlast : (checkedSelection Sample.uidA (fun _ _ => True) tapOwnRow
      ([], loaded (storesCarol.apply sharedByTwo))).bind (fun reached =>
        (reached.2.step Sample.uidA (.idsArrive 0 Sample.work)).map fun next =>
          (storedUsername next.db Sample.uidA,
            (next.db.children (membersPath Sample.work)).map Subtype.val)) =
      some (some "alice", ["carol"]) := by
    decide +kernel
  obtain ⟨⟨past, s⟩, hs, hreached⟩ := Option.bind_eq_some_iff.mp hlast
  obtain ⟨next, hnext, hsame⟩ := Option.map_eq_some_iff.mp hreached
  obtain ⟨hname, hmembers⟩ := Prod.mk.inj hsame
  have hrun := SelectionRun.of_checkedSelection .nil hs
  obtain ⟨creator, hcreator, hgroup⟩ := hclaim _ _ past s next 0 Sample.work hrun hnext
  obtain rfl := Option.some.inj (hcreator.symm.trans hname)
  have hmem := hgroup.creator_mem
  rw [hmembers] at hmem
  simp at hmem

end CreateGroups

end GroceryListApp

import GroceryListApp.Accounts.NameIndex
import GroceryListApp.Groups.MemberAccounts
import GroceryListApp.Groups.Listing
import GroceryListApp.Realtime.Serial

/-!
# Who may delete a group

The groups screen offers `DELETE GROUP` on a row when the stored master is the name of the
viewer. Here every operation runs to completion on screens that show the present state. A change
of username renames the master along with the account, but a deletion of the account leaves the
master as it is and frees the name. Authority then passes to the next account that takes the name
while it is a member of the group, and this only a change of username can do: a member's name is
listed as taken, so no new account is registered with it.
-/

namespace GroceryListApp

open Realtime

/-- A call of the screens for accounts and groups. -/
inductive AuthorityCall where
  | registerUser (uid : Key) (providerID email username : String)
  | createGroup (uid autoId : Key) (title description currentUser : String)
      (chosenUserArray : List String)
  | leaveGroup (uid group : Key)
  | changeUsername (uid : Key) (profileName newUsername : String)
  | deleteAccount (uid : Key) (username : String)
  deriving DecidableEq

/-- The variable `currentUser` of `removeUserFromGroup`. -/
def leavingUser : Var String String where
  get := id
  set name _ := name

/-- The program of a call. -/
def AuthorityCall.code : AuthorityCall → Prog String Value
  | .registerUser uid providerID email username =>
      GroceryListApp.registerUser uid providerID email username
  | .createGroup uid autoId title description currentUser chosenUserArray =>
      createGroupAction autoId title description currentUser chosenUserArray uid
  | .leaveGroup uid group => removeUserFromGroup leavingUser group.1 uid.1
  | .changeUsername uid profileName newUsername =>
      changeUsernameAction uid profileName newUsername
  | .deleteAccount uid username => confirmDeleteAction uid username

/-- The database and what is pending of the call that runs. -/
abbrev AuthoritySys := Sys AuthorityCall String Value

namespace GroupsVC

/-- The titles of the actions of a row. -/
def editActionsForRowAt (selectedGroup : Group) (currentUsername : String) : List String :=
  (if selectedGroup.master = currentUsername then ["DELETE GROUP"] else []) ++ ["LEAVE GROUP"]

end GroupsVC

/-- The groups screen of an account, loaded from the database, offers `DELETE GROUP` on a group. -/
def OffersDelete (db : Store Value) (uid g : Key) : Prop :=
  ∃ (enumerate : List String → List String) (currentUsername : String) (found : List Group × List String),
    (∀ names, (enumerate names).Perm names) ∧ storedUsername db uid = some currentUsername ∧
    collectGroups enumerate currentUsername (db.snapshot [Keys.groups]) = some found ∧
    ∃ row ∈ found.1, row.key = g.1 ∧ "DELETE GROUP" ∈ GroupsVC.editActionsForRowAt row currentUsername

/-- The screens show the present state, accounts and groups are created under new keys, and a name
is available when it is taken. -/
def FreshScreens (db : Store Value) : AuthorityCall → Prop
  | .registerUser uid _ _ username => storedUsername db uid = none ∧ Available db username
  | .createGroup uid autoId _ _ currentUser chosenUserArray =>
      storedUsername db uid = some currentUser ∧ autoId ∉ db.children [Keys.groups] ∧
        ∀ name ∈ chosenUserArray, name ∈ storedUsernames db
  | .leaveGroup uid group => ∃ user ∈ storedUsername db uid, IsMember db user group
  | .changeUsername uid profileName newUsername =>
      storedUsername db uid = some profileName ∧ Available db newUsername
  | .deleteAccount uid username => storedUsername db uid = some username

/-- No member of a group takes the name of its master. -/
def NoTakeover (db : Store Value) : AuthorityCall → Prop
  | .changeUsername _ profileName newUsername => ∀ g ∈ db.children [Keys.groups],
      IsMember db profileName g → db.get [Keys.groups, g, Keys.master] ≠ some (.string newUsername)
  | _ => True

instance (db : Store Value) (t : AuthorityCall) : Decidable (FreshScreens db t) := by
  induction t using AuthorityCall.casesOn <;> dsimp only [FreshScreens, Available] <;> infer_instance

instance (db : Store Value) (t : AuthorityCall) : Decidable (NoTakeover db t) := by
  induction t using AuthorityCall.casesOn <;> dsimp only [NoTakeover] <;> infer_instance

/-- The accounts that created the groups, after a call. -/
def AuthorityCall.founds (creator : Key → Option Key) : AuthorityCall → Key → Option Key
  | .createGroup uid autoId _ _ _ _ => Function.update creator autoId (some uid)
  | _ => creator

/-- The account that created a group. -/
def creator (calls : List AuthorityCall) : Key → Option Key :=
  calls.foldl AuthorityCall.founds fun _ => none

/-! ### What the groups screen offers -/

/-- What every round of a loop that succeeds keeps holds at its end. -/
theorem of_foldlM {α β : Type*} {f : β → α → Option β} {P : β → Prop} {values : List α}
    (hround : ∀ b, ∀ a ∈ values, ∀ b', P b → f b a = some b' → P b') {b b' : β} (hb : P b)
    (h : values.foldlM f b = some b') : P b' := by
  induction values generalizing b with
  | nil =>
    have : b = b' := by simpa using h
    exact this ▸ hb
  | cons a rest ih =>
    rw [List.foldlM_cons] at h
    obtain ⟨mid, hmid, hrest⟩ := Option.bind_eq_some_iff.mp h
    exact ih (fun b a ha => hround b a (List.mem_cons_of_mem _ ha))
      (hround b a List.mem_cons_self mid hb hmid) hrest

/-- The entries of the dictionary of members are stored. -/
theorem mem_of_asDictionary {db : Store Value} {g : Key} {names : List String}
    (h : asDictionary (Snapshot.childSnapshot ⟨g.1, (db.sub [Keys.groups]).sub [g]⟩ "members") =
      some names) {name : String} (hname : name ∈ names) : IsMember db name g := by
  have hnode : (Snapshot.childSnapshot ⟨g.1, (db.sub [Keys.groups]).sub [g]⟩ "members").node.children
      [] = db.children (membersPath g) := by
    simp [Snapshot.childSnapshot, membersPath]
  unfold asDictionary at h
  split at h
  · contradiction
  · rw [hnode, Option.some.injEq] at h
    subst h
    simpa [IsMember, List.map_eq_flatMap] using hname

/-- Every row is about a group that lists the user and shows its master. -/
def ShowsMember (db : Store Value) (user : String) (found : List Group × List String) : Prop :=
  ∀ row ∈ found.1, ∃ g : Key, row.key = g.1 ∧ IsMember db user g ∧
    db.get [Keys.groups, g, Keys.master] = some (.string row.master)

/-- A round over the members of a group adds a row for an entry with the name of the user. -/
theorem ShowsMember.collectGroup {db : Store Value} {user name : String} {g : Key}
    {found found' : List Group × List String} (hfound : ShowsMember db user found)
    (hmember : IsMember db name g)
    (h : collectGroup user ⟨g.1, (db.sub [Keys.groups]).sub [g]⟩ found name = some found') :
    ShowsMember db user found' := by
  simp only [GroceryListApp.collectGroup] at h
  split at h
  · next huser =>
    obtain ⟨title, -, h⟩ := Option.bind_eq_some_iff.mp h
    obtain ⟨description, -, h⟩ := Option.bind_eq_some_iff.mp h
    obtain ⟨listCount, -, h⟩ := Option.bind_eq_some_iff.mp h
    obtain ⟨listCheckCount, -, h⟩ := Option.bind_eq_some_iff.mp h
    obtain ⟨master, hmaster, h⟩ := Option.bind_eq_some_iff.mp h
    rw [Option.some.injEq] at h
    subst h
    intro row hrow
    rcases List.mem_append.mp hrow with hrow | hrow
    · exact hfound row hrow
    · rw [List.mem_singleton.mp hrow]
      refine ⟨g, rfl, huser ▸ hmember, ?_⟩
      have hvalue := (asString_eq_some_iff _ master).mp hmaster
      rwa [Snapshot.value_childSnapshot_child db [Keys.groups] [Keys.master] g (by simp)] at hvalue
  · rw [Option.some.injEq] at h
    subst h
    exact hfound

/-- In whatever state the groups are, rows are added for members only. -/
theorem showsMember_collectGroups {db : Store Value} {enumerate : List String → List String}
    (henum : ∀ names, (enumerate names).Perm names) {user : String} {found : List Group × List String}
    (h : collectGroups enumerate user (db.snapshot [Keys.groups]) = some found) :
    ShowsMember db user found := by
  unfold collectGroups at h
  rw [Snapshot.children_snapshot] at h
  have hstart : ShowsMember db user ([], []) := by simp [ShowsMember]
  refine of_foldlM (P := ShowsMember db user) ?_ hstart h
  intro rows group hgroup rows' hrows hround
  obtain ⟨g, -, rfl⟩ := List.mem_map.mp hgroup
  obtain ⟨names, hnames, hwalk⟩ := Option.bind_eq_some_iff.mp hround
  refine of_foldlM (P := ShowsMember db user) (fun found name hname found' hfound hname' => ?_) hrows hwalk
  exact hfound.collectGroup (mem_of_asDictionary hnames ((henum names).mem_iff.mp hname)) hname'

/-- `DELETE GROUP` is offered to a member whose name is the stored master only. -/
theorem OffersDelete.master {db : Store Value} {uid g : Key} (h : OffersDelete db uid g) :
    ∃ user, storedUsername db uid = some user ∧ IsMember db user g ∧
      db.get [Keys.groups, g, Keys.master] = some (.string user) := by
  obtain ⟨enumerate, user, found, henum, huser, hfound, row, hrow, hkey, htitle⟩ := h
  obtain ⟨g', hkey', hmember, hmaster⟩ := showsMember_collectGroups henum hfound row hrow
  have hg : g' = g := Subtype.ext (hkey'.symm.trans hkey)
  subst hg
  have hsame : row.master = user := by
    by_contra hne
    simp [GroupsVC.editActionsForRowAt, hne] at htitle
  exact ⟨user, huser, hmember, hsame ▸ hmaster⟩

/-! ### What a call does to the groups -/

/-- What a call may add to the groups: masters that it writes and members that it enters. -/
structure Gains where
  master : Key → String → Prop
  member : Key → Key → Prop

/-- Below the groups there is no new master and no new member but what the call may add, and
everything else is as it was. -/
structure Evolves (gains : Gains) (s s' : Store Value) : Prop where
  beside : ∀ root rest, root ≠ Keys.groups → s'.get (root :: rest) = s.get (root :: rest)
  master : ∀ g name, s'.get [Keys.groups, g, Keys.master] = some (.string name) →
    s.get [Keys.groups, g, Keys.master] = some (.string name) ∨ gains.master g name
  members : ∀ g, ∀ k ∈ s'.children (membersPath g), k ∈ s.children (membersPath g) ∨ gains.member g k

namespace Evolves

variable {gains : Gains} {s s' s'' : Store Value}

/-- Nothing has changed. -/
theorem refl (gains : Gains) (s : Store Value) : Evolves gains s s where
  beside _ _ _ := rfl
  master _ _ h := Or.inl h
  members _ _ h := Or.inl h

/-- One change after the other. -/
theorem trans (h : Evolves gains s s') (h' : Evolves gains s' s'') : Evolves gains s s'' where
  beside root rest hroot := (h'.beside root rest hroot).trans (h.beside root rest hroot)
  master g name hname := (h'.master g name hname).elim (h.master g name) Or.inr
  members g k hk := (h'.members g k hk).elim (h.members g k) Or.inr

/-- The stored usernames are not below the groups. -/
theorem storedUsername (h : Evolves gains s s') (uid : Key) :
    storedUsername s' uid = storedUsername s uid := by
  simp only [GroceryListApp.storedUsername, asString, value_snapshot]
  rw [h.beside Keys.users _ (by decide)]

/-- A removal below the groups adds nothing. -/
theorem remove (gains : Gains) (s : Store Value) (rest : Path) :
    Evolves gains s ((Write.remove (Keys.groups :: rest)).apply s) where
  beside root rest' hroot := get_apply_of_apart (w := .remove _) (apart_of_ne (Ne.symm hroot) _ _) s
  master g name hname := Or.inl ((Store.get_remove_eq_some_iff _ _ _ _).mp hname).2
  members g k hk := by
    obtain ⟨q, v, hv⟩ := (Store.mem_children _ _ _).mp hk
    exact Or.inl ((Store.mem_children _ _ _).mpr ⟨q, v, ((Store.get_remove_eq_some_iff _ _ _ _).mp hv).2⟩)

/-- A field of a group that is neither its master nor a member may have any value. -/
theorem update_beside (gains : Gains) (s : Store Value) {p : Path} {field : Key} (g : Key) {key : Key}
    (rest : Path) (hp : p ++ [field] = Keys.groups :: g :: key :: rest) (hmaster : key ≠ Keys.master)
    (hmembers : key ≠ Keys.members) (value : Store Value) :
    Evolves gains s ((Write.update p [([field], value)]).apply s) := by
  have hapart {q : Path} (h : Apart (Keys.groups :: g :: key :: rest) q) :
      ((Write.update p [([field], value)]).apply s).get q = s.get q := by
    apply get_update_of_apart
    intro entry hentry
    rw [List.mem_singleton.mp hentry, hp]
    exact h
  constructor
  · exact fun root rest' hroot => hapart (apart_of_ne (Ne.symm hroot) _ _)
  · intro g' name hname
    rw [hapart (apart_field _ _ _ hmaster _ _)] at hname
    exact Or.inl hname
  · intro g' k hk
    rw [children_congr fun q => hapart (apart_field _ _ _ hmembers _ _)] at hk
    exact Or.inl hk

/-- A master is written. -/
theorem update_master (s : Store Value) {g : Key} {new : String} (h : gains.master g new) :
    Evolves gains s ((Write.update [Keys.groups, g] [([Keys.master], str new)]).apply s) := by
  have hapart {q : Path} (h : Apart [Keys.groups, g, Keys.master] q) :
      ((Write.update [Keys.groups, g] [([Keys.master], str new)]).apply s).get q = s.get q := by
    apply get_update_of_apart
    intro entry hentry
    rw [List.mem_singleton.mp hentry]
    exact h
  constructor
  · exact fun root rest' hroot => hapart (apart_of_ne (Ne.symm hroot) _ _)
  · intro g' name hname
    by_cases hg : g = g'
    · subst hg
      have hnew := get_update_leaf [Keys.groups, g] [Keys.master] (.string new) s
      have : new = name := by simpa using hnew.symm.trans hname
      exact Or.inr (this ▸ h)
    · rw [hapart ((apart_cons _ _ _).mpr (apart_of_ne hg _ _))] at hname
      exact Or.inl hname
  · intro g' k hk
    rw [children_congr fun q => hapart (apart_field _ _ _ (by decide) _ _)] at hk
    exact Or.inl hk

/-- A member is entered. -/
theorem update_member (s : Store Value) {g l : Key} (h : gains.member g l) (value : Store Value) :
    Evolves gains s ((Write.update (membersPath g) [([l], value)]).apply s) := by
  have hapart {q : Path} (h : Apart (membersPath g ++ [l]) q) :
      ((Write.update (membersPath g) [([l], value)]).apply s).get q = s.get q := by
    apply get_update_of_apart
    intro entry hentry
    rw [List.mem_singleton.mp hentry]
    exact h
  constructor
  · exact fun root rest' hroot => hapart (apart_of_ne (Ne.symm hroot) _ _)
  · intro g' name hname
    rw [hapart (apart_field _ _ _ (by decide) _ _)] at hname
    exact Or.inl hname
  · intro g' k hk
    obtain ⟨q, v, hv⟩ := (Store.mem_children _ _ _).mp hk
    rcases of_get_update hv with ⟨entry, hentry, hbelow⟩ | hbefore
    · rw [List.mem_singleton.mp hentry] at hbelow
      have hsame : g = g' ∧ l = k := by
        simpa [membersPath, List.cons_prefix_cons] using hbelow
      exact Or.inr (hsame.1 ▸ hsame.2 ▸ h)
    · exact Or.inl ((Store.mem_children _ _ _).mpr ⟨q, v, hbefore⟩)

/-- A group is created. -/
theorem create (s : Store Value) {g : Key} {title description currentUser : String}
    {members : Store Value} (hmaster : gains.master g currentUser)
    (hmembers : ∀ p v, members.get p = some v → ∃ k : Key, p = [k] ∧ gains.member g k) :
    Evolves gains s ((Write.update [Keys.groups, g]
      [([Keys.master], str currentUser), ([Keys.title], str title), ([Keys.description], str description),
        ([Keys.groupListCount], int 0), ([Keys.groupListCheckCount], int 0),
        ([Keys.members], members)]).apply s) := by
  have hpairwise := pairwise_createGroup currentUser title description members
  have hother {g' : Key} (hg : g ≠ g') (q : Path) :=
    get_apply_of_apart (w := .update [Keys.groups, g] [([Keys.master], str currentUser),
      ([Keys.title], str title), ([Keys.description], str description), ([Keys.groupListCount], int 0),
      ([Keys.groupListCheckCount], int 0), ([Keys.members], members)])
      (q := Keys.groups :: g' :: q) ((apart_cons _ _ _).mpr (apart_of_ne hg _ _)) s
  constructor
  · exact fun root rest hroot =>
      get_apply_of_apart (w := .update _ _) (apart_of_ne (Ne.symm hroot) _ _) s
  · intro g' name hname
    by_cases hg : g = g'
    · subst hg
      have hnew := get_update_of_mem hpairwise List.mem_cons_self [Keys.groups, g] [] s
      have : currentUser = name := by simpa [str] using hnew.symm.trans hname
      exact Or.inr (this ▸ hmaster)
    · rw [hother hg] at hname
      exact Or.inl hname
  · intro g' k hk
    by_cases hg : g = g'
    · subst hg
      obtain ⟨q, v, hv⟩ := (Store.mem_children _ _ _).mp hk
      have hentry : ([Keys.members], members) ∈ [([Keys.master], str currentUser),
          ([Keys.title], str title), ([Keys.description], str description),
          ([Keys.groupListCount], int 0), ([Keys.groupListCheckCount], int 0), ([Keys.members], members)] := by
        simp
      have hnew := get_update_of_mem hpairwise hentry [Keys.groups, g] (k :: q) s
      obtain ⟨k', hpath, hgain⟩ := hmembers (k :: q) v (hnew.symm.trans hv)
      exact Or.inr ((List.cons.inj hpath).1 ▸ hgain)
    · rw [children_congr fun q => hother hg _] at hk
      exact Or.inl hk

end Evolves

/-- The contract of a call that has written what it writes for the account. -/
def evolving (gains : Gains) (db : Store Value) : Contract AuthorityCall Value where
  inv s := Evolves gains db s
  may _ _ _ := True
  keeps s s' := Evolves gains s s'
  crash := True
  inv_of_keeps h h' := h.trans h'

/-- What the groups gain when an account that is a member takes another name. -/
def changeGains (old new : Option Key) (db : Store Value) : Gains where
  master g name := (∃ k ∈ new, k.1 = name) ∧
    ∃ l ∈ old, db.get [Keys.groups, g, Keys.master] = some (.string l.1)
  member g k := k ∈ new ∧ ∃ l ∈ old, l ∈ db.children (membersPath g)

namespace evolving

variable {gains : Gains} {db : Store Value} {t : AuthorityCall}

/-- A group without a member has not listed it before, unless the call enters it. -/
theorem keeps_unlisted {g k : Key} (hk : ¬ gains.member g k) (s s' : Store Value)
    (_ : (evolving gains db).inv s) (h : (evolving gains db).keeps s s') (hs : Unlisted g k s) :
    Unlisted g k s' := fun hlisted => (h.members g k hlisted).elim hs hk

/-- The scan of an item field leaves masters and members alone. -/
theorem holds_changeItemField {field : String} (key : Key) (hfield : parsePath field = some [key])
    (current changed : String) :
    (evolving gains db).Holds t (changeItemField field current changed : Prog String Value) := by
  apply GroceryListApp.holds_changeItemField key hfield
  · exact fun _ _ _ _ _ => Or.inr trivial
  · exact fun _ g k _ _ s _ _ => .update_beside gains s g [k, key] rfl (by decide) (by decide) _

/-- The part of a change of username that follows the writes for the account. -/
theorem holds_scans (t : AuthorityCall) {db₁ : Store Value} (uid old new : Key)
    (hgroups : ∀ rest, db₁.get (Keys.groups :: rest) = db.get (Keys.groups :: rest)) :
    (evolving (changeGains (some old) (some new) db) db₁).Holds t (.block [changeMaster old.1 new.1,
      changeUsersInGroup old.1 new.1 uid.1, changeMarkedOffBy old.1 new.1, changeAddedBy old.1 new.1] :
        Prog String Value) := by
  apply Contract.holds_block
  intro p hp
  simp only [List.mem_cons, List.not_mem_nil, or_false] at hp
  rcases hp with rfl | rfl | rfl | rfl
  · apply GroceryListApp.holds_changeMaster (fun _ _ _ _ => Or.inr trivial)
    intro s g hs hold s' _ _
    apply Evolves.update_master
    rcases hs.master g old.1 hold with hbefore | hgain
    · exact ⟨⟨new, rfl, rfl⟩, old, rfl, (hgroups _).symm.trans hbefore⟩
    · exact ⟨⟨new, rfl, rfl⟩, hgain.2⟩
  · apply GroceryListApp.holds_changeUsersInGroup (fun _ => trivial)
    · exact fun _ g k _ _ _ s _ _ => .remove _ s [g, Keys.members, k]
    · intro s g k name hs hk hold hname s' _ _
      rw [parsePath_key, Option.some.injEq] at hname
      subst hname
      apply Evolves.update_member
      rcases hs.members g k hk with hbefore | hgain
      · rw [children_congr fun q => hgroups _] at hbefore
        exact ⟨rfl, old, rfl, Subtype.ext hold ▸ hbefore⟩
      · exact ⟨rfl, hgain.2⟩
  · exact holds_changeItemField Keys.markedOffBy (by simp) old.1 new.1
  · exact holds_changeItemField Keys.addedBy (by simp) old.1 new.1

/-- The scan of a deletion adds nothing. -/
theorem holds_deleteFromGroups (username : String) :
    (evolving gains db).Holds t (deleteFromGroups username : Prog String Value) := by
  apply GroceryListApp.holds_deleteFromGroups
  exact fun _ g k _ _ _ s _ _ => .remove gains s [g, Keys.members, k]

/-- Leaving a group adds nothing. -/
theorem holds_removeUserFromGroup (group uid : Key) :
    (evolving gains db).Holds t (removeUserFromGroup leavingUser group.1 uid.1) := by
  apply GroceryListApp.holds_removeUserFromGroup
  · exact fun _ _ => Or.inr trivial
  · exact fun _ k _ _ _ s _ _ => .remove gains s [group, Keys.members, k]
  · exact fun s _ _ => .remove gains s [group]

/-- Creating a group adds its master and the chosen members. -/
theorem holds_createGroup {uid autoId : Key} {title description currentUser : String}
    {chosenUserArray : List String} (hmaster : gains.master autoId currentUser)
    (hmember : ∀ k : Key, k.1 ∈ chosenUserArray → gains.member autoId k) :
    (evolving gains db).Holds t
      (createGroupAction autoId title description currentUser chosenUserArray uid : Prog String Value) := by
  refine ⟨fun s _ => ?_, trivial⟩
  apply Contract.holds_force (fun _ => trivial)
  intro ids _
  apply Contract.holds_force (fun _ => trivial)
  intro usernames husernames
  rw [createGroup_eq]
  apply Contract.holds_force (fun _ => trivial)
  intro members hmembers
  refine ⟨fun s _ _ => .create s hmaster fun p v hv => ?_, trivial⟩
  obtain ⟨k, rfl, hk⟩ := Store.of_get_dictionary hmembers hv
  obtain ⟨entry, hentry, hsame⟩ := List.mem_map.mp hk
  refine ⟨k, rfl, hmember k ?_⟩
  exact (Prod.mk.inj hsame).1 ▸ RosterWrite.mem_usernameDict husernames hentry

end evolving

/-! ### The invariant -/

/-- The names of accounts and of members are listed as taken, and an account that is a member with
the name of the master created the group. -/
structure Authority (creator : Key → Option Key) (db : Store Value) : Prop where
  listed : ∀ uid name, storedUsername db uid = some name →
    ∃ k : Key, k.1 = name ∧ db.get [Keys.usernames, k] = some (.string uid.1)
  members : ∀ g, ∀ k ∈ db.children (membersPath g), ∃ v, db.get [Keys.usernames, k] = some v
  master : ∀ g uid name, storedUsername db uid = some name → IsMember db name g →
    db.get [Keys.groups, g, Keys.master] = some (.string name) → creator g = some uid

namespace Authority

variable {creator : Key → Option Key} {db db' : Store Value}

/-- The accounts have different names. -/
theorem distinct (h : Authority creator db) : DistinctNames db := by
  intro uid uid' name huid huid'
  obtain ⟨k, hk, hget⟩ := h.listed uid name huid
  obtain ⟨k', hk', hget'⟩ := h.listed uid' name huid'
  rw [Subtype.ext (hk.trans hk'.symm), hget', Option.some.injEq, Value.string.injEq] at hget
  exact (Subtype.ext hget).symm

/-- An available name is not stored. -/
theorem ne_available (h : Authority creator db) {uid : Key} {name new : String}
    (hname : storedUsername db uid = some name) (hnew : Available db new) : name ≠ new := by
  intro hsame
  obtain ⟨k, hk, hget⟩ := h.listed uid name hname
  rw [hnew.not_listed (hk.trans hsame) []] at hget
  contradiction

/-- No group lists an available name. -/
theorem not_member_available (h : Authority creator db) {new : String} (hnew : Available db new)
    (g : Key) : ¬ IsMember db new g := by
  rintro ⟨k, hk, hname⟩
  obtain ⟨v, hv⟩ := h.members g k hk
  rw [hnew.not_listed hname []] at hv
  contradiction

/-- Members that are entered have to be listed as taken, and masters have to be the creators. -/
theorem of_evolves {creator' : Key → Option Key} {gains : Gains} (h : Authority creator db)
    (hevolves : Evolves gains db db')
    (hmember : ∀ g k, gains.member g k → ∃ v, db.get [Keys.usernames, k] = some v)
    (hmaster : ∀ g uid name, storedUsername db uid = some name → IsMember db' name g →
      db'.get [Keys.groups, g, Keys.master] = some (.string name) → creator' g = some uid) :
    Authority creator' db' where
  listed uid name hname := by
    rw [hevolves.storedUsername] at hname
    obtain ⟨k, hk, hget⟩ := h.listed uid name hname
    exact ⟨k, hk, (hevolves.beside _ _ (by decide)).trans hget⟩
  members g k hk := by
    obtain ⟨v, hv⟩ := (hevolves.members g k hk).elim (h.members g k) (hmember g k)
    exact ⟨v, (hevolves.beside _ _ (by decide)).trans hv⟩
  master g uid name hname := by
    rw [hevolves.storedUsername] at hname
    exact hmaster g uid name hname

/-- Leaving a group keeps authority. -/
theorem left (h : Authority creator db) (hevolves : Evolves ⟨fun _ _ => False, fun _ _ => False⟩ db db') :
    Authority creator db' := by
  apply h.of_evolves hevolves
  · exact fun g k hgain => hgain.elim
  · rintro g uid name hname ⟨k, hk, hsame⟩ hmaster
    have hmember := (hevolves.members g k hk).resolve_right id
    exact h.master g uid name hname ⟨k, hmember, hsame⟩ ((hevolves.master g name hmaster).resolve_right id)

/-- What a new group gains. -/
def createGains (autoId : Key) (currentUser : String) (chosenUserArray : List String) : Gains where
  master g name := g = autoId ∧ name = currentUser
  member g k := g = autoId ∧ k.1 ∈ chosenUserArray

/-- Creating a group gives authority to its creator. -/
theorem created (h : Authority creator db) {uid autoId : Key} {currentUser : String}
    {chosenUserArray : List String} (huser : storedUsername db uid = some currentUser)
    (hfresh : autoId ∉ db.children [Keys.groups])
    (hchosen : ∀ name ∈ chosenUserArray, name ∈ storedUsernames db)
    (hevolves : Evolves (createGains autoId currentUser chosenUserArray) db db') :
    Authority (Function.update creator autoId (some uid)) db' := by
  apply h.of_evolves hevolves
  · rintro g k ⟨-, hk⟩
    obtain ⟨uid', huid'⟩ := mem_storedUsernames.mp (hchosen _ hk)
    obtain ⟨k', hk', hget⟩ := h.listed uid' k.1 huid'
    exact ⟨_, Subtype.ext hk' ▸ hget⟩
  · rintro g uid' name hname ⟨k, hk, hsame⟩ hmaster
    by_cases hg : g = autoId
    · subst hg
      rcases hevolves.master g name hmaster with hbefore | ⟨-, rfl⟩
      · exact absurd (mem_children_of_get (p := [Keys.groups]) hbefore) hfresh
      · rw [Function.update_self, h.distinct uid uid' name huser hname]
    · rw [Function.update_of_ne hg]
      have hmember := (hevolves.members g k hk).resolve_right fun hgain => hg hgain.1
      have hbefore := (hevolves.master g name hmaster).resolve_right fun hgain => hg hgain.1
      exact h.master g uid' name hname ⟨k, hmember, hsame⟩ hbefore

end Authority

/-- When an account changes its name, authority stays unless it takes the name of a master of one of
its groups. -/
theorem Authority.changed {creator : Key → Option Key} {db db₁ db' : Store Value} {uid : Key}
    (h : Authority creator db) (old new : Option Key) (hold : storedUsername db uid = old.map Subtype.val)
    (hnew : ∀ k ∈ new, Available db k.1) (hname : ChangesName uid old new db db₁)
    (hevolves : Evolves (changeGains old new db) db₁ db')
    (hunlisted : ∀ k ∈ old, ∀ g, Unlisted g k db')
    (hclear : ∀ k ∈ new, ∀ l ∈ old, ∀ g, l ∈ db.children (membersPath g) →
      db.get [Keys.groups, g, Keys.master] ≠ some (.string k.1)) : Authority creator db' := by
  have hchildren (g : Key) : db₁.children (membersPath g) = db.children (membersPath g) :=
    children_congr fun q => hname.groups _
  have hother {other : Key} (hne : other ≠ uid) {name : String}
      (hstored : storedUsername db' other = some name) : storedUsername db other = some name := by
    rwa [hevolves.storedUsername, hname.others other hne] at hstored
  constructor
  · intro other name hstored
    by_cases hsame : other = uid
    · subst hsame
      rw [hevolves.storedUsername, hname.own] at hstored
      obtain ⟨k, hk, rfl⟩ := Option.map_eq_some_iff.mp hstored
      exact ⟨k, rfl, (hevolves.beside _ _ (by decide)).trans (hname.listed k hk)⟩
    · have hbefore := hother hsame hstored
      obtain ⟨k, hk, hget⟩ := h.listed other name hbefore
      refine ⟨k, hk, ?_⟩
      rw [hevolves.beside _ _ (by decide), hname.kept k, hget]
      · intro hmem
        apply hsame
        apply h.distinct other uid name hbefore
        rw [hold, hmem, Option.map_some, hk]
      · intro hmem
        exact h.ne_available hbefore (hnew k hmem) hk.symm
  · intro g k hk
    rw [hevolves.beside _ _ (by decide)]
    by_cases htaken : k ∈ new
    · exact ⟨_, hname.listed k htaken⟩
    · have hbefore := (hevolves.members g k hk).resolve_right fun hgain => htaken hgain.1
      rw [hchildren] at hbefore
      rw [hname.kept k (fun hmem => hunlisted k hmem g hk) htaken]
      exact h.members g k hbefore
  · rintro g other name hstored ⟨k, hk, rfl⟩ hmaster
    have hmember := hevolves.members g k hk
    have hmaster := hevolves.master g k.1 hmaster
    rw [hchildren] at hmember
    rw [hname.groups] at hmaster
    by_cases hsame : other = uid
    · subst hsame
      rw [hevolves.storedUsername, hname.own] at hstored
      obtain ⟨k', hk', hval⟩ := Option.map_eq_some_iff.mp hstored
      obtain rfl := Subtype.ext hval
      obtain ⟨-, l, hl, hlisted⟩ := hmember.resolve_left fun hbefore =>
        h.not_member_available (hnew k' hk') g ⟨k', hbefore, rfl⟩
      obtain ⟨-, l', hl', hbefore⟩ := hmaster.resolve_left (hclear k' hk' l hl g hlisted)
      obtain rfl := Option.mem_unique hl hl'
      refine h.master g other l.1 ?_ ⟨l, hlisted, rfl⟩ hbefore
      rw [hold, hl, Option.map_some]
    · have hbefore := hother hsame hstored
      have htaken {k' : Key} (hmem : k' ∈ new) : k'.1 ≠ k.1 := fun hval =>
        h.ne_available hbefore (hnew k' hmem) hval.symm
      have hlisted := hmember.resolve_right fun hgain => htaken hgain.1 rfl
      have hstays := hmaster.resolve_right fun ⟨⟨k', hmem, hval⟩, _⟩ => htaken hmem hval
      exact h.master g other k.1 hbefore ⟨k, hlisted, rfl⟩ hstays

/-! ### The calls -/

namespace Authority

variable {creator : Key → Option Key} {db : Store Value} {mem : String} {t : AuthorityCall}
  {s' : AuthoritySys}

/-- A program that a contract allows for comes to an end with what the groups gain. -/
theorem evolves_of_finishes {gains : Gains} {program : Prog String Value}
    (h : Sys.Finishes AuthorityCall.code ⟨db, mem, [(t, .run program)]⟩ s')
    (hholds : (evolving gains db).Holds t program) : Evolves gains db s'.db := by
  refine (h.holds_owes (c := evolving gains db) (fun _ _ _ => trivial) (.refl gains db) ?_).1
  simpa [Contract.HoldsBody] using hholds

/-- A scan that comes to an end has removed the members it owes to remove. -/
theorem unlisted_of_finishes (gains : Gains) {program : Prog String Value} {g k : Key}
    (h : Sys.Finishes AuthorityCall.code ⟨db, mem, [(t, .run program)]⟩ s')
    (hholds : (evolving gains db).Holds t program) (hgain : ¬ gains.member g k)
    (howes : program.Owes (Unlisted g k)) : Unlisted g k s'.db := by
  refine (h.holds_owes (c := evolving gains db) (fun _ _ _ => trivial) (.refl gains db) ?_).2 _
    (evolving.keeps_unlisted hgain) ⟨_, List.mem_singleton_self _, howes⟩
  simpa [Contract.HoldsBody] using hholds

/-- Registering an account keeps authority. -/
theorem registerUser (h : Authority creator db) {uid : Key} {providerID email username : String}
    (hfresh : storedUsername db uid = none) (hname : Available db username)
    (hrun : Sys.Finishes AuthorityCall.code
      ⟨db, mem, [(t, .run (registerUser uid providerID email username))]⟩ s') :
    Authority creator s'.db := by
  rw [registerUser_eq uid providerID email ⟨username, hname.1⟩] at hrun
  rw [hrun.write.write.write.done]
  apply h.changed none (some ⟨username, hname.1⟩) hfresh
  · intro k hk
    obtain rfl := Option.some.inj hk
    exact hname
  · exact .register uid db providerID email _
  · exact .refl _ _
  · rintro k hk
    contradiction
  · rintro k - l hl
    contradiction

/-- Changing a username keeps authority unless a member takes the name of the master. -/
theorem changeUsername (h : Authority creator db) {uid : Key} {profileName newUsername : String}
    (hshown : storedUsername db uid = some profileName) (hname : Available db newUsername)
    (hclear : NoTakeover db (.changeUsername uid profileName newUsername))
    (hrun : Sys.Finishes AuthorityCall.code
      ⟨db, mem, [(t, .run (changeUsernameAction uid profileName newUsername))]⟩ s') :
    Authority creator s'.db := by
  obtain ⟨old, rfl, -⟩ := h.listed uid profileName hshown
  have hne : old ≠ ⟨newUsername, hname.1⟩ := fun hsame =>
    h.ne_available hshown hname (congrArg Subtype.val hsame)
  rw [changeUsernameAction_eq uid old ⟨newUsername, hname.1⟩] at hrun
  have hscans := hrun.write.write.write
  have hchange := ChangesName.rename uid db hne
  have hholds := evolving.holds_scans t uid old ⟨newUsername, hname.1⟩ hchange.groups
  apply h.changed (some old) (some ⟨newUsername, hname.1⟩) hshown
  · intro k hk
    obtain rfl := Option.some.inj hk
    exact hname
  · exact hchange
  · exact evolves_of_finishes hscans hholds
  · intro k hk g
    obtain rfl := Option.some.inj hk
    refine unlisted_of_finishes _ hscans hholds (fun hgain => hne (Option.some.inj hgain.1).symm) ?_
    refine Prog.owes_block (List.mem_of_getElem? (i := 1) rfl) ?_
    exact owes_changeUsersInGroup g old (fun s hs => not_not.mp hs) (RosterWrite.unlisted_remove g old)
  · intro k hk l hl g hmember
    obtain rfl := Option.some.inj hk
    obtain rfl := Option.some.inj hl
    obtain ⟨q, v, hv⟩ := (Store.mem_children _ _ _).mp hmember
    exact hclear g (mem_children_of_get (p := [Keys.groups]) hv) ⟨old, hmember, rfl⟩

/-- Deleting an account keeps authority. -/
theorem deleteAccount (h : Authority creator db) {uid : Key} {username : String}
    (hshown : storedUsername db uid = some username)
    (hrun : Sys.Finishes AuthorityCall.code ⟨db, mem, [(t, .run (confirmDeleteAction uid username))]⟩ s') :
    Authority creator s'.db := by
  obtain ⟨name, rfl, -⟩ := h.listed uid username hshown
  rw [confirmDeleteAction_eq] at hrun
  have hscan := hrun.write.write
  apply h.changed (some name) none hshown
  · rintro k hk
    contradiction
  · exact .delete uid db name
  · exact evolves_of_finishes hscan (evolving.holds_deleteFromGroups name.1)
  · intro k hk g
    obtain rfl := Option.some.inj hk
    refine unlisted_of_finishes (changeGains (some name) none db) hscan
      (evolving.holds_deleteFromGroups name.1) (fun hgain => by cases hgain.1) ?_
    exact owes_deleteFromGroups g name (fun s hs => not_not.mp hs) (RosterWrite.unlisted_remove g name)
  · rintro k hk
    contradiction

/-- Every call that runs to completion keeps authority, unless a member takes the name of the
master. -/
theorem step {s : AuthoritySys} (h : Authority creator s.db) (hfresh : FreshScreens s.db t)
    (hclear : NoTakeover s.db t) (hrun : s.Completes AuthorityCall.code t s') :
    Authority (t.founds creator) s'.db := by
  have hfinishes := hrun.2
  cases t with
  | registerUser uid providerID email username =>
    exact h.registerUser hfresh.1 hfresh.2 hfinishes
  | createGroup uid autoId title description currentUser chosenUserArray =>
    apply h.created hfresh.1 hfresh.2.1 hfresh.2.2
    exact evolves_of_finishes hfinishes (evolving.holds_createGroup ⟨rfl, rfl⟩ fun k hk => ⟨rfl, hk⟩)
  | leaveGroup uid group =>
    exact h.left (evolves_of_finishes hfinishes (evolving.holds_removeUserFromGroup group uid))
  | changeUsername uid profileName newUsername =>
    exact h.changeUsername hfresh.1 hfresh.2 hclear hfinishes
  | deleteAccount uid username => exact h.deleteAccount hfresh hfinishes

end Authority

/-- No accounts and no groups. -/
def AuthoritySys.start : AuthoritySys := ⟨.empty, "", []⟩

/-- In every run of calls that complete one after the other on fresh screens, as long as no member of
a group takes the name of its master, `DELETE GROUP` is offered on a group only to the account that
created it. -/
theorem authority_stays {calls : List AuthorityCall} {s : AuthoritySys}
    (h : Sys.Serial AuthorityCall.code (fun s t => FreshScreens s.db t ∧ NoTakeover s.db t)
      AuthoritySys.start calls s) {uid g : Key} (hoffered : OffersDelete s.db uid g) :
    creator calls g = some uid := by
  have hstart : Authority (fun _ => none) AuthoritySys.start.db := by
    constructor <;> intros <;> simp_all [AuthoritySys.start, Store.mem_children, storedUsername_eq_some_iff]
  have hauthority : Authority (creator calls) s.db :=
    h.refines (R := fun creator s => Authority creator s.db)
      (fun hs hmay hcompletes => hs.step hmay.1 hmay.2 hcompletes) hstart
  obtain ⟨user, huser, hmember, hmaster⟩ := hoffered.master
  exact hauthority.master g uid user huser hmember hmaster

/-- Two accounts, and a group of both that the first one creates. -/
def shareHome : List (AuthorityCall × ℕ) :=
  [(.registerUser Sample.uidA "Firebase" "" "alice", 4), (.registerUser Sample.uidB "Firebase" "" "bobby", 4),
    (.createGroup Sample.uidA Sample.home "Home" "" "alice" ["alice", "bobby"], 5)]

/-- The creator takes another name and the other member leaves. -/
def renameAndLeave : List (AuthorityCall × ℕ) := shareHome ++
  [(.changeUsername Sample.uidA "alice" "carol", 28), (.leaveGroup Sample.uidB Sample.home, 11)]

/-- The creator deletes its account and the other member takes the name. -/
def deleteAndTake : List (AuthorityCall × ℕ) := shareHome ++
  [(.deleteAccount Sample.uidA "alice", 10), (.changeUsername Sample.uidB "bobby" "alice", 27)]

/-- Whether a row for a group that an account is listed under its name offers `DELETE GROUP`. -/
def rowOffersDelete (db : Store Value) (uid g : Key) (user : String) : Bool :=
  storedUsername db uid = some user ∧
    (collectGroups id user (db.snapshot [Keys.groups])).any fun found => found.1.any fun row =>
      row.key = g.1 ∧ "DELETE GROUP" ∈ GroupsVC.editActionsForRowAt row user

/-- The row of one enumeration offers it already. -/
theorem OffersDelete.of_row {db : Store Value} {uid g : Key} {user : String}
    (h : rowOffersDelete db uid g user = true) : OffersDelete db uid g := by
  simp only [rowOffersDelete, Bool.decide_and, Bool.and_eq_true, decide_eq_true_eq,
    Option.any_eq_true, List.any_eq_true] at h
  obtain ⟨huser, found, hfound, row, hrow, hoffered⟩ := h
  exact ⟨id, user, found, fun _ => List.Perm.refl _, huser, hfound, row, hrow, hoffered⟩

/-- The creator is renamed and another member leaves; the row still offers the creator to delete. -/
theorem authority_stays_renamed : creator (renameAndLeave.map Prod.fst) Sample.home =
    some Sample.uidA := by
  have hruns : ∃ s ∈ Sys.serially AuthorityCall.code
      (fun s t => FreshScreens s.db t ∧ NoTakeover s.db t) AuthoritySys.start renameAndLeave,
      rowOffersDelete s.db Sample.uidA Sample.home "carol" = true := by
    decide +kernel
  obtain ⟨s, hs, hoffered⟩ := hruns
  exact authority_stays (Sys.Serial.nil.append_serially rfl hs) (.of_row hoffered)

/-- Whoever takes the name of a deleted creator is offered to delete the group. -/
theorem not_authority_stays : ¬ ∀ calls s uid g,
    Sys.Serial AuthorityCall.code (fun s t => FreshScreens s.db t) AuthoritySys.start calls s →
      OffersDelete s.db uid g → creator calls g = some uid := by
  intro h
  have hruns : ∃ s ∈ Sys.serially AuthorityCall.code (fun s t => FreshScreens s.db t)
      AuthoritySys.start deleteAndTake, rowOffersDelete s.db Sample.uidB Sample.home "alice" = true := by
    decide +kernel
  obtain ⟨s, hs, hoffered⟩ := hruns
  have hcreator := h _ s Sample.uidB Sample.home (Sys.Serial.nil.append_serially rfl hs)
    (.of_row hoffered)
  exact absurd hcreator (by decide)

end GroceryListApp

import GroceryListApp.Groups.ReadOrder

/-!
# The members that a listed group shows

`getAllGroups` collects the members it walks over in one array for all groups, and makes the row of a
group as soon as it meets the caller among the members. So a row shows the members of all groups
walked so far and those of its own group up to the caller. These are its own members only if what the
earlier groups have contributed happens to be what is still missing, as in a group that comes first
and enumerates the caller last.
-/

namespace GroceryListApp

open Realtime

/-- The walk over all groups when the members of each are enumerated in an order of their own. -/
def collectGroupsIn (orders : String → List String → List String) (currentUser : String)
    (groupSnapshot : Snapshot Value) : Option (List Group × List String) :=
  groupSnapshot.children.foldlM (fun found group => do
    let memberDictionary ← asDictionary (group.childSnapshot "members")
    (orders group.key memberDictionary).foldlM (collectGroup currentUser group) found) ([], [])

/-- `getAllGroups` with these orders. -/
def getAllGroupsIn {M : Type} (currentUser : Var M String) (orders : String → List String → List String)
    (authUid : Option String) (handler : List Group → Prog M Value) : Prog M Value :=
  .force authUid fun uid => .block [
    .modify (currentUser.set "") .done,
    printUsername uid fun returnedUsername => .modify (currentUser.set returnedUsername) .done,
    REF_GROUPS.observeSingleEvent fun groupSnapshot =>
      .inspect fun m =>
        .force (collectGroupsIn orders (currentUser.get m) groupSnapshot) fun found =>
          handler found.1]

/-- One order for all dictionaries is the special case. -/
theorem getAllGroups_eq_in {M : Type} (currentUser : Var M String)
    (enumerate : List String → List String) (authUid : Option String)
    (handler : List Group → Prog M Value) :
    getAllGroups currentUser enumerate authUid handler =
      getAllGroupsIn currentUser (fun _ => enumerate) authUid handler := rfl

/-- Both reads of the walk hand on what it collects. -/
theorem getAllGroupsIn_eq (orders : String → List String → List String) (uid : Key) :
    getAllGroupsIn Caller.user orders (some uid.1) Caller.keep =
      handsOn uid [Keys.groups] fun user snapshot =>
        (collectGroupsIn orders user snapshot).map Prod.fst := by
  rw [handsOn, ← block_readsTwo]
  simp only [getAllGroupsIn, Prog.force_some, force_rows]
  rfl

/-! ### What a row should show -/

/-- The usernames that a group lists as its members. -/
def groupMembers (db : Store Value) (g : Key) : List String :=
  (db.children (membersPath g)).map Subtype.val

/-- A row shows what is stored in a group beside its members. -/
structure ShowsFields (db : Store Value) (g : Key) (row : Group) : Prop where
  key : row.key = g.1
  title : db.get [Keys.groups, g, Keys.title] = some (.string row.groupTitle)
  description : db.get [Keys.groups, g, Keys.description] = some (.string row.groupDesc)
  master : db.get [Keys.groups, g, Keys.master] = some (.string row.master)
  listCount : db.get [Keys.groups, g, Keys.groupListCount] = some (.int row.listCount)
  listCheckCount : db.get [Keys.groups, g, Keys.groupListCheckCount] = some (.int row.listCheckCount)

/-- A row shows a group with exactly its own members. -/
def ShowsExactly (db : Store Value) (g : Key) (row : Group) : Prop :=
  ShowsFields db g row ∧ row.members.Perm (groupMembers db g)

/-- There is exactly one row for each group that lists the user, in the order of the tree. -/
def ListsExactly (db : Store Value) (user : String) (rows : List Group) : Prop :=
  List.Forall₂ (ShowsExactly db)
    ((db.children [Keys.groups]).filter fun g => IsMember db user g) rows

/-- The names that come after a name. -/
def namesAfter (user : String) (names : List String) : List String :=
  (names.dropWhile (· ≠ user)).tail

/-- Of the groups that list the user, each enumerates after the user exactly the members of all the
groups that come before it in the tree, which have listed the given names. -/
def EarlierCompletes (db : Store Value) (orders : String → List String → List String) (user : String) :
    List String → List Key → Prop
  | _, [] => True
  | earlier, g :: groups =>
    (IsMember db user g → earlier.Perm (namesAfter user (orders g.1 (groupMembers db g)))) ∧
      EarlierCompletes db orders user (earlier ++ groupMembers db g) groups

/-! ### The walk -/

section

variable {db : Store Value} {g : Key} {user : String} {orders : String → List String → List String}

/-- On a group with its fields, a round adds the name, and a row when it is the caller's. -/
theorem exists_collectGroup (user : String) (h : HasFields groupFields db ([Keys.groups] ++ [g])) :
    ∃ row : List String → Group, (∀ members, ShowsFields db g (row members) ∧
        (row members).members = members) ∧
      ∀ found name, collectGroup user ⟨g.1, (db.sub [Keys.groups]).sub [g]⟩ found name =
        some (if name = user then found.1 ++ [row (found.2 ++ [name])] else found.1,
          found.2 ++ [name]) := by
  obtain ⟨title, htitle⟩ := exists_asString h Keys.title "title" (by simp [groupFields]) (by simp)
  obtain ⟨description, hdescription⟩ := exists_asString h Keys.description "description"
    (by simp [groupFields]) (by simp)
  obtain ⟨master, hmaster⟩ := exists_asString h Keys.master "master" (by simp [groupFields]) (by simp)
  obtain ⟨count, hcount⟩ := exists_asInt h Keys.groupListCount "list count"
    (by simp [groupFields]) (by simp)
  obtain ⟨check, hcheck⟩ := exists_asInt h Keys.groupListCheckCount "list check count"
    (by simp [groupFields]) (by simp)
  have hstring {name text : String} {key : Key} (hname : parsePath name = some [key])
      (hcast : asString (Snapshot.childSnapshot ⟨g.1, (db.sub [Keys.groups]).sub [g]⟩ name) = some text) :
      db.get [Keys.groups, g, key] = some (.string text) := by
    have hvalue := (asString_eq_some_iff _ text).mp hcast
    rwa [Snapshot.value_childSnapshot_child db [Keys.groups] [key] g hname] at hvalue
  have hint {name : String} {number : ℤ} {key : Key} (hname : parsePath name = some [key])
      (hcast : asInt (Snapshot.childSnapshot ⟨g.1, (db.sub [Keys.groups]).sub [g]⟩ name) = some number) :
      db.get [Keys.groups, g, key] = some (.int number) := by
    have hvalue := ((asInt_eq_some_iff _ number).mp hcast).1
    rwa [Snapshot.value_childSnapshot_child db [Keys.groups] [key] g hname] at hvalue
  refine ⟨fun members => ⟨title, description, g.1, members, master, count, check⟩, fun members => ?_, ?_⟩
  · exact ⟨⟨rfl, hstring (by simp) htitle, hstring (by simp) hdescription, hstring (by simp) hmaster,
      hint (by simp) hcount, hint (by simp) hcheck⟩, rfl⟩
  · intro found name
    by_cases hname : name = user
    · simp [collectGroup, hname, htitle, hdescription, hmaster, hcount, hcheck]
    · simp [collectGroup, hname]

/-- The walk over the members of one group: a row if the caller is among them, with what was collected
before and the members up to the caller. -/
theorem foldlM_collectGroup_row {names : List String} (hnames : names.Nodup)
    {walk : List Group × List String → String → Option (List Group × List String)}
    {row : List String → Group}
    (hwalk : ∀ found name, walk found name =
      some (if name = user then found.1 ++ [row (found.2 ++ [name])] else found.1, found.2 ++ [name]))
    (found : List Group × List String) :
    names.foldlM walk found = some (found.1 ++
      (if user ∈ names then [row (found.2 ++ names.takeWhile (· ≠ user) ++ [user])] else []),
      found.2 ++ names) := by
  induction names generalizing found with
  | nil => simp
  | cons name names ih =>
    obtain ⟨hname, hrest⟩ := List.nodup_cons.mp hnames
    rw [List.foldlM_cons, hwalk]
    refine (ih hrest _).trans ?_
    by_cases hsame : name = user
    · subst hsame
      simp [hname]
    · simp [hsame, Ne.symm hsame]

/-- A list of different names is cut into what comes before a name, the name, and what comes after. -/
theorem takeWhile_append_namesAfter {names : List String} (h : user ∈ names) :
    names = names.takeWhile (· ≠ user) ++ [user] ++ namesAfter user names := by
  induction names with
  | nil => contradiction
  | cons name names ih =>
    by_cases hsame : name = user
    · subst hsame
      simp [namesAfter]
    · have hmem : user ∈ names := (List.mem_cons.mp h).resolve_left (Ne.symm hsame)
      have hafter : namesAfter user (name :: names) = namesAfter user names := by
        simp [namesAfter, hsame]
      rw [hafter, List.takeWhile_cons_of_pos (by simpa using hsame), List.cons_append, List.cons_append,
        ← ih hmem]

/-- A row shows exactly its own members when what was collected earlier is what comes after the caller. -/
theorem perm_members_iff {earlier names members : List String} (hperm : names.Perm members)
    (h : user ∈ names) :
    (earlier ++ names.takeWhile (· ≠ user) ++ [user]).Perm members ↔
      earlier.Perm (namesAfter user names) := by
  have hsplit := takeWhile_append_namesAfter h
  have hmembers : (names.takeWhile (· ≠ user) ++ [user] ++ namesAfter user names).Perm members :=
    hsplit ▸ hperm
  have hmove : (earlier ++ names.takeWhile (· ≠ user) ++ [user]).Perm
      (names.takeWhile (· ≠ user) ++ [user] ++ earlier) := by
    rw [List.append_assoc]
    exact List.perm_append_comm
  constructor
  · intro hshown
    exact (List.perm_append_left_iff _).mp (hmove.symm.trans (hshown.trans hmembers.symm))
  · intro hearlier
    exact hmove.trans ((hearlier.append_left _).trans hmembers)

/-- The walk over some groups: its rows show exactly the groups that list the user when the earlier
groups complete them. -/
theorem foldlM_groups_iff (user : String) (horders : ∀ key names, (orders key names).Perm names) {groups : List Key}
    (hreadable : ∀ g ∈ groups, GroupReadable db ([Keys.groups] ++ [g])) {earlier names : List String}
    (hearlier : names.Perm earlier) (found : List Group) :
    ∃ rows names', (groups.map fun g => (⟨g.1, (db.sub [Keys.groups]).sub [g]⟩ : Snapshot Value)).foldlM
        (fun found group => do
          let memberDictionary ← asDictionary (group.childSnapshot "members")
          (orders group.key memberDictionary).foldlM (collectGroup user group) found) (found, names) =
        some (found ++ rows, names') ∧
      (List.Forall₂ (ShowsExactly db) (groups.filter fun g => IsMember db user g) rows ↔
        EarlierCompletes db orders user earlier groups) := by
  induction groups generalizing earlier names found with
  | nil => exact ⟨[], names, by simp, iff_of_true .nil trivial⟩
  | cons g groups ih =>
    obtain ⟨hfields, hmembers⟩ := hreadable g List.mem_cons_self
    obtain ⟨row, hrow, hround⟩ := exists_collectGroup user hfields
    have hperm := horders g.1 (groupMembers db g)
    have hnodup : (orders g.1 (groupMembers db g)).Nodup :=
      hperm.nodup_iff.mpr ((Store.nodup_children db _).map Subtype.val_injective)
    have hmember : user ∈ orders g.1 (groupMembers db g) ↔ IsMember db user g := by
      rw [hperm.mem_iff, groupMembers, List.mem_map]
      rfl
    have hstep := foldlM_collectGroup_row hnodup hround (found, names)
    generalize hfirst : (if user ∈ orders g.1 (groupMembers db g)
      then [row (names ++ (orders g.1 (groupMembers db g)).takeWhile (· ≠ user) ++ [user])] else []) =
        first at hstep
    obtain ⟨rows, names', hrows, hiff⟩ := ih
      (fun other hother => hreadable other (List.mem_cons_of_mem _ hother)) (hearlier.append hperm)
      (found ++ first)
    refine ⟨first ++ rows, names', ?_, ?_⟩
    · rw [List.map_cons, List.foldlM_cons, asDictionary_members hmembers]
      simp only [Option.bind_eq_bind, Option.bind_some]
      rw [← groupMembers, hstep, ← List.append_assoc]
      exact hrows
    · by_cases hlisted : IsMember db user g
      · have hshown : ShowsExactly db g
            (row (names ++ (orders g.1 (groupMembers db g)).takeWhile (· ≠ user) ++ [user])) ↔
            earlier.Perm (namesAfter user (orders g.1 (groupMembers db g))) := by
          obtain ⟨hstored, hnames⟩ := hrow
            (names ++ (orders g.1 (groupMembers db g)).takeWhile (· ≠ user) ++ [user])
          rw [ShowsExactly, and_iff_right hstored, hnames, perm_members_iff hperm (hmember.mpr hlisted)]
          exact ⟨hearlier.symm.trans, hearlier.trans⟩
        rw [← hfirst, if_pos (hmember.mpr hlisted), List.filter_cons_of_pos (by simpa using hlisted),
          List.singleton_append, List.forall₂_cons, hshown, hiff, EarlierCompletes]
        exact and_congr_left fun _ => ⟨fun hearlier _ => hearlier, fun hearlier => hearlier hlisted⟩
      · rw [← hfirst, if_neg (mt hmember.mp hlisted), List.filter_cons_of_neg (by simpa using hlisted),
          List.nil_append, hiff, EarlierCompletes]
        exact (and_iff_right fun h => absurd h hlisted).symm

end

/-- The handler of `getAllGroups` is handed exactly the groups of the user, with exactly their own
members, if and only if in each of these groups the members enumerated after the user are the members
of all groups before it. -/
theorem lists_exactly_iff {db : Store Value} (h : Each GroupReadable db [Keys.groups])
    {orders : String → List String → List String}
    (horders : ∀ key names, (orders key names).Perm names) {uid : Key} {user : String}
    (huser : storedUsername db uid = some user) :
    (∃ rows, handedBy (getAllGroupsIn Caller.user orders (some uid.1) Caller.keep) db [0, 0] =
        some rows ∧ ListsExactly db user rows) ↔
      EarlierCompletes db orders user [] (db.children [Keys.groups]) := by
  obtain ⟨rows, names, hwalk, hiff⟩ := foldlM_groups_iff user horders h (List.Perm.refl []) []
  have hhanded : handedBy (getAllGroupsIn Caller.user orders (some uid.1) Caller.keep) db [0, 0] =
      some rows := by
    rw [getAllGroupsIn_eq, handedBy_username, huser, Option.bind_some, collectGroupsIn,
      Snapshot.children_snapshot, hwalk]
    rfl
  rw [hhanded]
  constructor
  · intro hlists
    obtain ⟨rows', hsame, hexactly⟩ := hlists
    rw [← Option.some.inj hsame] at hexactly
    exact hiff.mp hexactly
  · intro hcompletes
    exact ⟨rows, rfl, hiff.mpr hcompletes⟩

/-- The members of the group of two. -/
def twoMembers : Store Value :=
  (Store.empty.put [Sample.alice] (str "uidA")).put [Sample.bobby] (str "uidB")

/-- A group of two with all its fields. -/
def readableByTwo : Store Value :=
  (Write.update [Keys.groups, Sample.home] [([Keys.master], str "alice"), ([Keys.title], str "Home"),
    ([Keys.description], str ""), ([Keys.groupListCount], int 0), ([Keys.groupListCheckCount], int 0),
    ([Keys.members], twoMembers)]).apply sharedByTwo

/-- The group of two is readable. -/
theorem each_readableByTwo : Each GroupReadable readableByTwo [Keys.groups] := by
  have hgroups : readableByTwo.children [Keys.groups] = [Sample.home] := by decide
  have hmember : twoMembers.get [Sample.alice] = some (.string "uidA") := by decide
  intro g hg
  rw [hgroups, List.mem_singleton] at hg
  rw [hg]
  exact GroupReadable.of_createGroup sharedByTwo _ "Home" "" "alice" hmember

/-- A group of the other account before a group of two in the tree. -/
def readableByOther : Store Value :=
  (Write.update [Keys.groups, Sample.home] [([Keys.master], str "bobby"), ([Keys.title], str "Home"),
    ([Keys.description], str ""), ([Keys.groupListCount], int 0), ([Keys.groupListCheckCount], int 0),
    ([Keys.members], Store.empty.put [Sample.bobby] (str "uidB"))]).apply
  ((Write.update [Keys.groups, Sample.work] [([Keys.master], str "alice"), ([Keys.title], str "Work"),
    ([Keys.description], str ""), ([Keys.groupListCount], int 0), ([Keys.groupListCheckCount], int 0),
    ([Keys.members], twoMembers)]).apply sharedByTwo)

/-- Both groups are readable. -/
theorem each_readableByOther : Each GroupReadable readableByOther [Keys.groups] := by
  have hgroups : readableByOther.children [Keys.groups] = [Sample.home, Sample.work] := by decide
  have hother : (Store.empty.put [Sample.bobby] (str "uidB")).get [Sample.bobby] = some (.string "uidB") := by
    decide
  have hmember : twoMembers.get [Sample.alice] = some (.string "uidA") := by decide
  intro g hg
  rw [hgroups, List.mem_cons, List.mem_singleton] at hg
  rcases hg with rfl | rfl
  · exact GroupReadable.of_createGroup _ _ "Home" "" "bobby" hother
  · -- the group of two is stored first, and the update of the other group is beside it
    refine groupReadable_local (fun q => ?_) (GroupReadable.of_createGroup sharedByTwo _ "Work" "" "alice" hmember)
    apply get_apply_of_apart
    have hne : Sample.home ≠ Sample.work := by decide
    exact (apart_cons Keys.groups _ _).mpr (apart_of_ne hne [] q)

/-- Two groups, the caller listed in the second and enumerated there before the only member of the
first: the row of the second group shows its two members, one of them collected in the first. -/
theorem lists_exactly_second : ∃ rows,
    handedBy (getAllGroupsIn Caller.user (fun _ names => names) (some Sample.uidA.1) Caller.keep)
      readableByOther [0, 0] = some rows ∧ ListsExactly readableByOther "alice" rows := by
  have horders (key : String) (names : List String) : names.Perm names := List.Perm.refl names
  refine (lists_exactly_iff each_readableByOther horders (by decide)).mpr ?_
  have hgroups : readableByOther.children [Keys.groups] = [Sample.home, Sample.work] := by decide
  have hnot : ¬ IsMember readableByOther "alice" Sample.home := by decide
  have hearlier : groupMembers readableByOther Sample.home = ["bobby"] := by decide
  have hafter : namesAfter "alice" (groupMembers readableByOther Sample.work) = ["bobby"] := by decide
  rw [hgroups]
  refine ⟨fun h => absurd h hnot, fun _ => ?_, trivial⟩
  rw [hafter, hearlier]
  exact List.Perm.refl _

/-- A caller who is enumerated first is listed as the only member. -/
theorem not_lists_exactly : ¬ ∀ (db : Store Value) (orders : String → List String → List String)
    (uid : Key) (user : String), Each GroupReadable db [Keys.groups] →
      (∀ key names, (orders key names).Perm names) → storedUsername db uid = some user →
      ∃ rows, handedBy (getAllGroupsIn Caller.user orders (some uid.1) Caller.keep) db [0, 0] =
        some rows ∧ ListsExactly db user rows := by
  intro hclaim
  obtain ⟨rows, hrows, hlists⟩ := hclaim readableByTwo (fun _ names => names) Sample.uidA "alice"
    each_readableByTwo (fun _ names => List.Perm.refl names) (by decide)
  have hhanded : handedBy (getAllGroupsIn Caller.user (fun _ names => names) (some Sample.uidA.1)
      Caller.keep) readableByTwo [0, 0] = some [⟨"Home", "", "home", ["alice"], "alice", 0, 0⟩] := by
    decide
  have hlisted : (readableByTwo.children [Keys.groups]).filter
      (fun g => IsMember readableByTwo "alice" g) = [Sample.home] := by
    decide
  have hsame := Option.some.inj (hhanded.symm.trans hrows)
  rw [ListsExactly, hlisted, ← hsame] at hlists
  have hperm := (List.forall₂_cons.mp hlists).1.2
  have hlength : (groupMembers readableByTwo Sample.home).length = 2 := by decide
  have hshown := hperm.length_eq
  rw [hlength] at hshown
  exact absurd hshown (by simp)

end GroceryListApp

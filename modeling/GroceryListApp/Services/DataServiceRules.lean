import GroceryListApp.Realtime.Settle
import GroceryListApp.Services.DataService

/-!
# The writes of the data service

For each function the locations it writes to, and the rule that a contract holds for the
function when it permits these writes. A rule about a scan hands on what the scan has seen:
the group that was listed, and the member or item that was found when the nested read was
answered.
-/

namespace GroceryListApp

open Realtime

variable {T M : Type*} {c : Contract T Value} {t : T}

/-! ### Functions that only write -/

/-- The fields of an account are stored in one write. -/
theorem createDBUser_eq (uid : Key) (providerID email username : String) :
    (createDBUser uid [("provider", str providerID), ("email", str email),
        ("username", str username)] : Prog M Value) =
      .write (.update [Keys.users, uid] [([Keys.provider], str providerID),
        ([Keys.email], str email), ([Keys.username], str username)]) .done := by
  simp [createDBUser, REF_USERS, Ref.updateChildValues]

/-- An index entry is written where its username denotes a location. -/
theorem addUsername_eq (uid username : String) :
    (addUsername uid username : Prog M Value) =
      .force (parsePath username) fun name =>
        .write (.update [Keys.usernames] [(name, str uid)]) .done := by
  cases h : parsePath username <;> simp [addUsername, REF_USERNAMES, Ref.updateChildValues, h]

/-- The empty nickname is one write. -/
theorem addNameName_eq (uid : Key) :
    (addNameName uid : Prog M Value) =
      .write (.update [Keys.users, uid] [([Keys.nameName], str "")]) .done := by
  simp [addNameName, REF_USERS, Ref.updateChildValues]

/-- Another username is one write. -/
theorem changeUsername_eq (uid : Key) (username : String) :
    (changeUsername uid username : Prog M Value) =
      .write (.update [Keys.users, uid] [([Keys.username], str username)]) .done := by
  simp [changeUsername, REF_USERS, Ref.updateChildValues]

/-- An index entry is removed where its username denotes a location. -/
theorem deleteFromUsernames_eq (username : String) :
    (deleteFromUsernames username : Prog M Value) =
      .force (parsePath username) fun name => .write (.remove (Keys.usernames :: name)) .done := by
  cases h : parsePath username <;>
    simp [deleteFromUsernames, REF_USERNAMES, Ref.child, Ref.removeValue, h]

/-- An account is removed by one write. -/
theorem deleteUserFromDatabase_eq (uid : Key) :
    (deleteUserFromDatabase uid : Prog M Value) = .write (.remove [Keys.users, uid]) .done := by
  simp [deleteUserFromDatabase, REF_USERS, Ref.removeValue]

/-- A group is stored in one write when its members form a dictionary. -/
theorem createGroup_eq (autoId : Key) (title description master : String)
    (usernames : List (String × String)) (handler : Bool → Prog M Value) :
    createGroup autoId title description master usernames handler =
      .force (Store.dictionary (usernames.map fun entry => (entry.1, Value.string entry.2)))
        fun members => .write (.update [Keys.groups, autoId]
          [([Keys.master], str master), ([Keys.title], str title),
            ([Keys.description], str description), ([Keys.groupListCount], int 0),
            ([Keys.groupListCheckCount], int 0), ([Keys.members], members)]) (handler true) := by
  simp [createGroup, REF_GROUPS, Ref.childByAutoId, Ref.updateChildValues]

/-- The fields of a new group lie apart from each other. -/
theorem pairwise_createGroup (master title description : String) (members : Store Value) :
    ([([Keys.master], str master), ([Keys.title], str title), ([Keys.description], str description),
      ([Keys.groupListCount], int 0), ([Keys.groupListCheckCount], int 0), ([Keys.members], members)] :
      List (Path × Store Value)).Pairwise fun a b => Apart a.1 b.1 := by
  simp +decide [List.pairwise_cons]

/-- An item of a group is stored where its name denotes a location. -/
theorem createGroupItem_eq (uid : Key) (item description addedBy : String)
    (sendComplete : Bool → Prog M Value) :
    createGroupItem uid item description addedBy sendComplete =
      .force (parsePath item) fun name =>
        .write (.update ([Keys.groups, uid, Keys.groceryList] ++ name)
          [([Keys.description], str description), ([Keys.addedBy], str addedBy),
            ([Keys.markedOffBy], str "- -"), ([Keys.isSelected], bool false)])
          (sendComplete true) := by
  cases h : parsePath item <;>
    simp [createGroupItem, REF_GROUPS, Ref.child, Ref.updateChildValues, h]

/-- An item is checked off before the counter is read. -/
theorem markeOffUser_eq (uid : Key) (item username : String) :
    (markeOffUser uid item username : Prog M Value) =
      .force (parsePath item) fun name =>
        .write (.update ([Keys.groups, uid, Keys.groceryList] ++ name)
          [([Keys.markedOffBy], str username), ([Keys.isSelected], bool true)])
          (increaseListCheckCount uid) := by
  cases h : parsePath item <;>
    simp [markeOffUser, REF_GROUPS, Ref.child, Ref.updateChildValues, h]

/-- An item is unchecked before the counter is read. -/
theorem uncheckUser_eq (uid : Key) (item : String) :
    (uncheckUser uid item : Prog M Value) =
      .force (parsePath item) fun name =>
        .write (.update ([Keys.groups, uid, Keys.groceryList] ++ name)
          [([Keys.markedOffBy], str "- -"), ([Keys.isSelected], bool false)])
          (decreaseListCheckCount uid) := by
  cases h : parsePath item <;>
    simp [uncheckUser, REF_GROUPS, Ref.child, Ref.updateChildValues, h]

/-- An item is removed before the counter is read. -/
theorem removeGroupItem_eq (uid : Key) (item : String) :
    (removeGroupItem uid item : Prog M Value) =
      .force (parsePath item) fun name =>
        .write (.remove ([Keys.groups, uid, Keys.groceryList] ++ name))
          (decreaseListCount uid) := by
  cases h : parsePath item <;>
    simp [removeGroupItem, REF_GROUPS, Ref.child, Ref.removeValue, h]

/-- A group is removed by one write. -/
theorem removeGroup_eq (groupUid : Key) :
    (removeGroup groupUid : Prog M Value) = .write (.remove [Keys.groups, groupUid]) .done := by
  simp [removeGroup, REF_GROUPS, Ref.removeValue]

/-! ### Counters -/

/-- A counter function reads its counter and writes it from the callback. -/
theorem adjustCount_eq (p : Path) {field : String} {key : Key} (h : parsePath field = some [key])
    (delta : ℤ) :
    (adjustCount (some p) field delta : Prog M Value) =
      .observe (p ++ [key]) (fun snapshot => .force (asInt snapshot) fun n =>
        .force (addInt n delta) fun adjusted => .write (.update p [([key], int adjusted)]) .done)
        .done := by
  simp [adjustCount, Ref.child, Ref.observeSingleEvent, Ref.updateChildValues, h]

/-- A counter function writes the value its read delivered, adjusted, at the same place. -/
theorem holds_adjustCount {p : Path} {field : String} {key : Key} {delta : ℤ}
    (h : parsePath field = some [key])
    (hcast : ∀ s, c.inv s →
      (∃ n, s.get (p ++ [key]) = some (.int n) ∧ FitsInt n ∧ FitsInt (n + delta)) ∨ c.crash)
    (hwrite : ∀ s n, c.inv s → s.get (p ++ [key]) = some (.int n) → FitsInt (n + delta) →
      c.Permits t (.update p [([key], int (n + delta))])) :
    c.Holds t (adjustCount (some p) field delta : Prog M Value) := by
  rw [adjustCount_eq p h]
  refine ⟨fun s hs => Contract.holds_force (fun hnone => ?_) fun n hn => ?_, trivial⟩
  · refine (hcast s hs).resolve_left fun ⟨n, hn, hfits, _⟩ => ?_
    rw [(asInt_eq_some_iff _ n).mpr ⟨by simpa using hn, hfits⟩] at hnone
    contradiction
  · have hstored : s.get (p ++ [key]) = some (.int n) := by
      simpa using ((asInt_eq_some_iff _ n).mp hn).1
    apply Contract.holds_force
    · intro hnone
      refine (hcast s hs).resolve_left fun ⟨n', hn', _, hfits⟩ => ?_
      obtain rfl : n' = n := Value.int.inj (Option.some.inj (hn'.symm.trans hstored))
      rw [(addInt_eq_some_iff _ _ _).mpr ⟨rfl, hfits⟩] at hnone
      contradiction
    · intro adjusted hadjusted
      obtain ⟨rfl, hfits⟩ := (addInt_eq_some_iff _ _ _).mp hadjusted
      exact ⟨hwrite s n hs hstored hfits, trivial⟩

/-! ### Scans over every group -/

/-- A loop over the children of a read location keeps the contract when each round does. -/
theorem holds_children {s : Store Value} {p : Path} {body : Snapshot Value → Prog M Value}
    (h : ∀ k ∈ s.children p, c.Holds t (body ⟨k.1, (s.sub p).sub [k]⟩)) :
    c.Holds t (.forEach (s.snapshot p).children body) := by
  rw [Snapshot.children_snapshot]
  apply Contract.holds_forEach
  intro child hchild
  obtain ⟨k, hk, rfl⟩ := List.mem_map.mp hchild
  exact h k hk

/-- The scan for creators writes to groups whose creator has the old username. -/
theorem holds_changeMaster {currentUsername changedUsername : String}
    (hcast : ∀ s g, c.inv s → g ∈ s.children [Keys.groups] →
      (∃ m, s.get [Keys.groups, g, Keys.master] = some (.string m)) ∨ c.crash)
    (hwrite : ∀ s g, c.inv s → s.get [Keys.groups, g, Keys.master] = some (.string currentUsername) →
      c.Permits t (.update [Keys.groups, g] [([Keys.master], str changedUsername)])) :
    c.Holds t (changeMaster currentUsername changedUsername : Prog M Value) := by
  refine ⟨fun s hs => holds_children fun g hg => ?_, trivial⟩
  have hname : parsePath "master" = some [Keys.master] := by simp
  have hvalue := Snapshot.value_childSnapshot_child s [Keys.groups] [Keys.master] g hname
  apply Contract.holds_force
  · intro hnone
    refine (hcast s g hs hg).resolve_left fun ⟨m, hm⟩ => ?_
    rw [(asString_eq_some_iff _ m).mpr (hvalue.trans hm)] at hnone
    contradiction
  · intro m hm
    split
    · next hcurrent =>
      split
      · have hstored := hvalue.symm.trans ((asString_eq_some_iff _ m).mp hm)
        simpa [REF_GROUPS, Ref.updateChildValues, Contract.Holds] using
          hwrite s g hs (hcurrent ▸ hstored)
      · trivial
    · trivial

/-- The shape that the scans with a nested read share. -/
theorem holds_scan {field : String} (key : Key) (hfield : parsePath field = some [key])
    {body : Snapshot Value → Snapshot Value → Prog M Value}
    (hbody : ∀ s g s' k, c.inv s → c.inv s' → g ∈ s.children [Keys.groups] →
      k ∈ s'.children [Keys.groups, g, key] →
      c.Holds t (body ⟨g.1, (s.sub [Keys.groups]).sub [g]⟩
        ⟨k.1, (s'.sub [Keys.groups, g, key]).sub [k]⟩)) :
    c.Holds t (REF_GROUPS.observeSingleEvent fun groupSnapshot =>
      .forEach groupSnapshot.children fun group =>
        ((REF_GROUPS.child group.key).child field).observeSingleEvent fun snapshot =>
          .forEach snapshot.children (body group) : Prog M Value) := by
  refine ⟨fun s hs => holds_children fun g hg => ?_, trivial⟩
  have href : (REF_GROUPS.child g.1).child field = some [Keys.groups, g, key] := by
    simp [REF_GROUPS, Ref.child, hfield]
  rw [href]
  exact ⟨fun s' hs' => holds_children fun k hk => hbody s g s' k hs hs' hg hk, trivial⟩

/-- A scan over the items writes to items that record the old username. -/
theorem holds_changeItemField {field : String} (key : Key) (hfield : parsePath field = some [key])
    {currentUsername changedUsername : String}
    (hcast : ∀ s g k, c.inv s → k ∈ s.children [Keys.groups, g, Keys.groceryList] →
      (∃ m, s.get [Keys.groups, g, Keys.groceryList, k, key] = some (.string m)) ∨ c.crash)
    (hwrite : ∀ s g k, c.inv s →
      s.get [Keys.groups, g, Keys.groceryList, k, key] = some (.string currentUsername) →
      c.Permits t (.update [Keys.groups, g, Keys.groceryList, k] [([key], str changedUsername)])) :
    c.Holds t (changeItemField field currentUsername changedUsername : Prog M Value) := by
  refine holds_scan Keys.groceryList parsePath_field.2.2.2.2.1 fun s g s' k _ hs' _ hk => ?_
  have hvalue := Snapshot.value_childSnapshot_child s' [Keys.groups, g, Keys.groceryList] [key] k
    hfield
  apply Contract.holds_force
  · intro hnone
    refine (hcast s' g k hs' hk).resolve_left fun ⟨m, hm⟩ => ?_
    rw [(asString_eq_some_iff _ m).mpr (hvalue.trans hm)] at hnone
    contradiction
  · intro m hm
    split
    · next hcurrent =>
      have hstored := hvalue.symm.trans ((asString_eq_some_iff _ m).mp hm)
      simpa [REF_GROUPS, Ref.child, Ref.updateChildValues, Contract.Holds, hfield] using
        hwrite s' g k hs' (hcurrent ▸ hstored)
    · trivial

/-- The scan for a deleted account removes members of its name. -/
theorem holds_deleteFromGroups {username : String}
    (hwrite : ∀ s g k, c.inv s → k ∈ s.children [Keys.groups, g, Keys.members] →
      k.1 = username → c.Permits t (.remove [Keys.groups, g, Keys.members, k])) :
    c.Holds t (deleteFromGroups username : Prog M Value) := by
  refine holds_scan Keys.members (by simp) fun s g s' k _ hs' _ hk => ?_
  split
  · next hname =>
    simpa [REF_GROUPS, Ref.child, Ref.removeValue, Contract.Holds] using hwrite s' g k hs' hk hname
  · trivial

/-- The scan for members removes the old username and writes the new one beside it. -/
theorem holds_changeUsersInGroup {currentUsername changedUsername uid : String}
    (hcast : parsePath changedUsername = none → c.crash)
    (hremove : ∀ s g k, c.inv s → k ∈ s.children [Keys.groups, g, Keys.members] →
      k.1 = currentUsername → c.Permits t (.remove [Keys.groups, g, Keys.members, k]))
    (hwrite : ∀ s g k name, c.inv s → k ∈ s.children [Keys.groups, g, Keys.members] →
      k.1 = currentUsername → parsePath changedUsername = some name →
      c.Permits t (.update [Keys.groups, g, Keys.members] [(name, str uid)])) :
    c.Holds t (changeUsersInGroup currentUsername changedUsername uid : Prog M Value) := by
  refine holds_scan Keys.members (by simp) fun s g s' k _ hs' _ hk => ?_
  split
  · next hname =>
    have hremoved := hremove s' g k hs' hk hname
    have hwritten := hwrite s' g k
    subst hname
    cases hparse : parsePath changedUsername with
    | none =>
      simpa [REF_GROUPS, Ref.child, Ref.removeValue, Ref.updateChildValues, Contract.Holds,
        hparse] using ⟨hremoved, hcast hparse⟩
    | some name =>
      simpa [REF_GROUPS, Ref.child, Ref.removeValue, Ref.updateChildValues, Contract.Holds,
        hparse] using ⟨hremoved, hwritten name hs' hk rfl hparse⟩
  · trivial

/-- A leave removes a member of a group that has more of them, or the group. -/
theorem holds_removeUserFromGroup {currentUser : Var M String} {groupUid : Key} {uid : Key}
    (hcast : ∀ s, c.inv s →
      (∃ name, s.get [Keys.users, uid, Keys.username] = some (.string name)) ∨ c.crash)
    (hremove : ∀ s k, c.inv s → k ∈ s.children [Keys.groups, groupUid, Keys.members] →
      1 < (s.children [Keys.groups, groupUid, Keys.members]).length →
      c.Permits t (.remove [Keys.groups, groupUid, Keys.members, k]))
    (hgroup : c.Permits t (.remove [Keys.groups, groupUid])) :
    c.Holds t (removeUserFromGroup currentUser groupUid.1 uid.1 : Prog M Value) := by
  apply Contract.holds_block
  intro p hp
  simp only [List.mem_cons, List.not_mem_nil, or_false] at hp
  rcases hp with rfl | rfl | rfl
  · trivial
  · have href : REF_USERS.child uid.1 = some [Keys.users, uid] := by simp [REF_USERS]
    rw [printUsername, href]
    refine ⟨fun s hs => Contract.holds_force (fun hnone => ?_) fun name _ => trivial, trivial⟩
    refine (hcast s hs).resolve_left fun ⟨name, hname⟩ => ?_
    have hfield : parsePath "username" = some [Keys.username] := by simp
    have hvalue := value_childSnapshot s [Keys.users, uid] [Keys.username] hfield
    rw [(asString_eq_some_iff _ name).mpr (hvalue.trans hname)] at hnone
    contradiction
  · have href : (REF_GROUPS.child groupUid.1).child "members" =
        some [Keys.groups, groupUid, Keys.members] := by simp [REF_GROUPS, Ref.child]
    rw [href]
    refine ⟨fun s hs => holds_children fun k hk => ?_, trivial⟩
    rw [Snapshot.children_snapshot, List.length_map]
    split
    · next hmany =>
      intro m
      change c.Holds t (if k.1 = currentUser.get m then _ else _)
      split
      · next hname =>
        simpa [← hname, Ref.removeValue, Contract.Holds] using hremove s k hs hk hmany
      · trivial
    · simpa [removeGroup, REF_GROUPS, Ref.removeValue, Contract.Holds] using hgroup

end GroceryListApp

import GroceryListApp.Groups.Readable

/-!
# What the groups screen lists

`getAllGroups` walks the members of every group and adds a row for each entry that has the
name of the caller. On readable groups no cast fails, in whatever order the dictionaries of
members are enumerated, and there is one row for each group the caller is a member of.
-/

namespace GroceryListApp

open Realtime

/-- The keys of the groups that `getAllGroups` lists for an account, under its stored name. -/
def listedGroups (enumerate : List String → List String) (db : Store Value) (uid : Key) :
    Option (List String) :=
  (storedUsername db uid).bind fun user =>
    (collectGroups enumerate user (db.snapshot [Keys.groups])).map fun found =>
      found.1.map Group.key

/-- A row shows the key and the master of a stored group. -/
def ShowsGroup (db : Store Value) (row : Group) : Prop :=
  ∃ g : Key, row.key = g.1 ∧ db.get [Keys.groups, g, Keys.master] = some (.string row.master)

/-- The dictionary of members has the keys that are stored. -/
theorem asDictionary_members {db : Store Value} {g : Key} (h : db.children (membersPath g) ≠ []) :
    asDictionary (Snapshot.childSnapshot ⟨g.1, (db.sub [Keys.groups]).sub [g]⟩ "members") =
      some ((db.children (membersPath g)).map Subtype.val) := by
  have hnode : (Snapshot.childSnapshot ⟨g.1, (db.sub [Keys.groups]).sub [g]⟩ "members").node.children
      [] = db.children (membersPath g) := by
    simp [Snapshot.childSnapshot, membersPath]
  rw [asDictionary, hnode, if_neg h]
  simp [List.map_eq_flatMap]

/-- The walk over the members of one group adds a row for each entry with the name. -/
theorem foldlM_collectGroup {db : Store Value} {g : Key}
    (h : HasFields groupFields db ([Keys.groups] ++ [g])) (currentUser : String)
    (names : List String) (found : List Group × List String) :
    ∃ rows, names.foldlM (collectGroup currentUser ⟨g.1, (db.sub [Keys.groups]).sub [g]⟩) found =
        some (found.1 ++ rows, found.2 ++ names) ∧
      rows.map Group.key = List.replicate (names.count currentUser) g.1 ∧
      ∀ row ∈ rows, ShowsGroup db row := by
  obtain ⟨title, htitle⟩ := exists_asString h Keys.title "title" (by simp [groupFields]) (by simp)
  obtain ⟨description, hdescription⟩ := exists_asString h Keys.description "description"
    (by simp [groupFields]) (by simp)
  obtain ⟨master, hmaster⟩ := exists_asString h Keys.master "master" (by simp [groupFields]) (by simp)
  obtain ⟨count, hcount⟩ := exists_asInt h Keys.groupListCount "list count"
    (by simp [groupFields]) (by simp)
  obtain ⟨check, hcheck⟩ := exists_asInt h Keys.groupListCheckCount "list check count"
    (by simp [groupFields]) (by simp)
  have hshown : db.get [Keys.groups, g, Keys.master] = some (.string master) := by
    have hvalue := (asString_eq_some_iff _ master).mp hmaster
    rwa [Snapshot.value_childSnapshot_child db [Keys.groups] [Keys.master] g (by simp)] at hvalue
  induction names generalizing found with
  | nil => exact ⟨[], by simp⟩
  | cons name names ih =>
    rw [List.foldlM_cons]
    by_cases hname : name = currentUser
    · have hround : collectGroup currentUser ⟨g.1, (db.sub [Keys.groups]).sub [g]⟩ found name =
          some (found.1 ++ [⟨title, description, g.1, found.2 ++ [name], master, count, check⟩],
            found.2 ++ [name]) := by
        simp [collectGroup, hname, htitle, hdescription, hmaster, hcount, hcheck]
      obtain ⟨rows, hrows, hkeys, hall⟩ := ih
        (found.1 ++ [⟨title, description, g.1, found.2 ++ [name], master, count, check⟩],
          found.2 ++ [name])
      rw [hround]
      refine ⟨⟨title, description, g.1, found.2 ++ [name], master, count, check⟩ :: rows, ?_, ?_, ?_⟩
      · simpa using hrows
      · simp [hkeys, hname, List.replicate_succ]
      · intro row hrow
        rcases List.mem_cons.mp hrow with rfl | hrow
        · exact ⟨g, rfl, hshown⟩
        · exact hall row hrow
    · have hround : collectGroup currentUser ⟨g.1, (db.sub [Keys.groups]).sub [g]⟩ found name =
          some (found.1, found.2 ++ [name]) := by
        simp [collectGroup, hname]
      obtain ⟨rows, hrows, hkeys, hall⟩ := ih (found.1, found.2 ++ [name])
      rw [hround]
      refine ⟨rows, by simpa using hrows, ?_, hall⟩
      rw [hkeys, List.count_cons_of_ne hname]

/-- An account is a member under the name it has stored. -/
def IsMember (db : Store Value) (user : String) (g : Key) : Prop :=
  ∃ k ∈ db.children (membersPath g), k.1 = user

instance (db : Store Value) (user : String) (g : Key) : Decidable (IsMember db user g) :=
  inferInstanceAs (Decidable (∃ k ∈ db.children (membersPath g), k.1 = user))

/-- A member has one entry. -/
theorem count_members (db : Store Value) (user : String) (g : Key) :
    ((db.children (membersPath g)).map Subtype.val).count user =
      if IsMember db user g then 1 else 0 := by
  have hnodup : ((db.children (membersPath g)).map Subtype.val).Nodup :=
    (Store.nodup_children db _).map Subtype.val_injective
  split
  · next hmember =>
    obtain ⟨k, hk, rfl⟩ := hmember
    exact List.count_eq_one_of_mem hnodup (List.mem_map_of_mem hk)
  · next hmember =>
    rw [List.count_eq_zero]
    intro hmem
    exact hmember (List.mem_map.mp hmem)

/-- On readable groups there is one row for each group the user is a member of. -/
theorem collectGroups_rows {db : Store Value} (h : Each GroupReadable db [Keys.groups])
    {enumerate : List String → List String} (henum : ∀ names, (enumerate names).Perm names)
    (currentUser : String) :
    ∃ found, collectGroups enumerate currentUser (db.snapshot [Keys.groups]) = some found ∧
      found.1.map Group.key =
        ((db.children [Keys.groups]).filter fun g => IsMember db currentUser g).map Subtype.val ∧
      ∀ row ∈ found.1, ShowsGroup db row := by
  unfold collectGroups
  rw [Snapshot.children_snapshot]
  suffices hwalk : ∀ (groups : List Key), (∀ g ∈ groups, GroupReadable db ([Keys.groups] ++ [g])) →
      ∀ found : List Group × List String, (∀ row ∈ found.1, ShowsGroup db row) →
      ∃ found', (groups.map fun g => (⟨g.1, (db.sub [Keys.groups]).sub [g]⟩ : Snapshot Value)).foldlM
          (fun found group => do
            let memberDictionary ← asDictionary (group.childSnapshot "members")
            (enumerate memberDictionary).foldlM (collectGroup currentUser group) found) found =
            some found' ∧
        found'.1.map Group.key = found.1.map Group.key ++
          (groups.filter fun g => IsMember db currentUser g).map Subtype.val ∧
        ∀ row ∈ found'.1, ShowsGroup db row by
    obtain ⟨found, hfound, hkeys, hrows⟩ := hwalk _ h ([], []) (by simp)
    exact ⟨found, hfound, by simpa using hkeys, hrows⟩
  intro groups hreadable
  induction groups with
  | nil => exact fun found hfound => ⟨found, rfl, by simp, hfound⟩
  | cons g groups ih =>
    intro found hfound
    obtain ⟨hfields, hmembers⟩ := hreadable g List.mem_cons_self
    obtain ⟨rows, hrows, hkeys, hshown⟩ := foldlM_collectGroup hfields currentUser
      (enumerate ((db.children (membersPath g)).map Subtype.val)) found
    have hall : ∀ row ∈ found.1 ++ rows, ShowsGroup db row := by
      intro row hrow
      rcases List.mem_append.mp hrow with hrow | hrow
      · exact hfound row hrow
      · exact hshown row hrow
    obtain ⟨found', hfound', hkeys', hall'⟩ := ih
      (fun g' hg' => hreadable g' (List.mem_cons_of_mem _ hg')) (found.1 ++ rows, _) hall
    refine ⟨found', ?_, ?_, hall'⟩
    · rw [List.map_cons, List.foldlM_cons, asDictionary_members hmembers]
      simp only [Option.bind_eq_bind, Option.bind_some, hrows]
      exact hfound'
    · rw [hkeys', List.map_append, hkeys, (henum _).count_eq, count_members]
      by_cases hmember : IsMember db currentUser g <;> simp [hmember]

/-- On readable groups an account is listed the groups it is a member of. -/
theorem listedGroups_eq {db : Store Value} (h : Each GroupReadable db [Keys.groups])
    {enumerate : List String → List String} (henum : ∀ names, (enumerate names).Perm names)
    {uid : Key} {user : String} (huser : storedUsername db uid = some user) :
    listedGroups enumerate db uid =
      some (((db.children [Keys.groups]).filter fun g => IsMember db user g).map Subtype.val) := by
  obtain ⟨found, hfound, hkeys, -⟩ := collectGroups_rows h henum user
  simp [listedGroups, huser, hfound, hkeys]

end GroceryListApp

import GroceryListApp.Realtime.Collection
import GroceryListApp.Controller.GroupCallWrites

/-!
# Readable groups

The groups screen and the renaming of a master walk the groups of all users and cast what
they find, so one group without a title, a master, a counter or members stops every client.
Four kinds of writes can leave such a group behind: an update of a group that is no longer
stored, the removal of its last member, a group created without members, and a new username
that names no node. Along every schedule without them all groups stay readable.
-/

namespace GroceryListApp

open Realtime

/-- A group has its fields and at least one member. -/
def GroupReadable (db : Store Value) (p : Path) : Prop :=
  HasFields groupFields db p ∧ db.children (p ++ [Keys.members]) ≠ []

/-- Whether a group is readable depends on the group only. -/
theorem groupReadable_local : Local GroupReadable := by
  intro s s' p hsame h
  refine ⟨HasFields.isLocal _ hsame h.1, ?_⟩
  rw [children_congr fun q => by simpa using hsame (Keys.members :: q)]
  exact h.2

namespace GroupReadable

variable {s : Store Value} {p : Path}

/-- Writing the grocery list of a group keeps it readable. -/
theorem apply_groceryList (h : GroupReadable s p) {w : Write Value} {q : Path}
    (hw : w.location = p ++ Keys.groceryList :: q) : GroupReadable (w.apply s) p := by
  refine ⟨h.1.apply_below (by decide) hw, ?_⟩
  rw [children_congr fun r => ?_]
  · exact h.2
  · apply get_apply_of_apart
    rw [hw, List.append_assoc, apart_append_left]
    exact apart_of_ne (by decide) q r

/-- Writing a field with a value of its kind keeps a group readable. -/
theorem update_field (h : GroupReadable s p) {field : Key × (Value → Prop)}
    (hfield : field ∈ groupFields) {v : Value} (hv : field.2 v) :
    GroupReadable ((Write.update p [([field.1], .leaf v)]).apply s) p := by
  refine ⟨h.1.update_field (by decide) hfield hv, ?_⟩
  rw [children_congr fun r => ?_]
  · exact h.2
  · apply get_update_of_apart
    intro entry hentry
    rw [List.mem_singleton.mp hentry, List.append_assoc]
    exact (HasFields.apart_field (by decide) p r hfield).symm

/-- Adding a member keeps a group readable. -/
theorem update_members (h : GroupReadable s p) {name : Path} (hname : name ≠ []) (v : Value) :
    GroupReadable ((Write.update (p ++ [Keys.members]) [(name, .leaf v)]).apply s) p := by
  refine ⟨h.1.apply_below (by decide) rfl, ?_⟩
  obtain ⟨k, rest, rfl⟩ := List.exists_cons_of_ne_nil hname
  apply List.ne_nil_of_mem (a := k)
  rw [Store.mem_children]
  refine ⟨rest, v, ?_⟩
  simp [Write.apply, Store.get_put]

/-- Removing a member beside another one keeps a group readable. -/
theorem remove_member (h : GroupReadable s p) {k other : Key}
    (hother : other ∈ s.children (p ++ [Keys.members])) (hne : other ≠ k) :
    GroupReadable ((Write.remove (p ++ [Keys.members, k])).apply s) p := by
  refine ⟨h.1.apply_below (by decide) rfl, ?_⟩
  apply List.ne_nil_of_mem (a := other)
  obtain ⟨r, v, hv⟩ := (Store.mem_children _ _ _).mp hother
  rw [Store.mem_children]
  refine ⟨r, v, ?_⟩
  rw [Write.apply, Store.get_remove_eq_some_iff]
  refine ⟨?_, hv⟩
  simp [List.cons_prefix_cons, hne.symm]

/-- Removing what is not a member keeps a group readable. -/
theorem remove_absent (h : GroupReadable s p) {k : Key}
    (hk : k ∉ s.children (p ++ [Keys.members])) :
    GroupReadable ((Write.remove (p ++ [Keys.members, k])).apply s) p := by
  obtain ⟨other, hother⟩ := List.exists_mem_of_ne_nil _ h.2
  exact h.remove_member hother fun hsame => hk (hsame ▸ hother)

/-- A created group is readable when its dictionary of members has an entry. -/
theorem of_createGroup (s : Store Value) (p : Path) (title description master : String)
    {members : Store Value} {k : Key} {v : Value} (hmember : members.get [k] = some v) :
    GroupReadable ((Write.update p [([Keys.master], str master), ([Keys.title], str title),
      ([Keys.description], str description), ([Keys.groupListCount], int 0),
      ([Keys.groupListCheckCount], int 0), ([Keys.members], members)]).apply s) p := by
  have hapart := pairwise_createGroup master title description members
  constructor
  · apply HasFields.update hapart
    intro field hfield
    left
    simp only [groupFields, List.mem_cons, List.not_mem_nil, or_false] at hfield
    rcases hfield with rfl | rfl | rfl | rfl | rfl
    · exact ⟨_, ⟨title, rfl⟩, _, List.mem_of_getElem? (i := 1) rfl, rfl, by simp [str]⟩
    · exact ⟨_, ⟨description, rfl⟩, _, List.mem_of_getElem? (i := 2) rfl, rfl, by simp [str]⟩
    · exact ⟨_, ⟨master, rfl⟩, _, List.mem_of_getElem? (i := 0) rfl, rfl, by simp [str]⟩
    · exact ⟨_, ⟨0, rfl, by decide⟩, _, List.mem_of_getElem? (i := 3) rfl, rfl, by simp [int]⟩
    · exact ⟨_, ⟨0, rfl, by decide⟩, _, List.mem_of_getElem? (i := 4) rfl, rfl, by simp [int]⟩
  · apply List.ne_nil_of_mem (a := k)
    rw [Store.mem_children]
    refine ⟨[], v, ?_⟩
    have hget := get_update_of_mem hapart (List.mem_of_getElem? (i := 5) rfl) p [k] s
    rw [← hmember]
    exact hget

end GroupReadable

/-- The writes after which every group is still readable. -/
structure Careful (t : GroupCall) (db : Store Value) (w : Write Value) : Prop where
  /-- A group is created with members. -/
  created : ∀ autoId title description master usernames,
    t = .createGroup autoId title description master usernames → usernames ≠ []
  /-- Any other update goes to a group that is still stored. -/
  stored : t.createsGroup = false → ∀ g rest entries,
    w = .update (Keys.groups :: g :: rest) entries → g ∈ db.children [Keys.groups]
  /-- The new username of a member names a node below the members. -/
  renamed : ∀ g name v, w = .update [Keys.groups, g, Keys.members] [(name, v)] → name ≠ []
  /-- The last member of a group is not removed alone. -/
  last : ∀ g u, w = .remove [Keys.groups, g, Keys.members, u] →
    u ∈ db.children [Keys.groups, g, Keys.members] →
    ∃ other ∈ db.children [Keys.groups, g, Keys.members], other ≠ u

/-- The same, by the shape of the call and of the write. -/
theorem careful_iff (t : GroupCall) (db : Store Value) (w : Write Value) : Careful t db w ↔
    (match t with
      | .createGroup _ _ _ _ usernames => usernames ≠ []
      | _ => True) ∧
    (match w with
      | .update (root :: g :: _) _ =>
        t.createsGroup = false → root = Keys.groups → g ∈ db.children [Keys.groups]
      | _ => True) ∧
    (match w with
      | .update [root, _, field] [(name, _)] => root = Keys.groups → field = Keys.members → name ≠ []
      | _ => True) ∧
    (match w with
      | .remove [root, g, field, u] => root = Keys.groups → field = Keys.members →
        u ∈ db.children [Keys.groups, g, Keys.members] →
          ∃ other ∈ db.children [Keys.groups, g, Keys.members], other ≠ u
      | _ => True) := by
  constructor
  · rintro ⟨hcreated, hstored, hrenamed, hlast⟩
    refine ⟨?_, ?_, ?_, ?_⟩ <;> split
    · exact hcreated _ _ _ _ _ rfl
    · trivial
    · rintro ht rfl
      exact hstored ht _ _ _ rfl
    · trivial
    · rintro rfl rfl
      exact hrenamed _ _ _ rfl
    · trivial
    · rintro rfl rfl
      exact hlast _ _ rfl
    · trivial
  · rintro ⟨hcreated, hstored, hrenamed, hlast⟩
    refine ⟨?_, ?_, ?_, ?_⟩
    · rintro _ _ _ _ _ rfl
      exact hcreated
    · rintro ht _ _ _ rfl
      exact hstored ht rfl
    · rintro _ _ _ rfl
      exact hrenamed rfl rfl
    · rintro _ _ rfl
      exact hlast rfl rfl

instance (t : GroupCall) (db : Store Value) (w : Write Value) : Decidable (Careful t db w) := by
  refine @decidable_of_iff' _ _ (careful_iff t db w) (@instDecidableAnd _ _ ?_ (@instDecidableAnd _ _ ?_
    (@instDecidableAnd _ _ ?_ ?_)))
  · induction t using GroupCall.casesOn <;> dsimp only <;> infer_instance
  · exact match w with
    | .update (root :: g :: _) _ =>
      inferInstanceAs (Decidable (t.createsGroup = false → root = Keys.groups → g ∈ db.children [Keys.groups]))
    | .update [] _ | .update [_] _ | .remove _ => isTrue trivial
  · exact match w with
    | .update [root, _, field] [(name, _)] =>
      inferInstanceAs (Decidable (root = Keys.groups → field = Keys.members → name ≠ []))
    | .update [] _ | .update [_] _ | .update [_, _] _ | .update [_, _, _] [] => isTrue trivial
    | .update [_, _, _] (_ :: _ :: _) | .update (_ :: _ :: _ :: _ :: _) _ | .remove _ => isTrue trivial
  · exact match w with
    | .remove [root, g, field, u] => inferInstanceAs (Decidable (root = Keys.groups → field = Keys.members →
        u ∈ db.children [Keys.groups, g, Keys.members] →
          ∃ other ∈ db.children [Keys.groups, g, Keys.members], other ≠ u))
    | .remove [] | .remove [_] | .remove [_, _] | .remove [_, _, _] => isTrue trivial
    | .remove (_ :: _ :: _ :: _ :: _ :: _) | .update _ _ => isTrue trivial

/-- All groups are readable, and every careful write keeps them readable. A call may trap. -/
def readableGroups : Contract GroupCall Value :=
  .invariant (fun db => Each GroupReadable db [Keys.groups]) Careful True

namespace readableGroups

variable {t : GroupCall}

/-- Writes outside the groups are permitted. -/
theorem permits_elsewhere {w : Write Value} (hw : Apart w.location [Keys.groups]) :
    readableGroups.Permits t w := by
  intro s hs _
  exact Each.apply_of_apart groupReadable_local hs hw

/-- An update inside a stored group is permitted when it keeps that group readable. -/
theorem permits_update (ht : t.createsGroup = false) {g : Key} {rest : Path}
    {entries : List (Path × Store Value)}
    (hkeep : ∀ s, Careful t s (.update (Keys.groups :: g :: rest) entries) →
      GroupReadable s [Keys.groups, g] →
      GroupReadable ((Write.update (Keys.groups :: g :: rest) entries).apply s) [Keys.groups, g]) :
    readableGroups.Permits t (.update (Keys.groups :: g :: rest) entries) := by
  intro s hs hmay
  apply Each.apply_below groupReadable_local hs (k := g)
  · simp [Write.location, List.cons_prefix_cons]
  · intro _
    exact hkeep s hmay (hs g (hmay.stored ht g rest entries rfl))

/-- Updates of the grocery list of a stored group are permitted. -/
theorem permits_groceryList (ht : t.createsGroup = false) (g : Key) (q : Path)
    (entries : List (Path × Store Value)) :
    readableGroups.Permits t (.update (Keys.groups :: g :: Keys.groceryList :: q) entries) :=
  permits_update ht fun _ _ hg => hg.apply_groceryList rfl

/-- A removal inside a group is permitted when it keeps that group readable. -/
theorem permits_remove {g : Key} {rest : Path}
    (hkeep : ∀ s, Careful t s (.remove (Keys.groups :: g :: rest)) →
      GroupReadable s [Keys.groups, g] →
      GroupReadable ((Write.remove (Keys.groups :: g :: rest)).apply s) [Keys.groups, g]) :
    readableGroups.Permits t (.remove (Keys.groups :: g :: rest)) := by
  intro s hs hmay
  apply Each.apply_below groupReadable_local hs (k := g)
  · simp [Write.location, List.cons_prefix_cons]
  · intro hg
    obtain ⟨r, v, hv⟩ := (Store.mem_children _ _ _).mp hg
    have hbefore := ((Store.get_remove_eq_some_iff _ _ _ _).mp hv).2
    exact hkeep s hmay (hs g ((Store.mem_children _ _ _).mpr ⟨r, v, hbefore⟩))

/-- Removals from the grocery list of a group are permitted. -/
theorem permits_removeItem (g : Key) (q : Path) :
    readableGroups.Permits t (.remove (Keys.groups :: g :: Keys.groceryList :: q)) :=
  permits_remove fun _ _ hg => hg.apply_groceryList rfl

/-- Writing a counter or the master of a stored group is permitted. -/
theorem permits_field (ht : t.createsGroup = false) (g : Key) (field : Key × (Value → Prop))
    (hfield : field ∈ groupFields) {v : Value} (hv : field.2 v) :
    readableGroups.Permits t (.update [Keys.groups, g] [([field.1], .leaf v)]) :=
  permits_update ht fun _ _ hg => hg.update_field hfield hv

/-- Removing a member is permitted unless it is the last one. -/
theorem permits_removeMember (g u : Key) :
    readableGroups.Permits t (.remove [Keys.groups, g, Keys.members, u]) := by
  apply permits_remove
  intro s hmay hg
  by_cases hu : u ∈ s.children [Keys.groups, g, Keys.members]
  · obtain ⟨other, hother, hne⟩ := hmay.last g u rfl hu
    exact hg.remove_member hother hne
  · exact hg.remove_absent hu

/-- Removing a whole group is permitted. -/
theorem permits_removeGroup (g : Key) : readableGroups.Permits t (.remove [Keys.groups, g]) := by
  intro s hs _
  exact hs.remove_child groupReadable_local g

/-- Every write of a call is permitted. -/
theorem permits_writes {w : Write Value} (h : t.Writes w) : readableGroups.Permits t w := by
  cases h with
  | account hroot hw =>
    apply permits_elsewhere
    rw [hw]
    rcases hroot with rfl | rfl <;> exact apart_of_ne (by decide) _ _
  | @createGroup autoId title description master usernames members hmembers =>
    intro s hs hmay
    apply Each.apply_below groupReadable_local hs (k := autoId) (List.prefix_refl _)
    intro _
    have hne := hmay.created autoId title description master usernames rfl
    obtain ⟨entry, hentry⟩ := List.exists_mem_of_ne_nil _ hne
    obtain ⟨k, -, hk⟩ := Store.get_dictionary hmembers (List.mem_map.mpr ⟨entry, hentry, rfl⟩)
    exact GroupReadable.of_createGroup s _ title description master hk
  | @count _ ht g key n hfits hkey =>
    exact permits_field ht g (key, IsInt) (by rcases hkey with rfl | rfl <;> simp [groupFields])
      ⟨n, rfl, hfits⟩
  | @master _ _ newUsername g =>
    exact permits_field rfl g (Keys.master, IsString) (by simp [groupFields])
      ⟨newUsername, rfl⟩
  | addMember g hname =>
    exact permits_update rfl fun _ hmay hg => hg.update_members (hmay.renamed g _ _ rfl) _
  | removeMember g k => exact permits_removeMember g k
  | renameItem g k hkey => exact permits_groceryList rfl g _ _
  | addItem hname => exact permits_groceryList rfl _ _ _
  | checkItem hname => exact permits_groceryList rfl _ _ _
  | uncheckItem hname => exact permits_groceryList rfl _ _ _
  | removeItem hname => exact permits_removeItem _ _
  | removeGroup g => exact permits_removeGroup g

end readableGroups

/-! ### The casts of the walks over all groups -/

/-- No cast of `getAllGroups` fails on readable groups, in whatever order the dictionaries of
members are enumerated. -/
theorem isSome_collectGroups {db : Store Value} (h : Each GroupReadable db [Keys.groups])
    (enumerate : List String → List String) (currentUser : String) :
    (collectGroups enumerate currentUser (db.snapshot [Keys.groups])).isSome := by
  apply isSome_foldlM
  intro found group hgroup
  rw [Snapshot.children_snapshot] at hgroup
  obtain ⟨g, hg, rfl⟩ := List.mem_map.mp hgroup
  obtain ⟨hfields, hmembers⟩ := h g hg
  have hdictionary : ∃ members, asDictionary (Snapshot.childSnapshot
      ⟨g.1, (db.sub [Keys.groups]).sub [g]⟩ "members") = some members := by
    refine ⟨_, if_neg ?_⟩
    simpa [Snapshot.childSnapshot] using hmembers
  obtain ⟨members, hcast⟩ := hdictionary
  rw [hcast]
  apply isSome_foldlM
  intro found username _
  unfold collectGroup
  obtain ⟨title, htitle⟩ := exists_asString hfields Keys.title "title"
    (by simp [groupFields]) (by simp)
  obtain ⟨description, hdescription⟩ := exists_asString hfields Keys.description "description" (by simp [groupFields]) (by simp)
  obtain ⟨master, hmaster⟩ := exists_asString hfields Keys.master "master"
    (by simp [groupFields]) (by simp)
  obtain ⟨count, hcount⟩ := exists_asInt hfields Keys.groupListCount "list count" (by simp [groupFields]) (by simp)
  obtain ⟨check, hcheck⟩ := exists_asInt hfields Keys.groupListCheckCount "list check count" (by simp [groupFields]) (by simp)
  split
  · simp [htitle, hdescription, hmaster, hcount, hcheck]
  · rfl

/-- No cast of `changeMaster` fails on readable groups. -/
theorem steady_changeMaster {M : Type*} {db : Store Value} (h : Each GroupReadable db [Keys.groups])
    (currentUsername changedUsername : String) :
    ((changeMaster currentUsername changedUsername : Prog M Value).answer db).Steady := by
  apply Prog.steady_forEach
  intro group hgroup
  rw [Snapshot.children_snapshot] at hgroup
  obtain ⟨g, hg, rfl⟩ := List.mem_map.mp hgroup
  obtain ⟨master, hmaster⟩ := exists_asString (h g hg).1 Keys.master "master"
    (by simp [groupFields]) (by simp)
  rw [hmaster, Prog.force_some]
  split
  · split
    · simp [REF_GROUPS, Ref.updateChildValues, Prog.Steady]
    · trivial
  · trivial

/-! ### Every schedule -/

/-- Nothing stored and nothing pending. -/
def GroupSys.initial (mem : ℕ → String) : GroupSys := ⟨.empty, mem, []⟩

/-- Along every schedule of careful writes from the empty database all groups are readable,
and neither `getAllGroups` nor `changeMaster` traps on them. -/
theorem groups_readable {mem : ℕ → String} {acts : List (Act GroupCall)} {s : GroupSys}
    (h : Sys.Run GroupCall.code (Sys.Meets Careful) (GroupSys.initial mem) acts s) :
    Each GroupReadable s.db [Keys.groups] ∧
      (∀ enumerate currentUser,
        (collectGroups enumerate currentUser (s.db.snapshot [Keys.groups])).isSome) ∧
      ∀ currentUsername changedUsername,
        ((changeMaster currentUsername changedUsername : Prog (ℕ → String) Value).answer s.db).Steady := by
  have hstart : readableGroups.inv (GroupSys.initial mem).db := Each.empty _ _
  have hreadable : Each GroupReadable s.db [Keys.groups] :=
    (Contract.run_holds (fun _ _ ha => ha)
      (fun _ t _ => GroupCall.holds_code trivial fun _ hw => readableGroups.permits_writes hw)
      hstart (by simp [GroupSys.initial]) h).1
  exact ⟨hreadable, isSome_collectGroups hreadable, steady_changeMaster hreadable⟩

/-- A call that creates a group with two members. -/
def createHome : GroupCall :=
  .createGroup Sample.home "Home" "" "alice" [("alice", "uidA"), ("bobby", "uidB")]

/-- Two accounts share a group. While one of them adds an item, the other one's name is changed, and
then the first one leaves the group beside the other. -/
def leavesBesideRename : List (Act GroupCall) :=
  Act.alone (GroupCall.registerUser Sample.uidA "Firebase" "alice@mail.com" "alice") 4 ++
  Act.alone (GroupCall.registerUser Sample.uidB "Firebase" "bobby@mail.com" "bobby") 4 ++
  Act.alone createHome 2 ++
  [Act.spawn (GroupCall.addGroupItem Sample.home "milk" "" "bobby"),
    Act.spawn (GroupCall.changeUsername Sample.uidA "alice" "carol")] ++
  [0, 1, 0, 0, 0, 1, 0, 1, 0, 0, 0, 2, 0, 1, 2, 3, 0, 2, 0, 4].map Act.run ++
  [Act.spawn (GroupCall.removeUserFromGroup 0 Sample.home Sample.uidB)] ++
  [0, 1, 2, 3, 4, 0, 0, 2, 0, 1, 2, 3, 2, 3, 2, 0, 0, 2, 0, 1, 0, 1, 0, 0, 0, 0].map Act.run

/-- The group is readable after that, with the one member that is left under its new name. -/
theorem groups_readable_leavesBesideRename : ∃ s,
    (GroupSys.initial fun _ => "").checkedRuns GroupCall.code (Sys.Meets Careful) leavesBesideRename = some s ∧
      s.db.children [Keys.groups, Sample.home, Keys.members] = [Sample.carol] ∧
      Each GroupReadable s.db [Keys.groups] := by
  have hlast : ((GroupSys.initial fun _ => "").checkedRuns GroupCall.code (Sys.Meets Careful)
      leavesBesideRename).map (fun s => s.db.children [Keys.groups, Sample.home, Keys.members]) =
      some [Sample.carol] := by
    decide +kernel
  obtain ⟨s, hs, hmembers⟩ := Option.map_eq_some_iff.mp hlast
  exact ⟨s, hs, hmembers, (groups_readable (Sys.run_of_checkedRuns hs)).1⟩

/-- Two accounts share a group, and both accounts are deleted one after the other. -/
def bothAccountsDeleted : List (Act GroupCall) :=
  Act.alone (GroupCall.registerUser Sample.uidA "Firebase" "alice@mail.com" "alice") 4 ++
  Act.alone (GroupCall.registerUser Sample.uidB "Firebase" "bobby@mail.com" "bobby") 4 ++
  Act.alone createHome 2 ++ Act.alone (GroupCall.deleteAccount Sample.uidA "alice") 10 ++
  Act.alone (GroupCall.deleteAccount Sample.uidB "bobby") 10

/-- The deletion of the last member's account leaves a group without members. -/
theorem not_groups_readable : ¬ ∀ (mem : ℕ → String) (acts : List (Act GroupCall)) (s : GroupSys),
    (GroupSys.initial mem).runs GroupCall.code acts = some s → Each GroupReadable s.db [Keys.groups] := by
  intro hclaim
  have hlast : ((GroupSys.initial fun _ => "").runs GroupCall.code bothAccountsDeleted).map
      (fun s => (s.db.children [Keys.groups], s.db.children [Keys.groups, Sample.home, Keys.members])) =
        some ([Sample.home], []) := by
    decide
  obtain ⟨s, hs, hchildren⟩ := Option.map_eq_some_iff.mp hlast
  obtain ⟨hgroups, hmembers⟩ := Prod.mk.injEq _ _ _ _ ▸ hchildren
  exact (hclaim _ _ s hs Sample.home (by simp [hgroups])).2 hmembers

end GroceryListApp

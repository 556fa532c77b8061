import GroceryListApp.Accounts.RenamesCompose
import GroceryListApp.Groups.Listing

/-!
# A rename that is stopped midway

The first write of a rename gives the account its new name, the scan that replaces the
member comes later. In between the account looks for its groups under a name that no group
has. So a rename that may be stopped at any point keeps the groups of an account exactly when
the account is in no group.
-/

namespace GroceryListApp

open Realtime

/-- Every group has members, and each of them is in the index of usernames. -/
def MembersListed (db : Store Value) : Prop :=
  ∀ g ∈ db.children [Keys.groups], db.children (membersPath g) ≠ [] ∧
    ∀ k ∈ db.children (membersPath g), k ∈ db.children [Keys.usernames]

/-- A rename that runs by itself. -/
def Rename.alone (db : Store Value) (r : Rename) : Sys Rename Unit Value := ⟨db, (), [(r, .run r.code)]⟩

variable {db s : Store Value} {r : Rename}

/-- A group with members is stored. -/
theorem stored_of_member {g k : Key} (h : k ∈ db.children (membersPath g)) :
    g ∈ db.children [Keys.groups] := by
  obtain ⟨q, v, hv⟩ := (Store.mem_children _ _ _).mp h
  exact (Store.mem_children _ _ _).mpr ⟨Keys.members :: k :: q, v, hv⟩

/-- A rename to an available name, in a database whose members are in the index. -/
theorem renameable_single (hlisted : MembersListed db)
    (hshown : db.get [Keys.users, r.uid, Keys.username] = some (.string r.old.1))
    (hne : r.old ≠ r.new) (havailable : r.new ∉ db.children [Keys.usernames]) :
    Renameable db [r] where
  names := by simpa using hne
  shown := by simpa using hshown
  unlisted := by simpa using havailable
  noMember := by
    intro r' hr' g hk
    rw [List.mem_singleton.mp hr'] at hk
    exact havailable ((hlisted g (stored_of_member hk)).2 _ hk)

namespace Renameable

variable (h : Renameable db [r]) (hwf : WellFormed db) (hlisted : MembersListed db)
  (hs : (midway db [r] []).inv s)

include h hwf hs in
/-- Nothing but the master changes in the fields of a group, and it stays a string. -/
theorem hasFields_midway {g : Key} (hg : g ∈ db.children [Keys.groups]) :
    HasFields groupFields s [Keys.groups, g] := by
  intro field hfield
  obtain ⟨v, hv, hadmits⟩ := hwf.groups g hg field hfield
  by_cases hmaster : field = (Keys.master, IsString)
  · obtain ⟨name, rfl⟩ : IsString v := by rw [hmaster] at hadmits; exact hadmits
    subst hmaster
    obtain ⟨name', hname'⟩ := exists_name hs (p := [Keys.groups, g, Keys.master]) (Or.inr ⟨rfl, rfl⟩) hv
    exact ⟨_, hname', name', rfl⟩
  · refine ⟨v, ?_, hadmits⟩
    suffices hkept : renamedAt [r] db ([Keys.groups, g] ++ [field.1]) =
        db.get ([Keys.groups, g] ++ [field.1]) by
      exact ((hs _ trivial).elim id fun hnew => hnew.trans hkept).trans hv
    by_contra hchanged
    obtain ⟨r', -, hplace⟩ := h.exists_place hwf hchanged
    generalize hp : [Keys.groups, g] ++ [field.1] = p at hplace
    cases hplace with
    | username => exact absurd (congrArg List.head? hp) (by simp +decide)
    | listed => exact absurd (congrArg List.length hp) (by simp)
    | unlisted => exact absurd (congrArg List.length hp) (by simp)
    | master g' _ =>
      have hkey : field.1 = Keys.master := by simpa using congrArg (·.getLast?) hp
      simp only [groupFields, List.mem_cons, List.not_mem_nil, or_false] at hfield
      rcases hfield with rfl | rfl | rfl | rfl | rfl
      · exact absurd hkey (by decide)
      · exact absurd hkey (by decide)
      · exact hmaster rfl
      · exact absurd hkey (by decide)
      · exact absurd hkey (by decide)
    | removed g' => exact absurd (congrArg List.length hp) (by simp)
    | added g' _ => exact absurd (congrArg List.length hp) (by simp)
    | item g' i _ _ => exact absurd (congrArg List.length hp) (by simp)

include h hwf hs in
/-- The stored groups stay the same. -/
theorem groups_midway : s.children [Keys.groups] = db.children [Keys.groups] := by
  apply Store.children_eq_of_mem_iff
  intro g
  constructor
  · exact group_of_seen hs
  · intro hg
    obtain ⟨v, hv, -⟩ := h.hasFields_midway hwf hs hg (Keys.title, IsString) (by simp [groupFields])
    exact (Store.mem_children _ _ _).mpr ⟨[Keys.title], v, hv⟩

include h hwf hlisted hs in
/-- The groups that are listed are those with the name among their members, as long as no
member has been changed. -/
theorem listedGroups_midway {enumerate : List String → List String}
    (henum : ∀ names, (enumerate names).Perm names)
    (hmembers : ∀ g, s.children (membersPath g) = db.children (membersPath g)) {user : String}
    (huser : storedUsername s r.uid = some user) : listedGroups enumerate s r.uid =
      some (((db.children [Keys.groups]).filter fun g => IsMember db user g).map Subtype.val) := by
  have hreadable : Each GroupReadable s [Keys.groups] := by
    intro g hg
    have hstored := group_of_seen hs hg
    refine ⟨h.hasFields_midway hwf hs hstored, ?_⟩
    have hkept := hmembers g
    rw [membersPath] at hkept
    exact hkept ▸ (hlisted g hstored).1
  have hsame (g : Key) : IsMember s user g ↔ IsMember db user g := by
    rw [IsMember, IsMember, hmembers]
  rw [listedGroups_eq hreadable henum huser, h.groups_midway hwf hs]
  simp only [hsame]

include h hwf hs in
/-- The members of all groups stay the same when the account is in none. -/
theorem members_midway (hnone : ∀ g, ¬ IsMember db r.old.1 g) (g : Key) :
    s.children (membersPath g) = db.children (membersPath g) := by
  apply children_congr
  intro q
  suffices hkept : renamedAt [r] db (membersPath g ++ q) = db.get (membersPath g ++ q) by
    exact (hs _ trivial).elim id fun hnew => hnew.trans hkept
  by_contra hchanged
  obtain ⟨r', hr', hplace⟩ := h.exists_place hwf hchanged
  rw [List.mem_singleton] at hr'
  subst hr'
  generalize hp : membersPath g ++ q = p at hplace hchanged
  cases hplace with
  | username => exact absurd (congrArg List.head? hp) (by simp +decide [membersPath])
  | listed => exact absurd (congrArg List.head? hp) (by simp +decide [membersPath])
  | unlisted => exact absurd (congrArg List.head? hp) (by simp +decide [membersPath])
  | master g' _ => simp +decide [membersPath] at hp
  | removed g' =>
    rw [h.renamedAt_oldMember (List.mem_singleton_self _)] at hchanged
    obtain ⟨v, hv⟩ := Option.ne_none_iff_exists'.mp (Ne.symm hchanged)
    exact hnone g' ⟨_, (Store.mem_children _ _ _).mpr ⟨[], v, hv⟩, rfl⟩
  | added g' hv => exact hnone g' ⟨_, (Store.mem_children _ _ _).mpr ⟨[], _, hv⟩, rfl⟩
  | item g' i _ _ => simp +decide [membersPath] at hp

include h in
/-- No group has the new name among its members. -/
theorem not_isMember_new (g : Key) : ¬ IsMember db r.new.1 g := by
  rintro ⟨k, hk, hname⟩
  exact h.noMember r (List.mem_singleton_self _) g (Subtype.ext hname ▸ hk)

end Renameable

/-- A rename that runs by itself is midway all the time. -/
theorem midway_alone (h : Renameable db [r]) (hwf : WellFormed db) {acts : List (Act Rename)}
    {s : Sys Rename Unit Value} (hrun : Sys.Run Rename.code Sys.RunsOnly (r.alone db) acts s) :
    (midway db [r] []).inv s.db := by
  have hmeets (s : Sys Rename Unit Value) (a : Act Rename) (_ : Sys.RunsOnly s a) :
      s.Meets (midway db [r] []).may a := by
    cases a with
    | spawn t => trivial
    | run i => exact fun _ _ _ _ => trivial
  refine (Contract.run_holds hmeets (fun _ t ht => absurd rfl (ht t)) (fun p _ => Or.inl rfl) ?_ hrun).1
  intro task htask
  rw [List.mem_singleton.mp htask]
  exact midway.holds_code h hwf (List.mem_singleton_self r) (by simp)

/-- The database of a rename is midway before its first step. -/
theorem listedGroups_before (h : Renameable db [r]) (hwf : WellFormed db) (hlisted : MembersListed db)
    {enumerate : List String → List String} (henum : ∀ names, (enumerate names).Perm names) :
    listedGroups enumerate db r.uid =
      some (((db.children [Keys.groups]).filter fun g => IsMember db r.old.1 g).map Subtype.val) :=
  h.listedGroups_midway hwf hlisted (fun _ _ => Or.inl rfl) henum (fun _ => rfl)
    ((storedUsername_eq_some_iff _ _ _).mpr (h.shown r (List.mem_singleton_self r)))

/-- After its first write the rename of a member leaves the account without its groups. -/
theorem listedGroups_first (h : Renameable db [r]) (hwf : WellFormed db) (hlisted : MembersListed db)
    {enumerate : List String → List String} (henum : ∀ names, (enumerate names).Perm names) {g : Key}
    (hmember : IsMember db r.old.1 g) :
    ∃ acts s, Sys.Run Rename.code Sys.RunsOnly (r.alone db) acts s ∧
      listedGroups enumerate s.db r.uid ≠ listedGroups enumerate db r.uid := by
  let next := (Write.update [Keys.users, r.uid] [([Keys.username], str r.new.1)]).apply db
  obtain ⟨rest, hcode⟩ : ∃ rest, r.code =
      .write (.update [Keys.users, r.uid] [([Keys.username], str r.new.1)]) rest := by
    simp [Rename.code, changeUsernameAction, changeUsername_eq]
  have hstep : (r.alone db).step Rename.code (.run 0) = some ⟨next, (), [(r, .run rest)]⟩ := by
    simp [Sys.step, Rename.alone, hcode, Body.step, next]
  have hrun : Sys.Run Rename.code Sys.RunsOnly (r.alone db) ([] ++ [.run 0]) ⟨next, (), [(r, .run rest)]⟩ :=
    .snoc .nil (fun t => by simp) hstep
  have hmembers (g : Key) : next.children (membersPath g) = db.children (membersPath g) := by
    apply children_congr
    intro q
    have hapart : Apart [Keys.users, r.uid] (membersPath g ++ q) := apart_of_ne (by decide) _ _
    exact get_apply_of_apart (w := .update [Keys.users, r.uid] _) hapart db
  have hname : storedUsername next r.uid = some r.new.1 :=
    (storedUsername_eq_some_iff _ _ _).mpr (get_update_leaf [Keys.users, r.uid] [Keys.username] _ db)
  have hafter := h.listedGroups_midway hwf hlisted (midway_alone h hwf hrun) henum hmembers hname
  refine ⟨_, _, hrun, fun hsame => ?_⟩
  rw [hafter, listedGroups_before h hwf hlisted henum, Option.some.injEq] at hsame
  have hg : g.1 ∈ ((db.children [Keys.groups]).filter fun g => IsMember db r.old.1 g).map
      Subtype.val := by
    obtain ⟨k, hk, -⟩ := id hmember
    refine List.mem_map_of_mem (List.mem_filter.mpr ⟨stored_of_member hk, ?_⟩)
    simpa using hmember
  rw [← hsame] at hg
  obtain ⟨g', hg', -⟩ := List.mem_map.mp hg
  exact h.not_isMember_new g' (of_decide_eq_true (List.mem_filter.mp hg').2)

/-- In every state of a rename that runs by itself, in whatever order its reads are answered, the
account is listed the groups it was listed before, if and only if it is in no group. -/
theorem rename_keeps_groups_iff {enumerate : List String → List String}
    (henum : ∀ names, (enumerate names).Perm names) (hwf : WellFormed db)
    (hlisted : MembersListed db)
    (hshown : db.get [Keys.users, r.uid, Keys.username] = some (.string r.old.1))
    (hne : r.old ≠ r.new) (havailable : r.new ∉ db.children [Keys.usernames]) :
    (∀ acts s, Sys.Run Rename.code Sys.RunsOnly (r.alone db) acts s →
      listedGroups enumerate s.db r.uid = listedGroups enumerate db r.uid) ↔
    ∀ g, ¬ IsMember db r.old.1 g := by
  have h := renameable_single hlisted hshown hne havailable
  constructor
  · intro hkeeps g hmember
    obtain ⟨acts, s, hrun, hlost⟩ := listedGroups_first h hwf hlisted henum hmember
    exact hlost (hkeeps acts s hrun)
  · intro hnone acts s hrun
    have hs := midway_alone h hwf hrun
    have hlist {user : String} (huser : storedUsername s.db r.uid = some user) :=
      h.listedGroups_midway hwf hlisted hs henum (h.members_midway hwf hs hnone) huser
    rw [listedGroups_before h hwf hlisted henum]
    rcases hs [Keys.users, r.uid, Keys.username] trivial with hold | hnew
    · exact hlist ((storedUsername_eq_some_iff _ _ _).mpr (hold.trans hshown))
    · have hplace : HoldsName [Keys.users, r.uid, Keys.username] := Or.inl ⟨rfl, rfl⟩
      have hrenamed := h.renamedAt_of_old (List.mem_singleton_self r) hplace hshown
      rw [hlist ((storedUsername_eq_some_iff _ _ _).mpr (hnew.trans hrenamed))]
      simp [hnone, h.not_isMember_new]

/-- An account in no group, beside two that share one. -/
def besideGroup : Store Value where
  leaves := sharedList.leaves ++ [([Keys.users, .lit "uidC", Keys.username], .string "carol"),
    ([Keys.usernames, Sample.carol], .string "uidC")]
  apart := by decide

/-- The groups are those of the other accounts. -/
theorem get_besideGroup (p : Path) :
    besideGroup.get (Keys.groups :: p) = sharedList.get (Keys.groups :: p) := by
  refine Option.ext fun v => ?_
  simp +decide [Store.get_eq_some_iff, besideGroup]

/-- The members and the items are those of the other accounts. -/
theorem children_besideGroup (p : Path) :
    besideGroup.children (Keys.groups :: p) = sharedList.children (Keys.groups :: p) :=
  children_congr fun q => get_besideGroup (p ++ q)

/-- The account and its entry in the index belong together. -/
theorem wellFormed_besideGroup : WellFormed besideGroup where
  groups g hg := by
    rw [children_besideGroup] at hg
    exact HasFields.isLocal _ (fun q => get_besideGroup (g :: q)) (wellFormed_sharedList.groups g hg)
  members g k hk := by
    rw [children_besideGroup] at hk
    exact (wellFormed_sharedList.members g k hk).imp fun _ hv => (get_besideGroup _).trans hv
  items g i hi := by
    rw [children_besideGroup] at hi
    exact HasFields.isLocal _ (fun q => get_besideGroup (g :: Keys.groceryList :: i :: q))
      (wellFormed_sharedList.items g i hi)
  index uid name := by
    simp only [Store.get_eq_some_iff]
    simp +decide [besideGroup, sharedList, Subtype.ext_iff]
    tauto

/-- The account is renamed. -/
def renameBeside : Rename := ⟨.lit "uidC", Sample.carol, Sample.david⟩

/-- The rename is through, after its scans have visited the group, and the account has no groups as
before. -/
theorem rename_keeps_groups_beside : ∃ s, Sys.Run Rename.code Sys.RunsOnly (renameBeside.alone besideGroup)
      (List.replicate 25 (.run 0)) s ∧ s.pool = [] ∧ storedUsername s.db renameBeside.uid = some "david" ∧
    listedGroups id s.db renameBeside.uid = listedGroups id besideGroup renameBeside.uid := by
  have hgroups : besideGroup.children [Keys.groups] = [Sample.home] := by decide
  have hlisted : MembersListed besideGroup := by
    intro g hg
    rw [hgroups, List.mem_singleton] at hg
    subst hg
    decide
  have hlast : ((renameBeside.alone besideGroup).runs Rename.code (List.replicate 25 (.run 0))).map
      (fun s => (s.pool.length, storedUsername s.db renameBeside.uid)) = some (0, some "david") := by
    decide +kernel
  obtain ⟨s, hs, hrest⟩ := Option.map_eq_some_iff.mp hlast
  obtain ⟨hpool, hname⟩ := Prod.mk.inj hrest
  have hrun : Sys.Run Rename.code Sys.RunsOnly (renameBeside.alone besideGroup)
      (List.replicate 25 (.run 0)) s :=
    Sys.run_of_runs (fun a ha _ t => by simp [List.eq_of_mem_replicate ha]) hs
  have hkeeps := (rename_keeps_groups_iff (r := renameBeside) (fun _ => List.Perm.refl _)
    wellFormed_besideGroup hlisted (by decide) (by decide) (by decide)).mpr ?_
  · exact ⟨s, hrun, List.length_eq_zero_iff.mp hpool, hname, hkeeps _ s hrun⟩
  · rintro g ⟨k, hk, hname⟩
    obtain rfl : g = Sample.home :=
      mem_sharedList (children_besideGroup [g, Keys.members] ▸ hk)
    have hothers : ∀ k ∈ besideGroup.children (membersPath Sample.home), k.1 ≠ renameBeside.old.1 := by
      decide
    exact hothers k hk hname

/-- After its first write the rename of a member leaves the account without its group. -/
theorem not_rename_keeps_groups : ¬ ∀ (db : Store Value) (r : Rename), WellFormed db →
    MembersListed db → db.get [Keys.users, r.uid, Keys.username] = some (.string r.old.1) →
    r.old ≠ r.new → r.new ∉ db.children [Keys.usernames] →
    ∀ acts s, Sys.Run Rename.code Sys.RunsOnly (r.alone db) acts s →
      listedGroups id s.db r.uid = listedGroups id db r.uid := by
  intro hclaim
  have hgroups : sharedList.children [Keys.groups] = [Sample.home] := by decide
  have hlisted : MembersListed sharedList := by
    intro g hg
    rw [hgroups, List.mem_singleton] at hg
    subst hg
    decide
  have hshown : sharedList.get [Keys.users, Sample.uidB, Keys.username] = some (.string "bobby") := by
    decide
  have havailable : Sample.david ∉ sharedList.children [Keys.usernames] := by decide
  have hne : Sample.bobby ≠ Sample.david := by decide
  let r : Rename := ⟨Sample.uidB, Sample.bobby, Sample.david⟩
  have hrename : Renameable sharedList [r] := renameable_single hlisted hshown hne havailable
  have hmember : IsMember sharedList Sample.bobby.1 Sample.home := ⟨Sample.bobby, by decide, rfl⟩
  obtain ⟨acts, s, hrun, hlost⟩ := listedGroups_first hrename wellFormed_sharedList hlisted
    (fun names => List.Perm.refl _) hmember
  exact hlost (hclaim sharedList r wellFormed_sharedList hlisted hshown hne havailable acts s hrun)

end GroceryListApp

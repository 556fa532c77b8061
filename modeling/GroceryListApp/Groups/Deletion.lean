import GroceryListApp.Groups.GroupRows
import GroceryListApp.Groups.MemberAccounts
import GroceryListApp.Groups.ReadOrder
import GroceryListApp.Realtime.Serial

/-!
# Deleting an account and leaving its groups

`deleteFromGroups` removes a name from the members of every group, in whatever order its nested reads
are answered. A leave does the same in a group with other members, but it removes a group in which
nobody else is left. So the two agree unless somebody is the only member of a group.
-/

namespace GroceryListApp

open Realtime

section

variable {db : Store Value} {uid : Key} {k : Key}

/-! ### The deletion -/

/-- Below the location of a member with the key. -/
def BelowMember (k : Key) (p : Path) : Prop := ∃ g, membersPath g ++ [k] <+: p

/-- The deletion of a name removes members with that name only. -/
def deleting (k : Key) (db : Store Value) : Contract Unit Value where
  inv s := ∀ p, ¬ BelowMember k p → s.get p = db.get p
  may _ _ _ := True
  keeps s s' := ∃ g, s' = (Write.remove (membersPath g ++ [k])).apply s
  crash := False
  inv_of_keeps := by
    intro s s' hs hkeeps p hp
    obtain ⟨g, rfl⟩ := hkeeps
    rw [Write.apply, Store.get_remove, if_neg fun hbelow => hp ⟨g, hbelow⟩]
    exact hs p hp

/-- Every write of the deletion removes such a member. -/
theorem holds_deleting : (deleting k db).Holds () (deleteFromGroups k.1 : Prog Unit Value) := by
  apply holds_deleteFromGroups
  intro s g l _ _ hl s' _ _
  rw [← Subtype.ext hl]
  exact ⟨g, rfl⟩

/-- Run alone to completion, the deletion removes the name from the members of every group and leaves
everything else. -/
theorem get_deleteFromGroups {s : Sys Unit Unit Value}
    (h : Sys.Finishes (fun _ => deleteFromGroups k.1) ⟨db, (), [((), .run (deleteFromGroups k.1))]⟩ s)
    (p : Path) : (BelowMember k p → s.db.get p = none) ∧ (¬ BelowMember k p → s.db.get p = db.get p) := by
  have hpool : ∀ task ∈ [((), (.run (deleteFromGroups k.1) : Body Unit Value))],
      (deleting k db).HoldsBody task.1 task.2 := by
    intro task htask
    rw [List.mem_singleton.mp htask]
    exact holds_deleting
  obtain ⟨hkept, howed⟩ := h.holds_owes (c := deleting k db) (fun _ _ _ => trivial) (fun _ _ => rfl) hpool
  refine ⟨fun hbelow => ?_, hkept p⟩
  obtain ⟨g, rest, rfl⟩ := hbelow
  have hgone : Unlisted g k s.db := by
    apply howed (Unlisted g k)
    · intro s s' _ hkeeps hgone hmember
      obtain ⟨g', rfl⟩ := hkeeps
      obtain ⟨q, v, hv⟩ := (Store.mem_children _ _ _).mp hmember
      exact hgone ((Store.mem_children _ _ _).mpr ⟨q, v, ((Store.get_remove_eq_some_iff _ _ _ _).mp hv).2⟩)
    · refine ⟨_, List.mem_singleton_self _, ?_⟩
      exact owes_deleteFromGroups g k (fun s hs => not_not.mp hs) (RosterWrite.unlisted_remove g k)
  by_contra hne
  obtain ⟨v, hv⟩ := Option.ne_none_iff_exists'.mp hne
  rw [List.append_assoc] at hv
  exact hgone ((Store.mem_children _ _ _).mpr ⟨rest, v, hv⟩)

/-! ### The leaves -/

/-- The database after an account has left groups one after the other, with its username answered
first each time. -/
def leaveAll (uid : Key) (gs : List Key) (db : Store Value) : Store Value :=
  gs.foldl (fun db g => leftBy g uid db [0, 0]) db

/-- What a leave of a member removes. -/
def leavePath (db : Store Value) (k g : Key) : Path :=
  if (db.children (membersPath g)).length = 1 then [Keys.groups, g] else membersPath g ++ [k]

/-- A leave of a member removes the member, or the group when nobody else is left. -/
theorem leftBy_member {g : Key} (hk : k ∈ db.children (membersPath g))
    (huser : storedUsername db uid = some k.1) :
    leftBy g uid db [0, 0] = db.remove (leavePath db k g) := by
  have hpos : 0 < (db.children (membersPath g)).length := List.length_pos_of_mem hk
  rw [leftBy_username huser, leavePath]
  cases hseveral : SeveralMembers db g with
  | true =>
    have hlength : 1 < (db.children (membersPath g)).length := by simpa [SeveralMembers] using hseveral
    rw [afterLoop_member hk, if_neg (by omega)]
  | false =>
    have hlength : (db.children (membersPath g)).length ≤ 1 := by simpa [SeveralMembers] using hseveral
    have hone : (db.children (membersPath g)).length = 1 := by omega
    rw [← hseveral, afterLoop_single hseveral, if_pos hone, if_pos hone]

/-- Leaving a group leaves the other groups and the accounts alone. -/
theorem get_leave {g : Key} {p : Path} (hp : ¬ [Keys.groups, g] <+: p) :
    (db.remove (leavePath db k g)).get p = db.get p := by
  rw [Store.get_remove, if_neg]
  unfold leavePath
  split
  · exact hp
  · intro hbelow
    exact hp (List.IsPrefix.trans ⟨[Keys.members, k], rfl⟩ hbelow)

/-- What an account leaves behind when it leaves some of its groups in any order. -/
theorem get_leaveAll {gs : List Key} (hgs : gs.Nodup) (hmember : ∀ g ∈ gs, k ∈ db.children (membersPath g))
    (huser : storedUsername db uid = some k.1) (p : Path) :
    ((∃ g ∈ gs, leavePath db k g <+: p) → (leaveAll uid gs db).get p = none) ∧
      ((∀ g ∈ gs, ¬ leavePath db k g <+: p) → (leaveAll uid gs db).get p = db.get p) := by
  induction gs generalizing db with
  | nil => exact ⟨fun h => by simp at h, fun _ => rfl⟩
  | cons g rest ih =>
    obtain ⟨hg, hrest⟩ := List.nodup_cons.mp hgs
    have hleft := leftBy_member (hmember g List.mem_cons_self) huser
    have hnames : storedUsername (db.remove (leavePath db k g)) uid = some k.1 := by
      have happart : ¬ [Keys.groups, g] <+: [Keys.users, uid, Keys.username] :=
        (apart_of_ne (by decide) [g] [uid, Keys.username]).1
      rw [storedUsername_eq_some_iff, get_leave happart]
      exact (storedUsername_eq_some_iff _ _ _).mp huser
    have hmembers : ∀ g' ∈ rest, (db.remove (leavePath db k g)).children (membersPath g') =
        db.children (membersPath g') := by
      intro g' hg'
      apply children_congr
      intro q
      apply get_leave
      rw [membersPath, List.cons_append, List.cons_append, List.cons_prefix_cons, List.cons_prefix_cons]
      intro h
      exact hg (h.2.1 ▸ hg')
    have hpaths : ∀ g' ∈ rest, leavePath (db.remove (leavePath db k g)) k g' = leavePath db k g' := by
      intro g' hg'
      rw [leavePath, hmembers g' hg', leavePath]
    have hnext := ih hrest (fun g' hg' => by
      rw [hmembers g' hg']
      exact hmember g' (List.mem_cons_of_mem _ hg')) hnames
    rw [leaveAll, List.foldl_cons, hleft, ← leaveAll]
    by_cases hlater : ∃ g' ∈ rest, leavePath db k g' <+: p
    · have hnone := hnext.1 (by
        obtain ⟨g', hg', hbelow⟩ := hlater
        exact ⟨g', hg', (hpaths g' hg').symm ▸ hbelow⟩)
      refine ⟨fun _ => hnone, fun h => ?_⟩
      obtain ⟨g', hg', hbelow⟩ := hlater
      exact absurd hbelow (h g' (List.mem_cons_of_mem _ hg'))
    · have hsame := hnext.2 (by
        intro g' hg' hbelow
        exact hlater ⟨g', hg', hpaths g' hg' ▸ hbelow⟩)
      rw [hsame, Store.get_remove]
      constructor
      · intro h
        obtain ⟨g', hg', hbelow⟩ := h
        rcases List.mem_cons.mp hg' with rfl | hg'
        · rw [if_pos hbelow]
        · exact absurd ⟨g', hg', hbelow⟩ hlater
      · intro h
        rw [if_neg (h g List.mem_cons_self)]

end

/-- A group with a member is stored. -/
theorem mem_groups_of_isMember {db : Store Value} {user : String} {g : Key} (h : IsMember db user g) :
    g ∈ db.children [Keys.groups] := by
  obtain ⟨k, hk, -⟩ := h
  obtain ⟨q, v, hv⟩ := (Store.mem_children _ _ _).mp hk
  exact (Store.mem_children _ _ _).mpr ⟨_, v, hv⟩

/-- In a database with a single group, the groups of one of its members are that group. -/
theorem mem_single_iff {db : Store Value} {user : String} {home : Key}
    (hgroups : db.children [Keys.groups] = [home]) (hhome : IsMember db user home) (g : Key) :
    g ∈ [home] ↔ IsMember db user g := by
  constructor
  · intro hg
    rw [List.mem_singleton.mp hg]
    exact hhome
  · intro hmember
    rw [← hgroups]
    exact mem_groups_of_isMember hmember

/-! ### Both -/

/-- A name that is no key is in no group, and its deletion changes nothing. -/
theorem deleteFromGroups_nobody {db : Store Value} {user : String} (h : ∀ k : Key, k.1 ≠ user)
    {s : Sys Unit Unit Value} (hfinish : Sys.Finishes (fun _ => deleteFromGroups user)
      ⟨db, (), [((), .run (deleteFromGroups user))]⟩ s) : s.db = db := by
  let c : Contract Unit Value := .invariant (fun s => s = db) (fun _ _ _ => True) False
  have hholds : c.Holds () (deleteFromGroups user : Prog Unit Value) := by
    apply holds_deleteFromGroups
    intro s g k _ _ hk
    exact absurd hk (h k)
  have hpool : ∀ task ∈ [((), (.run (deleteFromGroups user) : Body Unit Value))],
      c.HoldsBody task.1 task.2 := by
    intro task htask
    rw [List.mem_singleton.mp htask]
    exact hholds
  exact (hfinish.holds_owes (c := c) (fun _ _ _ => trivial) rfl hpool).1

/-- On readable groups the deletion of an account's name, run alone to completion, leaves the groups as
the account's leaves of all its groups do, in whatever order, exactly when it is the only member of
none of them. -/
theorem delete_leaves_iff {db : Store Value} (hreadable : Each GroupReadable db [Keys.groups]) {uid : Key}
    {user : String} (huser : storedUsername db uid = some user) {gs : List Key} (hgs : gs.Nodup)
    (hall : ∀ g, g ∈ gs ↔ IsMember db user g) {s : Sys Unit Unit Value}
    (hfinish : Sys.Finishes (fun _ => deleteFromGroups user)
      ⟨db, (), [((), .run (deleteFromGroups user))]⟩ s) :
    (∀ p, s.db.get (Keys.groups :: p) = (leaveAll uid gs db).get (Keys.groups :: p)) ↔
      ∀ g, IsMember db user g → (db.children (membersPath g)).length ≠ 1 := by
  by_cases hkey : ∃ k : Key, k.1 = user
  · obtain ⟨k, rfl⟩ := hkey
    have hmember (g : Key) : g ∈ gs ↔ k ∈ db.children (membersPath g) := by
      rw [hall]
      constructor
      · intro h
        obtain ⟨l, hl, hname⟩ := h
        rwa [← Subtype.ext hname]
      · exact fun h => ⟨k, h, rfl⟩
    have hdeleted := get_deleteFromGroups hfinish
    have hleft := get_leaveAll hgs (fun g hg => (hmember g).mp hg) huser
    constructor
    · intro hsame g hg hone
      obtain ⟨title, htitle, -⟩ := (hreadable g (mem_groups_of_isMember hg)).1 (Keys.title, IsString)
        (by simp [groupFields])
      have hpath : leavePath db k g <+: [Keys.groups, g, Keys.title] := by
        rw [leavePath, if_pos hone]
        exact ⟨[Keys.title], rfl⟩
      have hgone := (hleft [Keys.groups, g, Keys.title]).1 ⟨g, (hall g).mpr hg, hpath⟩
      have hkept := (hdeleted [Keys.groups, g, Keys.title]).2 (by
        intro hbelow
        obtain ⟨g', hbelow⟩ := hbelow
        simp [membersPath, List.cons_prefix_cons] at hbelow)
      have htitle' : db.get [Keys.groups, g, Keys.title] = some title := htitle
      rw [← hsame, hkept, htitle'] at hgone
      contradiction
    · intro hothers p
      have hpath (g : Key) (hg : g ∈ gs) : leavePath db k g = membersPath g ++ [k] :=
        if_neg (hothers g ((hall g).mp hg))
      by_cases hbelow : BelowMember k (Keys.groups :: p)
      · rw [(hdeleted _).1 hbelow]
        obtain ⟨g, hbelow⟩ := hbelow
        by_cases hg : g ∈ gs
        · exact ((hleft _).1 ⟨g, hg, hpath g hg ▸ hbelow⟩).symm
        · have hnothing : db.get (Keys.groups :: p) = none := by
            obtain ⟨rest, hrest⟩ := hbelow
            by_contra hne
            obtain ⟨v, hv⟩ := Option.ne_none_iff_exists'.mp hne
            rw [← hrest, List.append_assoc] at hv
            exact hg ((hmember g).mpr ((Store.mem_children _ _ _).mpr ⟨rest, v, hv⟩))
          by_cases hsome : ∃ g ∈ gs, leavePath db k g <+: Keys.groups :: p
          · exact ((hleft _).1 hsome).symm
          · rw [(hleft _).2 fun g hg hbelow => hsome ⟨g, hg, hbelow⟩, hnothing]
      · rw [(hdeleted _).2 hbelow, (hleft _).2]
        intro g hg hpre
        exact hbelow ⟨g, hpath g hg ▸ hpre⟩
  · have hnobody (k : Key) : k.1 ≠ user := fun hk => hkey ⟨k, hk⟩
    have hnone (g : Key) : ¬ IsMember db user g := by
      intro h
      obtain ⟨k, -, hk⟩ := h
      exact hnobody k hk
    have hnil : gs = [] := List.eq_nil_iff_forall_not_mem.mpr fun g hg => hnone g ((hall g).mp hg)
    rw [hnil, deleteFromGroups_nobody hnobody hfinish]
    exact iff_of_true (fun _ => rfl) fun g hg => absurd hg (hnone g)

/-- One of two members deletes the account. -/
theorem delete_leaves_two : ∃ s : Sys Unit Unit Value, Sys.Finishes (fun _ => deleteFromGroups "alice")
      ⟨readableByTwo, (), [((), .run (deleteFromGroups "alice"))]⟩ s ∧
    ∀ p, s.db.get (Keys.groups :: p) =
      (leaveAll Sample.uidA [Sample.home] readableByTwo).get (Keys.groups :: p) := by
  have hruns : ((⟨readableByTwo, (), [((), .run (deleteFromGroups "alice"))]⟩ : Sys Unit Unit Value).runs
      (fun _ => deleteFromGroups "alice") ((List.replicate 8 0).map .run)).map (·.pool.length) =
        some 0 := by
    decide
  obtain ⟨s, hs, hpool⟩ := Option.map_eq_some_iff.mp hruns
  have hfinish : Sys.Finishes (fun _ => deleteFromGroups "alice")
      ⟨readableByTwo, (), [((), .run (deleteFromGroups "alice"))]⟩ s :=
    ⟨List.length_eq_zero_iff.mp hpool, _, hs⟩
  have hgroups : readableByTwo.children [Keys.groups] = [Sample.home] := by decide
  have hhome : IsMember readableByTwo "alice" Sample.home := by decide
  have hlength : (readableByTwo.children (membersPath Sample.home)).length = 2 := by decide
  have hall := mem_single_iff hgroups hhome
  refine ⟨s, hfinish, (delete_leaves_iff each_readableByTwo (by decide) (by decide) hall hfinish).mpr ?_⟩
  intro g hg
  rw [← hall, List.mem_singleton] at hg
  rw [hg, hlength]
  decide

/-- A group that lists the first account only. -/
def readableByOne : Store Value := (Write.remove (membersPath Sample.home ++ [Sample.bobby])).apply readableByTwo

/-- The only member of a group deletes the account, and the group stays without members. -/
theorem not_delete_leaves : ¬ ∀ (db : Store Value) (uid : Key) (user : String) (gs : List Key)
    (s : Sys Unit Unit Value), Each GroupReadable db [Keys.groups] → storedUsername db uid = some user →
      gs.Nodup → (∀ g, g ∈ gs ↔ IsMember db user g) →
      Sys.Finishes (fun _ => deleteFromGroups user) ⟨db, (), [((), .run (deleteFromGroups user))]⟩ s →
      ∀ p, s.db.get (Keys.groups :: p) = (leaveAll uid gs db).get (Keys.groups :: p) := by
  intro hclaim
  have hruns : ((⟨readableByOne, (), [((), .run (deleteFromGroups "alice"))]⟩ : Sys Unit Unit Value).runs
      (fun _ => deleteFromGroups "alice") ((List.replicate 8 0).map .run)).map
        (fun s => (s.pool.length, s.db.get [Keys.groups, Sample.home, Keys.title])) =
        some (0, some (.string "Home")) := by
    decide
  obtain ⟨s, hs, hpool⟩ := Option.map_eq_some_iff.mp hruns
  obtain ⟨hdone, htitle⟩ := Prod.mk.inj hpool
  have hgroups : readableByOne.children [Keys.groups] = [Sample.home] := by decide
  have hhome : IsMember readableByOne "alice" Sample.home := by decide
  have hreadable : Each GroupReadable readableByOne [Keys.groups] := by
    intro g hg
    rw [hgroups, List.mem_singleton] at hg
    have htwo : Sample.home ∈ readableByTwo.children [Keys.groups] := by decide
    rw [hg]
    exact GroupReadable.remove_member (each_readableByTwo _ htwo)
      (by decide : Sample.alice ∈ readableByTwo.children (membersPath Sample.home)) (by decide)
  have hsame := hclaim readableByOne Sample.uidA "alice" [Sample.home] s hreadable (by decide) (by decide)
    (mem_single_iff hgroups hhome) ⟨List.length_eq_zero_iff.mp hdone, _, hs⟩ [Sample.home, Keys.title]
  have hleft : (leaveAll Sample.uidA [Sample.home] readableByOne).get
      [Keys.groups, Sample.home, Keys.title] = none := by
    decide
  rw [htitle, hleft] at hsame
  exact Option.some_ne_none _ hsame

end GroceryListApp

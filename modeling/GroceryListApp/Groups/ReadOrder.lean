import GroceryListApp.Groups.Leaving
import GroceryListApp.Groups.Listing
import GroceryListApp.Realtime.Device
import GroceryListApp.Services.UsernameScans

/-!
# Two reads that are answered in either order

Three functions read the username of the caller and something else without waiting for the first
answer, and the second callback uses the variable that the first one sets. Answered first, the second
callback works with an empty name, which is the name of nobody. So the order is without consequence
only where the name would not have made a difference.
-/

namespace GroceryListApp

open Realtime

/-- The variable that the two callbacks of a call share, and what its handler was handed. -/
structure Caller (α : Type) where
  currentUser : String
  handed : Option (List α)

namespace Caller

variable {α : Type}

/-- The variable `currentUser`. -/
def user : Var (Caller α) String where
  get m := m.currentUser
  set name m := { m with currentUser := name }

/-- A handler that keeps what it is handed. -/
def keep (values : List α) : Prog (Caller α) Value :=
  .modify (fun m => { m with handed := some values }) .done

end Caller

/-- The list that the handler of a call is handed when the two reads are answered in an order. -/
def handedBy {α : Type} (program : Prog (Caller α) Value) (db : Store Value) (order : List ℕ) :
    Option (List α) :=
  ((Device.exec program (Device.idle db ⟨"", none⟩)).answers order).mem.handed

/-- The variable of a single call. -/
def soleUser : Var String String where
  get m := m
  set name _ := name

/-- The database after a leave whose two reads are answered in an order. -/
def leftBy (g uid : Key) (db : Store Value) (order : List ℕ) : Store Value :=
  ((Device.exec (removeUserFromGroup soleUser g.1 uid.1) (Device.idle db "")).answers order).db

/-! ### The callbacks -/

section

variable {M : Type} (currentUser : Var M String) {db : Store Value} {uid : Key}

/-- The cast of a username that is not stored fails. -/
theorem onUsername_snapshot_none (h : storedUsername db uid = none) :
    onUsername currentUser (db.snapshot [Keys.users, uid]) = .trap := by
  have hvalue := value_childSnapshot db [Keys.users, uid] [Keys.username] parsePath_field.1
  have hcast : asString ((db.snapshot [Keys.users, uid]).childSnapshot "username") = none := by
    rw [asString, hvalue]
    rwa [storedUsername, asString, value_snapshot] at h
  rw [onUsername, hcast, Prog.force_none]

/-- A call that reads the username of the caller and, not waiting for it, another location. -/
def readsTwo (uid : Key) (p : Path) (second : Snapshot Value → Prog M Value) : Prog M Value :=
  .modify (currentUser.set "") (.observe [Keys.users, uid] (onUsername currentUser)
    (.observe p second .done))

variable (p : Path) (second : Snapshot Value → Prog M Value) (mem : M)

/-- The statements by which a function starts the two reads. -/
theorem block_readsTwo :
    .block [.modify (currentUser.set "") .done,
      printUsername uid.1 fun returnedUsername => .modify (currentUser.set returnedUsername) .done,
      Ref.observeSingleEvent (some p) second] = readsTwo currentUser uid p second := by
  have huser : REF_USERS.child uid.1 = some [Keys.users, uid] := by simp [REF_USERS]
  unfold readsTwo onUsername
  simp only [printUsername, huser, Ref.observeSingleEvent, Prog.block_cons, Prog.block_nil, Prog.seq_done,
    Prog.force_some, Prog.modify_seq, Prog.done_seq, Prog.observe_seq]

/-- The username is answered first and is not stored: the call ends with a crash. -/
theorem answers_username_none (h : storedUsername db uid = none) :
    (Device.exec (readsTwo currentUser uid p second) (Device.idle db mem)).answers [0, 0] =
      ⟨db, currentUser.set "" mem, [(p, second)], true⟩ := by
  change Device.answer (Device.exec (onUsername currentUser (db.snapshot [Keys.users, uid]))
    ⟨db, currentUser.set "" mem, [(p, second)], false⟩) 0 = _
  rw [onUsername_snapshot_none currentUser h, Device.exec_trap, Device.answer_crashed rfl]

/-- The username is answered first: the second callback knows it. -/
theorem answers_username {user : String} (h : storedUsername db uid = some user) :
    (Device.exec (readsTwo currentUser uid p second) (Device.idle db mem)).answers [0, 0] =
      Device.exec (second (db.snapshot p))
        (Device.idle db (currentUser.set user (currentUser.set "" mem))) := by
  change Device.answer (Device.exec (onUsername currentUser (db.snapshot [Keys.users, uid]))
    ⟨db, currentUser.set "" mem, [(p, second)], false⟩) 0 = _
  rw [onUsername_snapshot currentUser uid h, Device.exec_modify, Device.exec_done,
    Device.answer_single]

/-- The second read is answered first: its callback does not know the username. -/
theorem answers_second (db : Store Value) (uid : Key) :
    (Device.exec (readsTwo currentUser uid p second) (Device.idle db mem)).answers [1, 0] =
      (Device.exec (second (db.snapshot p))
        ⟨db, currentUser.set "" mem, [([Keys.users, uid], onUsername currentUser)], false⟩).answer 0 :=
  rfl

end

/-! ### The lists that handlers are handed -/

section

variable {α : Type} {db : Store Value} {uid : Key}

/-- A call that hands on what the second callback makes of its snapshot and the username. -/
def handsOn (uid : Key) (p : Path) (found : String → Snapshot Value → Option (List α)) :
    Prog (Caller α) Value :=
  readsTwo Caller.user uid p fun snapshot =>
    .inspect fun m => .force (found (Caller.user.get m) snapshot) Caller.keep

/-- With the username answered first, the list is the one for that name. -/
theorem handedBy_username (p : Path) (found : String → Snapshot Value → Option (List α)) :
    handedBy (handsOn uid p found) db [0, 0] =
      (storedUsername db uid).bind fun user => found user (db.snapshot p) := by
  rw [handedBy, handsOn]
  cases huser : storedUsername db uid with
  | none => rw [answers_username_none _ _ _ _ huser, Option.bind_none]; rfl
  | some user =>
    rw [answers_username _ _ _ _ huser, Device.exec_inspect, Option.bind_some]
    change (Device.exec (.force (found user (db.snapshot p)) Caller.keep) _).mem.handed = _
    cases found user (db.snapshot p) <;> rfl

/-- With the second read answered first, the list is the one for the empty name. -/
theorem handedBy_second (p : Path) (found : String → Snapshot Value → Option (List α)) :
    handedBy (handsOn uid p found) db [1, 0] = found "" (db.snapshot p) := by
  rw [handedBy, handsOn, answers_second, Device.exec_inspect]
  change (Device.answer (Device.exec (.force (found "" (db.snapshot p)) Caller.keep) _) 0).mem.handed = _
  cases hfound : found "" (db.snapshot p) with
  | none => rw [Prog.force_none, Device.exec_trap, Device.answer_crashed rfl]; rfl
  | some values =>
    rw [Prog.force_some, Caller.keep, Device.exec_modify, Device.exec_done, Device.answer_single]
    cases huser : storedUsername db uid with
    | none => rw [onUsername_snapshot_none _ huser]; rfl
    | some user => rw [onUsername_snapshot _ uid huser]; rfl

end

section

variable {db : Store Value} {uid : Key} {enumerate : List String → List String}

/-- Of what the walk has collected, the rows are handed on. -/
theorem force_rows (found : Option (List Group × List String)) :
    (Prog.force found fun found => Caller.keep found.1) = .force (found.map Prod.fst) Caller.keep := by
  cases found <;> rfl

/-- Both reads of the walk over the groups hand on what it collects. -/
theorem getAllGroups_eq (enumerate : List String → List String) (uid : Key) :
    getAllGroups Caller.user enumerate (some uid.1) Caller.keep =
      handsOn uid [Keys.groups] fun user snapshot =>
        (collectGroups enumerate user snapshot).map Prod.fst := by
  rw [handsOn, ← block_readsTwo]
  simp only [getAllGroups, Prog.force_some, force_rows]
  rfl

/-- Both reads of the search hand on what it matches. -/
theorem getUsernames_eq (uid : Key) (query : String) :
    getUsernames Caller.user (some uid.1) query Caller.keep =
      handsOn uid [Keys.users] fun user snapshot => matchUsernames query user [] snapshot := by
  rw [handsOn, ← block_readsTwo]
  rfl

end

/-! ### The groups of a user -/

/-- Some group has no members, on which the walk over the groups aborts. -/
def HasEmptyGroup (db : Store Value) : Prop :=
  ∃ g ∈ db.children [Keys.groups], db.children (membersPath g) = []

/-- The caller has a username, and no group lists it. -/
def InNoGroup (db : Store Value) (uid : Key) : Prop :=
  ∃ user, storedUsername db uid = some user ∧ ∀ g ∈ db.children [Keys.groups], ¬ IsMember db user g

section

variable {db : Store Value} {uid : Key} {enumerate : List String → List String} {user : String}

/-- The walk over names that are not the caller's adds no row. -/
theorem collectGroup_others (group : Snapshot Value) {names : List String} (h : user ∉ names)
    (found : List Group × List String) :
    names.foldlM (collectGroup user group) found = some (found.1, found.2 ++ names) := by
  induction names generalizing found with
  | nil => rw [List.foldlM_nil, List.append_nil]; rfl
  | cons name names ih =>
    rw [List.mem_cons, not_or] at h
    obtain ⟨hne, hrest⟩ := h
    have hround : collectGroup user group found name = some (found.1, found.2 ++ [name]) :=
      if_neg (Ne.symm hne)
    rw [List.foldlM_cons, hround]
    exact (ih hrest _).trans (by rw [List.append_assoc, List.singleton_append])

/-- A walk that succeeds adds no fewer rows than the caller has entries. -/
theorem le_length_collectGroup {group : Snapshot Value} {names : List String}
    {found found' : List Group × List String}
    (h : names.foldlM (collectGroup user group) found = some found') :
    found.1.length + names.count user ≤ found'.1.length := by
  induction names generalizing found with
  | nil => rw [Option.some.inj h, List.count_nil, Nat.add_zero]
  | cons name names ih =>
    rw [List.foldlM_cons] at h
    obtain ⟨mid, hmid, hrest⟩ := Option.bind_eq_some_iff.mp h
    have hlater := ih hrest
    unfold collectGroup at hmid
    by_cases hname : name = user
    · have hadded : mid.1.length = found.1.length + 1 := by
        simp only [hname, if_true, Option.bind_eq_bind, Option.bind_eq_some_iff] at hmid
        obtain ⟨_, -, _, -, _, -, _, -, _, -, hmid⟩ := hmid
        rw [← Option.some.inj hmid, List.length_append, List.length_singleton]
      rw [hname, List.count_cons_self]
      omega
    · rw [if_neg hname] at hmid
      obtain rfl := Option.some.inj hmid
      rwa [List.count_cons_of_ne hname]

/-- One round of the walk over all groups. -/
def collectRound (enumerate : List String → List String) (user : String) (db : Store Value)
    (found : List Group × List String) (g : Key) : Option (List Group × List String) := do
  let memberDictionary ← asDictionary
    (Snapshot.childSnapshot ⟨g.1, (db.sub [Keys.groups]).sub [g]⟩ "members")
  (enumerate memberDictionary).foldlM
    (collectGroup user ⟨g.1, (db.sub [Keys.groups]).sub [g]⟩) found

/-- The walk over a snapshot goes through the groups that are stored. -/
theorem collectGroups_snapshot (db : Store Value) :
    collectGroups enumerate user (db.snapshot [Keys.groups]) =
      (db.children [Keys.groups]).foldlM (collectRound enumerate user db) ([], []) := by
  rw [collectGroups, Snapshot.children_snapshot, List.foldlM_map]
  rfl

/-- A round aborts on a group without members. -/
theorem collectRound_empty {g : Key} (h : db.children (membersPath g) = [])
    (found : List Group × List String) : collectRound enumerate user db found g = none := by
  have hnode : (Snapshot.childSnapshot ⟨g.1, (db.sub [Keys.groups]).sub [g]⟩ "members").node.children
      [] = db.children (membersPath g) := by
    simp [Snapshot.childSnapshot, membersPath]
  rw [collectRound, asDictionary, hnode, if_pos h]
  rfl

/-- A round walks over the members of a group that has some. -/
theorem collectRound_members {g : Key} (h : db.children (membersPath g) ≠ [])
    (found : List Group × List String) : collectRound enumerate user db found g =
      (enumerate ((db.children (membersPath g)).map Subtype.val)).foldlM
        (collectGroup user ⟨g.1, (db.sub [Keys.groups]).sub [g]⟩) found := by
  rw [collectRound, asDictionary_members h]
  rfl

/-- The walk aborts when some group has no members. -/
theorem collectGroups_emptyGroup (h : HasEmptyGroup db) :
    collectGroups enumerate user (db.snapshot [Keys.groups]) = none := by
  obtain ⟨g, hg, hempty⟩ := h
  rw [collectGroups_snapshot]
  suffices hwalk : ∀ (groups : List Key), g ∈ groups → ∀ found,
      groups.foldlM (collectRound enumerate user db) found = none from hwalk _ hg _
  intro groups hmem
  induction groups with
  | nil => contradiction
  | cons first rest ih =>
    intro found
    rw [List.foldlM_cons]
    rcases List.mem_cons.mp hmem with rfl | hmem
    · rw [collectRound_empty hempty]
      rfl
    · cases collectRound enumerate user db found first with
      | none => rfl
      | some mid => exact ih hmem mid

/-- The walk adds no row for a name that no group lists. -/
theorem collectGroups_nobody (henum : ∀ names, (enumerate names).Perm names) (h : ¬ HasEmptyGroup db)
    (huser : ∀ g ∈ db.children [Keys.groups], ¬ IsMember db user g) :
    (collectGroups enumerate user (db.snapshot [Keys.groups])).map Prod.fst = some [] := by
  rw [collectGroups_snapshot]
  suffices hwalk : ∀ (groups : List Key), (∀ g ∈ groups, g ∈ db.children [Keys.groups]) → ∀ names,
      (groups.foldlM (collectRound enumerate user db) ([], names)).map Prod.fst = some [] from
    hwalk _ (fun _ hg => hg) []
  intro groups hgroups
  induction groups with
  | nil => exact fun _ => rfl
  | cons g rest ih =>
    intro names
    have hg := hgroups g List.mem_cons_self
    have hmembers : db.children (membersPath g) ≠ [] := fun hempty => h ⟨g, hg, hempty⟩
    have hothers : user ∉ enumerate ((db.children (membersPath g)).map Subtype.val) := by
      intro hmem
      obtain ⟨k, hk, hname⟩ := List.mem_map.mp ((henum _).mem_iff.mp hmem)
      exact huser g hg ⟨k, hk, hname⟩
    rw [List.foldlM_cons, collectRound_members hmembers, collectGroup_others _ hothers]
    exact ih (fun other hother => hgroups other (List.mem_cons_of_mem _ hother)) _

/-- A walk that succeeds has a row for a name that some group lists. -/
theorem collectGroups_somebody (henum : ∀ names, (enumerate names).Perm names) {g : Key}
    (hg : g ∈ db.children [Keys.groups]) (hmember : IsMember db user g) :
    (collectGroups enumerate user (db.snapshot [Keys.groups])).map Prod.fst ≠ some [] := by
  rw [collectGroups_snapshot]
  suffices hwalk : ∀ (groups : List Key) found found',
      groups.foldlM (collectRound enumerate user db) found = some found' →
      found.1.length ≤ found'.1.length ∧ (g ∈ groups → found.1.length < found'.1.length) by
    intro hnil
    obtain ⟨found, hfound, hrows⟩ := Option.map_eq_some_iff.mp hnil
    have hlength := (hwalk _ _ _ hfound).2 hg
    rw [hrows] at hlength
    contradiction
  intro groups
  induction groups with
  | nil =>
    intro found found' h
    rw [Option.some.inj h]
    exact ⟨le_rfl, fun hmem => by contradiction⟩
  | cons first rest ih =>
    intro found found' h
    rw [List.foldlM_cons] at h
    obtain ⟨mid, hmid, hrest⟩ := Option.bind_eq_some_iff.mp h
    obtain ⟨hlater, hlisted⟩ := ih mid found' hrest
    by_cases hmembers : db.children (membersPath first) = []
    · rw [collectRound_empty hmembers] at hmid
      contradiction
    · rw [collectRound_members hmembers] at hmid
      have hnow := le_length_collectGroup hmid
      rw [(henum _).count_eq, count_members] at hnow
      refine ⟨by omega, fun hmem => ?_⟩
      rcases List.mem_cons.mp hmem with rfl | hmem
      · rw [if_pos hmember] at hnow
        omega
      · have := hlisted hmem
        omega

/-- The order of the reads of `getAllGroups` does not matter exactly when the walk aborts anyway, or
when the caller is in no group. -/
theorem handedBy_getAllGroups_iff (henum : ∀ names, (enumerate names).Perm names) :
    handedBy (getAllGroups Caller.user enumerate (some uid.1) Caller.keep) db [0, 0] =
        handedBy (getAllGroups Caller.user enumerate (some uid.1) Caller.keep) db [1, 0] ↔
      HasEmptyGroup db ∨ InNoGroup db uid := by
  rw [getAllGroups_eq, handedBy_username, handedBy_second]
  by_cases hempty : HasEmptyGroup db
  · refine iff_of_true ?_ (Or.inl hempty)
    rw [collectGroups_emptyGroup hempty]
    cases storedUsername db uid with
    | none => rfl
    | some user => rw [Option.bind_some, collectGroups_emptyGroup hempty]
  · have hnobody : ∀ g ∈ db.children [Keys.groups], ¬ IsMember db "" g := by
      intro g _ hmember
      obtain ⟨k, -, hname⟩ := hmember
      exact k.2.1 hname
    rw [collectGroups_nobody henum hempty hnobody, or_iff_right hempty]
    cases huser : storedUsername db uid with
    | none =>
      refine iff_of_false (by simp) fun h => ?_
      obtain ⟨user, hsome, -⟩ := h
      rw [huser] at hsome
      contradiction
    | some user =>
      rw [Option.bind_some]
      constructor
      · intro h
        refine ⟨user, huser, fun g hg hmember => ?_⟩
        exact collectGroups_somebody henum hg hmember h
      · intro h
        obtain ⟨user', hsome, hothers⟩ := h
        obtain rfl := Option.some.inj (huser.symm.trans hsome)
        exact collectGroups_nobody henum hempty hothers

end

/-! ### The matches of a search -/

section

variable {db : Store Value} {uid : Key} {user query : String}

/-- The order of the reads of a search does not matter exactly when the walk aborts anyway, or when
the caller's own name does not match the query. -/
theorem handedBy_getUsernames_iff :
    handedBy (getUsernames Caller.user (some uid.1) query Caller.keep) db [0, 0] =
        handedBy (getUsernames Caller.user (some uid.1) query Caller.keep) db [1, 0] ↔
      ¬ AllNamed db ∨ ∃ user, storedUsername db uid = some user ∧ containsText user query = false := by
  rw [getUsernames_eq, handedBy_username, handedBy_second]
  by_cases hnamed : AllNamed db
  · rw [matchUsernames_named hnamed, or_iff_right (not_not.mpr hnamed)]
    cases huser : storedUsername db uid with
    | none =>
      refine iff_of_false (by simp) fun h => ?_
      obtain ⟨user, hsome, -⟩ := h
      contradiction
    | some user =>
      rw [Option.bind_some, matchUsernames_named hnamed, Option.some.injEq, List.nil_append,
        List.nil_append]
      constructor
      · intro h
        refine ⟨user, rfl, ?_⟩
        by_contra hmatch
        have hcontains : containsText user query = true := by simpa using hmatch
        have hstored : user ∈ storedUsernames db := mem_storedUsernames.mpr ⟨uid, huser⟩
        have hne : user ≠ "" := by
          rintro rfl
          simp [containsText] at hcontains
        have hmem : user ∈ (storedUsernames db).filter fun name =>
            containsText name query ∧ name ≠ "" := by
          simp [hstored, hcontains, hne]
        rw [← h] at hmem
        simp at hmem
      · intro h
        obtain ⟨user', hsome, hmatch⟩ := h
        obtain rfl := Option.some.inj hsome
        apply List.filter_congr
        intro name _
        by_cases hcontains : containsText name query = true
        · have hne : name ≠ user := by
            rintro rfl
            rw [hmatch] at hcontains
            contradiction
          have hne' : name ≠ "" := by
            rintro rfl
            simp [containsText] at hcontains
          simp [hcontains, hne, hne']
        · simp [hcontains]
  · refine iff_of_true ?_ (Or.inl hnamed)
    rw [matchUsernames_unnamed hnamed]
    cases storedUsername db uid with
    | none => rfl
    | some user => rw [Option.bind_some, matchUsernames_unnamed hnamed]

end

/-! ### Leaving a group -/

section

variable {db : Store Value} {g uid : Key} {user : String}

/-- The database after the loop over the members, with the number of members compared to one. -/
def afterLoop (g : Key) (many : Bool) (user : String) (members : List Key) (db : Store Value) :
    Store Value :=
  if many then (members.filter fun k => k.1 = user).foldl (fun db k => db.remove (membersPath g ++ [k])) db
  else members.foldl (fun db _ => db.remove [Keys.groups, g]) db

/-- The loop over the members changes nothing but the database. -/
theorem exec_leaveLoop (many : Bool) (members : List Key) (d : Device String Value) :
    Device.exec (leaveLoop soleUser g many members) d =
      { d with db := afterLoop g many d.mem members d.db } := by
  induction members generalizing d with
  | nil => cases many <;> rfl
  | cons k rest ih =>
    cases many with
    | true =>
      rw [leaveLoop_many, Device.exec_inspect]
      change Device.exec (if k.1 = d.mem then _ else _) d = _
      by_cases hname : k.1 = d.mem
      · rw [if_pos hname, Device.exec_write, ih]
        simp [afterLoop, hname, Write.apply]
      · rw [if_neg hname, ih]
        simp [afterLoop, hname]
    | false =>
      rw [leaveLoop_single, Device.exec_write, ih]
      rfl

/-- The callback with the username does not write. -/
theorem exec_onUsername (snapshot : Snapshot Value) (d : Device String Value) :
    (Device.exec (onUsername soleUser snapshot) d).db = d.db := by
  unfold onUsername
  cases asString (snapshot.childSnapshot "username") <;> rfl

/-- Whether there are several members. -/
def SeveralMembers (db : Store Value) (g : Key) : Bool := 1 < (db.children (membersPath g)).length

/-- With the username answered first, the loop looks for that name. -/
theorem leftBy_username (h : storedUsername db uid = some user) :
    leftBy g uid db [0, 0] =
      afterLoop g (SeveralMembers db g) user (db.children (membersPath g)) db := by
  have hanswers := answers_username soleUser (membersPath g) (onMembers soleUser g) "" h
  rw [onMembers_snapshot, exec_leaveLoop] at hanswers
  rw [leftBy, removeUserFromGroup_eq]
  exact congrArg Device.db hanswers

/-- An account without a username leaves no group. -/
theorem leftBy_username_none (h : storedUsername db uid = none) : leftBy g uid db [0, 0] = db := by
  rw [leftBy, removeUserFromGroup_eq]
  exact congrArg Device.db (answers_username_none soleUser (membersPath g) (onMembers soleUser g) "" h)

/-- With the members answered first, the loop looks for the empty name. -/
theorem leftBy_members :
    leftBy g uid db [1, 0] =
      afterLoop g (SeveralMembers db g) "" (db.children (membersPath g)) db := by
  have hanswers := answers_second soleUser (membersPath g) (onMembers soleUser g) "" db uid
  rw [onMembers_snapshot, exec_leaveLoop, Device.answer_single] at hanswers
  rw [leftBy, removeUserFromGroup_eq]
  exact (congrArg Device.db hanswers).trans (exec_onUsername _ _)

/-- Removing what is stored changes the database. -/
theorem remove_ne {p q : Path} {k : Key} (hk : k ∈ db.children p) (hq : q <+: p ++ [k]) :
    db.remove q ≠ db := by
  intro hsame
  obtain ⟨rest, v, hv⟩ := (Store.mem_children _ _ _).mp hk
  rw [← hsame, Store.get_remove_eq_some_iff] at hv
  exact hv.1 (hq.trans ⟨rest, by simp⟩)

/-- Among several members, nobody is removed for a name that none of them has. -/
theorem afterLoop_nobody (h : ¬ IsMember db user g) :
    afterLoop g true user (db.children (membersPath g)) db = db := by
  have hnone : ((db.children (membersPath g)).filter fun k => k.1 = user) = [] := by
    apply List.filter_eq_nil_iff.mpr
    intro k hk
    simpa using fun hname => h ⟨k, hk, hname⟩
  rw [afterLoop, if_pos rfl, hnone]
  rfl

/-- Among several members, the one with the name is removed. -/
theorem afterLoop_member {k : Key} (hk : k ∈ db.children (membersPath g)) :
    afterLoop g true k.1 (db.children (membersPath g)) db = db.remove (membersPath g ++ [k]) := by
  have hone : ((db.children (membersPath g)).filter fun l => l.1 = k.1) = [k] := by
    have hkeys : (fun l : Key => decide (l.1 = k.1)) = fun l => l == k := by
      funext l
      rw [Bool.eq_iff_iff, decide_eq_true_iff, beq_iff_eq, Subtype.ext_iff]
    rw [hkeys, List.filter_beq, (Store.nodup_children db _).count, if_pos hk]
    rfl
  rw [afterLoop, if_pos rfl, hone]
  rfl

/-- A group of one is removed whatever the name, and a group of nobody is left. -/
theorem afterLoop_single (h : SeveralMembers db g = false) (user : String) :
    afterLoop g (SeveralMembers db g) user (db.children (membersPath g)) db =
      if (db.children (membersPath g)).length = 1 then db.remove [Keys.groups, g] else db := by
  rw [h, afterLoop, if_neg Bool.false_ne_true]
  have hlength : (db.children (membersPath g)).length ≤ 1 := by
    simpa [SeveralMembers] using h
  split
  · next hone =>
    obtain ⟨k, hk⟩ := List.length_eq_one_iff.mp hone
    rw [hk]
    rfl
  · next hne =>
    have hnil : db.children (membersPath g) = [] := List.length_eq_zero_iff.mp (by omega)
    rw [hnil]
    rfl

/-- The order of the reads of a leave does not matter exactly when the account has a username and is
not one of several members, or has none and the group does not have a single member. -/
theorem leftBy_iff :
    leftBy g uid db [0, 0] = leftBy g uid db [1, 0] ↔
      (storedUsername db uid = none → (db.children (membersPath g)).length ≠ 1) ∧
        ∀ user, storedUsername db uid = some user → IsMember db user g →
          (db.children (membersPath g)).length ≤ 1 := by
  have hnobody : ¬ IsMember db "" g := by
    intro h
    obtain ⟨k, -, hname⟩ := h
    exact k.2.1 hname
  rw [leftBy_members]
  cases hseveral : SeveralMembers db g with
  | true =>
    have hlength : 1 < (db.children (membersPath g)).length := by simpa [SeveralMembers] using hseveral
    rw [afterLoop_nobody hnobody]
    cases huser : storedUsername db uid with
    | none =>
      rw [leftBy_username_none huser]
      exact iff_of_true rfl ⟨fun _ => by omega, fun user h => by contradiction⟩
    | some user =>
      rw [leftBy_username huser, hseveral]
      constructor
      · intro h
        refine ⟨fun hnone => by contradiction, fun user' hsome hmember => ?_⟩
        obtain rfl := Option.some.inj hsome
        obtain ⟨k, hk, rfl⟩ := hmember
        rw [afterLoop_member hk] at h
        exact absurd h (remove_ne hk (List.prefix_refl _))
      · intro h
        apply afterLoop_nobody
        intro hmember
        have := h.2 user rfl hmember
        omega
  | false =>
    have hlength : (db.children (membersPath g)).length ≤ 1 := by
      simpa [SeveralMembers] using hseveral
    rw [← hseveral, afterLoop_single hseveral]
    cases huser : storedUsername db uid with
    | none =>
      rw [leftBy_username_none huser]
      constructor
      · intro h
        refine ⟨fun _ hone => ?_, fun user h => by contradiction⟩
        obtain ⟨k, hk⟩ := List.length_eq_one_iff.mp hone
        rw [if_pos hone] at h
        exact remove_ne (p := membersPath g) (hk ▸ List.mem_singleton_self k)
          ⟨[Keys.members, k], rfl⟩ h.symm
      · intro h
        rw [if_neg (h.1 rfl)]
    | some user =>
      rw [leftBy_username huser, afterLoop_single hseveral]
      exact iff_of_true rfl ⟨fun hnone => by contradiction, fun _ _ _ => hlength⟩

end

/-! ### The three functions -/

/-- Which of the two reads is answered first makes no difference for the lists that `getAllGroups` and
the search hand on and for the database that a leave leaves, exactly under these conditions. -/
theorem read_order_iff {enumerate : List String → List String}
    (henum : ∀ names, (enumerate names).Perm names) (db : Store Value) (uid : Key) :
    (handedBy (getAllGroups Caller.user enumerate (some uid.1) Caller.keep) db [0, 0] =
        handedBy (getAllGroups Caller.user enumerate (some uid.1) Caller.keep) db [1, 0] ↔
      HasEmptyGroup db ∨ InNoGroup db uid) ∧
    (∀ query, handedBy (getUsernames Caller.user (some uid.1) query Caller.keep) db [0, 0] =
        handedBy (getUsernames Caller.user (some uid.1) query Caller.keep) db [1, 0] ↔
      ¬ AllNamed db ∨ ∃ user, storedUsername db uid = some user ∧ containsText user query = false) ∧
    ∀ g, leftBy g uid db [0, 0] = leftBy g uid db [1, 0] ↔
      (storedUsername db uid = none → (db.children (membersPath g)).length ≠ 1) ∧
        ∀ user, storedUsername db uid = some user → IsMember db user g →
          (db.children (membersPath g)).length ≤ 1 :=
  ⟨handedBy_getAllGroups_iff henum, fun _ => handedBy_getUsernames_iff, fun _ => leftBy_iff⟩

/-- For a member of a group of two the order matters in the walk and in the leave, and it does not in
the search for the other member and in the leave of a group that is not stored. -/
theorem read_order_sharedByTwo :
    handedBy (getAllGroups Caller.user id (some Sample.uidA.1) Caller.keep) sharedByTwo [0, 0] ≠
      handedBy (getAllGroups Caller.user id (some Sample.uidA.1) Caller.keep) sharedByTwo [1, 0] ∧
    handedBy (getUsernames Caller.user (some Sample.uidA.1) "bob" Caller.keep) sharedByTwo [0, 0] =
      handedBy (getUsernames Caller.user (some Sample.uidA.1) "bob" Caller.keep) sharedByTwo [1, 0] ∧
    leftBy Sample.home Sample.uidA sharedByTwo [0, 0] ≠ leftBy Sample.home Sample.uidA sharedByTwo [1, 0] ∧
    leftBy Sample.work Sample.uidA sharedByTwo [0, 0] = leftBy Sample.work Sample.uidA sharedByTwo [1, 0] := by
  obtain ⟨hwalk, hsearch, hleave⟩ :=
    read_order_iff (fun names => List.Perm.refl (id names)) sharedByTwo Sample.uidA
  have huser : storedUsername sharedByTwo Sample.uidA = some "alice" := by decide
  have hgroups : sharedByTwo.children [Keys.groups] = [Sample.home] := by decide
  have hhome : IsMember sharedByTwo "alice" Sample.home := by decide
  have htwo : (sharedByTwo.children (membersPath Sample.home)).length = 2 := by decide
  have hnone : (sharedByTwo.children (membersPath Sample.work)).length = 0 := by decide
  refine ⟨?_, (hsearch "bob").mpr (Or.inr ⟨"alice", huser, by decide⟩), ?_, ?_⟩
  · intro hsame
    rcases hwalk.mp hsame with ⟨g, hg, hempty⟩ | ⟨user, hstored, hnowhere⟩
    · rw [hgroups, List.mem_singleton] at hg
      rw [hg] at hempty
      simp [hempty] at htwo
    · obtain rfl := Option.some.inj (huser.symm.trans hstored)
      exact hnowhere Sample.home (by simp [hgroups]) hhome
  · intro hsame
    have hbound := ((hleave Sample.home).mp hsame).2 "alice" huser hhome
    omega
  · refine (hleave Sample.work).mpr ⟨fun _ => by omega, fun _ _ _ => by omega⟩

/-- A search for a part of the own name lists it when the accounts are answered first. -/
theorem not_read_order : ¬ ∀ (db : Store Value) (uid g : Key) (query : String),
    handedBy (getAllGroups Caller.user id (some uid.1) Caller.keep) db [0, 0] =
        handedBy (getAllGroups Caller.user id (some uid.1) Caller.keep) db [1, 0] ∧
      handedBy (getUsernames Caller.user (some uid.1) query Caller.keep) db [0, 0] =
        handedBy (getUsernames Caller.user (some uid.1) query Caller.keep) db [1, 0] ∧
      leftBy g uid db [0, 0] = leftBy g uid db [1, 0] := by
  intro hclaim
  have hsearch := (hclaim sharedByTwo Sample.uidA Sample.home "ali").2.1
  have hfirst : handedBy (getUsernames Caller.user (some Sample.uidA.1) "ali" Caller.keep)
      sharedByTwo [0, 0] = some [] := by decide
  have hsecond : handedBy (getUsernames Caller.user (some Sample.uidA.1) "ali" Caller.keep)
      sharedByTwo [1, 0] = some ["alice"] := by decide
  rw [hfirst, hsecond] at hsearch
  simp at hsearch

end GroceryListApp

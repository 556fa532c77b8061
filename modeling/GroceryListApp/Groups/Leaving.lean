import GroceryListApp.Controller.GroupCalls
import GroceryListApp.Realtime.Story
import GroceryListApp.Realtime.Subtree
import GroceryListApp.Services.DataServiceRules

/-!
# Leaving a group

`removeUserFromGroup` decides in the callback of one read: with several members it removes
the one that has the name of the caller, with a single member it removes the group, whoever
that member is. So a second tap, after which one other member is left, removes the group of
that member; and of several members who leave at once, each answered a list that still has
the others, the last one leaves a group without members behind.

Apart from these answers every schedule of leaves is one of leaves that take no time: each
change is a listed member leaving, and the group goes with its last member.
-/

namespace GroceryListApp

open Realtime

/-- The loop over the members, with the number of members compared to one. -/
def leaveLoop {M : Type*} (currentUser : Var M String) (g : Key) (many : Bool) (members : List Key) :
    Prog M Value :=
  .forEach members fun k =>
    if many then .inspect fun m =>
      if k.1 = currentUser.get m then .write (.remove (membersPath g ++ [k])) .done else .done
    else .write (.remove [Keys.groups, g]) .done

/-- The callback of the read of the username. -/
def onUsername {M : Type*} (currentUser : Var M String) (snapshot : Snapshot Value) : Prog M Value :=
  .force (asString (snapshot.childSnapshot "username")) fun name =>
    .modify (currentUser.set name) .done

/-- The callback of the read of the members. -/
def onMembers {M : Type*} (currentUser : Var M String) (g : Key) (snapshot : Snapshot Value) :
    Prog M Value :=
  .forEach snapshot.children fun member =>
    if snapshot.children.length > 1 then
      .inspect fun m =>
        if member.key = currentUser.get m then
          (((REF_GROUPS.child g.1).child "members").child (currentUser.get m)).removeValue
        else .done
    else removeGroup g.1

section

variable {M : Type*} (currentUser : Var M String) (g uid : Key)

/-- A leave resets its variable and registers both reads. -/
theorem removeUserFromGroup_eq :
    removeUserFromGroup currentUser g.1 uid.1 =
      .modify (currentUser.set "") (.observe [Keys.users, uid] (onUsername currentUser)
        (.observe (membersPath g) (onMembers currentUser g) .done)) := by
  have huser : REF_USERS.child uid.1 = some [Keys.users, uid] := by simp [REF_USERS]
  have hmembers : (REF_GROUPS.child g.1).child "members" = some (membersPath g) := by
    simp [REF_GROUPS, Ref.child, membersPath]
  unfold onUsername onMembers
  simp only [removeUserFromGroup, printUsername, huser, hmembers, Ref.observeSingleEvent,
    Prog.block_cons, Prog.block_nil, Prog.seq_done, Prog.force_some, Prog.modify_seq,
    Prog.done_seq, Prog.observe_seq]

/-- The username that the callback remembers is the one that is stored. -/
theorem onUsername_snapshot {db : Store Value} {user : String}
    (h : storedUsername db uid = some user) :
    onUsername currentUser (db.snapshot [Keys.users, uid]) =
      .modify (currentUser.set user) .done := by
  have hvalue := value_childSnapshot db [Keys.users, uid] [Keys.username] parsePath_field.1
  rw [storedUsername_eq_some_iff] at h
  rw [onUsername, (asString_eq_some_iff _ user).mpr (hvalue.trans h), Prog.force_some]

/-- The loop that a delivered list of members leads to. -/
theorem onMembers_snapshot (db : Store Value) :
    onMembers currentUser g (db.snapshot (membersPath g)) =
      leaveLoop currentUser g (1 < (db.children (membersPath g)).length)
        (db.children (membersPath g)) := by
  have hmembers : (REF_GROUPS.child g.1).child "members" = some (membersPath g) := by
    simp [REF_GROUPS, Ref.child, membersPath]
  simp only [onMembers, leaveLoop, hmembers, Snapshot.children_snapshot, List.length_map, gt_iff_lt,
    Prog.forEach, List.map_map, decide_eq_true_eq]
  congr 2
  funext k
  simp only [Function.comp_apply]
  split
  · congr 1
    funext m
    split
    · next hname =>
      rw [← hname, Ref.child_key]
      rfl
    · rfl
  · rw [removeGroup_eq]

/-- A round of the loop that finds several members. -/
theorem leaveLoop_many (k : Key) (rest : List Key) :
    leaveLoop currentUser g true (k :: rest) = .inspect fun m =>
      if k.1 = currentUser.get m then
        .write (.remove (membersPath g ++ [k])) (leaveLoop currentUser g true rest)
      else leaveLoop currentUser g true rest := by
  simp only [leaveLoop, Prog.forEach, List.map_cons, Prog.block_cons, if_true, Prog.inspect_seq]
  congr 1
  funext m
  split <;> rfl

/-- A round of the loop that finds a single member. -/
theorem leaveLoop_single (k : Key) (rest : List Key) :
    leaveLoop currentUser g false (k :: rest) =
      .write (.remove [Keys.groups, g]) (leaveLoop currentUser g false rest) := by
  simp [leaveLoop, Prog.forEach]

/-- The loop ends with the members. -/
theorem leaveLoop_nil (many : Bool) : leaveLoop currentUser g many [] = .done := rfl

end

/-! ### The schedules -/

/-- The database once a member has left a group, which goes with its last member. -/
def afterLeaving (db : Store Value) (g k : Key) : Store Value :=
  if db.children (membersPath g) = [k] then db.remove [Keys.groups, g]
  else db.remove (membersPath g ++ [k])

/-- The number of the variable of a call. -/
def GroupCall.number : GroupCall → Option ℕ
  | .removeUserFromGroup number _ _ => some number
  | _ => none

/-- The calls are leaves of accounts that have a username, each pending call with a variable of its
own, and its read of the members is answered when it knows the username. -/
def LeavesInOrder (s : GroupSys) : Act GroupCall → Prop
  | .spawn (.removeUserFromGroup number _ uid) =>
      (storedUsername s.db uid).isSome ∧ ∀ task ∈ s.pool, task.1.number ≠ some number
  | .spawn _ => False
  | .run i =>
    match s.pool[i]? with
    | some (.removeUserFromGroup number g uid, .await p _) =>
        p = membersPath g → storedUsername s.db uid = some (s.mem number)
    | _ => True

/-- The event answers the members of the group to a leave of an account with the username. -/
def AnswersLeave (db : Store Value) (g : Key) (user : String) : GroupCall × Event Value → Prop
  | (.removeUserFromGroup _ g' uid, .read p _) =>
      g' = g ∧ p = membersPath g ∧ storedUsername db uid = some user
  | _ => False

/-- A leave of the group under the username was answered the members. -/
def Leaving (past : List (GroupCall × Event Value)) (db : Store Value) (g : Key) (user : String) :
    Prop :=
  ∃ event ∈ past, AnswersLeave db g user event

/-- A single member is the caller, and of several members, of which the caller is one, another one
is not leaving. -/
def Decides (past : List (GroupCall × Event Value)) (db : Store Value) (g : Key) (user : String) :
    Prop :=
  ((db.children (membersPath g)).length = 1 → ∃ k ∈ db.children (membersPath g), k.1 = user) ∧
  (1 < (db.children (membersPath g)).length → (∃ k ∈ db.children (membersPath g), k.1 = user) →
    ∃ k ∈ db.children (membersPath g), k.1 ≠ user ∧ ¬ Leaving past db g k.1)

/-- When the members are answered to a leave, they decide what its caller leaves. -/
def AnswersDecide (past : List (GroupCall × Event Value)) (s : GroupSys) : Act GroupCall → Prop
  | .spawn _ => True
  | .run i =>
    match s.pool[i]? with
    | some (.removeUserFromGroup number g _, .await p _) =>
        p = membersPath g → Decides past s.db g (s.mem number)
    | _ => True

/-- A step of leaves whose answered members decide. -/
def LeaveStep (past : List (GroupCall × Event Value)) (s : GroupSys) (a : Act GroupCall) : Prop :=
  LeavesInOrder s a ∧ AnswersDecide past s a

/-- A condition on the answers to leaves is decidable when it is so for each of them. -/
@[reducible] def decidableAnswers (condition : ℕ → Key → Key → Path → Prop)
    [∀ number g uid p, Decidable (condition number g uid p)]
    (found : Option (GroupCall × Body (ℕ → String) Value)) :
    Decidable (match found with
      | some (.removeUserFromGroup number g uid, .await p _) => condition number g uid p
      | _ => True) := by
  induction found using Option.casesOn with
  | none => infer_instance
  | some task =>
    induction task using Prod.casesOn with
    | mk t body =>
      induction t using GroupCall.casesOn <;> induction body using Body.casesOn <;> dsimp only <;>
        infer_instance

instance (s : GroupSys) (a : Act GroupCall) : Decidable (LeavesInOrder s a) := by
  induction a using Act.casesOn with
  | spawn t => induction t using GroupCall.casesOn <;> dsimp only [LeavesInOrder] <;> infer_instance
  | run i =>
    exact decidableAnswers (fun number g uid p => p = membersPath g →
      storedUsername s.db uid = some (s.mem number)) s.pool[i]?

instance (db : Store Value) (g : Key) (user : String) (event : GroupCall × Event Value) :
    Decidable (AnswersLeave db g user event) := by
  unfold AnswersLeave
  split <;> infer_instance

instance (past : List (GroupCall × Event Value)) (db : Store Value) (g : Key) (user : String) :
    Decidable (Leaving past db g user) := by
  unfold Leaving
  infer_instance

instance (past : List (GroupCall × Event Value)) (db : Store Value) (g : Key) (user : String) :
    Decidable (Decides past db g user) := by
  unfold Decides
  infer_instance

instance (past : List (GroupCall × Event Value)) (s : GroupSys) (a : Act GroupCall) :
    Decidable (AnswersDecide past s a) := by
  induction a using Act.casesOn with
  | spawn t => exact isTrue trivial
  | run i =>
    exact decidableAnswers (fun number g _ p => p = membersPath g → Decides past s.db g (s.mem number))
      s.pool[i]?

instance (past : List (GroupCall × Event Value)) (s : GroupSys) (a : Act GroupCall) :
    Decidable (LeaveStep past s a) := inferInstanceAs (Decidable (_ ∧ _))

/-! ### What a step does to the groups -/

section

variable {past past' : List (GroupCall × Event Value)} {db db' : Store Value} {g g' k k' : Key}
  {user user' : String} {event : GroupCall × Event Value}

/-- Who is leaving depends on the usernames only. -/
theorem answersLeave_congr (h : ∀ uid, storedUsername db' uid = storedUsername db uid) :
    AnswersLeave db' g user event ↔ AnswersLeave db g user event := by
  unfold AnswersLeave
  split
  · rw [h]
  · rfl

/-- After another event those are leaving who were, and the one who is answered. -/
theorem leaving_append (h : ∀ uid, storedUsername db' uid = storedUsername db uid) :
    Leaving (past ++ [event]) db' g user ↔ Leaving past db g user ∨ AnswersLeave db g user event := by
  simp [Leaving, answersLeave_congr h, or_and_right, exists_or]

/-- While one of the members goes under the name, some member of the group is not leaving. -/
def Spared (past : List (GroupCall × Event Value)) (db : Store Value) (g : Key) (user : String) :
    Prop :=
  (∃ k ∈ db.children (membersPath g), k.1 = user) →
    ∃ l ∈ db.children (membersPath g), ¬ Leaving past db g l.1

/-- What a step of a leave may do: the accounts stay, members only go, a group whose members go is
gone as well, and members that are leaving are spared as before. -/
structure LeavePasses (t : GroupCall) (past past' : List (GroupCall × Event Value))
    (db db' : Store Value) : Prop where
  earlier : ∀ event ∈ past, event ∈ past'
  events : ∀ event ∈ past', event ∈ past ∨ event.1 = t
  users : ∀ uid, storedUsername db' uid = storedUsername db uid
  members : ∀ g, ∀ k ∈ db'.children (membersPath g), k ∈ db.children (membersPath g)
  groups : ∀ g, g ∈ db'.children [Keys.groups] → g ∈ db.children [Keys.groups]
  goes : ∀ g, db'.children (membersPath g) = [] →
    db.children (membersPath g) = [] ∨ g ∉ db'.children [Keys.groups]
  spared : ∀ g user, Leaving past db g user → Spared past db g user → Spared past' db' g user

/-- A removal at a group changes the members of that group only. -/
theorem members_remove_group {p : Path} (h : g' ≠ g) :
    (db.remove (Keys.groups :: g :: p)).children (membersPath g') = db.children (membersPath g') := by
  refine Store.children_eq_of_mem_iff fun k => ?_
  rw [Store.mem_children_remove, Store.mem_children]
  simp [membersPath, List.cons_prefix_cons, h.symm]

/-- The members that are left when one is removed. -/
theorem mem_members_remove :
    k' ∈ (db.remove (membersPath g ++ [k])).children (membersPath g) ↔
      k' ≠ k ∧ k' ∈ db.children (membersPath g) := by
  rw [Store.mem_children_remove, Store.mem_children]
  simp [membersPath, List.cons_prefix_cons, eq_comm]

/-- A removed group has no members. -/
theorem members_remove_self : (db.remove [Keys.groups, g]).children (membersPath g) = [] := by
  refine List.eq_nil_iff_forall_not_mem.mpr fun k hk => ?_
  obtain ⟨r, v, hnot, -⟩ := Store.mem_children_remove.mp hk
  exact hnot (by simp [membersPath, List.cons_prefix_cons])

/-- A removed group is no group. -/
theorem not_mem_groups_remove : g ∉ (db.remove [Keys.groups, g]).children [Keys.groups] := by
  intro hg
  obtain ⟨r, v, hnot, -⟩ := Store.mem_children_remove.mp hg
  exact hnot (by simp [List.cons_prefix_cons])

/-- The only members that a group loses when one leaves are that one. -/
theorem eq_of_lost (hk' : k' ∈ db.children (membersPath g'))
    (hlost : k' ∉ (afterLeaving db g k).children (membersPath g')) : g' = g ∧ k' = k := by
  unfold afterLeaving at hlost
  split at hlost
  · next hone =>
    by_cases hg : g' = g
    · subst hg
      exact ⟨rfl, by simpa [hone] using hk'⟩
    · exact absurd (by rwa [members_remove_group hg]) hlost
  · by_cases hg : g' = g
    · subst hg
      by_contra hne
      exact hlost (mem_members_remove.mpr ⟨fun heq => hne ⟨rfl, heq⟩, hk'⟩)
    · have hsame : (db.remove (membersPath g ++ [k])).children (membersPath g') =
          db.children (membersPath g') := members_remove_group hg
      exact absurd (hsame ▸ hk') hlost

namespace LeavePasses

variable {t : GroupCall} {number : ℕ} {uid : Key}

/-- A step that changes nothing and tells nobody the members. -/
theorem quiet (later : List (Event Value))
    (h : ∀ event ∈ later, ∀ g user, ¬ AnswersLeave db g user (t, event)) :
    LeavePasses t past (past ++ later.map (t, ·)) db db := by
  refine ⟨fun _ => List.mem_append_left _, fun event hevent => ?_, fun _ => rfl, fun _ _ => id,
    fun _ => id, fun _ => Or.inl, fun g user _ hspared hlisted => ?_⟩
  · refine (List.mem_append.mp hevent).imp id fun hnew => ?_
    obtain ⟨_, -, rfl⟩ := List.mem_map.mp hnew
    rfl
  · obtain ⟨l, hl, hleaving⟩ := hspared hlisted
    refine ⟨l, hl, fun ⟨event, hevent, hanswers⟩ => ?_⟩
    rcases List.mem_append.mp hevent with hevent | hevent
    · exact hleaving ⟨event, hevent, hanswers⟩
    · obtain ⟨event, hnew, rfl⟩ := List.mem_map.mp hevent
      exact h event hnew g l.1 hanswers

/-- A step that nobody notices. -/
theorem refl : LeavePasses t past past db db := by
  have h : LeavePasses t past (past ++ ([] : List (Event Value)).map (t, ·)) db db := quiet [] (by simp)
  simpa using h

/-- A step that answers members who decide. -/
theorem answer (huser : storedUsername db uid = some user) (hdecides : Decides past db g user) :
    LeavePasses (.removeUserFromGroup number g uid) past
      (past ++ [(GroupCall.removeUserFromGroup number g uid, .read (membersPath g) db)]) db db := by
  refine ⟨fun _ => List.mem_append_left _, fun event hevent => ?_, fun _ => rfl, fun _ _ => id,
    fun _ => id, fun _ => Or.inl, ?_⟩
  · exact (List.mem_append.mp hevent).imp id fun hnew => by rw [List.mem_singleton.mp hnew]
  rintro g' user' hleaving hspared ⟨k, hk, rfl⟩
  obtain ⟨l, hl, hstays⟩ := hspared ⟨k, hk, rfl⟩
  suffices hother : ∃ l ∈ db.children (membersPath g'), ¬ Leaving past db g' l.1 ∧
      (g' = g → l.1 ≠ user) by
    obtain ⟨l, hl, hstays, hne⟩ := hother
    refine ⟨l, hl, fun hnew => ?_⟩
    rcases (leaving_append fun _ => rfl).mp hnew with hold | ⟨rfl, -, hname⟩
    · exact hstays hold
    · exact hne rfl (Option.some.inj (hname.symm.trans huser))
  by_cases hg : g' = g
  · subst hg
    by_cases hcaller : ∃ k ∈ db.children (membersPath g'), k.1 = user
    · by_cases hmany : 1 < (db.children (membersPath g')).length
      · obtain ⟨l, hl, hne, hstays⟩ := hdecides.2 hmany hcaller
        exact ⟨l, hl, hstays, fun _ => hne⟩
      · -- The single member would have to be leaving and not leaving.
        have hone : (db.children (membersPath g')).length = 1 := by
          have := List.length_pos_of_mem hk
          omega
        obtain ⟨only, honly⟩ := List.length_eq_one_iff.mp hone
        rw [honly, List.mem_singleton] at hk hl
        exact absurd hleaving (hk ▸ hl ▸ hstays)
    · exact ⟨l, hl, hstays, fun _ hname => hcaller ⟨l, hl, hname⟩⟩
  · exact ⟨l, hl, hstays, fun heq => absurd heq hg⟩

/-- A removal at a group keeps the accounts and tells nobody the members. -/
theorem remove {p : Path}
    (hmembers : ∀ k ∈ (db.remove (Keys.groups :: g :: p)).children (membersPath g),
      k ∈ db.children (membersPath g))
    (hgoes : (db.remove (Keys.groups :: g :: p)).children (membersPath g) = [] →
      db.children (membersPath g) = [] ∨
        g ∉ (db.remove (Keys.groups :: g :: p)).children [Keys.groups])
    (hspared : ∀ k ∈ (db.remove (Keys.groups :: g :: p)).children (membersPath g),
      ∀ l ∈ db.children (membersPath g), ¬ Leaving past db g l.1 →
        l ∈ (db.remove (Keys.groups :: g :: p)).children (membersPath g)) :
    LeavePasses t past (past ++ [(t, .wrote (.remove (Keys.groups :: g :: p)))]) db
      (db.remove (Keys.groups :: g :: p)) := by
  have husers : ∀ uid, storedUsername (db.remove (Keys.groups :: g :: p)) uid =
      storedUsername db uid := fun uid =>
    storedUsername_apply_of_root (w := .remove (Keys.groups :: g :: p)) db rfl (by decide) uid
  refine ⟨fun _ => List.mem_append_left _, fun event hevent => ?_, husers, fun g' k hk => ?_,
    fun g' hg' => ?_, fun g' hnone => ?_, fun g' user _ hold ⟨k, hk, hname⟩ => ?_⟩
  · exact (List.mem_append.mp hevent).imp id fun hnew => by rw [List.mem_singleton.mp hnew]
  · by_cases hg : g' = g
    · exact hg ▸ hmembers k (hg ▸ hk)
    · exact members_remove_group hg ▸ hk
  · obtain ⟨r, v, -, hv⟩ := Store.mem_children_remove.mp hg'
    exact (Store.mem_children _ _ _).mpr ⟨r, v, hv⟩
  · by_cases hg : g' = g
    · exact hg ▸ hgoes (hg ▸ hnone)
    · exact Or.inl (members_remove_group hg ▸ hnone)
  · have hkept : ∀ l, ¬ Leaving past db g' l → ¬ Leaving
        (past ++ [(t, .wrote (.remove (Keys.groups :: g :: p)))])
        (db.remove (Keys.groups :: g :: p)) g' l := fun l hstays hnew => by
      rcases (leaving_append husers).mp hnew with hleaving | hanswers
      · exact hstays hleaving
      · simp [AnswersLeave] at hanswers
    by_cases hg : g' = g
    · subst hg
      obtain ⟨l, hl, hstays⟩ := hold ⟨k, hmembers k hk, hname⟩
      exact ⟨l, hspared k hk l hl hstays, hkept l.1 hstays⟩
    · rw [members_remove_group hg] at hk
      obtain ⟨l, hl, hstays⟩ := hold ⟨k, hk, hname⟩
      exact ⟨l, (members_remove_group hg).symm ▸ hl, hkept l.1 hstays⟩

/-- A member that is leaving is removed while another one stays. -/
theorem removeMember (hleaving : Leaving past db g k.1) (hspared : Spared past db g k.1) :
    LeavePasses t past (past ++ [(t, .wrote (.remove (membersPath g ++ [k])))]) db
      (db.remove (membersPath g ++ [k])) := by
  have hstays {l : Key} (hl : l ∈ db.children (membersPath g)) (hnot : ¬ Leaving past db g l.1) :
      l ∈ (db.remove (membersPath g ++ [k])).children (membersPath g) :=
    mem_members_remove.mpr ⟨fun heq => hnot (heq ▸ hleaving), hl⟩
  refine remove (p := [Keys.members, k]) (fun l hl => (mem_members_remove.mp hl).2)
    (fun hnone => Or.inl ?_) (fun _ _ l hl hnot => hstays hl hnot)
  refine List.eq_nil_iff_forall_not_mem.mpr fun l hl => ?_
  have hgone {l : Key} (hl : l ∈ (db.remove (membersPath g ++ [k])).children (membersPath g)) :
      False := by
    rw [show (db.remove (membersPath g ++ [k])).children (membersPath g) = [] from hnone] at hl
    exact List.not_mem_nil hl
  by_cases hk : l = k
  · obtain ⟨l', hl', hnot⟩ := hspared ⟨k, hk ▸ hl, rfl⟩
    exact hgone (hstays hl' hnot)
  · exact hgone (mem_members_remove.mpr ⟨hk, hl⟩)

/-- A group is removed with its members. -/
theorem removeGroup :
    LeavePasses t past (past ++ [(t, .wrote (.remove [Keys.groups, g]))]) db
      (db.remove [Keys.groups, g]) := by
  refine remove (p := []) (fun k hk => ?_) (fun _ => Or.inr not_mem_groups_remove)
    (fun k hk => ?_)
  all_goals
    rw [members_remove_self] at hk
    exact absurd hk List.not_mem_nil

end LeavePasses

end

/-! ### How far a leave is -/

/-- How far a pending body of a leave is. -/
inductive LeaveStage where
  | begins
  | asksBoth
  | asksMembers
  | awaitsUsername
  | knowsUsername
  | awaitsMembers
  | loops (many : Bool) (rest : List Key)
  | removes (k : Key) (rest : List Key)
  | finished

/-- A body works on several members: they were answered, the variable holds the username, and the
caller is spared as long as it is listed. -/
structure WorksOnMany (past : List (GroupCall × Event Value)) (db : Store Value) (mem : ℕ → String)
    (number : ℕ) (g uid : Key) (user : String) : Prop where
  answered : ∃ before, (.removeUserFromGroup number g uid, .read (membersPath g) before) ∈ past
  remembers : mem number = user
  spared : Spared past db g user

/-- A body works on a single member, who is the caller. -/
structure WorksOnCaller (start db : Store Value) (g : Key) (user : String) (rest : List Key) :
    Prop where
  listed : ∀ k ∈ db.children (membersPath g), k.1 = user
  members : ∀ k ∈ rest, k.1 = user ∧ k ∈ start.children (membersPath g)

namespace LeaveStage

/-- The body of a leave at a stage. -/
def body (number : ℕ) (g uid : Key) (user : String) : LeaveStage → Body (ℕ → String) Value
  | .begins => .run (GroupCall.removeUserFromGroup number g uid).code
  | .asksBoth => .run (.observe [Keys.users, uid] (onUsername (capturedUser number))
      (.observe (membersPath g) (onMembers (capturedUser number) g) .done))
  | .asksMembers => .run (.observe (membersPath g) (onMembers (capturedUser number) g) .done)
  | .awaitsUsername => .await [Keys.users, uid] (onUsername (capturedUser number))
  | .knowsUsername => .run (.modify ((capturedUser number).set user) .done)
  | .awaitsMembers => .await (membersPath g) (onMembers (capturedUser number) g)
  | .loops many rest => .run (leaveLoop (capturedUser number) g many rest)
  | .removes k rest => .run (.write (.remove (membersPath g ++ [k]))
      (leaveLoop (capturedUser number) g true rest))
  | .finished => .run .done

/-- The body is still going to remove the caller, should the caller be a member. -/
def Pends (user : String) : LeaveStage → Prop
  | .begins | .asksBoth | .asksMembers | .awaitsMembers | .removes _ _ => True
  | .loops _ rest => ∃ k ∈ rest, k.1 = user
  | _ => False

/-- What is known of a body that works on members. -/
def Known (start : Store Value) (past : List (GroupCall × Event Value)) (db : Store Value)
    (mem : ℕ → String) (number : ℕ) (g uid : Key) (user : String) : LeaveStage → Prop
  | .loops true _ => WorksOnMany past db mem number g uid user
  | .loops false rest => WorksOnCaller start db g user rest
  | .removes k _ => WorksOnMany past db mem number g uid user ∧ k.1 = user
  | _ => True

/-- The bodies of a leave that write are about to remove a member, or the group. -/
theorem body_eq_write {number : ℕ} {g uid : Key} {user : String} {stage : LeaveStage}
    {w : Write Value} {next : Prog (ℕ → String) Value}
    (h : stage.body number g uid user = .run (.write w next)) :
    (∃ k rest, stage = .removes k rest ∧ w = .remove (membersPath g ++ [k])) ∨
      ∃ k rest, stage = .loops false (k :: rest) ∧ w = .remove [Keys.groups, g] := by
  cases stage with
  | begins =>
    have hcode : (GroupCall.removeUserFromGroup number g uid).code = _ :=
      removeUserFromGroup_eq (capturedUser number) g uid
    simp [body, hcode] at h
  | loops many rest =>
    cases rest with
    | nil => simp [body, leaveLoop_nil] at h
    | cons k rest =>
      cases many with
      | true => simp [body, leaveLoop_many] at h
      | false =>
        simp only [body, leaveLoop_single, Body.run.injEq, Prog.write.injEq] at h
        exact Or.inr ⟨k, rest, rfl, h.1.symm⟩
  | removes k rest =>
    simp only [body, Body.run.injEq, Prog.write.injEq] at h
    exact Or.inl ⟨k, rest, rfl, h.1.symm⟩
  | _ => simp [body] at h

end LeaveStage

/-- Two pending bodies with one variable belong to one call, which has begun. -/
def Shares (a b : GroupCall × LeaveStage) : Prop :=
  a.1.number = b.1.number → a.1 = b.1 ∧ a.2 ≠ .begins ∧ b.2 ≠ .begins

/-- Along a schedule of leaves accounts keep their usernames, members only go, the group with the
last one, and a leave removes its caller or is still going to. -/
structure LeaveInv (start : Store Value) (past : List (GroupCall × Event Value)) (db : Store Value)
    (mem : ℕ → String) (notes : List (GroupCall × LeaveStage)) : Prop where
  users : ∀ uid, storedUsername db uid = storedUsername start uid
  members : ∀ g, ∀ k ∈ db.children (membersPath g), k ∈ start.children (membersPath g)
  goes : ∀ g, start.children (membersPath g) ≠ [] → db.children (membersPath g) = [] →
    g ∉ db.children [Keys.groups]
  named : ∀ event ∈ past, ∃ number g uid user, event.1 = .removeUserFromGroup number g uid ∧
    storedUsername start uid = some user
  calls : ∀ note ∈ notes, ∃ number g uid user, note.1 = .removeUserFromGroup number g uid ∧
    storedUsername start uid = some user ∧ note.2.Known start past db mem number g uid user
  shares : notes.Pairwise Shares
  settled : ∀ number g uid user, storedUsername start uid = some user →
    (∃ event, (.removeUserFromGroup number g uid, event) ∈ past) ∨
      (∃ stage, (.removeUserFromGroup number g uid, stage) ∈ notes) →
    (∀ k ∈ db.children (membersPath g), k.1 ≠ user) ∨
      ∃ stage, (.removeUserFromGroup number g uid, stage) ∈ notes ∧ stage.Pends user

/-- A call that was answered the members is leaving. -/
theorem WorksOnMany.leaving {past : List (GroupCall × Event Value)} {db : Store Value}
    {mem : ℕ → String} {number : ℕ} {g uid : Key} {user : String}
    (h : WorksOnMany past db mem number g uid user) (huser : storedUsername db uid = some user) :
    Leaving past db g user := by
  obtain ⟨before, hread⟩ := h.answered
  exact ⟨_, hread, rfl, rfl, huser⟩

/-- What is known of a body stays known in the steps of others that keep its variable. -/
theorem LeavePasses.known {t : GroupCall} {start : Store Value} {past past' : List (GroupCall × Event Value)}
    {db db' : Store Value} {mem mem' : ℕ → String} {number : ℕ} {g uid : Key} {user : String}
    {stage : LeaveStage} (h : LeavePasses t past past' db db') (huser : storedUsername db uid = some user)
    (hmem : mem number = user → mem' number = user)
    (hknown : stage.Known start past db mem number g uid user) :
    stage.Known start past' db' mem' number g uid user := by
  have hmany (hworks : WorksOnMany past db mem number g uid user) :
      WorksOnMany past' db' mem' number g uid user :=
    ⟨hworks.answered.imp fun _ => h.earlier _, hmem hworks.remembers,
      h.spared g user (hworks.leaving huser) hworks.spared⟩
  cases stage with
  | loops many rest =>
    cases many with
    | true => exact hmany hknown
    | false => exact ⟨fun k hk => hknown.listed k (h.members g k hk), hknown.members⟩
  | removes k rest => exact ⟨hmany hknown.1, hknown.2⟩
  | _ => trivial

namespace LeaveInv

variable {start : Store Value} {past past' : List (GroupCall × Event Value)} {db db' : Store Value}
  {mem mem' : ℕ → String} {before after : List (GroupCall × LeaveStage)} {number : ℕ} {g uid : Key}
  {user : String} {stage : LeaveStage} {gs : List LeaveStage}

/-- What is known of a pending body. -/
theorem known (h : LeaveInv start past db mem
    (before ++ (.removeUserFromGroup number g uid, stage) :: after))
    (huser : storedUsername start uid = some user) :
    stage.Known start past db mem number g uid user := by
  obtain ⟨n, g', uid', user', hcall, huser', hknown⟩ :=
    h.calls (.removeUserFromGroup number g uid, stage) (by simp)
  obtain ⟨rfl, rfl, rfl⟩ := GroupCall.removeUserFromGroup.inj hcall
  have : user' = user := Option.some.inj (huser'.symm.trans huser)
  exact this ▸ hknown

/-- Whether bodies share a variable does not depend on their order. -/
theorem shares_symm : ∀ {a b}, Shares a b → Shares b a :=
  fun h heq => ⟨(h heq.symm).1.symm, (h heq.symm).2.2, (h heq.symm).2.1⟩

/-- A body beside the one that is run has another variable, or belongs to the same call. -/
theorem shares_beside {t : GroupCall} (h : LeaveInv start past db mem (before ++ (t, stage) :: after)) :
    (∀ note ∈ before ++ after, Shares (t, stage) note) ∧ (before ++ after).Pairwise Shares :=
  List.pairwise_cons.mp ((List.perm_middle.pairwise_iff shares_symm).mp h.shares)

/-- The bodies that a step leaves behind share a variable only with bodies of the same call. -/
theorem shares_advance {t : GroupCall} (gs : List LeaveStage)
    (h : LeaveInv start past db mem (before ++ (t, stage) :: after)) (hbegins : .begins ∉ gs) :
    (before ++ gs.map (t, ·) ++ after).Pairwise Shares := by
  obtain ⟨hself, hrest⟩ := h.shares_beside
  have hperm : (before ++ gs.map (t, ·) ++ after).Perm (gs.map (t, ·) ++ (before ++ after)) := by
    rw [List.append_assoc]
    exact List.perm_append_comm_assoc _ _ _
  have hnew {stage' : LeaveStage} (hstage : stage' ∈ gs) : stage' ≠ .begins :=
    fun heq => hbegins (heq ▸ hstage)
  refine (hperm.pairwise_iff shares_symm).mpr (List.pairwise_append.mpr ⟨?_, hrest, ?_⟩)
  · refine List.pairwise_of_forall_mem_list ?_
    simp only [List.forall_mem_map]
    exact fun a ha b hb _ => ⟨rfl, hnew ha, hnew hb⟩
  · simp only [List.forall_mem_map]
    exact fun a ha note hnote heq =>
      ⟨(hself note hnote heq).1, hnew ha, (hself note hnote heq).2.2⟩

/-- A body beside the one that is run still knows its username. -/
theorem remembers_beside
    (h : LeaveInv start past db mem (before ++ (.removeUserFromGroup number g uid, stage) :: after))
    (huser : storedUsername start uid = some user)
    (hmem : ∀ other, other ≠ number → mem' other = mem other)
    (hown : mem' number = mem number ∨ stage = .begins ∨ mem' number = user)
    {n : ℕ} {g' uid' : Key} {user' : String} {stage' : LeaveStage}
    (hnote : (.removeUserFromGroup n g' uid', stage') ∈ before ++ after)
    (huser' : storedUsername start uid' = some user') (hknows : mem n = user') : mem' n = user' := by
  by_cases hn : n = number
  · subst hn
    obtain ⟨hcall, hbegun, -⟩ := h.shares_beside.1 _ hnote rfl
    obtain ⟨-, rfl, rfl⟩ := GroupCall.removeUserFromGroup.inj hcall
    rcases hown with hsame | hbegins | hset
    · exact hsame.trans hknows
    · exact absurd hbegins hbegun
    · exact hset.trans (Option.some.inj (huser.symm.trans huser'))
  · exact (hmem n hn).trans hknows

/-- What is known of the bodies beside one that takes a step stays known. -/
theorem calls_advance
    (h : LeaveInv start past db mem (before ++ (.removeUserFromGroup number g uid, stage) :: after))
    (huser : storedUsername start uid = some user)
    (hpasses : LeavePasses (.removeUserFromGroup number g uid) past past' db db')
    (hmem : ∀ other, other ≠ number → mem' other = mem other)
    (hown : mem' number = mem number ∨ stage = .begins ∨ mem' number = user) :
    ∀ note ∈ before ++ after, ∃ number g uid user, note.1 = .removeUserFromGroup number g uid ∧
      storedUsername start uid = some user ∧ note.2.Known start past' db' mem' number g uid user := by
  rintro ⟨t, stage'⟩ hnote
  obtain ⟨n, g', uid', user', rfl, huser', hknown⟩ := h.calls _ (mem_middle.mpr (Or.inr hnote))
  exact ⟨n, g', uid', user', rfl, huser', hpasses.known ((h.users uid').trans huser')
    (h.remembers_beside huser hmem hown hnote huser') hknown⟩

/-- A caller is removed, or is still going to be, after a step of one of the bodies. -/
theorem settled_advance
    (h : LeaveInv start past db mem (before ++ (.removeUserFromGroup number g uid, stage) :: after))
    (huser : storedUsername start uid = some user)
    (hpasses : LeavePasses (.removeUserFromGroup number g uid) past past' db db')
    (hpends : stage.Pends user → (∀ k ∈ db'.children (membersPath g), k.1 ≠ user) ∨
      ∃ stage' ∈ gs, stage'.Pends user)
    {n : ℕ} {g' uid' : Key} {user' : String} (huser' : storedUsername start uid' = some user')
    (hissued : (∃ event, (.removeUserFromGroup n g' uid', event) ∈ past') ∨
      ∃ stage', (.removeUserFromGroup n g' uid', stage') ∈
        before ++ gs.map (GroupCall.removeUserFromGroup number g uid, ·) ++ after) :
    (∀ k ∈ db'.children (membersPath g'), k.1 ≠ user') ∨
      ∃ stage', (.removeUserFromGroup n g' uid', stage') ∈
        before ++ gs.map (GroupCall.removeUserFromGroup number g uid, ·) ++ after ∧ stage'.Pends user' := by
  have hbefore : (∃ event, (.removeUserFromGroup n g' uid', event) ∈ past) ∨
      ∃ stage', (.removeUserFromGroup n g' uid', stage') ∈
        before ++ (.removeUserFromGroup number g uid, stage) :: after := by
    have hself {t : GroupCall} (ht : t = .removeUserFromGroup number g uid) : ∃ stage', (t, stage') ∈
        before ++ (.removeUserFromGroup number g uid, stage) :: after :=
      ⟨stage, mem_middle.mpr (Or.inl (by rw [ht]))⟩
    rcases hissued with ⟨event, hevent⟩ | ⟨stage', hnote⟩
    · exact (hpasses.events _ hevent).imp (fun hold => ⟨event, hold⟩) hself
    · rcases mem_replaced.mp hnote with ⟨_, -, heq⟩ | hbeside
      · exact Or.inr (hself (Prod.mk.inj heq).1)
      · exact Or.inr ⟨stage', mem_middle.mpr (Or.inr hbeside)⟩
  rcases h.settled n g' uid' user' huser' hbefore with hgone | ⟨stage', hnote, hpending⟩
  · exact Or.inl fun k hk => hgone k (hpasses.members g' k hk)
  rcases mem_middle.mp hnote with hself | hbeside
  · obtain ⟨hcall, rfl⟩ := Prod.mk.inj hself
    obtain ⟨rfl, rfl, rfl⟩ := GroupCall.removeUserFromGroup.inj hcall
    obtain rfl : user' = user := Option.some.inj (huser'.symm.trans huser)
    refine (hpends hpending).imp id fun ⟨next, hnext, hpending⟩ => ⟨next, ?_, hpending⟩
    exact mem_replaced.mpr (Or.inl ⟨next, hnext, rfl⟩)
  · exact Or.inr ⟨stage', mem_replaced.mpr (Or.inr hbeside), hpending⟩

/-- One step of a pending body keeps the invariant, as far as it concerns the body itself. -/
theorem advance (gs : List LeaveStage) (mem' : ℕ → String)
    (h : LeaveInv start past db mem (before ++ (.removeUserFromGroup number g uid, stage) :: after))
    (huser : storedUsername start uid = some user)
    (hpasses : LeavePasses (.removeUserFromGroup number g uid) past past' db db')
    (hmem : ∀ other, other ≠ number → mem' other = mem other)
    (hown : mem' number = mem number ∨ stage = .begins ∨ mem' number = user)
    (hbegins : .begins ∉ gs)
    (hknown : ∀ stage' ∈ gs, stage'.Known start past' db' mem' number g uid user)
    (hpends : stage.Pends user → (∀ k ∈ db'.children (membersPath g), k.1 ≠ user) ∨
      ∃ stage' ∈ gs, stage'.Pends user) :
    LeaveInv start past' db' mem'
      (before ++ gs.map (GroupCall.removeUserFromGroup number g uid, ·) ++ after) where
  users other := (hpasses.users other).trans (h.users other)
  members g' k hk := h.members g' k (hpasses.members g' k hk)
  goes g' hstart hnone := by
    rcases hpasses.goes g' hnone with hbefore | hgone
    · exact fun hg => h.goes g' hstart hbefore (hpasses.groups g' hg)
    · exact hgone
  named event hevent := by
    rcases hpasses.events event hevent with hold | hnew
    · exact h.named event hold
    · exact ⟨number, g, uid, user, hnew, huser⟩
  calls note hnote := by
    rcases mem_replaced.mp hnote with ⟨stage', hstage, rfl⟩ | hbeside
    · exact ⟨number, g, uid, user, rfl, huser, hknown stage' hstage⟩
    · exact h.calls_advance huser hpasses hmem hown note hbeside
  shares := h.shares_advance gs hbegins
  settled _ _ _ _ huser' hissued := h.settled_advance huser hpasses hpends huser' hissued

/-- A step that neither changes the database nor is noticed keeps the invariant. -/
theorem advance_quiet (gs : List LeaveStage) (mem' : ℕ → String)
    (h : LeaveInv start past db mem (before ++ (.removeUserFromGroup number g uid, stage) :: after))
    (huser : storedUsername start uid = some user)
    (hmem : ∀ other, other ≠ number → mem' other = mem other)
    (hown : mem' number = mem number ∨ stage = .begins ∨ mem' number = user)
    (hbegins : .begins ∉ gs)
    (hknown : ∀ stage' ∈ gs, stage'.Known start past db mem' number g uid user)
    (hpends : stage.Pends user → ∃ stage' ∈ gs, stage'.Pends user) :
    LeaveInv start past db mem'
      (before ++ gs.map (GroupCall.removeUserFromGroup number g uid, ·) ++ after) := by
  exact h.advance gs mem' huser LeavePasses.refl hmem hown hbegins hknown fun hpending => Or.inr (hpends hpending)

/-- A step of a body that loops over several members keeps the invariant. -/
theorem step_many {k : Key} {rest : List Key}
    (h : LeaveInv start past db mem
      (before ++ (.removeUserFromGroup number g uid, .loops true (k :: rest)) :: after))
    (huser : storedUsername start uid = some user) :
    LeaveInv start past db mem (before ++ [(GroupCall.removeUserFromGroup number g uid,
      if k.1 = user then .removes k rest else .loops true rest)] ++ after) := by
  have hworks : WorksOnMany past db mem number g uid user := h.known huser
  by_cases hname : k.1 = user
  · simpa [hname] using h.advance_quiet [.removes k rest] mem huser (fun _ _ => rfl) (Or.inl rfl)
      (by simp) (by simpa [LeaveStage.Known] using ⟨hworks, hname⟩) (by simp [LeaveStage.Pends])
  · simpa [hname] using h.advance_quiet [.loops true rest] mem huser (fun _ _ => rfl) (Or.inl rfl)
      (by simp) (by simpa [LeaveStage.Known] using hworks) (by simp [LeaveStage.Pends, hname])

/-- The removal of the caller keeps the invariant. -/
theorem step_removes {k : Key} {rest : List Key}
    (h : LeaveInv start past db mem
      (before ++ (.removeUserFromGroup number g uid, .removes k rest) :: after))
    (huser : storedUsername start uid = some user) :
    LeaveInv start
      (past ++ [(GroupCall.removeUserFromGroup number g uid, .wrote (.remove (membersPath g ++ [k])))])
      (db.remove (membersPath g ++ [k])) mem
      (before ++ [(GroupCall.removeUserFromGroup number g uid, .loops true rest)] ++ after) := by
  have hstored : storedUsername db uid = some user := (h.users uid).trans huser
  obtain ⟨hworks, rfl⟩ : WorksOnMany past db mem number g uid user ∧ k.1 = user := h.known huser
  have hpasses := LeavePasses.removeMember (t := .removeUserFromGroup number g uid)
    (hworks.leaving hstored) hworks.spared
  refine h.advance [.loops true rest] mem huser hpasses (fun _ _ => rfl) (Or.inl rfl) (by simp) ?_
    fun _ => Or.inl fun l hl hname => (mem_members_remove.mp hl).1 (Subtype.ext hname)
  simp only [List.mem_singleton, forall_eq, LeaveStage.Known]
  exact ⟨hworks.answered.imp fun _ => List.mem_append_left _, hworks.remembers,
    hpasses.spared g k.1 (hworks.leaving hstored) hworks.spared⟩

/-- The removal of the group of the caller alone keeps the invariant. -/
theorem step_single {k : Key} {rest : List Key}
    (h : LeaveInv start past db mem
      (before ++ (.removeUserFromGroup number g uid, .loops false (k :: rest)) :: after))
    (huser : storedUsername start uid = some user) :
    LeaveInv start (past ++ [(GroupCall.removeUserFromGroup number g uid, .wrote (.remove [Keys.groups, g]))])
      (db.remove [Keys.groups, g]) mem
      (before ++ [(GroupCall.removeUserFromGroup number g uid, .loops false rest)] ++ after) := by
  have hworks : WorksOnCaller start db g user (k :: rest) := h.known huser
  have hgone {l : Key} (hl : l ∈ (db.remove [Keys.groups, g]).children (membersPath g)) : False := by
    rw [members_remove_self] at hl
    exact List.not_mem_nil hl
  refine h.advance [.loops false rest] mem huser LeavePasses.removeGroup (fun _ _ => rfl) (Or.inl rfl)
    (by simp) ?_ fun _ => Or.inl fun l hl => (hgone hl).elim
  simp only [List.mem_singleton, forall_eq, LeaveStage.Known]
  exact ⟨fun l hl => (hgone hl).elim, fun l hl => hworks.members l (List.mem_cons_of_mem _ hl)⟩

/-- An answer of members who decide keeps the invariant. -/
theorem step_answer
    (h : LeaveInv start past db mem
      (before ++ (.removeUserFromGroup number g uid, .awaitsMembers) :: after))
    (huser : storedUsername start uid = some user) (hmem : mem number = user)
    (hdecides : Decides past db g user) :
    LeaveInv start (past ++ [(GroupCall.removeUserFromGroup number g uid, .read (membersPath g) db)]) db mem
      (before ++ [(GroupCall.removeUserFromGroup number g uid,
        .loops (1 < (db.children (membersPath g)).length) (db.children (membersPath g)))] ++ after) := by
  have hstored : storedUsername db uid = some user := (h.users uid).trans huser
  have hpasses : LeavePasses (.removeUserFromGroup number g uid) past _ db db :=
    LeavePasses.answer hstored hdecides
  refine h.advance [.loops _ _] mem huser hpasses (fun _ _ => rfl) (Or.inl rfl) (by simp) ?_ fun _ => ?_
  · simp only [List.mem_singleton, forall_eq]
    by_cases hmany : 1 < (db.children (membersPath g)).length
    · simp only [hmany, decide_true, LeaveStage.Known]
      refine ⟨⟨db, List.mem_append_right _ (List.mem_singleton_self _)⟩, hmem, fun hlisted => ?_⟩
      obtain ⟨l, hl, hne, hstays⟩ := hdecides.2 hmany hlisted
      refine ⟨l, hl, fun hnew => ?_⟩
      rcases (leaving_append fun _ => rfl).mp hnew with hleaving | ⟨-, -, hname⟩
      · exact hstays hleaving
      · exact hne (Option.some.inj (hname.symm.trans hstored))
    · -- A single member is the caller, because the answer decides.
      simp only [hmany, decide_false, LeaveStage.Known]
      have hcaller : ∀ k ∈ db.children (membersPath g), k.1 = user := fun k hk => by
        have hone : (db.children (membersPath g)).length = 1 := by
          have := List.length_pos_of_mem hk
          omega
        obtain ⟨l, hl, hname⟩ := hdecides.1 hone
        obtain ⟨only, honly⟩ := List.length_eq_one_iff.mp hone
        rw [honly, List.mem_singleton] at hk hl
        rw [hk, ← hl, hname]
      exact ⟨hcaller, fun k hk => ⟨hcaller k hk, h.members g k hk⟩⟩
  · by_cases hlisted : ∃ k ∈ db.children (membersPath g), k.1 = user
    · exact Or.inr ⟨_, List.mem_singleton_self _, hlisted⟩
    · exact Or.inl fun k hk hname => hlisted ⟨k, hk, hname⟩

/-- One step of a pending body keeps the invariant, when the members are answered in order and
decide what its caller leaves. -/
theorem step {rest : List (Body (ℕ → String) Value)}
    (h : LeaveInv start past db mem (before ++ (.removeUserFromGroup number g uid, stage) :: after))
    (huser : storedUsername start uid = some user)
    (hanswer : stage = .awaitsMembers → storedUsername db uid = some (mem number) ∧
      Decides past db g (mem number))
    (hstep : (stage.body number g uid user).step db mem = some (db', mem', rest)) :
    ∃ gs : List LeaveStage, rest = gs.map (LeaveStage.body number g uid user) ∧
      LeaveInv start (past ++ (((stage.body number g uid user).event db).map
        (.removeUserFromGroup number g uid, ·)).toList) db' mem'
        (before ++ gs.map (GroupCall.removeUserFromGroup number g uid, ·) ++ after) := by
  have hcode : (GroupCall.removeUserFromGroup number g uid).code = _ :=
    removeUserFromGroup_eq (capturedUser number) g uid
  have hset (value : String) : ∀ other, other ≠ number →
      (capturedUser number).set value mem other = mem other :=
    fun other hne => Function.update_of_ne hne _ _
  cases stage with
  | begins =>
    simp only [LeaveStage.body, hcode, Body.step, Option.some.injEq, Prod.mk.injEq] at hstep
    obtain ⟨rfl, rfl, rfl⟩ := hstep
    refine ⟨[.asksBoth], rfl, ?_⟩
    simpa [LeaveStage.body, hcode, Body.event] using h.advance_quiet [.asksBoth] _ huser (hset "")
      (Or.inr (Or.inl rfl)) (by simp) (by simp [LeaveStage.Known]) (by simp [LeaveStage.Pends])
  | asksBoth =>
    simp only [LeaveStage.body, Body.step, Option.some.injEq, Prod.mk.injEq] at hstep
    obtain ⟨rfl, rfl, rfl⟩ := hstep
    refine ⟨[.asksMembers, .awaitsUsername], rfl, ?_⟩
    simpa [LeaveStage.body, Body.event] using h.advance_quiet [.asksMembers, .awaitsUsername] mem huser
      (fun _ _ => rfl) (Or.inl rfl) (by simp) (by simp [LeaveStage.Known]) (by simp [LeaveStage.Pends])
  | asksMembers =>
    simp only [LeaveStage.body, Body.step, Option.some.injEq, Prod.mk.injEq] at hstep
    obtain ⟨rfl, rfl, rfl⟩ := hstep
    refine ⟨[.finished, .awaitsMembers], rfl, ?_⟩
    simpa [LeaveStage.body, Body.event] using h.advance_quiet [.finished, .awaitsMembers] mem huser
      (fun _ _ => rfl) (Or.inl rfl) (by simp) (by simp [LeaveStage.Known]) (by simp [LeaveStage.Pends])
  | awaitsUsername =>
    have hstored : storedUsername db uid = some user := (h.users uid).trans huser
    simp only [LeaveStage.body, Body.step, onUsername_snapshot _ _ hstored, Option.some.injEq,
      Prod.mk.injEq] at hstep
    obtain ⟨rfl, rfl, rfl⟩ := hstep
    refine ⟨[.knowsUsername], rfl, ?_⟩
    have hquiet : LeavePasses (.removeUserFromGroup number g uid) past
        (past ++ [(GroupCall.removeUserFromGroup number g uid, .read [Keys.users, uid] db)]) db db :=
      LeavePasses.quiet [.read [Keys.users, uid] db] (by simp [AnswersLeave, membersPath])
    exact h.advance [.knowsUsername] mem huser hquiet (fun _ _ => rfl) (Or.inl rfl) (by simp)
      (by simp [LeaveStage.Known]) (by simp [LeaveStage.Pends])
  | knowsUsername =>
    simp only [LeaveStage.body, Body.step, Option.some.injEq, Prod.mk.injEq] at hstep
    obtain ⟨rfl, rfl, rfl⟩ := hstep
    refine ⟨[.finished], rfl, ?_⟩
    simpa [LeaveStage.body, Body.event] using h.advance_quiet [.finished] _ huser (hset user)
      (Or.inr (Or.inr (by simp [capturedUser]))) (by simp) (by simp [LeaveStage.Known])
      (by simp [LeaveStage.Pends])
  | awaitsMembers =>
    obtain ⟨hstored, hdecides⟩ := hanswer rfl
    have hmem : mem number = user :=
      Option.some.inj (hstored.symm.trans ((h.users uid).trans huser))
    simp only [LeaveStage.body, Body.step, onMembers_snapshot, Option.some.injEq,
      Prod.mk.injEq] at hstep
    obtain ⟨rfl, rfl, rfl⟩ := hstep
    exact ⟨[.loops _ _], rfl, h.step_answer huser hmem (hmem ▸ hdecides)⟩
  | loops many members =>
    cases members with
    | nil =>
      simp only [LeaveStage.body, leaveLoop_nil, Body.step, Option.some.injEq, Prod.mk.injEq] at hstep
      obtain ⟨rfl, rfl, rfl⟩ := hstep
      refine ⟨[], rfl, ?_⟩
      simpa [LeaveStage.body, leaveLoop_nil, Body.event] using h.advance_quiet [] mem huser
        (fun _ _ => rfl) (Or.inl rfl) (by simp) (by simp) (by simp [LeaveStage.Pends])
    | cons k members =>
      cases many with
      | true =>
        have hworks : WorksOnMany past db mem number g uid user := h.known huser
        have hget : (capturedUser number).get mem = user := hworks.remembers
        simp only [LeaveStage.body, leaveLoop_many, Body.step, hget, Option.some.injEq,
          Prod.mk.injEq] at hstep
        obtain ⟨rfl, rfl, rfl⟩ := hstep
        refine ⟨[if k.1 = user then .removes k members else .loops true members], ?_, ?_⟩
        · split <;> rfl
        · simpa [LeaveStage.body, leaveLoop_many, Body.event] using h.step_many huser
      | false =>
        simp only [LeaveStage.body, leaveLoop_single, Body.step, Option.some.injEq,
          Prod.mk.injEq] at hstep
        obtain ⟨rfl, rfl, rfl⟩ := hstep
        refine ⟨[.loops false members], rfl, ?_⟩
        simpa [LeaveStage.body, leaveLoop_single, Body.event, Write.apply] using h.step_single huser
  | removes k members =>
    simp only [LeaveStage.body, Body.step, Option.some.injEq, Prod.mk.injEq] at hstep
    obtain ⟨rfl, rfl, rfl⟩ := hstep
    exact ⟨[.loops true members], rfl, h.step_removes huser⟩
  | finished =>
    simp only [LeaveStage.body, Body.step, Option.some.injEq, Prod.mk.injEq] at hstep
    obtain ⟨rfl, rfl, rfl⟩ := hstep
    refine ⟨[], rfl, ?_⟩
    simpa [LeaveStage.body, Body.event] using h.advance_quiet [] mem huser (fun _ _ => rfl)
      (Or.inl rfl) (by simp) (by simp) (by simp [LeaveStage.Pends])

/-- A new call with a variable of its own keeps the invariant. -/
theorem issue {notes : List (GroupCall × LeaveStage)} (h : LeaveInv start past db mem notes)
    (huser : storedUsername start uid = some user)
    (hnotes : ∀ note ∈ notes, note.1.number ≠ some number) :
    LeaveInv start past db mem (notes ++ [(GroupCall.removeUserFromGroup number g uid, .begins)]) where
  users := h.users
  members := h.members
  goes := h.goes
  named := h.named
  calls note hnote := by
    rcases List.mem_append.mp hnote with hnote | hnote
    · exact h.calls note hnote
    · rw [List.mem_singleton.mp hnote]
      exact ⟨number, g, uid, user, rfl, huser, trivial⟩
  shares := by
    refine List.pairwise_append.mpr ⟨h.shares, List.pairwise_singleton _ _, ?_⟩
    intro note hnote new hnew heq
    rw [List.mem_singleton.mp hnew] at heq
    exact absurd heq (hnotes note hnote)
  settled n g' uid' user' huser' hissued := by
    by_cases hbefore : (∃ event, (.removeUserFromGroup n g' uid', event) ∈ past) ∨
        ∃ stage, (.removeUserFromGroup n g' uid', stage) ∈ notes
    · refine (h.settled n g' uid' user' huser' hbefore).imp id fun ⟨stage, hnote, hpending⟩ => ?_
      exact ⟨stage, List.mem_append_left _ hnote, hpending⟩
    · obtain ⟨stage, hnote⟩ := hissued.resolve_left fun hevent => hbefore (Or.inl hevent)
      rcases List.mem_append.mp hnote with hold | hnew
      · exact absurd (Or.inr ⟨stage, hold⟩) hbefore
      · obtain ⟨-, rfl⟩ := Prod.mk.inj (List.mem_singleton.mp hnew)
        exact Or.inr ⟨.begins, hnote, trivial⟩

end LeaveInv

/-- The stages of the pending bodies of leaves, with what holds along a schedule. -/
def leaves (start : Store Value) : Chronicle GroupCall LeaveStage (ℕ → String) Value where
  fits t stage body := ∃ number g uid user, t = .removeUserFromGroup number g uid ∧
    storedUsername start uid = some user ∧ body = stage.body number g uid user
  inv := LeaveInv start

/-- Along every allowed schedule of leaves the pending bodies are at stages of leaves. -/
theorem leaves_story {start s : GroupSys} {past : List (GroupCall × Event Value)}
    (hpool : start.pool = []) (h : Sys.Story GroupCall.code LeaveStep start past s) :
    ∃ notes, (leaves start.db).Matches notes s.pool ∧
      LeaveInv start.db past s.db s.mem notes := by
  apply Chronicle.story_chronicle (A := leaves start.db) h
  · intro past s t notes hallowed hmatches hinv
    obtain ⟨horder, -⟩ := hallowed
    cases t <;> simp only [LeavesInOrder] at horder
    case removeUserFromGroup number g uid =>
      obtain ⟨hname, htasks⟩ := horder
      obtain ⟨user, huser⟩ := Option.isSome_iff_exists.mp hname
      have hstart : storedUsername start.db uid = some user := (hinv.users uid).symm.trans huser
      refine ⟨.begins, ⟨number, g, uid, user, rfl, hstart, rfl⟩, hinv.issue hstart ?_⟩
      intro note hnote
      obtain ⟨body, hbody, -⟩ := hmatches.exists_task hnote
      exact htasks _ hbody
  · rintro past s i t body before stage after db mem rest ⟨horder, hdecides⟩ hget hmatches
      ⟨number, g, uid, user, rfl, huser, rfl⟩ hinv hstep
    have hanswer : stage = .awaitsMembers → storedUsername s.db uid = some (s.mem number) ∧
        Decides past s.db g (s.mem number) := by
      rintro rfl
      simp only [LeavesInOrder, hget, LeaveStage.body] at horder
      simp only [AnswersDecide, hget, LeaveStage.body] at hdecides
      exact ⟨horder trivial, hdecides trivial⟩
    obtain ⟨gs, rfl, hnext⟩ := LeaveInv.step hinv huser hanswer hstep
    refine ⟨gs, ?_, hnext⟩
    rw [List.forall₂_map_right_iff]
    exact List.forall₂_same.mpr fun _ _ => ⟨number, g, uid, user, rfl, huser, rfl⟩
  · refine ⟨[], by simp [Chronicle.Matches, hpool], fun _ => rfl, fun _ _ => id,
      fun g hstart hnone => absurd hnone hstart, ?_, ?_, List.Pairwise.nil, ?_⟩ <;> simp

/-- The removal of a member that is spared is the member leaving, or changes nothing. -/
theorem WorksOnMany.afterLeaving_eq {past : List (GroupCall × Event Value)} {db : Store Value}
    {mem : ℕ → String} {number : ℕ} {g uid k : Key}
    (h : WorksOnMany past db mem number g uid k.1) (huser : storedUsername db uid = some k.1) :
    db.remove (membersPath g ++ [k]) = db ∨
      k ∈ db.children (membersPath g) ∧ db.remove (membersPath g ++ [k]) = afterLeaving db g k := by
  by_cases hk : k ∈ db.children (membersPath g)
  · refine Or.inr ⟨hk, (if_neg fun hone => ?_).symm⟩
    obtain ⟨l, hl, hstays⟩ := h.spared ⟨k, hk, rfl⟩
    rw [hone, List.mem_singleton] at hl
    exact hstays (hl ▸ h.leaving huser)
  · exact Or.inl (Store.remove_eq_self hk)

/-- The removal of the group of the caller alone is the caller leaving, or changes nothing. -/
theorem WorksOnCaller.afterLeaving_eq {start db : Store Value} {g k : Key} {user : String}
    {rest : List Key} (h : WorksOnCaller start db g user (k :: rest))
    (hgoes : start.children (membersPath g) ≠ [] → db.children (membersPath g) = [] →
      g ∉ db.children [Keys.groups]) :
    db.remove [Keys.groups, g] = db ∨ k.1 = user ∧
      k ∈ db.children (membersPath g) ∧ db.remove [Keys.groups, g] = afterLeaving db g k := by
  obtain ⟨hname, hstart⟩ := h.members k List.mem_cons_self
  by_cases hnone : db.children (membersPath g) = []
  · exact Or.inl (Store.remove_eq_self (p := [Keys.groups]) (hgoes (List.ne_nil_of_mem hstart) hnone))
  · have hall : ∀ l ∈ db.children (membersPath g), l = k := fun l hl =>
      Subtype.ext ((h.listed l hl).trans hname.symm)
    obtain ⟨l, hl⟩ := List.exists_mem_of_ne_nil _ hnone
    have hone : db.children (membersPath g) = [k] := by
      refine List.perm_singleton.mp ((List.perm_ext_iff_of_nodup (Store.nodup_children _ _)
        (List.nodup_singleton k)).mpr fun m => ?_)
      rw [List.mem_singleton]
      exact ⟨hall m, fun heq => heq ▸ hall l hl ▸ hl⟩
    exact Or.inr ⟨hname, by simp [hone], (if_pos hone).symm⟩

/-- A step of a leave that changes something is its caller, who is a member, leaving. -/
theorem step_leaving {start s s' : GroupSys} {past : List (GroupCall × Event Value)}
    {a : Act GroupCall} (hpool : start.pool = [])
    (h : Sys.Story GroupCall.code LeaveStep start past s) (hstep : s.step GroupCall.code a = some s') :
    s'.db = s.db ∨ ∃ number g uid w k, s.event a = some (.removeUserFromGroup number g uid, .wrote w) ∧
      storedUsername s.db uid = some k.1 ∧ k ∈ s.db.children (membersPath g) ∧
      s'.db = afterLeaving s.db g k := by
  obtain ⟨notes, hmatches, hinv⟩ := leaves_story hpool h
  rcases Sys.db_of_step hstep with ⟨hsame, -⟩ | ⟨t, w, hevent, hdb⟩
  · exact Or.inl hsame
  obtain ⟨i, next, rfl, hget⟩ := Sys.event_eq_wrote hevent
  obtain ⟨stage, hnote, number, g, uid, user, rfl, huser, hbody⟩ :=
    hmatches.exists_note (List.mem_of_getElem? hget)
  have hstored : storedUsername s.db uid = some user := (hinv.users uid).trans huser
  obtain ⟨before, after, rfl⟩ := List.append_of_mem hnote
  have hknown := hinv.known huser
  rcases LeaveStage.body_eq_write hbody.symm with ⟨k, rest, rfl, rfl⟩ | ⟨k, rest, rfl, rfl⟩
  · obtain ⟨hworks, rfl⟩ : WorksOnMany past s.db s.mem number g uid user ∧ k.1 = user := hknown
    exact (hworks.afterLeaving_eq hstored).imp hdb.trans fun ⟨hk, hleft⟩ =>
      ⟨number, g, uid, _, k, hevent, hstored, hk, hdb.trans hleft⟩
  · have hworks : WorksOnCaller start.db s.db g user (k :: rest) := hknown
    exact (hworks.afterLeaving_eq (hinv.goes g)).imp hdb.trans fun ⟨hname, hk, hleft⟩ =>
      ⟨number, g, uid, _, k, hevent, hname ▸ hstored, hk, hdb.trans hleft⟩

/-- Along a schedule of leaves only callers of leaves are lost as members. -/
theorem member_or_left {start s : GroupSys} {past : List (GroupCall × Event Value)}
    (hpool : start.pool = []) (h : Sys.Story GroupCall.code LeaveStep start past s) {g k : Key}
    (hk : k ∈ start.db.children (membersPath g)) : k ∈ s.db.children (membersPath g) ∨
      ∃ number uid event, (.removeUserFromGroup number g uid, event) ∈ past ∧
        storedUsername start.db uid = some k.1 := by
  induction h with
  | nil => exact Or.inl hk
  | @snoc past s s' a hbefore _ hstep ih =>
    obtain ⟨notes, -, hinv⟩ := leaves_story hpool hbefore
    rcases ih with hlisted | ⟨number, uid, event, hevent, hname⟩
    · rcases step_leaving hpool hbefore hstep with hsame | ⟨number, g', uid, w, k', hevent, hname, -, hleft⟩
      · exact Or.inl (hsame ▸ hlisted)
      · refine or_iff_not_imp_left.mpr fun hlost => ?_
        obtain ⟨rfl, rfl⟩ := eq_of_lost hlisted (hleft ▸ hlost)
        exact ⟨number, uid, .wrote w, by simp [hevent], (hinv.users uid).symm.trans hname⟩
    · exact Or.inr ⟨number, uid, event, List.mem_append_left _ hevent, hname⟩

/-- Along every schedule of leaves in which each answered list of members decides, a change is the
caller, who is a member, leaving, with the group if no other member is left; once a leave is
through its caller is no member; only callers of leaves are lost as members; and a group is
stored as long as it has members. -/
theorem leave_removes_leaver {start s : GroupSys} {past : List (GroupCall × Event Value)}
    (hpool : start.pool = []) (h : Sys.Story GroupCall.code LeaveStep start past s) :
    (∀ a s', s.step GroupCall.code a = some s' → s'.db = s.db ∨ ∃ number g uid w k,
      s.event a = some (.removeUserFromGroup number g uid, .wrote w) ∧
        storedUsername s.db uid = some k.1 ∧ k ∈ s.db.children (membersPath g) ∧
        s'.db = afterLeaving s.db g k) ∧
    (∀ number g uid, (∃ event, (.removeUserFromGroup number g uid, event) ∈ past) →
      (∀ task ∈ s.pool, task.1 ≠ .removeUserFromGroup number g uid) →
      ∃ user, storedUsername s.db uid = some user ∧
        ∀ k ∈ s.db.children (membersPath g), k.1 ≠ user) ∧
    (∀ g, ∀ k ∈ start.db.children (membersPath g), k ∈ s.db.children (membersPath g) ∨
      ∃ number uid event, (.removeUserFromGroup number g uid, event) ∈ past ∧
        storedUsername s.db uid = some k.1) ∧
    ∀ g, start.db.children (membersPath g) ≠ [] →
      (g ∈ s.db.children [Keys.groups] ↔ s.db.children (membersPath g) ≠ []) := by
  obtain ⟨notes, hmatches, hinv⟩ := leaves_story hpool h
  refine ⟨fun a s' => step_leaving hpool h, ?_, ?_, ?_⟩
  · rintro number g uid ⟨event, hevent⟩ hdone
    obtain ⟨n, g', uid', user, hcall, huser⟩ := hinv.named _ hevent
    obtain ⟨rfl, rfl, rfl⟩ := GroupCall.removeUserFromGroup.inj hcall
    refine ⟨user, (hinv.users uid).trans huser, ?_⟩
    refine (hinv.settled number g uid user huser (Or.inl ⟨event, hevent⟩)).resolve_right ?_
    rintro ⟨stage, hnote, -⟩
    obtain ⟨body, hbody, -⟩ := hmatches.exists_task hnote
    exact hdone _ hbody rfl
  · intro g k hk
    refine (member_or_left hpool h hk).imp id fun ⟨number, uid, event, hevent, hname⟩ => ?_
    exact ⟨number, uid, event, hevent, (hinv.users uid).trans hname⟩
  · refine fun g hstart => ⟨fun hg hnone => hinv.goes g hstart hnone hg, fun hmembers => ?_⟩
    obtain ⟨k, hk⟩ := List.exists_mem_of_ne_nil _ hmembers
    obtain ⟨r, v, hv⟩ := (Store.mem_children _ _ _).mp hk
    exact (Store.mem_children _ _ _).mpr ⟨Keys.members :: k :: r, v, hv⟩

/-- A leave up to the read of the members, its username answered, after another pending body. -/
def askMembers (number : ℕ) (uid : Key) (i : ℕ) : List (Act GroupCall) :=
  [Act.spawn (GroupCall.removeUserFromGroup number Sample.home uid), Act.run i, Act.run i, Act.run i, Act.run i,
    Act.run (i + 1), Act.run (i + 1), Act.run (i + 1)]

/-- The first of two pending leaves is answered the members and removes its caller, then the second
is answered and removes the group, and the first one goes on meanwhile. -/
def leaveInTurn : List (Act GroupCall) :=
  askMembers 0 Sample.uidA 0 ++ askMembers 1 Sample.uidB 1 ++
    [Act.run 0, Act.run 0, Act.run 0, Act.run 1, Act.run 0, Act.run 1, Act.run 0, Act.run 0]

/-- Two members leave in turn, and the group goes with the second one. -/
theorem leave_removes_leaver_alice : ∃ past s,
    (⟨sharedByTwo, fun _ => "", []⟩ : GroupSys).story GroupCall.code
      (fun past s a => decide (LeaveStep past s a)) [] leaveInTurn = some (past, s) ∧
    (∀ k ∈ s.db.children (membersPath Sample.home), k.1 ≠ "alice" ∧ k.1 ≠ "bobby") ∧
    Sample.home ∉ s.db.children [Keys.groups] := by
  have hlast : ((⟨sharedByTwo, fun _ => "", []⟩ : GroupSys).story GroupCall.code
      (fun past s a => decide (LeaveStep past s a)) [] leaveInTurn).map
        (fun last => (last.1.map Prod.fst, last.2.pool.length,
          (last.2.db.children (membersPath Sample.home)).isEmpty,
          storedUsername last.2.db Sample.uidA, storedUsername last.2.db Sample.uidB)) =
      some ([.removeUserFromGroup 0 Sample.home Sample.uidA,
        .removeUserFromGroup 1 Sample.home Sample.uidB, .removeUserFromGroup 0 Sample.home Sample.uidA,
        .removeUserFromGroup 0 Sample.home Sample.uidA, .removeUserFromGroup 1 Sample.home Sample.uidB,
        .removeUserFromGroup 1 Sample.home Sample.uidB], 0, true, some "alice", some "bobby") := by
    decide +kernel
  obtain ⟨⟨past, s⟩, hstory, hrest⟩ := Option.map_eq_some_iff.mp hlast
  obtain ⟨hcalls, hpool, hnone, halice, hbobby⟩ := by simpa only [Prod.mk.injEq] using hrest
  have hevent {t : GroupCall} (ht : t ∈ past.map Prod.fst) : ∃ event, (t, event) ∈ past := by
    obtain ⟨⟨_, event⟩, hmem, rfl⟩ := List.mem_map.mp ht
    exact ⟨event, hmem⟩
  have hthrough {t : GroupCall} : ∀ task ∈ s.pool, task.1 ≠ t := by
    simp [List.length_eq_zero_iff.mp hpool]
  have hempty : (⟨sharedByTwo, fun _ => "", []⟩ : GroupSys).pool = [] := rfl
  obtain ⟨-, hleft, -, hgroup⟩ := leave_removes_leaver hempty (Sys.story_of_decide hstory)
  obtain ⟨alice, hname, hgone⟩ := hleft 0 Sample.home Sample.uidA
    (hevent (by simp [hcalls])) hthrough
  obtain ⟨bobby, hname', hgone'⟩ := hleft 1 Sample.home Sample.uidB
    (hevent (by simp [hcalls])) hthrough
  rw [halice, Option.some.injEq] at hname
  rw [hbobby, Option.some.injEq] at hname'
  refine ⟨past, s, hstory, fun k hk => ⟨hname ▸ hgone k hk, hname' ▸ hgone' k hk⟩, fun hstored => ?_⟩
  exact (hgroup Sample.home (by decide)).mp hstored (List.isEmpty_iff.mp hnone)

/-- A leave that is run to its end, its username answered first, and its members in some steps. -/
def leaveFully (number : ℕ) (uid : Key) (steps : ℕ) : List (Act GroupCall) :=
  askMembers number uid 0 ++ List.replicate steps (Act.run 0)

/-- A second leave removes the group, although another member is left. -/
theorem not_leave_removes_leaver : ¬ ∀ (past : List (GroupCall × Event Value)) (s : GroupSys),
    Sys.Story GroupCall.code (fun _ => LeavesInOrder) ⟨sharedByTwo, fun _ => "", []⟩ past s →
    ∀ g, ∀ k ∈ sharedByTwo.children (membersPath g), k ∈ s.db.children (membersPath g) ∨
      ∃ number uid event, (.removeUserFromGroup number g uid, event) ∈ past ∧
        storedUsername s.db uid = some k.1 := by
  intro hclaim
  have hlast : ((⟨sharedByTwo, fun _ => "", []⟩ : GroupSys).story GroupCall.code
      (fun _ s a => decide (LeavesInOrder s a)) []
      (leaveFully 0 Sample.uidA 5 ++ leaveFully 1 Sample.uidA 3)).map
        (fun last => (last.1.all fun event => event.1 = .removeUserFromGroup 0 Sample.home Sample.uidA ∨
          event.1 = .removeUserFromGroup 1 Sample.home Sample.uidA,
          last.2.db.children (membersPath Sample.home), storedUsername last.2.db Sample.uidA)) =
      some (true, [], some "alice") := by
    decide +kernel
  obtain ⟨⟨past, s⟩, hstory, hrest⟩ := Option.map_eq_some_iff.mp hlast
  obtain ⟨hcalls, hmembers, hname⟩ := by simpa only [Prod.mk.injEq] using hrest
  have hbobby : Sample.bobby ∈ sharedByTwo.children (membersPath Sample.home) := by decide
  rcases hclaim past s (Sys.story_of_decide hstory) Sample.home Sample.bobby hbobby with
    hlisted | ⟨number, uid, event, hevent, huser⟩
  · rw [hmembers] at hlisted
    exact absurd hlisted List.not_mem_nil
  · have hcall := of_decide_eq_true (List.all_eq_true.mp hcalls _ hevent)
    have huid : uid = Sample.uidA := by
      rcases hcall with hcall | hcall <;> exact (GroupCall.removeUserFromGroup.inj hcall).2.2
    rw [huid, hname, Option.some.injEq] at huser
    exact absurd huser (by decide)

end GroceryListApp

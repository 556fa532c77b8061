import GroceryListApp.Accounts.Renames
import GroceryListApp.Controller.GroupCalls
import GroceryListApp.Services.ScanDebts

/-!
# Members that are accounts

A group lists its members by their usernames. Whoever changes a username or deletes an account
owes the groups that list the former name a removal, and a scan that is pending is going to pay
it. What is added to a group must be a stored username at that time: a name that was chosen for a
new group earlier, or that an account had before another change, is owed by nobody and stays.
-/

namespace GroceryListApp

open Realtime

/-- A call that concerns the names of members. -/
inductive RosterCall where
  | createGroup (autoId : Key) (title description currentUser : String)
      (chosenUserArray : List String) (currentUserId : Key)
  | changeUsername (uid : Key) (profileName newUsername : String)
  | deleteAccount (uid : Key) (username : String)
  deriving DecidableEq

/-- The program of a call. -/
def RosterCall.code : RosterCall → Prog Unit Value
  | .createGroup autoId title description currentUser chosenUserArray currentUserId =>
      createGroupAction autoId title description currentUser chosenUserArray currentUserId.1
  | .changeUsername uid profileName newUsername =>
      changeUsernameAction uid profileName newUsername
  | .deleteAccount uid username => confirmDeleteAction uid username

/-- The database and everything that is pending on the screens for groups and accounts. -/
abbrev RosterSys := Sys RosterCall Unit Value

/-! ### The schedules -/

/-- A name that was stored at first or has been given to an account since. -/
def EverStored (start : Store Value) (past : List (RosterCall × Event Value)) (name : String) : Prop :=
  name ∈ storedUsernames start ∨ ∃ event ∈ past, match event with
    | (.changeUsername uid _ new, .wrote w) => new = name ∧ w.location = [Keys.users, uid]
    | _ => False

/-- Groups are created under a new key with names that were stored at some time, and the screens of
accounts show their names. All names are legal keys. -/
def RosterCalls (start : Store Value) (past : List (RosterCall × Event Value)) (s : RosterSys) :
    Act RosterCall → Prop
  | .spawn (.createGroup autoId _ _ _ chosenUserArray _) => autoId ∉ s.db.children [Keys.groups] ∧
      ∀ name ∈ chosenUserArray, LegalKey name ∧ EverStored start past name
  | .spawn (.changeUsername uid profileName newUsername) =>
      storedUsername s.db uid = some profileName ∧ LegalKey newUsername
  | .spawn (.deleteAccount uid username) => storedUsername s.db uid = some username
  | .run _ => True

/-- Names that are added to groups are stored, and names that are given up are the stored ones. -/
def NamesCurrent (s : RosterSys) : Act RosterCall → Prop
  | .spawn _ => True
  | .run i =>
    match s.pool[i]? with
    | some (.createGroup _ _ _ _ chosenUserArray _, .run (.write _ _)) =>
        ∀ name ∈ chosenUserArray, name ∈ storedUsernames s.db
    | some (.changeUsername uid profileName newUsername, .run (.write (.update p _) _)) =>
        (p = [Keys.users, uid] → storedUsername s.db uid = some profileName) ∧
          match p with
          | [a, _, b] => a = Keys.groups → b = Keys.members → newUsername ∈ storedUsernames s.db
          | _ => True
    | some (.deleteAccount uid username, .run (.write (.remove p) _)) =>
        p = [Keys.users, uid] → storedUsername s.db uid = some username
    | _ => True

/-- A step with current names. -/
def RosterStep (start : Store Value) (past : List (RosterCall × Event Value)) (s : RosterSys)
    (a : Act RosterCall) : Prop :=
  RosterCalls start past s a ∧ NamesCurrent s a

instance (start : Store Value) (past : List (RosterCall × Event Value)) (name : String) :
    Decidable (EverStored start past name) := by
  have (event : RosterCall × Event Value) : Decidable (match event with
      | (.changeUsername uid _ new, .wrote w) => new = name ∧ w.location = [Keys.users, uid]
      | _ => False) := by
    split <;> infer_instance
  unfold EverStored
  infer_instance

instance (start : Store Value) (past : List (RosterCall × Event Value)) (s : RosterSys)
    (a : Act RosterCall) : Decidable (RosterCalls start past s a) := by
  induction a using Act.casesOn with
  | spawn t => induction t using RosterCall.casesOn <;> dsimp only [RosterCalls] <;> infer_instance
  | run _ => exact isTrue trivial

instance (s : RosterSys) (a : Act RosterCall) : Decidable (NamesCurrent s a) := by
  induction a using Act.casesOn with
  | spawn _ => exact isTrue trivial
  | run i =>
    dsimp only [NamesCurrent]
    generalize s.pool[i]? = task
    match task with
    | none | some (.createGroup .., .await ..) | some (.changeUsername .., .await ..)
    | some (.deleteAccount .., .await ..) => exact isTrue trivial
    | some (t, .run code) =>
      induction t using RosterCall.casesOn <;> induction code using Prog.casesOn
      case createGroup.write => infer_instance
      case changeUsername.write w _ =>
        induction w using Write.casesOn with
        | update p _ =>
          refine @instDecidableAnd _ _ inferInstance ?_
          match p with
          | [] | [a] | [a, g] | a :: g :: b :: c :: rest => exact isTrue trivial
          | [a, g, b] => infer_instance
        | remove _ => exact isTrue trivial
      case deleteAccount.write w _ =>
        induction w using Write.casesOn with
        | update _ _ => exact isTrue trivial
        | remove p => infer_instance
      all_goals exact isTrue trivial

instance (start : Store Value) (past : List (RosterCall × Event Value)) (s : RosterSys)
    (a : Act RosterCall) : Decidable (RosterStep start past s a) :=
  inferInstanceAs (Decidable (_ ∧ _))

/-! ### The writes -/

/-- No group lists the key. -/
def Unlisted (g k : Key) (db : Store Value) : Prop := k ∉ db.children (membersPath g)

/-- What a write gives up is owed by the rest of the program. -/
inductive RosterWrite (t : RosterCall) : Write Value → Prog Unit Value → Prop
  | rename {uid : Key} {old new : String} {next : Prog Unit Value} (ht : t = .changeUsername uid old new)
      (howes : ∀ g k : Key, k.1 = old → next.Owes (Unlisted g k)) :
      RosterWrite t (.update [Keys.users, uid] [([Keys.username], str new)]) next
  | delete {uid : Key} {name : String} {next : Prog Unit Value} (ht : t = .deleteAccount uid name)
      (howes : ∀ g k : Key, k.1 = name → next.Owes (Unlisted g k)) :
      RosterWrite t (.remove [Keys.users, uid]) next
  | create {autoId currentUserId : Key} {title description currentUser : String}
      {chosenUserArray : List String} (next : Prog Unit Value)
      (ht : t = .createGroup autoId title description currentUser chosenUserArray currentUserId)
      {members : Store Value} (hmembers : ∀ p v, members.get p = some v → ∃ k : Key, p = [k] ∧
        k.1 ∈ chosenUserArray) :
      RosterWrite t (.update [Keys.groups, autoId]
        [([Keys.master], str currentUser), ([Keys.title], str title),
          ([Keys.description], str description), ([Keys.groupListCount], int 0),
          ([Keys.groupListCheckCount], int 0), ([Keys.members], members)]) next
  | add {uid : Key} {old new : String} (next : Prog Unit Value) (ht : t = .changeUsername uid old new)
      (g : Key) {l : Key} (hl : l.1 = new) :
      RosterWrite t (.update (membersPath g) [([l], str uid)]) next
  | beside {w : Write Value} (next : Prog Unit Value)
      (hnames : ∀ db uid, storedUsername (w.apply db) uid = storedUsername db uid)
      (hmembers : ∀ db g k, k ∈ (w.apply db).children (membersPath g) → k ∈ db.children (membersPath g)) :
      RosterWrite t w next

namespace RosterWrite

variable {t : RosterCall} {w : Write Value} {next : Prog Unit Value} {db : Store Value}

/-- Continuing with another program keeps what is owed. -/
theorem seq (h : RosterWrite t w next) (q : Prog Unit Value) : RosterWrite t w (next.seq q) := by
  cases h with
  | rename ht howes => exact .rename ht fun g k hk => (howes g k hk).seq_left q
  | delete ht howes => exact .delete ht fun g k hk => (howes g k hk).seq_left q
  | create _ ht hmembers => exact .create _ ht hmembers
  | add _ ht g hl => exact .add _ ht g hl
  | beside _ hnames hmembers => exact .beside _ hnames hmembers

/-- A write that lies apart from the accounts and from the members of all groups. -/
theorem of_apart (next : Prog Unit Value)
    (husers : ∀ uid, ∀ s : Store Value, (w.apply s).get [Keys.users, uid, Keys.username] =
      s.get [Keys.users, uid, Keys.username])
    (hmembers : ∀ g q, ∀ s : Store Value, (w.apply s).get (membersPath g ++ q) = s.get (membersPath g ++ q)) :
    RosterWrite t w next := by
  apply beside
  · intro s uid
    simp only [storedUsername, asString, value_snapshot, husers]
  · intro s g k hk
    rwa [children_congr fun q => hmembers g q s] at hk

/-- Below a group, what does not lie at or below its members is beside them. -/
theorem of_group (next : Prog Unit Value) {p : Path} {field : Key} (g : Key) {key : Key} (rest : Path)
    (hkey : key ≠ Keys.members) (hp : p ++ [field] = Keys.groups :: g :: key :: rest)
    (value : Store Value) : RosterWrite t (.update p [([field], value)]) next := by
  apply of_apart
  · intro uid s
    apply get_update_of_apart
    intro entry hentry
    rw [List.mem_singleton.mp hentry, hp]
    exact apart_of_ne (by decide) _ _
  · intro g' q s
    apply get_update_of_apart
    intro entry hentry
    rw [List.mem_singleton.mp hentry, hp]
    exact apart_field _ _ _ hkey _ _

/-- The index of usernames lies apart from accounts and groups. -/
theorem of_usernames (next : Prog Unit Value) {rest : Path} (hw : w.location = Keys.usernames :: rest) :
    RosterWrite t w next := by
  apply of_apart
  · exact fun uid s => get_apply_of_apart (hw ▸ apart_of_ne (by decide) _ _) s
  · exact fun g q s => get_apply_of_apart (hw ▸ apart_of_ne (by decide) _ _) s

/-- Removing a member only takes it away. -/
theorem of_remove (next : Prog Unit Value) (g k : Key) :
    RosterWrite t (.remove [Keys.groups, g, Keys.members, k]) next := by
  apply beside
  · intro s uid
    simp only [storedUsername, asString, value_snapshot]
    rw [get_apply_of_apart (w := .remove _) (apart_of_ne (by decide) _ _)]
  · intro s g' l hl
    obtain ⟨q, v, hv⟩ := (Store.mem_children _ _ _).mp hl
    exact (Store.mem_children _ _ _).mpr
      ⟨q, v, ((Store.get_remove_eq_some_iff _ _ _ _).mp hv).2⟩

/-- The index is written without giving anything up. -/
theorem leads_addUsername (uid username : String) :
    (addUsername uid username : Prog Unit Value).Leads (RosterWrite t) := by
  rw [addUsername_eq]
  exact Prog.leads_force fun name _ => ⟨of_usernames _ rfl, trivial⟩

/-- Removing a name from the index is a write of these kinds. -/
theorem leads_deleteFromUsernames (username : String) :
    (deleteFromUsernames username : Prog Unit Value).Leads (RosterWrite t) := by
  rw [deleteFromUsernames_eq]
  exact Prog.leads_force fun name _ => ⟨of_usernames _ rfl, trivial⟩

/-- A scan whose writes are of these kinds before any program. -/
theorem leads_scan {p : Prog Unit Value}
    (h : (Contract.issues fun t w => ∀ next, RosterWrite t w next).Holds t p) :
    p.Leads (RosterWrite t) :=
  Prog.leads_of_holds (fun _ next hw => hw next) h

/-- A write of one of these kinds may be issued. -/
theorem permits (hw : ∀ next, RosterWrite t w next) :
    (Contract.issues fun t w => ∀ next, RosterWrite t w next).Permits t w :=
  Contract.permits_issues_iff.mpr hw

/-- What a removal of the member pays. -/
theorem unlisted_remove (g k : Key) (s : Store Value) :
    Unlisted g k ((Write.remove (membersPath g ++ [k])).apply s) := by
  intro hk
  obtain ⟨q, v, hv⟩ := (Store.mem_children _ _ _).mp hk
  exact ((Store.get_remove_eq_some_iff _ _ _ _).mp hv).1 ⟨q, by simp⟩

/-- A rename gives up the old name with its first write, and owes its removal by the scan of members. -/
theorem leads_changeUsername {uid : Key} {old new : String} (hnew : LegalKey new) :
    (changeUsernameAction uid old new : Prog Unit Value).Leads
      (RosterWrite (.changeUsername uid old new)) := by
  have hscan : (changeUsersInGroup old new uid : Prog Unit Value).Leads
      (RosterWrite (.changeUsername uid old new)) := by
    apply leads_scan
    apply holds_changeUsersInGroup (fun _ => trivial)
    · exact fun _ g k _ _ _ => permits fun next => of_remove next g k
    · intro _ g _ name _ _ _ hname
      have hparse : parsePath new = some [⟨new, hnew⟩] := parsePath_key ⟨new, hnew⟩
      obtain rfl := Option.some.inj (hparse.symm.trans hname)
      exact permits fun next => .add next rfl g rfl
  rw [changeUsernameAction, Prog.block_cons, changeUsername_eq, Prog.write_seq, Prog.done_seq]
  refine ⟨.rename rfl fun g k hk => ?_, Prog.leads_block (fun w next q h => h.seq q) fun p hp => ?_⟩
  · refine Prog.owes_block (List.mem_of_getElem? (i := 3) rfl) ?_
    subst hk
    exact owes_changeUsersInGroup g k (fun s hs => not_not.mp hs) (unlisted_remove g k)
  · simp only [List.mem_cons, List.not_mem_nil, or_false] at hp
    rcases hp with rfl | rfl | rfl | rfl | rfl | rfl
    · exact leads_addUsername uid.1 new
    · exact leads_deleteFromUsernames old
    · exact leads_scan (holds_changeMaster (fun _ _ _ _ => Or.inr trivial) fun _ g _ _ =>
        permits fun next => of_group next g [] (by decide) rfl _)
    · exact hscan
    · exact leads_scan (holds_changeItemField Keys.markedOffBy (by simp)
        (fun _ _ _ _ _ => Or.inr trivial) fun _ g k _ _ =>
          permits fun next => of_group next g [k, Keys.markedOffBy] (by decide) rfl _)
    · exact leads_scan (holds_changeItemField Keys.addedBy (by simp)
        (fun _ _ _ _ _ => Or.inr trivial) fun _ g k _ _ =>
          permits fun next => of_group next g [k, Keys.addedBy] (by decide) rfl _)

/-- A deletion gives up the name with the account, and owes its removal by the scan that follows. -/
theorem leads_deleteAccount {uid : Key} {name : String} :
    (confirmDeleteAction uid name : Prog Unit Value).Leads (RosterWrite (.deleteAccount uid name)) := by
  have hscan : (deleteFromGroups name : Prog Unit Value).Leads (RosterWrite (.deleteAccount uid name)) := by
    apply leads_scan
    exact holds_deleteFromGroups fun _ g k _ _ _ => permits fun next => of_remove next g k
  rw [confirmDeleteAction, Prog.block_cons, Prog.block_cons, Prog.block_cons, Prog.block_nil, Prog.seq_done,
    deleteUserFromDatabase_eq, Prog.write_seq, Prog.done_seq]
  refine (leads_deleteFromUsernames name).seq (fun w next h => h.seq _) ⟨.delete rfl fun g k hk => ?_, hscan⟩
  subst hk
  exact owes_deleteFromGroups g k (fun s hs => not_not.mp hs) (unlisted_remove g k)

/-- The names of the dictionary are the chosen ones. -/
theorem mem_usernameDict {chosenUserArray usernameIds : List String} {usernames : List (String × String)}
    (h : usernameDict chosenUserArray usernameIds = some usernames) {entry : String × String}
    (hentry : entry ∈ usernames) : entry.1 ∈ chosenUserArray := by
  unfold usernameDict at h
  split at h
  · rw [Option.some.injEq] at h
    subst h
    have hfold : ∀ (entries dict : List (String × String)), (∀ e ∈ dict, e.1 ∈ chosenUserArray) →
        (∀ e ∈ entries, e.1 ∈ chosenUserArray) →
        ∀ e ∈ entries.foldl setEntry dict, e.1 ∈ chosenUserArray := by
      intro entries
      induction entries with
      | nil => exact fun dict hdict _ => hdict
      | cons first rest ih =>
        intro dict hdict hentries
        apply ih
        · intro e he
          rcases List.mem_append.mp he with he | he
          · exact hdict e (List.mem_of_mem_filter he)
          · rw [List.mem_singleton.mp he]
            exact hentries first List.mem_cons_self
        · exact fun e he => hentries e (List.mem_cons_of_mem _ he)
    exact hfold _ [] (by simp) (fun e he => (List.of_mem_zip he).1) entry hentry
  · contradiction

/-- A group is created with the chosen names as members. -/
theorem leads_createGroup {autoId currentUserId : Key} {title description currentUser : String}
    {chosenUserArray : List String} :
    (createGroupAction autoId title description currentUser chosenUserArray currentUserId :
      Prog Unit Value).Leads
      (RosterWrite (.createGroup autoId title description currentUser chosenUserArray currentUserId)) := by
  refine ⟨fun s => Prog.leads_force fun ids _ => Prog.leads_force fun usernames husernames => ?_, trivial⟩
  rw [createGroup_eq]
  refine Prog.leads_force fun members hmembers => ⟨.create _ rfl fun p v hv => ?_, trivial⟩
  obtain ⟨k, rfl, hk⟩ := Store.of_get_dictionary hmembers hv
  obtain ⟨entry, hentry, hsame⟩ := List.mem_map.mp hk
  exact ⟨k, rfl, (Prod.mk.inj hsame).1 ▸ mem_usernameDict husernames hentry⟩

/-- Every write of an issued call is of these kinds. -/
theorem leads_code (hnew : ∀ uid old new, t = .changeUsername uid old new → LegalKey new) :
    t.code.Leads (RosterWrite t) := by
  cases t with
  | createGroup autoId title description currentUser chosenUserArray currentUserId =>
    exact leads_createGroup
  | changeUsername uid old new => exact leads_changeUsername (hnew uid old new rfl)
  | deleteAccount uid name => exact leads_deleteAccount

/-- A stored username stays, or is given up by its rename or by the deletion of its account. -/
theorem stored (h : RosterWrite t w next) {uid : Key} {name : String}
    (hname : storedUsername db uid = some name) : storedUsername (w.apply db) uid = some name ∨
      (∃ old new, t = .changeUsername uid old new ∧
        w = .update [Keys.users, uid] [([Keys.username], str new)] ∧
        ∀ g k : Key, k.1 = old → next.Owes (Unlisted g k)) ∨
      ∃ old, t = .deleteAccount uid old ∧ w = .remove [Keys.users, uid] ∧
        ∀ g k : Key, k.1 = old → next.Owes (Unlisted g k) := by
  have hkept {uid' : Key} (hne : uid' ≠ uid) (hw : w.location = [Keys.users, uid']) :
      storedUsername (w.apply db) uid = some name :=
    (storedUsername_apply_of_ne db hw hne).trans hname
  cases h with
  | @rename uid' old new _ ht howes =>
    by_cases hsame : uid' = uid
    · subst hsame
      exact Or.inr (Or.inl ⟨old, new, ht, rfl, howes⟩)
    · exact Or.inl (hkept hsame rfl)
  | @delete uid' old _ ht howes =>
    by_cases hsame : uid' = uid
    · subst hsame
      exact Or.inr (Or.inr ⟨old, ht, rfl, howes⟩)
    · exact Or.inl (hkept hsame rfl)
  | create => exact Or.inl ((storedUsername_apply_of_root db rfl (by decide) uid).trans hname)
  | add => exact Or.inl ((storedUsername_apply_of_root db rfl (by decide) uid).trans hname)
  | beside _ hnames _ => exact Or.inl ((hnames db uid).trans hname)

/-- A member is listed before a write, is one of the chosen names of a new group, or is the new name
of a rename. -/
theorem listed (h : RosterWrite t w next) {g k : Key} (hk : k ∈ (w.apply db).children (membersPath g)) :
    k ∈ db.children (membersPath g) ∨
      (∀ uid, storedUsername (w.apply db) uid = storedUsername db uid) ∧
        ((∃ autoId title description currentUser chosenUserArray currentUserId,
          t = .createGroup autoId title description currentUser chosenUserArray currentUserId ∧
          k.1 ∈ chosenUserArray) ∨
        ∃ uid old, t = .changeUsername uid old k.1 ∧ w.location = membersPath g) := by
  obtain ⟨q, v, hv⟩ := (Store.mem_children _ _ _).mp hk
  have hkept (hbefore : db.get (membersPath g ++ k :: q) = some v) :
      k ∈ db.children (membersPath g) := (Store.mem_children _ _ _).mpr ⟨q, v, hbefore⟩
  cases h with
  | @rename uid old new _ ht howes =>
    have happart : Apart [Keys.users, uid] (membersPath g ++ k :: q) := apart_of_ne (by decide) _ _
    exact Or.inl (hkept ((get_apply_of_apart (w := .update _ _) happart db).symm.trans hv))
  | delete => exact Or.inl (hkept ((Store.get_remove_eq_some_iff _ _ _ _).mp hv).2)
  | @create autoId currentUserId title description currentUser chosenUserArray _ ht members hmembers =>
    have hnames (uid : Key) := storedUsername_apply_of_root (w := .update [Keys.groups, autoId]
      [([Keys.master], str currentUser), ([Keys.title], str title),
        ([Keys.description], str description), ([Keys.groupListCount], int 0),
        ([Keys.groupListCheckCount], int 0), ([Keys.members], members)]) db rfl (by decide) uid
    by_cases hsame : autoId = g
    · subst hsame
      have happart := pairwise_createGroup currentUser title description members
      have hentry : ([Keys.members], members) ∈ [([Keys.master], str currentUser),
          ([Keys.title], str title), ([Keys.description], str description),
          ([Keys.groupListCount], int 0), ([Keys.groupListCheckCount], int 0), ([Keys.members], members)] := by
        simp
      have hget := get_update_of_mem happart hentry [Keys.groups, autoId] (k :: q) db
      obtain ⟨k', hpath, hchosen⟩ := hmembers (k :: q) v (hget.symm.trans hv)
      obtain ⟨rfl, -⟩ := List.cons.inj hpath
      exact Or.inr ⟨hnames, Or.inl ⟨_, _, _, _, _, _, ht, hchosen⟩⟩
    · have happart : Apart [Keys.groups, autoId] (membersPath g ++ k :: q) :=
        (apart_cons _ _ _).mpr (apart_of_ne hsame _ _)
      exact Or.inl (hkept ((get_apply_of_apart (w := .update _ _) happart db).symm.trans hv))
  | @add uid old new _ ht g' l hl =>
    have hnames (uid' : Key) := storedUsername_apply_of_root
      (w := .update (membersPath g') [([l], str uid)]) db rfl (by decide) uid'
    by_cases hsame : g' = g ∧ l = k
    · obtain ⟨rfl, rfl⟩ := hsame
      exact Or.inr ⟨hnames, Or.inr ⟨uid, old, hl ▸ ht, rfl⟩⟩
    · refine Or.inl (hkept ?_)
      rw [get_update_of_apart] at hv
      · exact hv
      · intro entry hentry
        rw [List.mem_singleton.mp hentry]
        by_cases hgroup : g' = g
        · subst hgroup
          have hkey : l ≠ k := fun hkey => hsame ⟨rfl, hkey⟩
          simpa [membersPath] using apart_of_ne hkey [] q
        · simpa [membersPath] using apart_of_ne hgroup [Keys.members, l] (Keys.members :: k :: q)
  | beside _ _ hmembers => exact Or.inl (hmembers db g k hk)

end RosterWrite

/-! ### Steps -/

/-- Every member is the username of an account, or is owed a removal by a pending body. -/
structure RosterInv (s : RosterSys) : Prop where
  leads : ∀ task ∈ s.pool, task.2.Leads (RosterWrite task.1)
  known : ∀ g, ∀ k ∈ s.db.children (membersPath g), k.1 ∈ storedUsernames s.db ∨
    ∃ task ∈ s.pool, task.2.Owes (Unlisted g k)

namespace RosterInv

variable {start : Store Value} {past : List (RosterCall × Event Value)} {s s' : RosterSys}

/-- Running a pending body leaves no member without an account or a debt. -/
theorem run {i : ℕ} (h : RosterInv s) (ha : NamesCurrent s (.run i))
    (hstep : s.step RosterCall.code (.run i) = some s') : RosterInv s' := by
  have hdebts {g k : Key} (howed : ∃ task ∈ s.pool, task.2.Owes (Unlisted g k))
      (hbefore : k ∈ s.db.children (membersPath g)) (hk : k ∈ s'.db.children (membersPath g)) :
      ∃ task ∈ s'.pool, task.2.Owes (Unlisted g k) := by
    obtain ⟨task, htask, howes⟩ := howed
    have hnext := Sys.owes_step ⟨task, htask, rfl, howes⟩ (fun hpaid => hpaid hbefore) hstep
    obtain ⟨task', htask', -, howes'⟩ := hnext.resolve_left fun hpaid => hpaid hk
    exact ⟨task', htask', howes'⟩
  obtain ⟨before, t, body, after, db, mem, rest, hsplit, hget, hbody, rfl⟩ :=
    Sys.step_run_eq_some hstep
  have hleads := h.leads _ (List.mem_of_getElem? hget)
  refine ⟨fun task htask => ?_, fun g k hk => ?_⟩
  · rcases Sys.mem_rest htask body with hold | ⟨b, hb, rfl⟩
    · exact h.leads task (hsplit ▸ hold)
    · exact hleads.step hbody b hb
  · have hstate : db = s.db ∨ ∃ w next, body = .run (.write w next) ∧ db = w.apply s.db ∧
        rest = [.run next] ∧ RosterWrite t w next := by
      cases body with
      | await p callback =>
        simp only [Body.step, Option.some.injEq, Prod.mk.injEq] at hbody
        exact Or.inl hbody.1.symm
      | run program =>
        cases program <;>
          simp only [Body.step, Option.some.injEq, Prod.mk.injEq, reduceCtorEq] at hbody
        case write w next => exact Or.inr ⟨w, next, rfl, hbody.1.symm, hbody.2.2.symm, hleads.1⟩
        all_goals exact Or.inl hbody.1.symm
    rcases hstate with rfl | ⟨w, next, rfl, rfl, rfl, hw⟩
    · exact (h.known g k hk).imp id fun howed => hdebts howed hk hk
    · simp only [NamesCurrent, hget] at ha
      rcases hw.listed hk with hbefore | ⟨hnames, hadded⟩
      · rcases h.known g k hbefore with hstored | howed
        · obtain ⟨uid, hname⟩ := mem_storedUsernames.mp hstored
          have hpending : (t, .run next) ∈ before ++ [Body.run next].map (t, ·) ++ after := by simp
          rcases hw.stored hname with hkept | ⟨old, new, rfl, rfl, howes⟩ | ⟨old, rfl, rfl, howes⟩
          · exact Or.inl (mem_storedUsernames.mpr ⟨uid, hkept⟩)
          · have hold := Option.some.inj (hname.symm.trans (ha.1 rfl))
            exact Or.inr ⟨_, hpending, howes g k hold⟩
          · have hold := Option.some.inj (hname.symm.trans (ha rfl))
            exact Or.inr ⟨_, hpending, howes g k hold⟩
        · exact Or.inr (hdebts howed hbefore hk)
      · left
        have hstored : k.1 ∈ storedUsernames s.db := by
          rcases hadded with ⟨_, _, _, _, chosenUserArray, _, rfl, hchosen⟩ | ⟨uid, old, rfl, hlocation⟩
          · exact ha k.1 hchosen
          · cases w with
            | remove p =>
              obtain ⟨q, v, hv⟩ := (Store.mem_children _ _ _).mp hk
              exact absurd ⟨k :: q, by rw [← hlocation]; rfl⟩
                ((Store.get_remove_eq_some_iff _ _ _ _).mp hv).1
            | update p entries =>
              obtain rfl : p = membersPath g := hlocation
              exact ha.2 rfl rfl
        obtain ⟨uid, hname⟩ := mem_storedUsernames.mp hstored
        exact mem_storedUsernames.mpr ⟨uid, (hnames uid).trans hname⟩

/-- Every step leaves no member without an account or a debt. -/
theorem step {a : Act RosterCall} (h : RosterInv s) (ha : RosterStep start past s a)
    (hstep : s.step RosterCall.code a = some s') : RosterInv s' := by
  cases a with
  | spawn t =>
    simp only [Sys.step, Option.some.injEq] at hstep
    subst hstep
    have hnew : ∀ uid old new, t = .changeUsername uid old new → LegalKey new := by
      rintro uid old new rfl
      exact ha.1.2
    refine ⟨fun task htask => ?_, fun g k hk => ?_⟩
    · rcases List.mem_append.mp htask with hold | hissued
      · exact h.leads task hold
      · rw [List.mem_singleton.mp hissued]
        exact RosterWrite.leads_code hnew
    · refine (h.known g k hk).imp id ?_
      rintro ⟨task, htask, howes⟩
      exact ⟨task, List.mem_append_left _ htask, howes⟩
  | run i => exact h.run ha.2 hstep

end RosterInv

/-- The members of the group of two have accounts. -/
theorem members_sharedByTwo (g : Key) :
    ∀ k ∈ sharedByTwo.children (membersPath g), k.1 ∈ storedUsernames sharedByTwo := by
  intro k hk
  obtain ⟨q, v, hv⟩ := (Store.mem_children _ _ _).mp hk
  have hg : g ∈ sharedByTwo.children [Keys.groups] :=
    (Store.mem_children _ _ _).mpr ⟨Keys.members :: k :: q, v, hv⟩
  have hgroups : sharedByTwo.children [Keys.groups] = [Sample.home] := by decide
  rw [hgroups, List.mem_singleton] at hg
  subst hg
  have hall : ∀ k ∈ sharedByTwo.children (membersPath Sample.home),
      k.1 ∈ storedUsernames sharedByTwo := by
    decide
  exact hall k hk

end GroceryListApp

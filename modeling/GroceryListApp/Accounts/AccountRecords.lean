import GroceryListApp.Controller.AppCalls
import GroceryListApp.Realtime.Collection
import GroceryListApp.Realtime.Machine
import GroceryListApp.Realtime.Story
import GroceryListApp.Services.UsernameScans

/-!
# Complete records of accounts

The search for users and the look-up of ids walk the records of all accounts and cast the username
of each, so one record without a username stops every client that searches. A record is created
with its username and its email in one update, and every later update below the account creates a
part of a record when the account has been deleted in between. Along a schedule all records are
complete exactly as long as no update comes after the deletion of its account.
-/

namespace GroceryListApp

open Realtime

/-- The fields of an account that are cast. -/
def accountFields : Fields Value := [(Keys.username, IsString), (Keys.email, IsString)]

/-- Every account has its fields. -/
def RecordsComplete (db : Store Value) : Prop := Each (HasFields accountFields) db [Keys.users]

/-- An update below an account finds the account stored, or creates its record. -/
def UpdatesStored (db : Store Value) : Write Value → Prop
  | .update (a :: x :: rest) entries => a = Keys.users → x ∈ db.children [Keys.users] ∨
      rest = [] ∧ entries.map Prod.fst = [[Keys.provider], [Keys.email], [Keys.username]]
  | _ => True

/-- A step whose update finds its account stored. -/
def RecordStep (s : AppSys) : Act AppCall → Prop
  | .spawn _ => True
  | .run i =>
    match s.pool[i]? with
    | some (_, .run (.write w _)) => UpdatesStored s.db w
    | _ => True

/-- The writes of the calls, as far as the records of accounts are concerned. -/
inductive RecordWrite : Write Value → Prop
  | elsewhere {w : Write Value} {root : Key} {rest : Path} (hroot : root ≠ Keys.users)
      (hw : w.location = root :: rest) : RecordWrite w
  | create (x : Key) (providerID email username : String) :
      RecordWrite (.update [Keys.users, x] [([Keys.provider], str providerID), ([Keys.email], str email),
        ([Keys.username], str username)])
  | setting (x : Key) {field : Key} (text : String)
      (hfield : field = Keys.username ∨ field = Keys.email ∨ field = Keys.nameName) :
      RecordWrite (.update [Keys.users, x] [([field], str text)])
  | below {w : Write Value} {x field : Key} {rest : Path}
      (hfield : field = Keys.groceryList ∨ field = Keys.lists)
      (hw : w.location = Keys.users :: x :: field :: rest) (hstores : w.Stores) : RecordWrite w
  | delete (x : Key) : RecordWrite (.remove [Keys.users, x])

/-! ### What each write does to the records -/

section

variable {db : Store Value} {x : Key}

/-- An account with a part of its record only is not complete. -/
theorem not_recordsComplete {field : Key × (Value → Prop)} (hfield : field ∈ accountFields)
    (hx : x ∈ db.children [Keys.users]) (hnone : db.get [Keys.users, x, field.1] = none) :
    ¬ RecordsComplete db := by
  intro h
  obtain ⟨v, hv, -⟩ := h x hx field hfield
  exact absurd (hnone.symm.trans hv) (by simp)

/-- Nothing is stored below an account that is not stored. -/
theorem get_of_not_mem {p : Path} (hx : x ∉ db.children p) (rest : Path) :
    db.get (p ++ x :: rest) = none := by
  refine Option.eq_none_iff_forall_ne_some.mpr fun v hv => hx ?_
  exact (Store.mem_children _ _ _).mpr ⟨rest, v, hv⟩

/-- Where something is stored below an account, the account is. -/
theorem mem_users_of_get {rest : Path} {v : Value} (h : db.get (Keys.users :: x :: rest) = some v) :
    x ∈ db.children [Keys.users] :=
  (Store.mem_children _ [Keys.users] x).mpr ⟨rest, v, h⟩

/-- An update of a field keeps a complete record complete. -/
theorem hasFields_setting (h : HasFields accountFields db [Keys.users, x]) {field : Key}
    (hfield : field = Keys.username ∨ field = Keys.email ∨ field = Keys.nameName) (text : String) :
    HasFields accountFields ((Write.update [Keys.users, x] [([field], str text)]).apply db)
      [Keys.users, x] := by
  have husername : (Keys.username, IsString) ∈ accountFields := by simp [accountFields]
  have hemail : (Keys.email, IsString) ∈ accountFields := by simp [accountFields]
  rcases hfield with rfl | rfl | rfl
  · exact h.update_field (by decide) husername ⟨text, rfl⟩
  · exact h.update_field (by decide) hemail ⟨text, rfl⟩
  · apply HasFields.update (List.pairwise_singleton _ _)
    intro field hfield
    refine Or.inr ⟨fun entry hentry => ?_, h field hfield⟩
    rw [List.mem_singleton.mp hentry]
    simp only [accountFields, List.mem_cons, List.not_mem_nil, or_false] at hfield
    rcases hfield with rfl | rfl
    · exact apart_of_ne (by decide) [] []
    · exact apart_of_ne (by decide) [] []

/-- A registration creates a complete record. -/
theorem hasFields_create (db : Store Value) (x : Key) (providerID email username : String) :
    HasFields accountFields ((Write.update [Keys.users, x] [([Keys.provider], str providerID),
      ([Keys.email], str email), ([Keys.username], str username)]).apply db) [Keys.users, x] := by
  have hpairwise : ([([Keys.provider], str providerID), ([Keys.email], str email),
      ([Keys.username], str username)] : List (Path × Store Value)).Pairwise
      fun a b => Apart a.1 b.1 := by
    simp +decide [List.pairwise_cons]
  apply HasFields.update hpairwise
  intro field hfield
  left
  simp only [accountFields, List.mem_cons, List.not_mem_nil, or_false] at hfield
  rcases hfield with rfl | rfl
  · exact ⟨_, ⟨username, rfl⟩, _, List.mem_of_getElem? (i := 2) rfl, rfl, by simp [str]⟩
  · exact ⟨_, ⟨email, rfl⟩, _, List.mem_of_getElem? (i := 1) rfl, rfl, by simp [str]⟩

/-- A write in one field of an absent account leaves the other field absent. -/
theorem exists_field_ne (field : Key) : ∃ other ∈ accountFields, other.1 ≠ field := by
  by_cases hfield : field = Keys.username
  · exact ⟨(Keys.email, IsString), by simp [accountFields], by rw [hfield]; decide⟩
  · exact ⟨(Keys.username, IsString), by simp [accountFields], Ne.symm hfield⟩

/-- After a write of a call the records are complete exactly when its update found the account. -/
theorem recordsComplete_apply_iff {w : Write Value} (hw : RecordWrite w) (h : RecordsComplete db) :
    RecordsComplete (w.apply db) ↔ UpdatesStored db w := by
  have hlocal : Local (HasFields accountFields) := HasFields.isLocal _
  cases hw with
  | @elsewhere _ root rest hroot hlocation =>
    refine iff_of_true (h.apply_of_apart hlocal (hlocation ▸ apart_of_ne hroot _ _)) ?_
    cases w with
    | remove p => trivial
    | update p entries =>
      obtain rfl : p = root :: rest := hlocation
      cases rest with
      | nil => trivial
      | cons x rest => exact fun hsame => absurd hsame hroot
  | create x providerID email username =>
    refine iff_of_true ?_ fun _ => Or.inr ⟨rfl, rfl⟩
    refine h.apply_below hlocal (k := x) (List.prefix_refl _) fun _ => ?_
    exact hasFields_create db x providerID email username
  | @setting x field text hfield =>
    have hset : ((Write.update [Keys.users, x] [([field], str text)]).apply db).get
        [Keys.users, x, field] = some (.string text) := get_update_leaf [Keys.users, x] [field] _ _
    constructor
    · intro hafter _
      by_contra hnot
      have hx : x ∉ db.children [Keys.users] := fun hx => hnot (Or.inl hx)
      obtain ⟨other, hother, hne⟩ := exists_field_ne field
      refine not_recordsComplete hother (mem_users_of_get hset) ?_ hafter
      rw [get_update_of_apart]
      · exact get_of_not_mem hx [other.1]
      · intro entry hentry
        rw [List.mem_singleton.mp hentry]
        exact (apart_append_left [Keys.users, x] _ _).mpr (apart_of_ne (Ne.symm hne) [] [])
    · intro hstored
      refine h.apply_below hlocal (k := x) (List.prefix_refl _) fun _ => ?_
      have hx := (hstored rfl).resolve_right fun hcreate => by simp at hcreate
      exact hasFields_setting (h x hx) hfield text
  | @below w x field rest hfield hlocation hstores =>
    have hkey : field ∉ accountFields.map Prod.fst := by
      rcases hfield with rfl | rfl <;> decide
    have hkeep (hx : x ∈ db.children [Keys.users]) : RecordsComplete (w.apply db) := by
      refine h.apply_below hlocal (k := x) ?_ fun _ => ?_
      · exact hlocation ▸ List.prefix_append [Keys.users, x] (field :: rest)
      · exact (h x hx).apply_below hkey hlocation
    cases w with
    | remove p =>
      refine iff_of_true (h.apply_below hlocal (k := x) ?_ fun hx => ?_) trivial
      · exact hlocation ▸ List.prefix_append [Keys.users, x] (field :: rest)
      · obtain ⟨q, v, hv⟩ := (Store.mem_children _ _ _).mp hx
        rw [Write.apply, Store.get_remove_eq_some_iff] at hv
        exact (h x (mem_users_of_get hv.2)).apply_below hkey hlocation
    | update p entries =>
      obtain rfl : p = Keys.users :: x :: field :: rest := hlocation
      obtain ⟨q, v, hstored⟩ := hstores
      constructor
      · intro hafter _
        by_contra hnot
        have hx : x ∉ db.children [Keys.users] := fun hx => hnot (Or.inl hx)
        obtain ⟨other, hother, hne⟩ := exists_field_ne field
        refine not_recordsComplete hother (mem_users_of_get (hstored db)) ?_ hafter
        rw [get_apply_of_apart]
        · exact get_of_not_mem hx [other.1]
        · exact (apart_append_left [Keys.users, x] _ _).mpr (apart_of_ne (Ne.symm hne) _ [])
      · intro hupdate
        exact hkeep ((hupdate rfl).resolve_right fun hcreate => by simp at hcreate)
  | delete x => exact iff_of_true (h.remove_child hlocal x) trivial

end

/-! ### What the calls write -/

/-- The contract to issue such writes only. -/
def issuesRecordWrites : Contract AppCall Value := .issues fun _ w => RecordWrite w

namespace issuesRecordWrites

/-- A write below another root than the accounts is such a write. -/
theorem permits_elsewhere {t : AppCall} {w : Write Value} {root : Key} {rest : Path}
    (hroot : root ≠ Keys.users) (hw : w.location = root :: rest) : issuesRecordWrites.Permits t w :=
  Contract.permits_issues_iff.mpr (.elsewhere hroot hw)

/-- Listing a name is such a write. -/
theorem holds_addUsername {M : Type*} (t : AppCall) (uid username : String) :
    issuesRecordWrites.Holds t (addUsername uid username : Prog M Value) := by
  rw [addUsername_eq]
  apply Contract.holds_force fun _ => trivial
  exact fun name _ => ⟨permits_elsewhere (by decide) rfl, trivial⟩

/-- Removing the entry of a name is such a write. -/
theorem holds_deleteFromUsernames {M : Type*} (t : AppCall) (username : String) :
    issuesRecordWrites.Holds t (deleteFromUsernames username : Prog M Value) := by
  rw [deleteFromUsernames_eq]
  apply Contract.holds_force fun _ => trivial
  exact fun name _ => ⟨permits_elsewhere (by decide) rfl, trivial⟩

/-- Every call issues such writes only. -/
theorem holds_code (t : AppCall) : issuesRecordWrites.Holds t t.code := by
  have hsetting (uid : Key) (field : Key) (text : String)
      (hfield : field = Keys.username ∨ field = Keys.email ∨ field = Keys.nameName) :
      issuesRecordWrites.Permits t (.update [Keys.users, uid] [([field], str text)]) :=
    Contract.permits_issues_iff.mpr (.setting uid text hfield)
  have hgroup (g : Key) (rest : Path) (w : Write Value) (hw : w.location = Keys.groups :: g :: rest) :
      issuesRecordWrites.Permits t w := permits_elsewhere (by decide) hw
  cases haccount : t.account with
  | none =>
    apply AppCall.holds_of_account haccount trivial
    · rintro w ⟨rest, hrest⟩
      exact permits_elsewhere (by decide) hrest.symm
    · rintro uid field w hfield ⟨rest, hrest⟩ hstores
      exact Contract.permits_issues_iff.mpr (.below hfield hrest.symm hstores)
    · exact fun uid field text hfield => hsetting uid field text (Or.inr hfield)
  | some uid =>
    match t with
    | .group (.registerUser x providerID email username) =>
      apply Contract.holds_block
      intro p hp
      simp only [List.mem_cons, List.not_mem_nil, or_false] at hp
      rcases hp with rfl | rfl | rfl
      · rw [createDBUser_eq]
        exact ⟨Contract.permits_issues_iff.mpr (.create x providerID email username), trivial⟩
      · exact holds_addUsername _ _ _
      · rw [addNameName_eq]
        exact ⟨hsetting x _ "" (Or.inr (Or.inr rfl)), trivial⟩
    | .group (.changeUsername x profileName newUsername) =>
      refine Contract.Holds.seq ?_ (Contract.Holds.seq (holds_addUsername _ _ _)
        (Contract.Holds.seq (holds_deleteFromUsernames _ _) ?_))
      · rw [changeUsername_eq]
        exact ⟨hsetting x _ newUsername (Or.inl rfl), trivial⟩
      · apply holds_renameInGroups trivial
        · exact fun g p key value _ => hgroup g p _ rfl
        · exact fun g k _ => hgroup g [Keys.members, k] _ rfl
        · exact fun g name _ => hgroup g [Keys.members] _ rfl
    | .group (.deleteAccount x username) =>
      apply Contract.holds_block
      intro p hp
      simp only [List.mem_cons, List.not_mem_nil, or_false] at hp
      rcases hp with rfl | rfl | rfl
      · exact holds_deleteFromUsernames _ _
      · rw [deleteUserFromDatabase_eq]
        exact ⟨Contract.permits_issues_iff.mpr (.delete x), trivial⟩
      · exact holds_deleteFromGroups fun _ g k _ _ _ => hgroup g [Keys.members, k] _ rfl

end issuesRecordWrites

/-! ### The casts of the readers -/

/-- The key of the field of the username. -/
theorem parsePath_username : parsePath "username" = some [Keys.username] := by simp

/-- The key of the field of the email. -/
theorem parsePath_email : parsePath "email" = some [Keys.email] := by simp

section

variable {M : Type*}

/-- The username of a complete record is a string. -/
theorem isSome_storedUsername {db : Store Value} {x : Key} (h : HasFields accountFields db [Keys.users, x]) :
    (storedUsername db x).isSome := by
  obtain ⟨v, hv, name, rfl⟩ := h (Keys.username, IsString) (by simp [accountFields])
  rw [(storedUsername_eq_some_iff db x name).mpr hv]
  rfl

/-- The look-up of ids does not trap on complete records. -/
theorem safe_getIds (names : List String) :
    Contract.Safe RecordsComplete (getIds names fun _ => .done : Prog M Value) := by
  refine ⟨fun db hdb => Contract.holds_force (fun hnone => ?_) fun _ _ => trivial, trivial⟩
  have hsome : ((db.snapshot [Keys.users]).children.mapM fun user : Snapshot Value => do
      let username ← asString (user.childSnapshot "username")
      some (if username ∈ names then [user.key] else [])).isSome := by
    apply isSome_mapM
    intro user huser
    rw [Snapshot.children_snapshot] at huser
    obtain ⟨x, hx, rfl⟩ := List.mem_map.mp huser
    obtain ⟨name, hname⟩ := Option.isSome_iff_exists.mp (isSome_storedUsername (hdb x hx))
    simp [asString_username, hname]
  rw [hnone] at hsome
  contradiction

/-- A cast of a field of a stored account does not trap on complete records. -/
theorem safe_account {field : String} {key : Key} (hfield : parsePath field = some [key])
    (hkey : (key, IsString) ∈ accountFields) (uid : Key) {handler : String → Prog M Value}
    (hhandler : ∀ text, Contract.Safe (fun db => RecordsComplete db ∧ uid ∈ db.children [Keys.users])
      (handler text)) :
    Contract.Safe (fun db => RecordsComplete db ∧ uid ∈ db.children [Keys.users])
      ((REF_USERS.child uid).observeSingleEvent fun snapshot =>
        .force (asString (snapshot.childSnapshot field)) handler) := by
  have href : REF_USERS.child uid = some [Keys.users, uid] := by simp [REF_USERS]
  rw [href]
  refine ⟨fun db hdb => Contract.holds_force (fun hnone => ?_) fun text _ => hhandler text, trivial⟩
  obtain ⟨v, hv, text, rfl⟩ := hdb.1 uid hdb.2 _ hkey
  have hvalue := value_childSnapshot db [Keys.users, uid] [key] hfield
  rw [(asString_eq_some_iff _ text).mpr (hvalue.trans hv)] at hnone
  contradiction

/-- A search of a stored account does not trap on complete records. -/
theorem safe_getUsernames (currentUser : Var M String) (uid : Key) (query : String) :
    Contract.Safe (fun db => RecordsComplete db ∧ uid ∈ db.children [Keys.users])
      (getUsernames currentUser (some uid.1) query fun _ => .done : Prog M Value) := by
  apply Contract.holds_block
  intro p hp
  simp only [List.mem_cons, List.not_mem_nil, or_false] at hp
  rcases hp with rfl | rfl | rfl
  · trivial
  · exact safe_account parsePath_username (by simp [accountFields]) uid fun _ => trivial
  · refine ⟨fun db hdb m => Contract.holds_force (fun hnone => ?_) fun _ _ => trivial, trivial⟩
    have hnamed : AllNamed db := fun x hx => isSome_storedUsername (hdb.1 x hx)
    rw [matchUsernames_named hnamed] at hnone
    contradiction

end

/-! ### Every schedule -/

/-- A step keeps the records complete exactly when its update finds the account stored. -/
theorem recordsComplete_step {s next : AppSys} {a : Act AppCall}
    (hpool : ∀ task ∈ s.pool, issuesRecordWrites.HoldsBody task.1 task.2) (h : RecordsComplete s.db)
    (hstep : s.step AppCall.code a = some next) :
    (∀ task ∈ next.pool, issuesRecordWrites.HoldsBody task.1 task.2) ∧
      (RecordsComplete next.db ↔ RecordStep s a) := by
  cases a with
  | spawn t =>
    simp only [Sys.step, Option.some.injEq] at hstep
    subst hstep
    refine ⟨fun task htask => ?_, iff_of_true h trivial⟩
    rcases List.mem_append.mp htask with htask | htask
    · exact hpool task htask
    · rw [List.mem_singleton.mp htask]
      exact issuesRecordWrites.holds_code t
  | run i =>
    obtain ⟨before, t, body, after, db, mem, rest, hsplit, hget, hbody, rfl⟩ :=
      Sys.step_run_eq_some hstep
    have hholds := hpool (t, body) (by simp [hsplit])
    refine ⟨fun task htask => ?_, ?_⟩
    · rcases Sys.mem_rest htask body with htask | ⟨b, hb, rfl⟩
      · exact hpool task (hsplit ▸ htask)
      · exact hholds.rest trivial hbody b hb
    · simp only [RecordStep, hget]
      rcases Body.step_write hbody with ⟨rfl, hnot⟩ | ⟨w, next, rfl, rfl, -⟩
      · refine iff_of_true h ?_
        split
        · next hsame => exact absurd (congrArg Prod.snd (Option.some.inj hsame)) (hnot _ _)
        · trivial
      · exact recordsComplete_apply_iff (Contract.permits_issues_iff.mp hholds.1) h

/-- Along every schedule of all clients, all records of accounts are complete exactly as long as every
update below an account finds the account stored or creates its record. While they are, neither the
search for users nor the look-up of ids nor the labels of a stored account trap. -/
theorem records_complete_iff {start : AppSys} (hpool : start.pool = []) (hstart : RecordsComplete start.db) :
    (∀ acts, Machine.Always (Sys.step AppCall.code) (fun s => RecordsComplete s.db) start acts ↔
      Machine.Throughout (Sys.step AppCall.code) RecordStep start acts) ∧
      (∀ names, Contract.Safe RecordsComplete (getIds names fun _ => .done : Prog String Value)) ∧
      ∀ uid : Key, Contract.Safe (fun db => RecordsComplete db ∧ uid ∈ db.children [Keys.users])
          (printUsername uid fun _ => .done : Prog String Value) ∧
        Contract.Safe (fun db => RecordsComplete db ∧ uid ∈ db.children [Keys.users])
          (printDatabaseEmail uid fun _ => .done : Prog String Value) ∧
        ∀ query currentUser, Contract.Safe
          (fun db => RecordsComplete db ∧ uid ∈ db.children [Keys.users])
          (getUsernames currentUser (some uid.1) query fun _ => .done : Prog String Value) := by
  refine ⟨fun acts => ?_, safe_getIds, fun uid => ⟨?_, ?_, fun query currentUser => ?_⟩⟩
  · exact Machine.always_iff_throughout
      (I := fun s : AppSys => ∀ task ∈ s.pool, issuesRecordWrites.HoldsBody task.1 task.2)
      (fun s a next hinv hs hstep => recordsComplete_step hinv hs hstep) acts (by simp [hpool]) hstart
  · exact safe_account parsePath_username (by simp [accountFields]) uid fun _ => trivial
  · exact safe_account parsePath_email (by simp [accountFields]) uid fun _ => trivial
  · exact safe_getUsernames currentUser uid query

instance decidableUpdatesStored (db : Store Value) : (w : Write Value) → Decidable (UpdatesStored db w)
  | .remove _ | .update [] _ | .update [_] _ => isTrue trivial
  | .update (a :: x :: rest) entries =>
    inferInstanceAs (Decidable (a = Keys.users → x ∈ db.children [Keys.users] ∨
      rest = [] ∧ entries.map Prod.fst = [[Keys.provider], [Keys.email], [Keys.username]]))

instance (s : AppSys) (a : Act AppCall) : Decidable (RecordStep s a) :=
  match a with
  | .spawn _ => isTrue trivial
  | .run i => by
    dsimp only [RecordStep]
    generalize s.pool[i]? = task
    exact match task with
      | some (_, .run (.write w _)) => decidableUpdatesStored s.db w
      | none | some (_, .await _ _) | some (_, .run .done) | some (_, .run .trap)
      | some (_, .run (.observe _ _ _)) | some (_, .run (.inspect _)) | some (_, .run (.modify _ _)) =>
        isTrue trivial

/-- An account is registered, and its email is changed while the account is being deleted. -/
def emailDuringDeletion : List (Act AppCall) :=
  Act.spawn (AppCall.group (.registerUser Sample.uidA "Firebase" "a@b.c" "alice")) :: List.replicate 4 (.run 0) ++
  [Act.spawn (AppCall.changeEmail Sample.uidA "a@b.d"), .spawn (.group (.deleteAccount Sample.uidA "alice")),
    .run 1, .run 1, .run 0]

/-- A change of email that comes after the removal of the record leaves part of it behind. -/
theorem records_complete_iff_race :
    Machine.Always (Sys.step AppCall.code) (fun s => RecordsComplete s.db) ⟨.empty, fun _ => "", []⟩
        emailDuringDeletion.dropLast ∧
      ¬ Machine.Always (Sys.step AppCall.code) (fun s => RecordsComplete s.db)
        ⟨.empty, fun _ => "", []⟩ emailDuringDeletion := by
  have hempty : RecordsComplete .empty := fun x hx => by
    obtain ⟨rest, v, hv⟩ := (Store.mem_children _ _ _).mp hx
    rw [Store.get_empty] at hv
    contradiction
  have hpool : (⟨.empty, fun _ => "", []⟩ : AppSys).pool = [] := rfl
  have hiff := (records_complete_iff hpool hempty).1
  rw [hiff, hiff]
  decide +kernel

end GroceryListApp

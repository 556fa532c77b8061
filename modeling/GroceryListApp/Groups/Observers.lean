import GroceryListApp.Controller.GroupCalls
import GroceryListApp.Realtime.Machine
import GroceryListApp.Services.DataServiceRules

/-!
# Observers of the groups screen

Each time the groups screen appears it registers an observer for every group it lists, and removes
none. An observer loads the list again whenever its group changes, by this client or another one,
which needs a user that is signed in. A deletion of the account first ends the session and then
removes the member from the groups, so its own writes may notify an observer.

The screen and everything that it and the deletion have pending are on one device; what other
clients do is a change of the database. The groups screen appears to a signed-in user: otherwise the
login screen covers it. A trap in any callback ends the app, and with it a deletion that is pending.
-/

namespace GroceryListApp

open Realtime

/-- The variables of the groups screen, and those of the calls of `getAllGroups` by their number. -/
structure GroupsMem where
  currentUser : ℕ → String
  groupsArray : List Group
  currentUsername : String

/-- The variable `currentUser` of one call of `getAllGroups`. -/
def listedUser (number : ℕ) : Var GroupsMem String where
  get m := m.currentUser number
  set name m := { m with currentUser := Function.update m.currentUser number name }

/-- `reloadGroupsList` of `GroupsVC`. -/
def reloadGroupsList (enumerate : List String → List String) (number : ℕ) (authUid : Option String) :
    Prog GroupsMem Value :=
  getAllGroups (listedUser number) enumerate authUid fun returnedGroupsArray =>
    .modify (fun m => { m with groupsArray := returnedGroupsArray }) .done

/-- `reloadCurrentUser` of `GroupsVC`. -/
def reloadCurrentUser (authUid : Option String) : Prog GroupsMem Value :=
  .force authUid fun uid => printUsername uid fun returnedUsername =>
    .modify (fun m => { m with currentUsername := returnedUsername }) .done

/-- What a pending body is for. -/
inductive GroupsTask where
  | reload
  | deletion
  deriving DecidableEq

/-- The app on one device, as far as it concerns the groups screen. The unanswered observers have
not been given their first value. What has gone wrong is kept over launches: an observer has asked for
the groups of nobody, or the app has ended while a deletion was pending. -/
structure GroupsDevice where
  db : Store Value
  mem : GroupsMem
  pool : List (GroupsTask × Body GroupsMem Value)
  user : Option Key
  observers : List Path
  unanswered : List Path
  calls : ℕ
  crashed : Bool
  unwrapsNil : Bool
  cutShort : Bool

/-- What happens to the app. -/
inductive GroupsEvent where
  | launch
  | viewWillAppear
  | viewDidAppear
  | run (index : ℕ)
  | firstValue (index : ℕ)
  | remote (change : Write Value)
  | signOut
  | signIn (uid : Key)
  | deleteAccount (currentUsername : String)

/-- Whether a body has reached a trap. -/
def trapped : Body GroupsMem Value → Bool
  | .run .trap => true
  | _ => false

namespace GroupsDevice

/-- Whether a deletion is pending. -/
def deletes (s : GroupsDevice) : Bool := s.pool.any fun task => task.1 = .deletion

/-- A body that was run is replaced by what remains of it. -/
def resume (s : GroupsDevice) (index : ℕ) (task : GroupsTask) (mem : GroupsMem)
    (rest : List (Body GroupsMem Value)) : GroupsDevice :=
  { s with mem := mem, pool := s.pool.take index ++ rest.map (task, ·) ++ s.pool.drop (index + 1) }

/-- The app aborts when a body has reached a trap. -/
def abort (s : GroupsDevice) : GroupsDevice :=
  if s.pool.any fun task => trapped task.2 then
    { s with crashed := true, cutShort := s.cutShort || s.deletes }
  else s

/-- The observers that a change of the database notifies. -/
def notified (s : GroupsDevice) (db : Store Value) : List Path :=
  s.observers.filter fun p => ¬ SameBelow p s.db db

section

variable (enumerate : List String → List String)

/-- The callback of an observer. -/
def notify (s : GroupsDevice) (_ : Path) : GroupsDevice :=
  let program := reloadGroupsList enumerate s.calls (s.user.map Subtype.val)
  { s with pool := s.pool ++ [(.reload, .run program)], calls := s.calls + 1,
           unwrapsNil := s.unwrapsNil || s.user.isNone }

/-- The database changes, and the observers of what has changed are notified. -/
def change (s : GroupsDevice) (db : Store Value) : GroupsDevice :=
  (s.notified db).foldl (notify enumerate) { s with db := db }

/-- What an event does, up to a trap. -/
def act (s : GroupsDevice) : GroupsEvent → Option GroupsDevice
  | .launch => some { s with
      mem := ⟨fun _ => "", [], ""⟩, pool := [], observers := [], unanswered := [], crashed := false,
      cutShort := s.cutShort || s.deletes }
  | .viewWillAppear =>
    if s.crashed ∨ s.user = none then none
    else
      let observed := s.mem.groupsArray.filterMap fun group => REF_GROUPS.child group.key
      some { s with observers := s.observers ++ observed, unanswered := s.unanswered ++ observed }
  | .viewDidAppear =>
    if s.crashed ∨ s.user = none then none
    else
      let authUid := s.user.map Subtype.val
      some { s with
        pool := s.pool ++ [(.reload, .run (reloadGroupsList enumerate s.calls authUid)),
          (.reload, .run (reloadCurrentUser authUid))], calls := s.calls + 1 }
  | .run index =>
    if s.crashed then none
    else match s.pool[index]? with
      | none => none
      | some (task, body) =>
        (body.step s.db s.mem).map fun (db, mem, rest) =>
          (s.resume index task mem rest).change enumerate db
  | .firstValue index =>
    if s.crashed then none
    else s.unanswered[index]?.map fun p =>
      { s with unanswered := s.unanswered.eraseIdx index }.notify enumerate p
  | .remote w =>
    if s.crashed then some { s with db := w.apply s.db } else some (s.change enumerate (w.apply s.db))
  | .signOut => if s.crashed then none else some { s with user := none }
  | .signIn uid => if s.crashed then none else some { s with user := some uid }
  | .deleteAccount currentUsername =>
    if s.crashed then none
    else s.user.map fun uid =>
      { s with user := none, pool := s.pool ++ [(.deletion, .run (confirmDeleteAction uid currentUsername))] }

/-- One event of the app. -/
def step (s : GroupsDevice) (e : GroupsEvent) : Option GroupsDevice := (s.act enumerate e).map abort

end

/-- No observer has asked for the groups of nobody, and no deletion has been cut short. -/
def Running (s : GroupsDevice) : Prop := s.unwrapsNil = false ∧ s.cutShort = false

/-- A session ends where no observer is registered; the account is deleted under a name that is a
location, and while no load is pending; and the app is launched and the screen appears while no deletion
is pending. -/
def Signed (s : GroupsDevice) : GroupsEvent → Prop
  | .launch | .viewWillAppear | .viewDidAppear => s.deletes = false
  | .signOut => s.observers = []
  | .deleteAccount currentUsername =>
      s.observers = [] ∧ (∀ task ∈ s.pool, task.1 = .deletion) ∧ parsePath currentUsername ≠ none
  | _ => True

/-- The app has just been launched. -/
structure Launched (s : GroupsDevice) : Prop where
  pool : s.pool = []
  observers : s.observers = []
  unanswered : s.unanswered = []
  running : s.Running

instance : DecidablePred Running := fun s =>
  inferInstanceAs (Decidable (s.unwrapsNil = false ∧ s.cutShort = false))

instance (s : GroupsDevice) (e : GroupsEvent) : Decidable (s.Signed e) := by
  unfold Signed
  split <;> infer_instance

/-! ### Deletions without a trap -/

/-- The contract of a program that does not trap, whatever its reads are answered. -/
def noTrap : Contract Unit Value := Contract.invariant (fun _ => True) (fun _ _ _ => False) False

/-- A deletion under a name that is a location does not trap. -/
theorem holds_confirmDeleteAction (uid : Key) {username : String} (h : parsePath username ≠ none) :
    noTrap.Holds () (confirmDeleteAction uid username : Prog GroupsMem Value) := by
  have hwrite (w : Write Value) : noTrap.Permits () w := fun s _ hmay => hmay.elim
  obtain ⟨name, hname⟩ := Option.ne_none_iff_exists'.mp h
  apply Contract.holds_block
  intro p hp
  simp only [List.mem_cons, List.not_mem_nil, or_false] at hp
  rcases hp with rfl | rfl | rfl
  · rw [deleteFromUsernames_eq, hname]
    exact ⟨hwrite _, trivial⟩
  · rw [deleteUserFromDatabase_eq]
    exact ⟨hwrite _, trivial⟩
  · exact holds_deleteFromGroups fun _ g k _ _ _ => hwrite _

/-- A body without a trap ahead is at none. -/
theorem trapped_of_holds {body : Body GroupsMem Value} (h : noTrap.HoldsBody () body) :
    trapped body = false := by
  cases body with
  | await p callback => rfl
  | run program =>
    cases program with
    | trap => exact h.elim
    | _ => rfl

/-- While nobody is signed in nothing is observed, and while a deletion is pending there is nothing else,
and no trap ahead. -/
structure Safe (s : GroupsDevice) : Prop where
  running : s.Running
  watched : s.user = none → s.observers = []
  awaited : s.observers = [] → s.unanswered = []
  deletion : s.deletes = true → s.observers = [] ∧
    ∀ task ∈ s.pool, task.1 = .deletion ∧ noTrap.HoldsBody () task.2

/-! ### Notifications -/

section

variable {enumerate : List String → List String} {s s' : GroupsDevice}

/-- A deletion is pending when some body is one. -/
theorem deletes_iff (s : GroupsDevice) : s.deletes = true ↔ ∃ task ∈ s.pool, task.1 = .deletion := by
  simp [deletes]

/-- No deletion is pending when all bodies are loads. -/
theorem deletes_eq_false_iff (s : GroupsDevice) : s.deletes = false ↔ ∀ task ∈ s.pool, task.1 = .reload := by
  rw [← Bool.not_eq_true, deletes_iff, not_exists]
  constructor
  · intro h task htask
    cases hkind : task.1 with
    | reload => rfl
    | deletion => exact absurd ⟨htask, hkind⟩ (h task)
  · rintro h task ⟨htask, hkind⟩
    rw [h task htask] at hkind
    contradiction

/-- A trap cuts no deletion short, since what a deletion does has none ahead. -/
theorem Safe.abort (h : s.Safe) : s.abort.Safe := by
  unfold GroupsDevice.abort
  split
  · next htrap =>
    have hnone : s.deletes = false := by
      rw [← Bool.not_eq_true]
      intro hdeletes
      obtain ⟨task, htask, htrapped⟩ := List.any_eq_true.mp htrap
      have hholds := ((h.deletion hdeletes).2 task htask).2
      rw [trapped_of_holds hholds] at htrapped
      contradiction
    exact ⟨⟨h.running.1, by simp [h.running.2, hnone]⟩, h.watched, h.awaited, h.deletion⟩
  · exact h

/-- Observers that find a user load the list again. -/
theorem foldl_notify (enumerate : List String → List String) (s : GroupsDevice) (observers : List Path)
    (huser : s.user ≠ none) :
    ∃ added calls, observers.foldl (notify enumerate) s = { s with pool := s.pool ++ added, calls := calls } ∧
      ∀ task ∈ added, task.1 = .reload := by
  induction observers generalizing s with
  | nil => exact ⟨[], s.calls, by simp, by simp⟩
  | cons p rest ih =>
    obtain ⟨added, calls, hrest, hadded⟩ := ih (s.notify enumerate p) huser
    refine ⟨(.reload, .run (reloadGroupsList enumerate s.calls (s.user.map Subtype.val))) :: added, calls, ?_, ?_⟩
    · rw [List.foldl_cons, hrest]
      have hsome : s.user.isNone = false := by
        obtain ⟨uid, huid⟩ := Option.ne_none_iff_exists'.mp huser
        rw [huid]
        rfl
      simp [notify, hsome]
    · intro task htask
      rcases List.mem_cons.mp htask with rfl | hmem
      · rfl
      · exact hadded task hmem

/-- Loads may become pending while no deletion is. -/
theorem Safe.append (h : s.Safe) (hdeletes : s.deletes = false)
    {added : List (GroupsTask × Body GroupsMem Value)} (hadded : ∀ task ∈ added, task.1 = .reload)
    (calls : ℕ) : Safe { s with pool := s.pool ++ added, calls := calls } := by
  refine ⟨h.running, h.watched, h.awaited, fun hdeletion => ?_⟩
  have hnone : deletes { s with pool := s.pool ++ added, calls := calls } = false := by
    rw [deletes_eq_false_iff] at hdeletes ⊢
    intro task htask
    exact (List.mem_append.mp htask).elim (hdeletes task) (hadded task)
  rw [hnone] at hdeletion
  contradiction

/-- Where something is observed somebody is signed in, and no deletion is pending. -/
theorem Safe.of_observers (h : s.Safe) (hobservers : s.observers ≠ []) :
    s.user ≠ none ∧ s.deletes = false := by
  refine ⟨fun huser => hobservers (h.watched huser), ?_⟩
  rw [← Bool.not_eq_true]
  exact fun hdeletes => hobservers (h.deletion hdeletes).1

/-- A change of the database notifies observers only where somebody is signed in. -/
theorem Safe.change (h : s.Safe) (db : Store Value) : (s.change enumerate db).Safe := by
  have hdb : Safe { s with db := db } := ⟨h.running, h.watched, h.awaited, h.deletion⟩
  unfold GroupsDevice.change
  by_cases hobservers : s.observers = []
  · have hnone : s.notified db = [] := by simp [notified, hobservers]
    rw [hnone]
    exact hdb
  · obtain ⟨huser, hdeletes⟩ := h.of_observers hobservers
    obtain ⟨added, calls, hnotified, hadded⟩ :=
      foldl_notify enumerate { s with db := db } (s.notified db) huser
    rw [hnotified]
    exact hdb.append hdeletes hadded calls

/-- What remains of a body is a deletion without a trap ahead when the body was. -/
theorem Safe.resume (h : s.Safe) {index : ℕ} {task : GroupsTask} {body : Body GroupsMem Value}
    {db : Store Value} {mem : GroupsMem} {rest : List (Body GroupsMem Value)}
    (hget : s.pool[index]? = some (task, body)) (hbody : body.step s.db s.mem = some (db, mem, rest)) :
    (s.resume index task mem rest).Safe := by
  have hmem {t : GroupsTask × Body GroupsMem Value} (ht : t ∈ (s.resume index task mem rest).pool) :
      t ∈ s.pool ∨ ∃ b ∈ rest, t = (task, b) := by
    rcases List.mem_append.mp ht with ht | hafter
    · rcases List.mem_append.mp ht with hbefore | hrest
      · exact Or.inl (List.mem_of_mem_take hbefore)
      · obtain ⟨b, hb, rfl⟩ := List.mem_map.mp hrest
        exact Or.inr ⟨b, hb, rfl⟩
    · exact Or.inl (List.mem_of_mem_drop hafter)
  refine ⟨h.running, h.watched, h.awaited, fun hdeletes => ?_⟩
  obtain ⟨t, ht, hkind⟩ := (deletes_iff _).mp hdeletes
  have hbefore : s.deletes = true := by
    rw [deletes_iff]
    rcases hmem ht with hold | ⟨b, -, rfl⟩
    · exact ⟨t, hold, hkind⟩
    · exact ⟨_, List.mem_of_getElem? hget, hkind⟩
  obtain ⟨hobservers, hpool⟩ := h.deletion hbefore
  obtain ⟨htask, hholds⟩ := hpool _ (List.mem_of_getElem? hget)
  refine ⟨hobservers, fun other hother => ?_⟩
  rcases hmem hother with hold | ⟨b, hb, rfl⟩
  · exact hpool other hold
  · exact ⟨htask, Contract.HoldsBody.rest hholds trivial hbody b hb⟩

/-- A deletion that is confirmed where nothing is observed and no load is pending has no trap ahead. -/
theorem Safe.deleteAccount (h : s.Safe) {currentUsername : String}
    (hsigned : s.Signed (.deleteAccount currentUsername)) (uid : Key) :
    Safe { s with
      user := none, pool := s.pool ++ [(.deletion, .run (confirmDeleteAction uid currentUsername))] } := by
  obtain ⟨hobservers, hpool, hname⟩ := hsigned
  refine ⟨h.running, fun _ => hobservers, h.awaited, fun _ => ⟨hobservers, fun task htask => ?_⟩⟩
  rcases List.mem_append.mp htask with hold | hadded
  · have hdeletes : s.deletes = true := (deletes_iff s).mpr ⟨task, hold, hpool task hold⟩
    exact (h.deletion hdeletes).2 task hold
  · rw [List.mem_singleton.mp hadded]
    exact ⟨rfl, holds_confirmDeleteAction uid hname⟩

/-- Every event that is in order keeps the app safe. -/
theorem Safe.act {e : GroupsEvent} (h : s.Safe) (hsigned : s.Signed e) (hact : s.act enumerate e = some s') :
    s'.Safe := by
  cases e with
  | launch =>
    have hnone : s.deletes = false := hsigned
    obtain rfl := Option.some.inj hact
    refine ⟨⟨h.running.1, by simp [h.running.2, hnone]⟩, fun _ => rfl, fun _ => rfl, fun hdeletes => ?_⟩
    simp [deletes] at hdeletes
  | viewWillAppear =>
    simp only [GroupsDevice.act] at hact
    split at hact
    · contradiction
    · next huser =>
      obtain rfl := Option.some.inj hact
      refine ⟨h.running, fun hnone => absurd (Or.inr hnone) huser, fun hobservers => ?_, fun hdeletes => ?_⟩
      · obtain ⟨hold, hobserved⟩ := List.append_eq_nil_iff.mp hobservers
        exact List.append_eq_nil_iff.mpr ⟨h.awaited hold, hobserved⟩
      · exact absurd (hdeletes.symm.trans hsigned) (by simp)
  | viewDidAppear =>
    simp only [GroupsDevice.act] at hact
    split at hact
    · contradiction
    · obtain rfl := Option.some.inj hact
      exact h.append hsigned (by simp) _
  | run index =>
    simp only [GroupsDevice.act] at hact
    split at hact
    · contradiction
    · split at hact
      · contradiction
      · next task body hget =>
        obtain ⟨⟨db, mem, rest⟩, hbody, rfl⟩ := Option.map_eq_some_iff.mp hact
        exact (h.resume hget hbody).change db
  | firstValue index =>
    simp only [GroupsDevice.act] at hact
    split at hact
    · contradiction
    · obtain ⟨p, hp, rfl⟩ := Option.map_eq_some_iff.mp hact
      have hobservers : s.observers ≠ [] := by
        intro hnone
        rw [h.awaited hnone] at hp
        contradiction
      obtain ⟨huser, hdeletes⟩ := h.of_observers hobservers
      have hanswered : Safe { s with unanswered := s.unanswered.eraseIdx index } :=
        ⟨h.running, h.watched, fun hnone => absurd hnone hobservers, h.deletion⟩
      obtain ⟨added, calls, hnotified, hadded⟩ := foldl_notify enumerate
        { s with unanswered := s.unanswered.eraseIdx index } [p] huser
      rw [List.foldl_cons, List.foldl_nil] at hnotified
      rw [hnotified]
      exact hanswered.append hdeletes hadded calls
  | remote w =>
    simp only [GroupsDevice.act] at hact
    split at hact
    · obtain rfl := Option.some.inj hact
      exact ⟨h.running, h.watched, h.awaited, h.deletion⟩
    · obtain rfl := Option.some.inj hact
      exact h.change _
  | signOut =>
    simp only [GroupsDevice.act] at hact
    split at hact
    · contradiction
    · obtain rfl := Option.some.inj hact
      exact ⟨h.running, fun _ => hsigned, h.awaited, h.deletion⟩
  | signIn uid =>
    simp only [GroupsDevice.act] at hact
    split at hact
    · contradiction
    · obtain rfl := Option.some.inj hact
      exact ⟨h.running, fun hnone => by contradiction, h.awaited, h.deletion⟩
  | deleteAccount currentUsername =>
    simp only [GroupsDevice.act] at hact
    split at hact
    · contradiction
    · obtain ⟨uid, -, rfl⟩ := Option.map_eq_some_iff.mp hact
      exact h.deleteAccount hsigned uid

/-- Where nobody is signed in, a change below an observed location is too much. -/
theorem exists_unwrapsNil (hcrashed : s.crashed = false) (huser : s.user = none) (hobservers : s.observers ≠ []) :
    ∃ w next, s.step enumerate (.remote w) = some next ∧ ¬ next.Running := by
  obtain ⟨p, hp⟩ := List.exists_mem_of_ne_nil _ hobservers
  -- a new title differs from the one that is stored
  obtain ⟨title, htitle⟩ : ∃ title, s.db.get (p ++ [Keys.title]) ≠ some (.string title) := by
    by_cases hnone : s.db.get (p ++ [Keys.title]) = some (.string "")
    · exact ⟨"title", by simp [hnone]⟩
    · exact ⟨"", hnone⟩
  let w : Write Value := .update p [([Keys.title], str title)]
  have hnotified : p ∈ s.notified (w.apply s.db) := by
    refine List.mem_filter.mpr ⟨hp, ?_⟩
    simp only [decide_not, Bool.not_eq_true', decide_eq_false_iff_not, sameBelow_iff]
    intro hsame
    exact htitle ((hsame [Keys.title]).symm.trans (get_update_leaf p [Keys.title] _ s.db))
  have hunwraps (observers : List Path) (s : GroupsDevice) (huser : s.user = none)
      (h : s.unwrapsNil = true ∨ observers ≠ []) :
      (observers.foldl (notify enumerate) s).unwrapsNil = true := by
    induction observers generalizing s with
    | nil => exact h.resolve_right (by simp)
    | cons q rest ih =>
      refine ih (s.notify enumerate q) huser (Or.inl ?_)
      simp [notify, huser]
  have hasked : (s.change enumerate (w.apply s.db)).unwrapsNil = true :=
    hunwraps _ _ huser (Or.inr (List.ne_nil_of_mem hnotified))
  refine ⟨w, (s.change enumerate (w.apply s.db)).abort, by simp [step, GroupsDevice.act, hcrashed], ?_⟩
  intro hrunning
  have hkept : (s.change enumerate (w.apply s.db)).abort.unwrapsNil = true := by
    unfold GroupsDevice.abort
    split <;> exact hasked
  exact absurd (hrunning.1.symm.trans hkept) (by simp)

end

/-- The device of a member of one group, before anything has appeared. -/
def onGroups : GroupsDevice where
  db := (Write.update [Keys.groups, Sample.home]
    [([Keys.title], str "home"), ([Keys.description], str ""), ([Keys.master], str "alice"),
      ([Keys.groupListCount], int 0), ([Keys.groupListCheckCount], int 0)]).apply sharedByTwo
  mem := ⟨fun _ => "", [], ""⟩
  pool := []
  user := some Sample.uidA
  observers := []
  unanswered := []
  calls := 0
  crashed := false
  unwrapsNil := false
  cutShort := false

/-- The groups screen appears and lists its group, and appears a second time. -/
def appearTwice : List GroupsEvent :=
  [GroupsEvent.viewWillAppear, .viewDidAppear] ++ List.replicate 3 (.run 0) ++ List.replicate 3 (.run 2) ++
    List.replicate 10 (.run 0) ++ [GroupsEvent.viewWillAppear]

end GroupsDevice

end GroceryListApp

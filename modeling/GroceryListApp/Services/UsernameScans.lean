import GroceryListApp.Services.DataService

/-!
# Scans over all accounts

`getIds` walks all accounts in database order and casts the username of each. When every account
has a username, what it hands on are the keys of the accounts that have one of the given names; with
different names for different accounts, these are as many as there are names that some account has.
A search walks the accounts in the same way and appends the names that match.
-/

namespace GroceryListApp

open Realtime

variable {M : Type*} {db : Store Value}

/-- Every account has a username. -/
def AllNamed (db : Store Value) : Prop :=
  ∀ uid ∈ db.children [Keys.users], (storedUsername db uid).isSome

instance (db : Store Value) : Decidable (AllNamed db) :=
  inferInstanceAs (Decidable (∀ uid ∈ db.children [Keys.users], (storedUsername db uid).isSome))

/-- The cast that a scan makes of an account yields its username. -/
theorem asString_username (db : Store Value) (uid : Key) :
    asString (Snapshot.childSnapshot ⟨uid.1, (db.sub [Keys.users]).sub [uid]⟩ "username") =
      storedUsername db uid := by
  have hname : parsePath "username" = some [Keys.username] := parsePath_field.1
  rw [storedUsername, asString, asString, value_snapshot,
    Snapshot.value_childSnapshot_child db [Keys.users] [Keys.username] uid hname]
  rfl

/-- The accounts that have one of the names, in database order. -/
def accountsNamed (db : Store Value) (names : List String) : List Key :=
  (db.children [Keys.users]).filter fun uid => (storedUsername db uid).any (· ∈ names)

/-- An account is found by its username. -/
theorem mem_accountsNamed {names : List String} {uid : Key} :
    uid ∈ accountsNamed db names ↔ ∃ name ∈ names, storedUsername db uid = some name := by
  rw [accountsNamed, List.mem_filter, Option.any_eq_true]
  simp only [decide_eq_true_eq]
  constructor
  · intro h
    obtain ⟨name, hname, hmem⟩ := h.2
    exact ⟨name, hmem, hname⟩
  · intro h
    obtain ⟨name, hmem, hname⟩ := h
    have hget := (storedUsername_eq_some_iff db uid name).mp hname
    exact ⟨(Store.mem_children _ _ _).mpr ⟨_, _, hget⟩, name, hname, hmem⟩

/-- No account is found twice. -/
theorem nodup_accountsNamed (db : Store Value) (names : List String) :
    (accountsNamed db names).Nodup :=
  (Store.nodup_children db _).filter _

/-- `getIds` hands on the keys of the accounts that have one of the names. -/
theorem answer_getIds (h : AllNamed db) (names : List String)
    (handler : List String → Prog M Value) :
    (getIds names handler).answer db = handler ((accountsNamed db names).map Subtype.val) := by
  have hscan (uids : List Key) (huids : ∀ uid ∈ uids, (storedUsername db uid).isSome) :
      ∃ found : List (List String), (uids.map fun uid => (⟨uid.1, (db.sub [Keys.users]).sub [uid]⟩ :
          Snapshot Value)).mapM (fun user => do
            let username ← asString (user.childSnapshot "username")
            some (if username ∈ names then [user.key] else [])) = some found ∧
        found.flatten = (uids.filter fun uid =>
          (storedUsername db uid).any (· ∈ names)).map Subtype.val := by
    induction uids with
    | nil => exact ⟨[], rfl, rfl⟩
    | cons uid uids ih =>
      obtain ⟨name, hname⟩ := Option.isSome_iff_exists.mp (huids uid List.mem_cons_self)
      obtain ⟨found, hfound, hflat⟩ := ih fun other hother => huids other (List.mem_cons_of_mem _ hother)
      refine ⟨(if name ∈ names then [uid.1] else []) :: found, ?_, ?_⟩
      · rw [List.map_cons, List.mapM_cons, hfound, asString_username, hname]
        rfl
      · rw [List.flatten_cons, hflat, List.filter_cons, hname]
        by_cases hmem : name ∈ names <;> simp [hmem]
  obtain ⟨found, hfound, hflat⟩ := hscan (db.children [Keys.users]) h
  change Prog.force _ (fun ids : List (List String) => handler ids.flatten) = _
  rw [Snapshot.children_snapshot, hfound, Prog.force_some, hflat, accountsNamed]

section

variable {user query : String}

/-- The array of a search after the accounts were walked: what matches, without the caller's name. -/
theorem matchUsernames_named (h : AllNamed db) (usernameArray : List String) :
    matchUsernames query user usernameArray (db.snapshot [Keys.users]) =
      some (usernameArray ++ (storedUsernames db).filter fun name =>
        containsText name query ∧ name ≠ user) := by
  rw [matchUsernames, Snapshot.children_snapshot, List.foldlM_map, storedUsernames]
  simp only [asString_username]
  suffices hwalk : ∀ (uids : List Key), (∀ uid ∈ uids, (storedUsername db uid).isSome) →
      ∀ usernameArray, uids.foldlM (fun usernameArray uid => do
          let username ← storedUsername db uid
          some (if containsText username query ∧ username ≠ user then usernameArray ++ [username]
            else usernameArray)) usernameArray =
        some (usernameArray ++ (uids.filterMap (storedUsername db)).filter fun name =>
          containsText name query ∧ name ≠ user) from hwalk _ h usernameArray
  intro uids huids
  induction uids with
  | nil => intro usernameArray; simp
  | cons uid uids ih =>
    intro usernameArray
    obtain ⟨name, hname⟩ := Option.isSome_iff_exists.mp (huids uid List.mem_cons_self)
    rw [List.foldlM_cons, List.filterMap_cons_some hname, List.filter_cons, hname]
    refine (ih (fun other hother => huids other (List.mem_cons_of_mem _ hother)) _).trans ?_
    by_cases hmatch : containsText name query ∧ name ≠ user <;> simp [hmatch]

/-- The walk over the accounts aborts when one of them has no username. -/
theorem matchUsernames_unnamed (h : ¬ AllNamed db) (usernameArray : List String) :
    matchUsernames query user usernameArray (db.snapshot [Keys.users]) = none := by
  have hmissing : ∃ uid ∈ db.children [Keys.users], storedUsername db uid = none := by
    by_contra hall
    apply h
    intro uid huid
    cases hname : storedUsername db uid with
    | none => exact absurd ⟨uid, huid, hname⟩ hall
    | some name => rfl
  obtain ⟨uid, huid, hnone⟩ := hmissing
  rw [matchUsernames, Snapshot.children_snapshot, List.foldlM_map]
  simp only [asString_username]
  generalize db.children [Keys.users] = uids at huid
  induction uids generalizing usernameArray with
  | nil => contradiction
  | cons first rest ih =>
    rw [List.foldlM_cons]
    rcases List.mem_cons.mp huid with rfl | huid
    · rw [hnone]
      rfl
    · cases storedUsername db first with
      | none => rfl
      | some name => exact ih _ huid

end

end GroceryListApp

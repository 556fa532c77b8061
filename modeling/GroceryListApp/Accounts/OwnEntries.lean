import GroceryListApp.Controller.AppCalls
import GroceryListApp.Realtime.Story

/-!
# Account operations touch only their own entries

A registration, a change of username and a deletion find the entries of their account by the names
that the screens show, not by its uid. Suppose that each of them starts on the stored name and with an
available new one, and that nothing pending shares its account or one of its names. Then, whatever
else happens between its writes, each of these finds what the operation left there: a name is listed
where nothing is, an entry that is removed is the account's own, and no member is replaced that has
the name of another account.
-/

namespace GroceryListApp

open Realtime

/-- The names a call gives up or takes. -/
def AppCall.names (t : AppCall) : List String := t.gives.toList ++ t.takes.toList

/-- Two calls change the name of one account, or have a name in common. -/
def AppCall.Shares (t t' : AppCall) : Prop :=
  (∃ uid ∈ t.account, t'.account = some uid) ∨ ∃ name ∈ t.names, name ∈ t'.names

/-- A change of an account's name starts on the stored name, takes an available one, and shares
nothing with what is pending. -/
def StartsFresh (s : AppSys) : Act AppCall → Prop
  | .spawn t => (∀ uid ∈ t.account, storedUsername s.db uid = t.gives) ∧
      (∀ name ∈ t.takes, Available s.db name) ∧ ∀ task ∈ s.pool, ¬ t.Shares task.1
  | .run _ => True

/-- A write of an operation of an account overwrites no entry of the index, and removes only those of the
account; it writes to no other record, and leaves every member with the name of another account. -/
structure TouchesOwn (uid : Key) (db : Store Value) (w : Write Value) : Prop where
  index : ∀ k v, db.get [Keys.usernames, k] = some v → (w.apply db).get [Keys.usernames, k] = some v ∨
    v = .string uid.1 ∧ (w.apply db).get [Keys.usernames, k] = none
  records : ∀ x ≠ uid, ∀ q, (w.apply db).get (Keys.users :: x :: q) = db.get (Keys.users :: x :: q)
  members : ∀ g (k : Key) x, storedUsername db x = some k.1 → x ≠ uid →
    (w.apply db).get (membersPath g ++ [k]) = db.get (membersPath g ++ [k])

/-- The index lists exactly the names of the accounts. -/
structure IndexAgrees (db : Store Value) : Prop where
  listed : ∀ uid name, storedUsername db uid = some name →
    ∃ k : Key, k.1 = name ∧ db.get [Keys.usernames, k] = some (.string uid.1)
  stored : ∀ k v, db.get [Keys.usernames, k] = some v →
    ∃ uid : Key, v = .string uid.1 ∧ storedUsername db uid = some k.1

/-! ### The names of a call -/

/-- Sharing goes both ways. -/
theorem AppCall.Shares.symm {t t' : AppCall} (h : t.Shares t') : t'.Shares t := by
  rcases h with ⟨uid, huid, huid'⟩ | ⟨name, hname, hname'⟩
  · exact Or.inl ⟨uid, huid', huid⟩
  · exact Or.inr ⟨name, hname', hname⟩

/-- A call has the names it gives up and the names it takes. -/
theorem AppCall.mem_names {t : AppCall} {name : String} :
    name ∈ t.names ↔ t.gives = some name ∨ t.takes = some name := by
  simp [AppCall.names]

/-- A call that changes no account's name has no names. -/
theorem AppCall.names_of_account {t : AppCall} (h : t.account = none) : t.names = [] := by
  cases t with
  | group call => cases call <;> simp [AppCall.account, GroupCall.account] at h <;> rfl
  | _ => rfl

/-- A call that changes no account's name shares nothing. -/
theorem AppCall.not_shares {t : AppCall} (h : t.account = none) (t' : AppCall) : ¬ t.Shares t' := by
  rintro (⟨uid, huid, -⟩ | ⟨name, hname, -⟩)
  · rw [h] at huid
    contradiction
  · rw [AppCall.names_of_account h] at hname
    contradiction

/-! ### How far an operation is -/

/-- Whether the record has the new name, the new name is listed, and the old one no longer is. -/
structure NameStage where
  recorded : Bool
  listed : Bool
  unlisted : Bool

/-- The operation has made its writes to the record and to the index. -/
def NameStage.complete : NameStage := ⟨true, true, true⟩

/-- The stage in which an operation starts: what it does not have to do counts as done. -/
def AppCall.begins (t : AppCall) : NameStage := ⟨false, t.takes.isNone, t.gives.isNone⟩

/-- What an operation finds in the database at a stage. -/
structure Expects (t : AppCall) (stage : NameStage) (uid : Key) (db : Store Value) : Prop where
  stored : storedUsername db uid = if stage.recorded then t.takes else t.gives
  given : ∀ k : Key, t.gives = some k.1 →
    db.get [Keys.usernames, k] = if stage.unlisted then none else some (.string uid.1)
  taken : ∀ k : Key, t.takes = some k.1 →
    db.get [Keys.usernames, k] = if stage.listed then some (.string uid.1) else none
  distinct : ∀ name ∈ t.gives, name ∉ t.takes
  legal : LegalNames t

/-- A write that comes after the operation's writes to the record and the index: it leaves all names,
and it touches only own entries as long as nobody else has a name of the operation. -/
structure Quiet (t : AppCall) (w : Write Value) : Prop extends LeavesNames w where
  own : ∀ uid ∈ t.account, ∀ db,
    (∀ name ∈ t.names, ∀ x, storedUsername db x = some name → x = uid) → TouchesOwn uid db w

/-- What is left of the program of an operation at a stage. -/
inductive Remains (t : AppCall) (uid : Key) : NameStage → Prog (ℕ → String) Value → Prop
  | record {stage : NameStage} {w : Write Value} {next : Prog (ℕ → String) Value}
      (hstage : stage.recorded = false) (hw : w.location = [Keys.users, uid])
      (hafter : ∀ db, storedUsername (w.apply db) uid = t.takes)
      (hnext : Remains t uid ⟨true, stage.listed, stage.unlisted⟩ next) :
      Remains t uid stage (.write w next)
  | list {stage : NameStage} {k : Key} {next : Prog (ℕ → String) Value}
      (hstage : stage.listed = false) (hk : t.takes = some k.1)
      (hnext : Remains t uid ⟨stage.recorded, true, stage.unlisted⟩ next) :
      Remains t uid stage (.write (.update [Keys.usernames] [([k], str uid.1)]) next)
  | unlist {stage : NameStage} {k : Key} {next : Prog (ℕ → String) Value}
      (hstage : stage.unlisted = false) (hk : t.gives = some k.1)
      (hnext : Remains t uid ⟨stage.recorded, stage.listed, true⟩ next) :
      Remains t uid stage (.write (.remove [Keys.usernames, k]) next)
  | quiet {program : Prog (ℕ → String) Value} (h : (Contract.issues Quiet).Holds t program) :
      Remains t uid .complete program

/-- A write that leaves the names is quiet for a call that changes no account's name. -/
theorem quiet_of_account {t : AppCall} (ht : t.account = none) {w : Write Value} (hw : LeavesNames w) :
    Quiet t w := by
  refine ⟨hw, fun uid huid => ?_⟩
  rw [ht] at huid
  contradiction

/-- A write to the record of the account touches own entries only. -/
theorem touchesOwn_record {uid : Key} {w : Write Value} (hw : w.location = [Keys.users, uid])
    (db : Store Value) : TouchesOwn uid db w where
  index k v hv := Or.inl ((get_apply_of_apart (hw ▸ apart_of_ne (by decide) _ _) db).trans hv)
  records x hx q := get_apply_of_apart (hw ▸ (apart_cons _ _ _).mpr (apart_of_ne (Ne.symm hx) _ _)) db
  members g k x _ _ := get_apply_of_apart (hw ▸ apart_of_ne (by decide) _ _) db

/-- A write to the index touches own entries only when it does so in the index. -/
theorem touchesOwn_index {uid : Key} {db : Store Value} {w : Write Value}
    (hw : [Keys.usernames] <+: w.location)
    (h : ∀ k v, db.get [Keys.usernames, k] = some v → (w.apply db).get [Keys.usernames, k] = some v ∨
      v = .string uid.1 ∧ (w.apply db).get [Keys.usernames, k] = none) : TouchesOwn uid db w := by
  obtain ⟨rest, hrest⟩ := hw
  have hlocation : w.location = Keys.usernames :: rest := hrest.symm
  exact ⟨h, fun x _ q => get_apply_of_apart (hlocation ▸ apart_of_ne (by decide) _ _) db,
    fun g k x _ _ => get_apply_of_apart (hlocation ▸ apart_of_ne (by decide) _ _) db⟩

/-- A write to a group is quiet when it leaves every member with another name than the operation's. -/
theorem quiet_groups {t : AppCall} {w : Write Value} (hw : [Keys.groups] <+: w.location)
    (hmembers : ∀ db g (k : Key), k.1 ∉ t.names →
      (w.apply db).get (membersPath g ++ [k]) = db.get (membersPath g ++ [k])) : Quiet t w := by
  refine ⟨leavesNames_groups hw, fun uid _ db hforeign => ⟨fun k v hv => ?_, fun x _ q => ?_, ?_⟩⟩
  · exact Or.inl (((leavesNames_groups hw).index db k).trans hv)
  · obtain ⟨rest, hrest⟩ := hw
    have hlocation : w.location = Keys.groups :: rest := hrest.symm
    exact get_apply_of_apart (hlocation ▸ apart_of_ne (by decide) _ _) db
  · exact fun g k x hx hne => hmembers db g k fun hk => hne (hforeign k.1 hk x hx)

/-- An edit of a group that is not below the members is quiet. -/
theorem quiet_edit {t : AppCall} {p : Path} {key : Key} (hedit : (p ++ [key]).head? ≠ some Keys.members)
    (g : Key) (value : Store Value) : Quiet t (.update (Keys.groups :: g :: p) [([key], value)]) := by
  refine quiet_groups ⟨g :: p, rfl⟩ fun db g' k _ => get_update_of_apart (fun entry hentry => ?_) db
  rw [List.mem_singleton.mp hentry]
  obtain ⟨first, rest, hsplit⟩ : ∃ first rest, p ++ [key] = first :: rest :=
    List.exists_cons_of_ne_nil (by simp)
  have hfirst : first ≠ Keys.members := fun hsame => hedit (by rw [hsplit, hsame]; rfl)
  have hpath : Keys.groups :: g :: p ++ [key] = Keys.groups :: g :: first :: rest :=
    congrArg (fun q => Keys.groups :: g :: q) hsplit
  rw [hpath]
  exact apart_field _ _ _ hfirst _ _

/-- Different members lie apart. -/
theorem apart_member {k l : Key} (hne : k ≠ l) (g g' : Key) :
    Apart (membersPath g ++ [k]) (membersPath g' ++ [l]) := by
  by_cases hg : g = g'
  · rw [hg, apart_append_left]
    exact apart_of_ne hne _ _
  · exact (apart_cons _ _ _).mpr (apart_of_ne hg _ _)

/-- The removal of a member with a name of the operation is quiet. -/
theorem quiet_removeMember {t : AppCall} {k : Key} (hk : k.1 ∈ t.names) (g : Key) :
    Quiet t (.remove [Keys.groups, g, Keys.members, k]) := by
  refine quiet_groups ⟨[g, Keys.members, k], rfl⟩ fun db g' l hl => ?_
  have hne : k ≠ l := fun hsame => hl (hsame ▸ hk)
  exact get_apply_of_apart (w := .remove (membersPath g ++ [k])) (apart_member hne g g') db

/-- The addition of a member with a name of the operation is quiet. -/
theorem quiet_addMember {t : AppCall} {k : Key} (hk : k.1 ∈ t.names) (g : Key) (value : Store Value) :
    Quiet t (.update [Keys.groups, g, Keys.members] [([k], value)]) := by
  refine quiet_groups ⟨[g, Keys.members], rfl⟩ fun db g' l hl => ?_
  have hne : k ≠ l := fun hsame => hl (hsame ▸ hk)
  refine get_update_of_apart (fun entry hentry => ?_) db
  rw [List.mem_singleton.mp hentry]
  exact apart_member hne g g'

/-- An operation starts with everything that it has to do. -/
theorem remains_code {t : AppCall} {uid : Key} (ht : t.account = some uid) (hlegal : LegalNames t) :
    Remains t uid t.begins t.code := by
  obtain ⟨hgives, htakes⟩ := hlegal
  have hmember (username : String) (hname : username ∈ t.names) :
      (Contract.issues Quiet).Holds t (deleteFromGroups username : Prog (ℕ → String) Value) := by
    refine holds_deleteFromGroups fun _ g k _ _ hk => Contract.permits_issues_iff.mpr ?_
    exact quiet_removeMember (hk ▸ hname) g
  match t with
  | .group (.registerUser x providerID email username) =>
    obtain rfl := Option.some.inj ht
    obtain ⟨name, rfl⟩ : ∃ name : Key, name.1 = username := ⟨⟨username, htakes _ rfl⟩, rfl⟩
    simp only [AppCall.code, GroupCall.code, registerUser_eq]
    refine .record rfl rfl (storedUsername_register x providerID email name.1) (.list rfl rfl (.quiet ?_))
    refine ⟨Contract.permits_issues_iff.mpr ⟨leavesNames_update_field (by decide) _, ?_⟩, trivial⟩
    exact fun uid huid db _ => Option.some.inj huid ▸ touchesOwn_record rfl db
  | .group (.changeUsername x profileName newUsername) =>
    obtain rfl := Option.some.inj ht
    obtain ⟨old, rfl⟩ : ∃ old : Key, old.1 = profileName := ⟨⟨profileName, hgives _ rfl⟩, rfl⟩
    obtain ⟨new, rfl⟩ : ∃ new : Key, new.1 = newUsername := ⟨⟨newUsername, htakes _ rfl⟩, rfl⟩
    simp only [AppCall.code, GroupCall.code, changeUsernameAction_eq]
    refine .record rfl rfl (storedUsername_update x new.1) (.list rfl rfl (.unlist rfl rfl (.quiet ?_)))
    apply holds_renameInGroups trivial
    · exact fun g p key value hedit => Contract.permits_issues_iff.mpr (quiet_edit hedit g value)
    · intro g k hk
      exact Contract.permits_issues_iff.mpr (quiet_removeMember (AppCall.mem_names.mpr (Or.inl (hk ▸ rfl))) g)
    · intro g name hname
      rw [parsePath_key, Option.some.injEq] at hname
      subst hname
      exact Contract.permits_issues_iff.mpr (quiet_addMember (AppCall.mem_names.mpr (Or.inr rfl)) g _)
  | .group (.deleteAccount x username) =>
    obtain rfl := Option.some.inj ht
    obtain ⟨name, rfl⟩ : ∃ name : Key, name.1 = username := ⟨⟨username, hgives _ rfl⟩, rfl⟩
    simp only [AppCall.code, GroupCall.code, confirmDeleteAction_eq]
    refine .unlist rfl rfl (.record rfl rfl (storedUsername_remove x) (.quiet (hmember name.1 ?_)))
    exact AppCall.mem_names.mpr (Or.inl rfl)

/-! ### Operations that share nothing -/

/-- What holds of the database and of the operations on their way: an operation that is not complete
shares nothing with the others, each finds what it expects, nobody else has one of its names, and the
index agrees with the accounts and names that no incomplete operation is about. -/
structure Orderly (db : Store Value) (notes : List (AppCall × NameStage)) : Prop where
  separate : notes.Pairwise fun a b => a.2 = .complete ∧ b.2 = .complete ∨ ¬ a.1.Shares b.1
  expects : ∀ note ∈ notes, ∀ uid ∈ note.1.account, Expects note.1 note.2 uid db
  foreign : ∀ note ∈ notes, ∀ uid ∈ note.1.account, ∀ name ∈ note.1.names,
    ∀ x, storedUsername db x = some name → x = uid
  accounts : ∀ x name, storedUsername db x = some name →
    (∀ note ∈ notes, note.1.account = some x → note.2 = .complete) →
    ∃ k : Key, k.1 = name ∧ db.get [Keys.usernames, k] = some (.string x.1)
  entries : ∀ k v, db.get [Keys.usernames, k] = some v →
    (∀ note ∈ notes, k.1 ∈ note.1.names → note.2 = .complete) →
    ∃ x : Key, v = .string x.1 ∧ storedUsername db x = some k.1

section

variable {db db' : Store Value} {t : AppCall} {uid : Key} {stage : NameStage}

/-- The stored name of an operation's account is one of the operation's names. -/
theorem Expects.mem_names (h : Expects t stage uid db) {name : String}
    (hname : storedUsername db uid = some name) : name ∈ t.names := by
  rw [h.stored] at hname
  split at hname
  · exact AppCall.mem_names.mpr (Or.inr hname)
  · exact AppCall.mem_names.mpr (Or.inl hname)

/-- An operation finds what it expects when its account and its names are as they were. -/
theorem Expects.congr (h : Expects t stage uid db) (hstored : storedUsername db' uid = storedUsername db uid)
    (hindex : ∀ k : Key, k.1 ∈ t.names → db'.get [Keys.usernames, k] = db.get [Keys.usernames, k]) :
    Expects t stage uid db' where
  stored := hstored.trans h.stored
  given k hk := (hindex k (AppCall.mem_names.mpr (Or.inl hk))).trans (h.given k hk)
  taken k hk := (hindex k (AppCall.mem_names.mpr (Or.inr hk))).trans (h.taken k hk)
  distinct := h.distinct
  legal := h.legal

/-- Recording the name that is taken brings an operation on. -/
theorem Expects.record (h : Expects t stage uid db) (hstored : storedUsername db' uid = t.takes)
    (hindex : ∀ k, db'.get [Keys.usernames, k] = db.get [Keys.usernames, k]) :
    Expects t ⟨true, stage.listed, stage.unlisted⟩ uid db' where
  stored := hstored
  given k hk := (hindex k).trans (h.given k hk)
  taken k hk := (hindex k).trans (h.taken k hk)
  distinct := h.distinct
  legal := h.legal

/-- Listing the name that is taken brings an operation on. -/
theorem Expects.list (h : Expects t stage uid db) {k : Key} (hk : t.takes = some k.1) :
    Expects t ⟨stage.recorded, true, stage.unlisted⟩ uid
      ((Write.update [Keys.usernames] [([k], str uid.1)]).apply db) where
  stored := (storedUsername_apply_of_root db rfl (by decide) uid).trans h.stored
  given l hl := by
    have hne : l ≠ k := by
      rintro rfl
      exact h.distinct l.1 hl hk
    rw [ChangesName.get_update_usernames hne]
    exact h.given l hl
  taken l hl := by
    obtain rfl : k = l := Subtype.ext (Option.some.inj (hk.symm.trans hl))
    exact get_update_leaf [Keys.usernames] [k] _ _
  distinct := h.distinct
  legal := h.legal

/-- Removing the entry of the name that is given up brings an operation on. -/
theorem Expects.unlist (h : Expects t stage uid db) {k : Key} (hk : t.gives = some k.1) :
    Expects t ⟨stage.recorded, stage.listed, true⟩ uid
      ((Write.remove [Keys.usernames, k]).apply db) where
  stored := (storedUsername_apply_of_root db rfl (by decide) uid).trans h.stored
  given l hl := by
    obtain rfl : k = l := Subtype.ext (Option.some.inj (hk.symm.trans hl))
    rw [Write.apply, Store.get_remove, if_pos (List.prefix_refl _)]
    rfl
  taken l hl := by
    have hne : l ≠ k := by
      rintro rfl
      exact h.distinct l.1 hk hl
    rw [ChangesName.get_remove_usernames hne]
    exact h.taken l hl
  distinct := h.distinct
  legal := h.legal

/-- When an operation is complete, the index lists its account under the stored name. -/
theorem Expects.listed (h : Expects t .complete uid db) {name : String}
    (hname : storedUsername db uid = some name) :
    ∃ k : Key, k.1 = name ∧ db.get [Keys.usernames, k] = some (.string uid.1) := by
  have htakes : t.takes = some name := h.stored.symm.trans hname
  exact ⟨⟨name, h.legal.2 name htakes⟩, rfl, h.taken _ htakes⟩

/-- When an operation is complete, the entries under its names are those of its account. -/
theorem Expects.of_get (h : Expects t .complete uid db) {k : Key} (hk : k.1 ∈ t.names) {v : Value}
    (hv : db.get [Keys.usernames, k] = some v) :
    ∃ x : Key, v = .string x.1 ∧ storedUsername db x = some k.1 := by
  rcases AppCall.mem_names.mp hk with hgives | htakes
  · rw [h.given k hgives] at hv
    contradiction
  · rw [h.taken k htakes] at hv
    exact ⟨uid, (Option.some.inj hv).symm, h.stored.trans htakes⟩

end

namespace Orderly

variable {db db' : Store Value} {t : AppCall} {uid : Key} {stage stage' : NameStage}
  {notes before after : List (AppCall × NameStage)}

/-- An incomplete operation shares nothing with the others. -/
theorem not_shares (h : Orderly db (before ++ (t, stage) :: after)) (hstage : stage ≠ .complete) :
    ∀ note ∈ before ++ after, ¬ t.Shares note.1 := by
  obtain ⟨-, hafter, hbetween⟩ := List.pairwise_append.mp h.separate
  intro note hnote hshares
  rcases List.mem_append.mp hnote with hnote | hnote
  · rcases hbetween note hnote _ List.mem_cons_self with ⟨-, hcomplete⟩ | hnot
    · exact hstage hcomplete
    · exact hnot hshares.symm
  · rcases (List.pairwise_cons.mp hafter).1 note hnote with ⟨hcomplete, -⟩ | hnot
    · exact hstage hcomplete
    · exact hnot hshares

/-- A step of an operation that changes its own account and names only keeps order. -/
theorem advance (h : Orderly db (before ++ (t, stage) :: after)) (ht : t.account = some uid)
    (hstage : stage ≠ .complete) (hothers : ∀ x ≠ uid, storedUsername db' x = storedUsername db x)
    (hindex : ∀ k : Key, k.1 ∉ t.names → db'.get [Keys.usernames, k] = db.get [Keys.usernames, k])
    (hexpects : Expects t stage' uid db') : Orderly db' (before ++ (t, stage') :: after) := by
  have hnot := h.not_shares hstage
  have hmem (note : AppCall × NameStage) : note ∈ before ++ (t, stage') :: after ↔
      note = (t, stage') ∨ note ∈ before ++ after := by
    simp only [List.mem_append, List.mem_cons]
    tauto
  have hold (note : AppCall × NameStage) : note ∈ before ++ (t, stage) :: after ↔
      note = (t, stage) ∨ note ∈ before ++ after := by
    simp only [List.mem_append, List.mem_cons]
    tauto
  have hexpected := h.expects (t, stage) ((hold _).mpr (Or.inl rfl)) uid ht
  have hforeign := h.foreign (t, stage) ((hold _).mpr (Or.inl rfl)) uid ht
  constructor
  · obtain ⟨hbefore, hafter, hbetween⟩ := List.pairwise_append.mp h.separate
    obtain ⟨-, hafter⟩ := List.pairwise_cons.mp hafter
    refine List.pairwise_append.mpr ⟨hbefore, List.pairwise_cons.mpr ⟨?_, hafter⟩, ?_⟩
    · exact fun note hnote => Or.inr (hnot note (List.mem_append_right _ hnote))
    · intro note hnote other hother
      rcases List.mem_cons.mp hother with rfl | hother
      · exact Or.inr fun hshares => hnot note (List.mem_append_left _ hnote) hshares.symm
      · exact hbetween note hnote other (List.mem_cons_of_mem _ hother)
  · intro note hnote x hx
    rcases (hmem note).mp hnote with rfl | hother
    · obtain rfl : uid = x := Option.some.inj (ht.symm.trans hx)
      exact hexpects
    · have hne : x ≠ uid := fun hsame => hnot note hother (Or.inl ⟨uid, ht, hsame ▸ hx⟩)
      refine (h.expects note ((hold note).mpr (Or.inr hother)) x hx).congr (hothers x hne) fun k hk => ?_
      exact hindex k fun hshared => hnot note hother (Or.inr ⟨k.1, hshared, hk⟩)
  · intro note hnote y hy name hname x hx
    by_cases hxu : x = uid
    · subst hxu
      have hshared := hexpects.mem_names hx
      rcases (hmem note).mp hnote with rfl | hother
      · exact Option.some.inj (ht.symm.trans hy)
      · exact absurd (Or.inr ⟨name, hshared, hname⟩) (hnot note hother)
    · rw [hothers x hxu] at hx
      rcases (hmem note).mp hnote with rfl | hother
      · obtain rfl : uid = y := Option.some.inj (ht.symm.trans hy)
        exact hforeign name hname x hx
      · exact h.foreign note ((hold note).mpr (Or.inr hother)) y hy name hname x hx
  · intro x name hname hcomplete
    by_cases hxu : x = uid
    · subst hxu
      have hdone : stage' = .complete := hcomplete (t, stage') ((hmem _).mpr (Or.inl rfl)) ht
      exact (hdone ▸ hexpects).listed hname
    · rw [hothers x hxu] at hname
      obtain ⟨k, rfl, hk⟩ := h.accounts x name hname fun note hnote hx => by
        rcases (hold note).mp hnote with rfl | hother
        · exact absurd (Option.some.inj (hx.symm.trans ht)) hxu
        · exact hcomplete note ((hmem note).mpr (Or.inr hother)) hx
      refine ⟨k, rfl, ?_⟩
      rw [hindex k fun hshared => hxu (hforeign k.1 hshared x hname)]
      exact hk
  · intro k v hv hcomplete
    by_cases hk : k.1 ∈ t.names
    · have hdone : stage' = .complete := hcomplete (t, stage') ((hmem _).mpr (Or.inl rfl)) hk
      exact (hdone ▸ hexpects).of_get hk hv
    · rw [hindex k hk] at hv
      obtain ⟨x, rfl, hx⟩ := h.entries k v hv fun note hnote hname => by
        rcases (hold note).mp hnote with rfl | hother
        · exact absurd hname hk
        · exact hcomplete note ((hmem note).mpr (Or.inr hother)) hname
      have hxu : x ≠ uid := by
        rintro rfl
        exact hk (hexpected.mem_names hx)
      exact ⟨x, rfl, (hothers x hxu).trans hx⟩

/-- A step of a complete operation that leaves all names keeps order, whatever remains of it. -/
theorem quiet (h : Orderly db (before ++ (t, .complete) :: after))
    (hstored : ∀ x, storedUsername db' x = storedUsername db x)
    (hindex : ∀ k, db'.get [Keys.usernames, k] = db.get [Keys.usernames, k]) {rest : List (AppCall × NameStage)}
    (hrest : ∀ note ∈ rest, note = (t, .complete)) : Orderly db' (before ++ rest ++ after) := by
  have hold {note : AppCall × NameStage} (hnote : note ∈ before ++ rest ++ after) :
      note ∈ before ++ (t, .complete) :: after := by
    simp only [List.mem_append, List.mem_cons] at hnote ⊢
    rcases hnote with (hnote | hnote) | hnote
    · exact Or.inl hnote
    · exact Or.inr (Or.inl (hrest note hnote))
    · exact Or.inr (Or.inr hnote)
  have hnew {note : AppCall × NameStage} (hnote : note ∈ before ++ (t, .complete) :: after) :
      note.2 = .complete ∨ note ∈ before ++ rest ++ after := by
    simp only [List.mem_append, List.mem_cons] at hnote ⊢
    rcases hnote with hnote | rfl | hnote
    · exact Or.inr (Or.inl (Or.inl hnote))
    · exact Or.inl rfl
    · exact Or.inr (Or.inr hnote)
  constructor
  · obtain ⟨hbefore, hafter, hbetween⟩ := List.pairwise_append.mp h.separate
    obtain ⟨hhead, hafter⟩ := List.pairwise_cons.mp hafter
    rw [List.append_assoc]
    refine List.pairwise_append.mpr ⟨hbefore, List.pairwise_append.mpr ⟨?_, hafter, ?_⟩, ?_⟩
    · refine List.pairwise_of_forall_mem_list fun a ha b hb => Or.inl ?_
      rw [hrest a ha, hrest b hb]
      exact ⟨rfl, rfl⟩
    · exact fun a ha b hb => hrest a ha ▸ hhead b hb
    · intro a ha b hb
      rcases List.mem_append.mp hb with hb | hb
      · exact hrest b hb ▸ hbetween a ha _ List.mem_cons_self
      · exact hbetween a ha b (List.mem_cons_of_mem _ hb)
  · exact fun note hnote x hx => (h.expects note (hold hnote) x hx).congr (hstored x) fun k _ => hindex k
  · exact fun note hnote y hy name hname x hx =>
      h.foreign note (hold hnote) y hy name hname x ((hstored x).symm.trans hx)
  · intro x name hname hcomplete
    obtain ⟨k, rfl, hk⟩ := h.accounts x name ((hstored x).symm.trans hname) fun note hnote hx =>
      (hnew hnote).elim id fun hnote => hcomplete note hnote hx
    exact ⟨k, rfl, (hindex k).trans hk⟩
  · intro k v hv hcomplete
    obtain ⟨x, rfl, hx⟩ := h.entries k v ((hindex k).symm.trans hv) fun note hnote hk =>
      (hnew hnote).elim id fun hnote => hcomplete note hnote hk
    exact ⟨x, rfl, (hstored x).trans hx⟩

/-- An operation that starts fresh and shares nothing with the others keeps order. -/
theorem start (h : Orderly db notes) (ht : t.account = some uid) (hstored : storedUsername db uid = t.gives)
    (havailable : ∀ name ∈ t.takes, Available db name) (hnot : ∀ note ∈ notes, ¬ t.Shares note.1) :
    Orderly db (notes ++ [(t, t.begins)]) := by
  have hidle : ∀ note ∈ notes, note.1.account = some uid → note.2 = .complete := fun note hnote hx =>
    absurd (Or.inl ⟨uid, ht, hx⟩) (hnot note hnote)
  have hfree : ∀ k : Key, t.takes = some k.1 → db.get [Keys.usernames, k] = none := fun k hk =>
    (havailable k.1 hk).not_listed rfl []
  have hown : ∀ name, t.gives = some name → ∃ k : Key, k.1 = name ∧
      db.get [Keys.usernames, k] = some (.string uid.1) := fun name hname =>
    h.accounts uid name (hstored.trans hname) hidle
  have hgiven : ∀ k : Key, t.gives = some k.1 → db.get [Keys.usernames, k] = some (.string uid.1) := by
    intro k hk
    obtain ⟨l, hl, hlisted⟩ := hown k.1 hk
    exact Subtype.ext hl ▸ hlisted
  have hexpects : Expects t t.begins uid db := by
    refine ⟨hstored, fun k hk => ?_, fun k hk => ?_, fun name hgives htakes => ?_, fun name hname => ?_,
      fun name hname => (havailable name hname).1⟩
    · simp [AppCall.begins, hk, hgiven k hk]
    · simp [AppCall.begins, hk, hfree k hk]
    · obtain ⟨k, rfl, hlisted⟩ := hown name hgives
      rw [hfree k htakes] at hlisted
      contradiction
    · obtain ⟨k, rfl, -⟩ := hown name hname
      exact k.2
  have hforeign : ∀ name ∈ t.names, ∀ x, storedUsername db x = some name → x = uid := by
    intro name hname x hx
    by_cases hcomplete : ∀ note ∈ notes, note.1.account = some x → note.2 = .complete
    · obtain ⟨k, rfl, hlisted⟩ := h.accounts x name hx hcomplete
      rcases AppCall.mem_names.mp hname with hgives | htakes
      · rw [hgiven k hgives, Option.some.injEq, Value.string.injEq] at hlisted
        exact (Subtype.ext hlisted).symm
      · rw [hfree k htakes] at hlisted
        contradiction
    · push Not at hcomplete
      obtain ⟨note, hnote, hx', -⟩ := hcomplete
      have hshared := (h.expects note hnote x hx').mem_names hx
      exact absurd (Or.inr ⟨name, hname, hshared⟩) (hnot note hnote)
  constructor
  · refine List.pairwise_append.mpr ⟨h.separate, List.pairwise_singleton _ _, fun note hnote other hother => ?_⟩
    rw [List.mem_singleton.mp hother]
    exact Or.inr fun hshares => hnot note hnote hshares.symm
  · intro note hnote x hx
    rcases List.mem_append.mp hnote with hnote | hnote
    · exact h.expects note hnote x hx
    · obtain rfl := List.mem_singleton.mp hnote
      obtain rfl : uid = x := Option.some.inj (ht.symm.trans hx)
      exact hexpects
  · intro note hnote y hy
    rcases List.mem_append.mp hnote with hnote | hnote
    · exact h.foreign note hnote y hy
    · obtain rfl := List.mem_singleton.mp hnote
      obtain rfl : uid = y := Option.some.inj (ht.symm.trans hy)
      exact hforeign
  · exact fun x name hname hcomplete => h.accounts x name hname fun note hnote =>
      hcomplete note (List.mem_append_left _ hnote)
  · exact fun k v hv hcomplete => h.entries k v hv fun note hnote =>
      hcomplete note (List.mem_append_left _ hnote)

/-- A call that changes no account's name keeps order. -/
theorem start_other (h : Orderly db notes) (ht : t.account = none) :
    Orderly db (notes ++ [(t, .complete)]) := by
  constructor
  · refine List.pairwise_append.mpr ⟨h.separate, List.pairwise_singleton _ _, fun note _ other hother => ?_⟩
    rw [List.mem_singleton.mp hother]
    exact Or.inr fun hshares => AppCall.not_shares ht _ hshares.symm
  · intro note hnote x hx
    rcases List.mem_append.mp hnote with hnote | hnote
    · exact h.expects note hnote x hx
    · rw [List.mem_singleton.mp hnote, ht] at hx
      contradiction
  · intro note hnote y hy
    rcases List.mem_append.mp hnote with hnote | hnote
    · exact h.foreign note hnote y hy
    · rw [List.mem_singleton.mp hnote, ht] at hy
      contradiction
  · exact fun x name hname hcomplete => h.accounts x name hname fun note hnote =>
      hcomplete note (List.mem_append_left _ hnote)
  · exact fun k v hv hcomplete => h.entries k v hv fun note hnote =>
      hcomplete note (List.mem_append_left _ hnote)

end Orderly

/-! ### Schedules -/

/-- The notes of a schedule: how far each operation is. What is pending of a call that is complete, or
that changes no name, issues quiet writes only. -/
def entriesLedger : Ledger AppCall NameStage (ℕ → String) Value where
  fits t stage body :=
    (∃ uid program, t.account = some uid ∧ body = .run program ∧ Remains t uid stage program) ∨
      stage = .complete ∧ (Contract.issues Quiet).HoldsBody t body
  inv _ db notes := Orderly db notes

/-- One step of a body keeps order. -/
theorem Orderly.step {t : AppCall} {stage : NameStage} {body : Body (ℕ → String) Value}
    {rest : List (Body (ℕ → String) Value)} {db db' : Store Value} {mem mem' : ℕ → String}
    {before after : List (AppCall × NameStage)} (h : Orderly db (before ++ (t, stage) :: after))
    (hfits : entriesLedger.fits t stage body) (hstep : body.step db mem = some (db', mem', rest)) :
    ∃ stages, List.Forall₂ (entriesLedger.fits t) stages rest ∧
      Orderly db' (before ++ stages.map (t, ·) ++ after) := by
  -- what is quiet stays quiet, and leaves the names
  have hquiet (hbody : (Contract.issues Quiet).HoldsBody t body) (hstage : stage = .complete) :
      ∃ stages, List.Forall₂ (entriesLedger.fits t) stages rest ∧
        Orderly db' (before ++ stages.map (t, ·) ++ after) := by
    subst hstage
    refine ⟨rest.map fun _ => .complete, ?_, ?_⟩
    · rw [List.forall₂_map_left_iff, List.forall₂_same]
      exact fun b hb => Or.inr ⟨rfl, hbody.rest trivial hstep b hb⟩
    · have hleaves : (∀ x, storedUsername db' x = storedUsername db x) ∧
          ∀ k, db'.get [Keys.usernames, k] = db.get [Keys.usernames, k] := by
        rcases Body.step_write hstep with ⟨rfl, -⟩ | ⟨w, next, rfl, rfl, -⟩
        · exact ⟨fun _ => rfl, fun _ => rfl⟩
        · have hw := Contract.permits_issues_iff.mp hbody.1
          exact ⟨hw.stored db, hw.index db⟩
      refine h.quiet hleaves.1 hleaves.2 fun note hnote => ?_
      obtain ⟨stage, hstage, rfl⟩ := List.mem_map.mp hnote
      obtain ⟨_, -, rfl⟩ := List.mem_map.mp hstage
      rfl
  rcases hfits with ⟨uid, program, ht, rfl, hremains⟩ | ⟨hstage, hbody⟩
  · have hexpects := h.expects (t, stage) (by simp) uid ht
    cases hremains with
    | @record _ w _ hstage hw hafter hnext =>
      simp only [Body.step, Option.some.injEq, Prod.mk.injEq] at hstep
      obtain ⟨rfl, rfl, rfl⟩ := hstep
      refine ⟨[_], .cons (Or.inl ⟨uid, _, ht, rfl, hnext⟩) .nil, ?_⟩
      have hindex (k : Key) : (w.apply db).get [Keys.usernames, k] = db.get [Keys.usernames, k] :=
        get_apply_of_apart (hw ▸ apart_of_ne (by decide) _ _) db
      rw [List.append_assoc]
      refine h.advance ht (fun hsame => ?_) (fun x hx => ?_) (fun k _ => hindex k)
        (hexpects.record (hafter db) hindex)
      · rw [hsame] at hstage
        contradiction
      · exact storedUsername_apply_of_ne db hw (Ne.symm hx)
    | @list _ k _ hstage hk hnext =>
      simp only [Body.step, Option.some.injEq, Prod.mk.injEq] at hstep
      obtain ⟨rfl, rfl, rfl⟩ := hstep
      refine ⟨[_], .cons (Or.inl ⟨uid, _, ht, rfl, hnext⟩) .nil, ?_⟩
      rw [List.append_assoc]
      refine h.advance ht (fun hsame => ?_) (fun x _ => ?_) (fun l hl => ?_) (hexpects.list hk)
      · rw [hsame] at hstage
        contradiction
      · exact storedUsername_apply_of_root db rfl (by decide) x
      · apply ChangesName.get_update_usernames
        rintro rfl
        exact hl (AppCall.mem_names.mpr (Or.inr hk))
    | @unlist _ k _ hstage hk hnext =>
      simp only [Body.step, Option.some.injEq, Prod.mk.injEq] at hstep
      obtain ⟨rfl, rfl, rfl⟩ := hstep
      refine ⟨[_], .cons (Or.inl ⟨uid, _, ht, rfl, hnext⟩) .nil, ?_⟩
      rw [List.append_assoc]
      refine h.advance ht (fun hsame => ?_) (fun x _ => ?_) (fun l hl => ?_) (hexpects.unlist hk)
      · rw [hsame] at hstage
        contradiction
      · exact storedUsername_apply_of_root db rfl (by decide) x
      · apply ChangesName.get_remove_usernames
        rintro rfl
        exact hl (AppCall.mem_names.mpr (Or.inl hk))
    | quiet hholds => exact hquiet hholds rfl
  · exact hquiet hbody hstage

/-- A write that an operation is about to make touches its own entries only. -/
theorem Orderly.touchesOwn {t : AppCall} {stage : NameStage} {w : Write Value}
    {next : Prog (ℕ → String) Value} {uid : Key} {db : Store Value} {notes : List (AppCall × NameStage)}
    (h : Orderly db notes) (hnote : (t, stage) ∈ notes) (ht : t.account = some uid)
    (hfits : entriesLedger.fits t stage (.run (.write w next))) : TouchesOwn uid db w := by
  have hexpects := h.expects _ hnote uid ht
  have hquiet (hbody : (Contract.issues Quiet).Holds t (.write w next)) : TouchesOwn uid db w :=
    (Contract.permits_issues_iff.mp hbody.1).own uid ht db (h.foreign _ hnote uid ht)
  rcases hfits with ⟨x, program, hx, hbody, hremains⟩ | ⟨-, hbody⟩
  · obtain rfl : uid = x := Option.some.inj (ht.symm.trans hx)
    obtain rfl := Body.run.inj hbody
    cases hremains with
    | record _ hw _ _ => exact touchesOwn_record hw db
    | @list _ k _ hstage hk _ =>
      refine touchesOwn_index (List.prefix_refl _) fun l v hv => Or.inl ?_
      have hfree : db.get [Keys.usernames, k] = none := (hexpects.taken _ hk).trans (by simp [hstage])
      have hne : l ≠ k := by
        rintro rfl
        rw [hfree] at hv
        contradiction
      exact (ChangesName.get_update_usernames hne db _).trans hv
    | @unlist _ k _ hstage hk _ =>
      refine touchesOwn_index (List.prefix_append _ [k]) fun l v hv => ?_
      have hown : db.get [Keys.usernames, k] = some (.string uid.1) :=
        (hexpects.given _ hk).trans (by simp [hstage])
      by_cases hsame : l = k
      · subst hsame
        refine Or.inr ⟨Option.some.inj (hv.symm.trans hown), ?_⟩
        rw [Write.apply, Store.get_remove, if_pos (List.prefix_refl _)]
      · exact Or.inl ((ChangesName.get_remove_usernames hsame db).trans hv)
    | quiet hholds => exact hquiet hholds
  · exact hquiet hbody

/-- Along every schedule of all clients in which each change of an account's name starts on the stored
name and with an available one, and while nothing pending shares its account or its names, every write
that such an operation is about to make touches its own entries only. When none of them is pending the
index lists exactly the names of the accounts. -/
theorem own_entries_only {start s : AppSys} {acts : List (Act AppCall)} (hpool : start.pool = [])
    (hstart : IndexAgrees start.db) (h : Sys.Run AppCall.code StartsFresh start acts s) :
    (∀ t w next, (t, .run (.write w next)) ∈ s.pool → ∀ uid ∈ t.account, TouchesOwn uid s.db w) ∧
      ((∀ task ∈ s.pool, task.1.account = none) → IndexAgrees s.db) := by
  obtain ⟨notes, hnotes, horderly⟩ : ∃ notes, entriesLedger.Matches notes s.pool ∧ Orderly s.db notes := by
    refine Ledger.run_ledger (A := entriesLedger) h ?_ ?_ ⟨[], by simp [Ledger.Matches, hpool], ?_⟩
    · rintro _ s t notes ⟨hstored, havailable, hnot⟩ hnotes hinv
      have horderly : Orderly s.db notes := hinv
      cases ht : t.account with
      | none =>
        refine ⟨.complete, Or.inr ⟨rfl, ?_⟩, horderly.start_other ht⟩
        apply AppCall.holds_of_leavesNames ht trivial
        exact fun w hw => Contract.permits_issues_iff.mpr (quiet_of_account ht hw)
      | some uid =>
        have hbegun := horderly.start ht (hstored uid ht) havailable fun note hnote => by
          obtain ⟨body, hbody, -⟩ := hnotes.exists_task hnote
          exact hnot _ hbody
        have hexpects := hbegun.expects (t, t.begins) (by simp) uid ht
        exact ⟨t.begins, Or.inl ⟨uid, _, ht, rfl, remains_code ht hexpects.legal⟩, hbegun⟩
    · intro _ s i t body before stage after db mem rest _ _ _ hfits hinv hstep
      have horderly : Orderly s.db (before ++ (t, stage) :: after) := hinv
      exact horderly.step hfits hstep
    · exact ⟨List.Pairwise.nil, by simp, by simp, fun x name hname _ => hstart.listed x name hname,
        fun k v hv _ => hstart.stored k v hv⟩
  refine ⟨fun t w next htask uid huid => ?_, fun hidle => ⟨fun x name hname => ?_, fun k v hv => ?_⟩⟩
  · obtain ⟨stage, hnote, hfits⟩ := hnotes.exists_note htask
    exact horderly.touchesOwn hnote huid hfits
  · refine horderly.accounts x name hname fun note hnote hx => ?_
    obtain ⟨body, hbody, -⟩ := hnotes.exists_task hnote
    rw [hidle _ hbody] at hx
    contradiction
  · refine horderly.entries k v hv fun note hnote hname => ?_
    obtain ⟨body, hbody, -⟩ := hnotes.exists_task hnote
    rw [AppCall.names_of_account (hidle _ hbody)] at hname
    contradiction

instance (t t' : AppCall) : Decidable (t.Shares t') := inferInstanceAs (Decidable (_ ∨ _))

instance (s : AppSys) (a : Act AppCall) : Decidable (StartsFresh s a) :=
  match a with
  | .spawn t => by
    dsimp only [StartsFresh, Available]
    infer_instance
  | .run _ => isTrue trivial

/-- Before the first registration nothing is listed. -/
theorem IndexAgrees.empty : IndexAgrees .empty where
  listed uid name hname := by
    rw [storedUsername_eq_some_iff, Store.get_empty] at hname
    contradiction
  stored k v hv := by
    rw [Store.get_empty] at hv
    contradiction

/-- One account is renamed while another one is registered: at the end the entry of the old name is
about to be removed, and the new account is about to be listed. -/
def renameDuringRegistration : List (Act AppCall) :=
  Act.spawn (AppCall.group (.registerUser Sample.uidA "Firebase" "a@b.c" "alice")) :: List.replicate 4 (.run 0) ++
  [Act.spawn (AppCall.group (.changeUsername Sample.uidA "alice" "carol")),
    .spawn (.group (.registerUser Sample.uidB "Firebase" "b@b.c" "bobby")), .run 0, .run 1, .run 0]

/-- A rename is under way while another account registers. -/
theorem own_entries_only_during : ∃ s : AppSys,
    (s.pool.map (fun task => task.1.account) = [some Sample.uidA, some Sample.uidB] ∧
      s.db.get [Keys.usernames, Sample.alice] = some (.string "uidA")) ∧
      (∀ t w next, (t, .run (.write w next)) ∈ s.pool → ∀ uid ∈ t.account, TouchesOwn uid s.db w) ∧
      ((∀ task ∈ s.pool, task.1.account = none) → IndexAgrees s.db) := by
  have hend : (((⟨.empty, fun _ => "", []⟩ : AppSys).checkedRuns AppCall.code StartsFresh
      renameDuringRegistration).map fun s => (s.pool.map fun task => task.1.account,
        s.db.get [Keys.usernames, Sample.alice])) =
      some ([some Sample.uidA, some Sample.uidB], some (.string "uidA")) := by
    decide +kernel
  obtain ⟨s, hs, hlast⟩ := Option.map_eq_some_iff.mp hend
  obtain ⟨hpool, hlisted⟩ := Prod.mk.inj hlast
  exact ⟨s, ⟨hpool, hlisted⟩, own_entries_only rfl .empty (Sys.run_of_checkedRuns hs)⟩

end GroceryListApp

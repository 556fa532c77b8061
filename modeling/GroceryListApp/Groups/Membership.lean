import GroceryListApp.Controller.GroupCallWrites
import GroceryListApp.Realtime.Issues

/-!
# Who is a member of a group

An account is a member of a group when its name is one of the keys of the members. While its
name is being changed the old and the new name both count, and so does the moment between the
removal of the one and the addition of the other. No call adds a member but a change of name,
which replaces the key it has read before; it brings back an account that has left, or brings
in another one, when that reading is out of date or the names are not its own.
-/

namespace GroceryListApp

open Realtime

/-- The names an account is changing, in a pending call. -/
def GroupCall.changing (uid : Key) : GroupCall → List String
  | .changeUsername uid' old new => if uid' = uid then [old, new] else []
  | _ => []

/-- The names of all accounts that a call is changing. -/
def GroupCall.changingNames : GroupCall → List String
  | .changeUsername _ old new => [old, new]
  | _ => []

/-- The names that stand for an account. -/
def names (s : GroupSys) (uid : Key) : List String :=
  (storedUsername s.db uid).toList ++ s.pool.flatMap fun task => task.1.changing uid

/-- The names that stand for any account. -/
def usedNames (s : GroupSys) : List String :=
  (s.db.children [Keys.users]).filterMap (storedUsername s.db) ++
    s.pool.flatMap fun task => task.1.changingNames

/-- The names that any group lists. -/
def memberNames (db : Store Value) : List String :=
  (db.children [Keys.groups]).flatMap fun g => (db.children (membersPath g)).map Subtype.val

/-- The account that a pending body is about to add to a group, under its new name. -/
def adding (g : Key) : GroupCall × Body (ℕ → String) Value → Option Key
  | (.changeUsername uid _ _, .run (.write (.update p [_]) _)) =>
      if p = membersPath g then some uid else none
  | _ => none

/-- An account is a member of a group. -/
def Member (s : GroupSys) (uid g : Key) : Prop :=
  (∃ k ∈ s.db.children (membersPath g), k.1 ∈ names s uid) ∨ ∃ task ∈ s.pool, adding g task = some uid

instance (s : GroupSys) (uid g : Key) : Decidable (Member s uid g) :=
  inferInstanceAs (Decidable (_ ∨ _))

/-! ### The schedules -/

/-- The calls are leaves, changes of names and deletions of accounts. -/
def MembershipCall : GroupCall → Prop
  | .removeUserFromGroup .. | .changeUsername .. | .deleteAccount .. => True
  | _ => False

instance : DecidablePred MembershipCall := fun t => by
  unfold MembershipCall
  split <;> infer_instance

/-- Only calls that concern members are issued. -/
def MembershipCalls (_ : List (GroupCall × Event Value)) (_ : GroupSys) : Act GroupCall → Prop
  | .spawn t => MembershipCall t
  | .run _ => True

/-- A name is one of the account's own, or nobody's. -/
def OwnOrFree (s : GroupSys) (uid : Key) (name : String) : Prop :=
  name ∈ names s uid ∨ name ∉ usedNames s ∧ name ∉ memberNames s.db

/-- What a removal finds: a member that a change of name replaces is still there, the name of an
account is not being changed, and no account is about to be added to a group. -/
def RemovesInOrder (s : GroupSys) (t : GroupCall) : Path → Prop
  | [a, g, b, k] => t.changingNames ≠ [] → a = Keys.groups → b = Keys.members →
      k ∈ s.db.children (membersPath g)
  | [a, x] => (a = Keys.users → ∀ task ∈ s.pool, task.1.changing x = []) ∧
      (a = Keys.groups → ∀ task ∈ s.pool, adding x task = none)
  | _ => True

/-- Names are changed between own and free names, and removals find what they are meant for. -/
def ChangesInOrder (s : GroupSys) : Act GroupCall → Prop
  | .spawn (.changeUsername uid old new) =>
      LegalKey new ∧ OwnOrFree s uid old ∧ OwnOrFree s uid new
  | .spawn _ => True
  | .run i =>
    match s.pool[i]? with
    | some (t, .run (.write (.remove p) _)) => RemovesInOrder s t p
    | _ => True

/-- A step of calls that concern members, in order. -/
def MembershipStep (past : List (GroupCall × Event Value)) (s : GroupSys) (a : Act GroupCall) : Prop :=
  MembershipCalls past s a ∧ ChangesInOrder s a

instance (past : List (GroupCall × Event Value)) (s : GroupSys) (a : Act GroupCall) :
    Decidable (MembershipCalls past s a) :=
  match a with
  | .spawn t => inferInstanceAs (Decidable (MembershipCall t))
  | .run _ => isTrue trivial

instance (s : GroupSys) (uid : Key) (name : String) : Decidable (OwnOrFree s uid name) :=
  inferInstanceAs (Decidable (_ ∨ _))

instance (s : GroupSys) (t : GroupCall) (p : Path) : Decidable (RemovesInOrder s t p) := by
  match p with
  | [] => exact isTrue trivial
  | [a] => exact isTrue trivial
  | [a, x] => dsimp only [RemovesInOrder]; infer_instance
  | [a, x, c] => exact isTrue trivial
  | [a, g, b, k] => dsimp only [RemovesInOrder]; infer_instance
  | a :: b :: c :: d :: e :: rest => exact isTrue trivial

instance (s : GroupSys) (a : Act GroupCall) : Decidable (ChangesInOrder s a) := by
  match a with
  | .spawn t =>
    induction t using GroupCall.casesOn <;> dsimp only [ChangesInOrder] <;> infer_instance
  | .run i =>
    dsimp only [ChangesInOrder]
    generalize s.pool[i]? = task
    match task with
    | some (t, .run (.write (.remove p) _)) => infer_instance
    | none | some (t, .await ..) | some (t, .run .done) | some (t, .run .trap)
    | some (t, .run (.write (.update ..) _)) | some (t, .run (.observe ..))
    | some (t, .run (.inspect _)) | some (t, .run (.modify ..)) => exact isTrue trivial

instance (past : List (GroupCall × Event Value)) (s : GroupSys) (a : Act GroupCall) :
    Decidable (MembershipStep past s a) := inferInstanceAs (Decidable (_ ∧ _))

/-! ### The writes -/

/-- The writes of the calls that concern members, each after the write it directly follows. -/
inductive MemberWrite (t : GroupCall) : Option (Write Value) → Write Value → Prop
  | remove (previous : Option (Write Value)) (p : Path) : MemberWrite t previous (.remove p)
  | beside (previous : Option (Write Value)) {p : Path} {entries : List (Path × Store Value)}
      (hmembers : ∀ g, p ≠ membersPath g ∧
        ∀ q, ∀ entry ∈ entries, Apart (p ++ entry.1) (membersPath g ++ q))
      (husers : ∀ uid, ∀ entry ∈ entries, Apart (p ++ entry.1) [Keys.users, uid, Keys.username]) :
      MemberWrite t previous (.update p entries)
  | username (previous : Option (Write Value)) {uid : Key} {old new : String}
      (ht : t = .changeUsername uid old new) :
      MemberWrite t previous (.update [Keys.users, uid] [([Keys.username], str new)])
  | add {uid : Key} {old new : String} (ht : t = .changeUsername uid old new) (g : Key) {k l : Key}
      (hk : k.1 = old) (hl : l.1 = new) :
      MemberWrite t (some (.remove (membersPath g ++ [k])))
        (.update (membersPath g) [([l], str uid)])

namespace MemberWrite

variable {t : GroupCall}

/-- Only the addition of a member needs a write before it. -/
theorem lax (t : GroupCall) : Prog.Lax (MemberWrite t) := by
  intro previous w h
  cases h with
  | remove _ p => exact .remove previous p
  | beside _ hmembers husers => exact .beside previous hmembers husers
  | username _ ht => exact .username previous ht

/-- Below a group, what does not lie at or below its members is beside them. -/
theorem beside_group (t : GroupCall) (previous : Option (Write Value)) (g : Key) {key : Key}
    (hkey : key ≠ Keys.members) (rest : Path) {field : Key} (value : Store Value)
    (p : Path) (hp : p ++ [field] = Keys.groups :: g :: key :: rest) :
    MemberWrite t previous (.update p [([field], value)]) := by
  apply beside
  · intro g'
    constructor
    · rintro rfl
      have hlong : membersPath g' ++ [field] = Keys.groups :: g :: key :: rest := hp
      simp only [membersPath, List.cons_append, List.nil_append, List.cons.injEq] at hlong
      exact hkey hlong.2.2.1.symm
    · intro q entry hentry
      rw [List.mem_singleton.mp hentry, hp]
      exact apart_field _ _ _ hkey _ _
  · intro uid entry hentry
    rw [List.mem_singleton.mp hentry, hp]
    exact apart_of_ne (by decide) _ _

/-- The replacement of a member is a removal followed by an addition. -/
theorem issues_changeUsersInGroup {uid : Key} {old new : String} (hnew : LegalKey new) :
    (changeUsersInGroup old new uid : Prog (ℕ → String) Value).Issues
      (MemberWrite (.changeUsername uid old new)) none := by
  refine ⟨fun s => Prog.issues_forEach (lax _) fun group hgroup => ?_, trivial⟩
  rw [Snapshot.children_snapshot] at hgroup
  obtain ⟨g, -, rfl⟩ := List.mem_map.mp hgroup
  have href : (REF_GROUPS.child g.1).child "members" = some (membersPath g) := by
    simp [REF_GROUPS, Ref.child, membersPath]
  rw [href]
  refine ⟨fun s' => Prog.issues_forEach (lax _) fun member hmember => ?_, trivial⟩
  rw [Snapshot.children_snapshot] at hmember
  obtain ⟨k, -, rfl⟩ := List.mem_map.mp hmember
  split
  · next hname =>
    have hparse : parsePath new = some [⟨new, hnew⟩] := parsePath_key ⟨new, hnew⟩
    have hremove : (Ref.child (some (membersPath g)) old) = some (membersPath g ++ [k]) := by
      rw [← hname, Ref.child_key]
    simp only [Prog.block_cons, Prog.block_nil, hremove, Ref.removeValue, Ref.updateChildValues,
      Prog.force_some, List.mapM_cons, List.mapM_nil, hparse, Option.map_some, Option.pure_def,
      Option.bind_eq_bind, Option.bind_some, Prog.write_seq, Prog.done_seq, Prog.seq_done]
    exact ⟨.remove _ _, .add rfl g hname rfl, trivial⟩
  · trivial

/-- The writes that any pending call of these issues are of these kinds. -/
theorem issues_code (ht : MembershipCall t)
    (hnew : ∀ uid old new, t = .changeUsername uid old new → LegalKey new) :
    t.code.Issues (MemberWrite t) none := by
  have hcrash : (Contract.issues fun (_ : GroupCall) w =>
    ∀ previous, MemberWrite t previous w).crash := trivial
  have hpermits {w : Write Value} (hw : ∀ previous, MemberWrite t previous w) :
      (Contract.issues fun _ w => ∀ previous, MemberWrite t previous w).Permits t w :=
    Contract.permits_issues_iff.mpr hw
  have hissues {p : Prog (ℕ → String) Value}
      (hp : (Contract.issues fun _ w => ∀ previous, MemberWrite t previous w).Holds t p) :
      p.Issues (MemberWrite t) none := Prog.issues_of_holds (fun previous w hw => hw previous) hp none
  cases t <;> simp only [MembershipCall] at ht
  case removeUserFromGroup number g uid =>
    exact hissues (holds_removeUserFromGroup (fun _ _ => Or.inr hcrash)
      (fun _ _ _ _ _ => hpermits fun previous => .remove previous _) (hpermits fun previous => .remove previous _))
  case deleteAccount uid username =>
    apply Prog.issues_block (lax _)
    intro p hp
    simp only [List.mem_cons, List.not_mem_nil, or_false] at hp
    rcases hp with rfl | rfl | rfl
    · rw [deleteFromUsernames_eq]
      exact hissues (Contract.holds_force (fun _ => hcrash) fun name _ =>
        ⟨hpermits fun previous => .remove previous _, trivial⟩)
    · rw [deleteUserFromDatabase_eq]
      exact ⟨.remove _ _, trivial⟩
    · exact hissues (holds_deleteFromGroups fun _ _ _ _ _ _ => hpermits fun previous => .remove previous _)
  case changeUsername uid old new =>
    apply Prog.issues_block (lax _)
    intro p hp
    simp only [List.mem_cons, List.not_mem_nil, or_false] at hp
    rcases hp with rfl | rfl | rfl | rfl | rfl | rfl | rfl
    · rw [changeUsername_eq]
      exact ⟨.username _ rfl, trivial⟩
    · rw [addUsername_eq]
      refine hissues (Contract.holds_force (fun _ => hcrash) fun name _ =>
        ⟨hpermits fun previous => .beside previous (fun g => ⟨by simp [membersPath], ?_⟩) ?_, trivial⟩)
      · exact fun q entry _ => apart_of_ne (by decide) _ _
      · exact fun uid entry _ => apart_of_ne (by decide) _ _
    · rw [deleteFromUsernames_eq]
      exact hissues (Contract.holds_force (fun _ => hcrash) fun name _ =>
        ⟨hpermits fun previous => .remove previous _, trivial⟩)
    · exact hissues (holds_changeMaster (fun _ _ _ _ => Or.inr hcrash) fun _ g _ _ =>
        hpermits fun previous => beside_group _ previous g (by decide) [] _ [Keys.groups, g] rfl)
    · exact issues_changeUsersInGroup (hnew uid old new rfl)
    · exact hissues (holds_changeItemField Keys.markedOffBy (by simp)
        (fun _ _ _ _ _ => Or.inr hcrash) fun _ g k _ _ => hpermits fun previous =>
          beside_group _ previous g (by decide) _ _ [Keys.groups, g, Keys.groceryList, k] rfl)
    · exact hissues (holds_changeItemField Keys.addedBy (by simp)
        (fun _ _ _ _ _ => Or.inr hcrash) fun _ g k _ _ => hpermits fun previous =>
          beside_group _ previous g (by decide) _ _ [Keys.groups, g, Keys.groceryList, k] rfl)

/-- A write at the members of a group is the addition that follows the removal of the old name. -/
theorem of_members {previous : Option (Write Value)} {g : Key} {entries : List (Path × Store Value)}
    (h : MemberWrite t previous (.update (membersPath g) entries)) :
    ∃ (uid : Key) (old new : String) (k l : Key), t = .changeUsername uid old new ∧ k.1 = old ∧
      l.1 = new ∧ previous = some (.remove (membersPath g ++ [k])) ∧ entries = [([l], str uid)] := by
  generalize hp : membersPath g = p at h
  cases h with
  | beside _ hmembers _ => exact absurd hp.symm (hmembers g).1
  | username _ _ => exact absurd (congrArg List.length hp) (by simp [membersPath])
  | @add uid old new ht g' k l hk hl =>
    exact ⟨uid, old, new, k, l, ht, hk, hl, rfl, rfl⟩

/-- The username of an account is changed by its own change of name only. -/
theorem stored {previous : Option (Write Value)} {w : Write Value} (h : MemberWrite t previous w)
    {db : Store Value} {uid : Key} {name : String}
    (hname : storedUsername (w.apply db) uid = some name) :
    storedUsername db uid = some name ∨ ∃ old, t = .changeUsername uid old name := by
  rw [storedUsername_eq_some_iff] at hname ⊢
  cases h with
  | remove _ p => exact Or.inl ((Store.get_remove_eq_some_iff _ _ _ _).mp hname).2
  | beside _ _ husers =>
    rw [get_update_of_apart (husers uid)] at hname
    exact Or.inl hname
  | @username _ uid' old new ht =>
    by_cases hsame : uid' = uid
    · subst hsame
      have hnew := get_update_leaf [Keys.users, uid'] [Keys.username] (.string new) db
      have hvalue := Option.some.inj (hnew.symm.trans hname)
      rw [Value.string.injEq] at hvalue
      exact Or.inr ⟨old, hvalue ▸ ht⟩
    · rw [get_update_of_apart] at hname
      · exact Or.inl hname
      · intro entry hentry
        rw [List.mem_singleton.mp hentry]
        simpa using apart_of_ne hsame [Keys.username] [Keys.username]
  | add =>
    rw [get_apply_of_apart] at hname
    · exact Or.inl hname
    · exact apart_of_ne (by decide) _ _

/-- The members of a group are extended by the addition of a new name only. -/
theorem members {previous : Option (Write Value)} {w : Write Value} (h : MemberWrite t previous w)
    {db : Store Value} {g k : Key} (hk : k ∈ (w.apply db).children (membersPath g)) :
    k ∈ db.children (membersPath g) ∨ ∃ (uid : Key) (old : String),
      t = .changeUsername uid old k.1 ∧ w = .update (membersPath g) [([k], str uid)] := by
  obtain ⟨q, v, hv⟩ := (Store.mem_children _ _ _).mp hk
  have hkept (hbefore : db.get (membersPath g ++ k :: q) = some v) :
      k ∈ db.children (membersPath g) := (Store.mem_children _ _ _).mpr ⟨q, v, hbefore⟩
  cases h with
  | remove _ p => exact Or.inl (hkept ((Store.get_remove_eq_some_iff _ _ _ _).mp hv).2)
  | beside _ hmembers _ =>
    rw [get_update_of_apart ((hmembers g).2 _)] at hv
    exact Or.inl (hkept hv)
  | username =>
    rw [get_apply_of_apart] at hv
    · exact Or.inl (hkept hv)
    · exact apart_of_ne (by decide) _ _
  | @add uid old new ht g' k' l hold hnew =>
    by_cases hsame : g' = g ∧ l = k
    · obtain ⟨rfl, rfl⟩ := hsame
      exact Or.inr ⟨uid, old, hnew ▸ ht, rfl⟩
    · rw [get_update_of_apart] at hv
      · exact Or.inl (hkept hv)
      · intro entry hentry
        rw [List.mem_singleton.mp hentry]
        by_cases hgroup : g' = g
        · subst hgroup
          have hkey : l ≠ k := fun hkey => hsame ⟨rfl, hkey⟩
          simpa [membersPath] using apart_of_ne hkey [] q
        · simpa [membersPath] using apart_of_ne hgroup [Keys.members, l] (Keys.members :: k :: q)

end MemberWrite

/-! ### Steps -/

/-- What a body is about to add. -/
theorem adding_eq_some_iff (g uid : Key) (t : GroupCall) (body : Body (ℕ → String) Value) :
    adding g (t, body) = some uid ↔ ∃ old new entry next, t = .changeUsername uid old new ∧
      body = .run (.write (.update (membersPath g) [entry]) next) := by
  constructor
  · intro h
    unfold adding at h
    split at h
    · next uid' old new p entry next heq =>
      obtain ⟨rfl, rfl⟩ := Prod.mk.inj heq
      split at h
      · next hp =>
        rw [Option.some.injEq] at h
        exact ⟨old, new, entry, next, by rw [h], by rw [hp]⟩
      · contradiction
    · contradiction
  · rintro ⟨old, new, entry, next, rfl, rfl⟩
    simp [adding]

/-- A call changes the two names of its change. -/
theorem mem_changing {t : GroupCall} {uid : Key} {name : String} : name ∈ t.changing uid ↔
    ∃ old new, t = .changeUsername uid old new ∧ (name = old ∨ name = new) := by
  cases t <;> simp only [GroupCall.changing, List.not_mem_nil, reduceCtorEq, false_and, exists_false]
  case changeUsername uid' old new =>
    by_cases hsame : uid' = uid <;> simp [hsame]

/-- The names that stand for an account are the stored one and those that it is changing. -/
theorem mem_names {s : GroupSys} {uid : Key} {name : String} : name ∈ names s uid ↔
    storedUsername s.db uid = some name ∨ ∃ task ∈ s.pool, name ∈ task.1.changing uid := by
  simp [names]

/-- A name that stands for an account is used. -/
theorem mem_usedNames {s : GroupSys} {uid : Key} {name : String} (h : name ∈ names s uid) :
    name ∈ usedNames s := by
  rw [usedNames, List.mem_append, List.mem_filterMap, List.mem_flatMap]
  rcases mem_names.mp h with hstored | ⟨task, htask, hname⟩
  · refine Or.inl ⟨uid, ?_, hstored⟩
    exact (Store.mem_children _ _ _).mpr ⟨_, _, (storedUsername_eq_some_iff _ _ _).mp hstored⟩
  · refine Or.inr ⟨task, htask, ?_⟩
    obtain ⟨old, new, ht, hname⟩ := mem_changing.mp hname
    simpa [ht, GroupCall.changingNames] using hname

/-- A name that a group lists is a member. -/
theorem mem_memberNames {db : Store Value} {g k : Key} (hk : k ∈ db.children (membersPath g)) :
    k.1 ∈ memberNames db := by
  obtain ⟨q, v, hv⟩ := (Store.mem_children _ _ _).mp hk
  exact List.mem_flatMap.mpr ⟨g, (Store.mem_children _ _ _).mpr ⟨Keys.members :: k :: q, v, hv⟩,
    List.mem_map_of_mem hk⟩

/-- The names of different accounts differ, and pending bodies issue the writes of their calls. -/
structure MemberInv (s : GroupSys) : Prop where
  distinct : ∀ uid uid' name, name ∈ names s uid → name ∈ names s uid' → uid = uid'
  issues : ∀ task ∈ s.pool, task.2.Issues (MemberWrite task.1)

namespace MemberInv

variable {past : List (GroupCall × Event Value)} {s s' : GroupSys}

/-- Issuing a call keeps the invariant and makes no account a member. -/
theorem spawn {t : GroupCall} (h : MemberInv s) (ha : MembershipStep past s (.spawn t))
    (hs' : s' = { s with pool := s.pool ++ [(t, .run t.code)] }) :
    MemberInv s' ∧ ∀ uid g, Member s' uid g → Member s uid g := by
  obtain ⟨hcall, horder⟩ := ha
  have hlegal : ∀ uid old new, t = .changeUsername uid old new → LegalKey new := by
    rintro uid old new rfl
    exact horder.1
  have hissues := MemberWrite.issues_code hcall hlegal
  have hnames {uid : Key} {name : String} (hname : name ∈ names s' uid) :
      name ∈ names s uid ∨ name ∈ t.changing uid ∧ name ∉ usedNames s ∧ name ∉ memberNames s.db := by
    have hsplit : name ∈ names s uid ∨ name ∈ t.changing uid := by
      subst hs'
      simp only [mem_names, List.mem_append, List.mem_singleton] at hname ⊢
      rcases hname with hstored | ⟨task, htask | rfl, hname⟩
      · exact Or.inl (Or.inl hstored)
      · exact Or.inl (Or.inr ⟨task, htask, hname⟩)
      · exact Or.inr hname
    rcases hsplit with hold | hnew
    · exact Or.inl hold
    · obtain ⟨old, new, rfl, hname⟩ := mem_changing.mp hnew
      have hown : OwnOrFree s uid name := by
        rcases hname with rfl | rfl
        · exact horder.2.1
        · exact horder.2.2
      exact hown.imp id fun hfree => ⟨hnew, hfree⟩
  have hmembers (uid g : Key) (hmember : Member s' uid g) : Member s uid g := by
    rcases hmember with ⟨k, hk, hname⟩ | ⟨task, htask, hadding⟩
    · have hk : k ∈ s.db.children (membersPath g) := by rwa [hs'] at hk
      rcases hnames hname with hown | ⟨-, -, hfree⟩
      · exact Or.inl ⟨k, hk, hown⟩
      · exact absurd (mem_memberNames hk) hfree
    · rw [hs', List.mem_append, List.mem_singleton] at htask
      rcases htask with htask | rfl
      · exact Or.inr ⟨task, htask, hadding⟩
      · obtain ⟨old, new, entry, next, -, hbody⟩ := (adding_eq_some_iff _ _ _ _).mp hadding
        rw [Body.run.inj hbody] at hissues
        obtain ⟨_, _, _, _, _, _, _, _, hprevious, _⟩ := MemberWrite.of_members hissues.1
        contradiction
  refine ⟨⟨?_, ?_⟩, hmembers⟩
  · intro uid uid' name hname hname'
    rcases hnames hname with hown | ⟨hnew, hfree, -⟩ <;>
      rcases hnames hname' with hown' | ⟨hnew', hfree', -⟩
    · exact h.distinct uid uid' name hown hown'
    · exact absurd (mem_usedNames hown) hfree'
    · exact absurd (mem_usedNames hown') hfree
    · obtain ⟨old, new, ht, -⟩ := mem_changing.mp hnew
      obtain ⟨old', new', ht', -⟩ := mem_changing.mp hnew'
      exact (GroupCall.changeUsername.inj (ht.symm.trans ht')).1
  · intro task htask
    rw [hs', List.mem_append, List.mem_singleton] at htask
    rcases htask with htask | rfl
    · exact h.issues task htask
    · exact ⟨none, hissues⟩

/-- Running a pending body keeps the invariant and makes no account a member. -/
theorem run {i : ℕ} (h : MemberInv s) (ha : MembershipStep past s (.run i))
    (hstep : s.step GroupCall.code (.run i) = some s') :
    MemberInv s' ∧ ∀ uid g, Member s' uid g → Member s uid g := by
  obtain ⟨-, horder⟩ := ha
  obtain ⟨before, t, body, after, db, mem, rest, hsplit, hget, hbody, rfl⟩ :=
    Sys.step_run_eq_some hstep
  have htask : (t, body) ∈ s.pool := List.mem_of_getElem? hget
  have hissues := h.issues _ htask
  have hpool {task : GroupCall × Body (ℕ → String) Value}
      (htask : task ∈ before ++ rest.map (t, ·) ++ after) :
      task ∈ s.pool ∨ ∃ b ∈ rest, task = (t, b) := hsplit ▸ Sys.mem_rest htask body
  have hdb : db = s.db ∨ ∃ previous w next, body = .run (.write w next) ∧ db = w.apply s.db ∧
      MemberWrite t previous w := by
    cases body with
    | await p callback =>
      simp only [Body.step, Option.some.injEq, Prod.mk.injEq] at hbody
      exact Or.inl hbody.1.symm
    | run program =>
      obtain ⟨previous, hprogram⟩ := hissues
      cases program <;>
        simp only [Body.step, Option.some.injEq, Prod.mk.injEq, reduceCtorEq] at hbody
      case write w next => exact Or.inr ⟨previous, w, next, rfl, hbody.1.symm, hprogram.1⟩
      all_goals exact Or.inl hbody.1.symm
  have hown {uid : Key} {old new : String} (ht : t = .changeUsername uid old new) :
      old ∈ names s uid ∧ new ∈ names s uid :=
    ⟨mem_names.mpr (Or.inr ⟨_, htask, mem_changing.mpr ⟨old, new, ht, Or.inl rfl⟩⟩),
      mem_names.mpr (Or.inr ⟨_, htask, mem_changing.mpr ⟨old, new, ht, Or.inr rfl⟩⟩)⟩
  have hnames {uid : Key} {name : String}
      (hname : name ∈ names ⟨db, mem, before ++ rest.map (t, ·) ++ after⟩ uid) : name ∈ names s uid := by
    rcases mem_names.mp hname with hstored | ⟨task, hpending, hname⟩
    · rcases hdb with rfl | ⟨previous, w, next, rfl, rfl, hw⟩
      · exact mem_names.mpr (Or.inl hstored)
      · rcases hw.stored hstored with hbefore | ⟨old, ht⟩
        · exact mem_names.mpr (Or.inl hbefore)
        · exact (hown ht).2
    · rcases hpool hpending with hbefore | ⟨b, -, rfl⟩
      · exact mem_names.mpr (Or.inr ⟨task, hbefore, hname⟩)
      · exact mem_names.mpr (Or.inr ⟨_, htask, hname⟩)
  refine ⟨⟨?_, ?_⟩, ?_⟩
  · intro uid uid' name hname hname'
    exact h.distinct uid uid' name (hnames hname) (hnames hname')
  · intro task hpending
    rcases hpool hpending with hbefore | ⟨b, hb, rfl⟩
    · exact h.issues task hbefore
    · exact (hissues.step hbody b hb).1
  · intro uid g hmember
    rcases hmember with ⟨k, hk, hname⟩ | ⟨task, hpending, hadding⟩
    · rcases hdb with rfl | ⟨previous, w, next, rfl, rfl, hw⟩
      · exact Or.inl ⟨k, hk, hnames hname⟩
      · rcases hw.members hk with hbefore | ⟨uid', old, ht, rfl⟩
        · exact Or.inl ⟨k, hbefore, hnames hname⟩
        · have hsame : uid = uid' := h.distinct uid uid' k.1 (hnames hname) (hown ht).2
          exact Or.inr ⟨_, htask, (adding_eq_some_iff _ _ _ _).mpr ⟨old, k.1, _, next, hsame ▸ ht, rfl⟩⟩
    · rcases hpool hpending with hbefore | ⟨b, hb, rfl⟩
      · exact Or.inr ⟨task, hbefore, hadding⟩
      · obtain ⟨old, new, entry, next, ht, rfl⟩ := (adding_eq_some_iff _ _ _ _).mp hadding
        rcases (hissues.step hbody _ hb).2 _ _ rfl with hw | ⟨u, rfl, hw⟩
        · obtain ⟨_, _, _, _, _, _, _, _, hprevious, _⟩ := hw.of_members
          contradiction
        · obtain ⟨uid', old', new', k, l, ht', hk, -, hprevious, -⟩ := hw.of_members
          obtain ⟨rfl, rfl, rfl⟩ := GroupCall.changeUsername.inj (ht.symm.trans ht')
          rw [Option.some.injEq] at hprevious
          subst hprevious
          simp only [ChangesInOrder, hget] at horder
          have hthere : k ∈ s.db.children (membersPath g) := by
            refine horder ?_ rfl rfl
            simp [ht, GroupCall.changingNames]
          exact Or.inl ⟨k, hthere, hk ▸ (hown ht).1⟩

/-- Every step keeps the invariant and makes no account a member. -/
theorem step {a : Act GroupCall} (h : MemberInv s) (ha : MembershipStep past s a)
    (hstep : s.step GroupCall.code a = some s') :
    MemberInv s' ∧ ∀ uid g, Member s' uid g → Member s uid g := by
  cases a with
  | spawn t => exact h.spawn ha (Option.some.inj hstep).symm
  | run i => exact h.run ha hstep

/-- The account that is removed is a member of no group, and the group that is removed has no
member. -/
theorem removed {a : Act GroupCall} (h : MemberInv s) (ha : MembershipStep past s a)
    (hstep : s.step GroupCall.code a = some s') {t : GroupCall} {root x : Key}
    (hevent : s.event a = some (t, .wrote (.remove [root, x]))) :
    (root = Keys.users → ∀ g, ¬ Member s' x g) ∧ (root = Keys.groups → ∀ uid, ¬ Member s' uid x) := by
  obtain ⟨-, horder⟩ := ha
  obtain ⟨i, next, rfl, hget⟩ := Sys.event_eq_wrote hevent
  obtain ⟨before, t', body, after, db, mem, rest, hsplit, hget', hbody, rfl⟩ :=
    Sys.step_run_eq_some hstep
  rw [hget, Option.some.injEq, Prod.mk.injEq] at hget'
  obtain ⟨rfl, rfl⟩ := hget'
  simp only [ChangesInOrder, hget] at horder
  simp only [Body.step, Option.some.injEq, Prod.mk.injEq] at hbody
  obtain ⟨rfl, rfl, rfl⟩ := hbody
  have hpool {task : GroupCall × Body (ℕ → String) Value}
      (htask : task ∈ before ++ [Body.run next].map (t, ·) ++ after) :
      task ∈ s.pool ∨ task = (t, .run next) := by
    rcases Sys.mem_rest htask (.run (.write (.remove [root, x]) next)) with hold | ⟨b, hb, rfl⟩
    · exact Or.inl (hsplit ▸ hold)
    · exact Or.inr (by rw [List.mem_singleton.mp hb])
  have htask := List.mem_of_getElem? hget
  constructor
  · rintro rfl g hmember
    have hchanging {task : GroupCall × Body (ℕ → String) Value}
        (hpending : task ∈ before ++ [Body.run next].map (t, ·) ++ after) :
        task.1.changing x = [] := by
      rcases hpool hpending with hold | rfl
      · exact horder.1 rfl task hold
      · have hself := horder.1 rfl _ htask
        exact hself
    rcases hmember with ⟨k, -, hname⟩ | ⟨task, hpending, hadding⟩
    · rcases mem_names.mp hname with hstored | ⟨task, hpending, hname⟩
      · rw [storedUsername_eq_some_iff] at hstored
        exact ((Store.get_remove_eq_some_iff _ _ _ _).mp hstored).1 ⟨[Keys.username], rfl⟩
      · rw [hchanging hpending] at hname
        exact absurd hname List.not_mem_nil
    · obtain ⟨old, new, entry, following, hcall, -⟩ := (adding_eq_some_iff g x task.1 task.2).mp hadding
      have hmem := mem_changing.mpr ⟨old, new, hcall, Or.inl rfl⟩
      rw [hchanging hpending] at hmem
      exact absurd hmem List.not_mem_nil
  · rintro rfl uid hmember
    rcases hmember with ⟨k, hk, -⟩ | ⟨task, hpending, hadding⟩
    · obtain ⟨q, v, hv⟩ := (Store.mem_children _ _ _).mp hk
      exact ((Store.get_remove_eq_some_iff _ _ _ _).mp hv).1 ⟨Keys.members :: k :: q, rfl⟩
    · rcases hpool hpending with hold | rfl
      · have hnone := horder.2 rfl task hold
        rw [hadding] at hnone
        contradiction
      · obtain ⟨old, new, entry, following, -, hnext⟩ := (adding_eq_some_iff _ _ _ _).mp hadding
        cases Body.run.inj hnext
        obtain ⟨previous, -, hw, -⟩ := h.issues _ htask
        obtain ⟨_, _, _, _, _, _, _, _, hprevious, _⟩ := hw.of_members
        exact absurd (congrArg (fun w => w.map (·.location.length)) hprevious)
          (by simp [Write.location, membersPath])

/-- The invariant holds along every story. -/
theorem of_story {start : GroupSys} (h : Sys.Story GroupCall.code MembershipStep start past s)
    (hstart : MemberInv start) : MemberInv s := by
  induction h with
  | nil => exact hstart
  | snoc _ ha hstep ih => exact (ih.step ha hstep).1

end MemberInv

/-- Along every schedule of leaves, changes of names and deletions of accounts in which names are
changed between own and free names and removals find what they are meant for, no account becomes a
member of a group, a removed account is a member of no group, and a removed group has no member. -/
theorem membership_shrinks {start mid s : GroupSys} {past later : List (GroupCall × Event Value)}
    (hpool : start.pool = []) (hdistinct : DistinctNames start.db)
    (h : Sys.Story GroupCall.code MembershipStep start past mid)
    (h' : Sys.Story GroupCall.code MembershipStep mid later s) :
    (∀ uid g, Member s uid g → Member mid uid g) ∧
    (∀ t uid g, (t, .wrote (.remove [Keys.users, uid])) ∈ later → ¬ Member s uid g) ∧
    ∀ t uid g, (t, .wrote (.remove [Keys.groups, g])) ∈ later → ¬ Member s uid g := by
  have hstart : MemberInv start := by
    refine ⟨fun uid uid' name hname hname' => ?_, by simp [hpool]⟩
    simp only [mem_names, hpool, List.not_mem_nil, false_and, exists_false, or_false] at hname hname'
    exact hdistinct uid uid' name hname hname'
  have hmid : MemberInv mid := .of_story h hstart
  induction h' with
  | nil => exact ⟨fun _ _ hmember => hmember, by simp, by simp⟩
  | @snoc later s s' a hbefore ha hstep ih =>
    have hinv := hmid.of_story hbefore
    obtain ⟨hshrinks, haccounts, hgroups⟩ := ih
    have hnext := (hinv.step ha hstep).2
    refine ⟨fun uid g hmember => hshrinks uid g (hnext uid g hmember), ?_, ?_⟩
    · intro t uid g hremoved hmember
      rcases List.mem_append.mp hremoved with hremoved | hremoved
      · exact haccounts t uid g hremoved (hnext uid g hmember)
      · exact (hinv.removed ha hstep (Option.mem_toList.mp hremoved)).1 rfl g hmember
    · intro t uid g hremoved hmember
      rcases List.mem_append.mp hremoved with hremoved | hremoved
      · exact hgroups t uid g hremoved (hnext uid g hmember)
      · exact (hinv.removed ha hstep (Option.mem_toList.mp hremoved)).2 rfl uid hmember

/-- The name of one of two members is being changed, and the other one is leaving the group. -/
def renameBesideLeave : List (Act GroupCall) :=
  [Act.spawn (GroupCall.changeUsername Sample.uidA "alice" "carol"),
    Act.spawn (GroupCall.removeUserFromGroup 0 Sample.home Sample.uidB)] ++
    [0, 1, 0, 1, 0, 1, 1, 0, 2, 3].map Act.run

/-- Before either is through, the account of the one who leaves is deleted as well. -/
def deletionBetween : List (Act GroupCall) :=
  Act.spawn (GroupCall.deleteAccount Sample.uidB "bobby") ::
    [0, 1, 2, 3, 4, 5, 0, 0, 0, 2, 2, 4, 5, 1, 2, 4, 5, 0, 1, 6, 5, 1, 5, 0, 5, 3, 5, 2, 3, 5, 5, 0, 2, 3, 1,
      0, 0].map Act.run

/-- Only the account under the new name is a member after that, and it was one before. -/
theorem membership_shrinks_carol : ∃ past mid later s,
    (⟨sharedByTwo, fun _ => "", []⟩ : GroupSys).story GroupCall.code
      (fun past s a => decide (MembershipStep past s a)) [] renameBesideLeave = some (past, mid) ∧
    mid.story GroupCall.code (fun past s a => decide (MembershipStep past s a)) [] deletionBetween =
      some (later, s) ∧
    s.db.children (membersPath Sample.home) = [Sample.carol] ∧
    ∀ uid g, Member s uid g → Member mid uid g := by
  have hlast : ((⟨sharedByTwo, fun _ => "", []⟩ : GroupSys).story GroupCall.code
      (fun past s a => decide (MembershipStep past s a)) [] renameBesideLeave).bind (fun mid =>
        (mid.2.story GroupCall.code (fun past s a => decide (MembershipStep past s a)) []
          deletionBetween).map fun last => last.2.db.children (membersPath Sample.home)) =
      some [Sample.carol] := by
    decide +kernel
  obtain ⟨⟨past, mid⟩, hmid, hrest⟩ := Option.bind_eq_some_iff.mp hlast
  obtain ⟨⟨later, s⟩, hstory, hmembers⟩ := Option.map_eq_some_iff.mp hrest
  exact ⟨past, mid, later, s, hmid, hstory, hmembers, (membership_shrinks rfl distinctNames_sharedByTwo
    (Sys.story_of_decide hmid) (Sys.story_of_decide hstory)).1⟩

/-- An account leaves under its former name, while its change of username is going through the members. -/
def leaveDuringRename : List (Act GroupCall) :=
  Act.spawn (GroupCall.removeUserFromGroup 0 Sample.home Sample.uidA) :: ([0, 0, 0, 0, 1, 1, 1].map Act.run ++
    Act.spawn (GroupCall.changeUsername Sample.uidA "alice" "carol") ::
      [1, 1, 1, 1, 1, 2, 2, 3, 0, 0, 0, 0, 0].map Act.run)

/-- A member that leaves while its name is being changed is brought back. -/
theorem not_membership_shrinks : ¬ ∀ (past later : List (GroupCall × Event Value)) (mid s : GroupSys),
    Sys.Story GroupCall.code MembershipCalls ⟨sharedByTwo, fun _ => "", []⟩ past mid →
    Sys.Story GroupCall.code MembershipCalls mid later s →
    ∀ uid g, Member s uid g → Member mid uid g := by
  intro hclaim
  have hmid : ((⟨sharedByTwo, fun _ => "", []⟩ : GroupSys).story GroupCall.code
      (fun past s a => decide (MembershipCalls past s a)) [] leaveDuringRename).map
        (fun mid => (decide (Member mid.2 Sample.uidA Sample.home),
          (mid.2.story GroupCall.code (fun past s a => decide (MembershipCalls past s a)) []
            [.run 2, .run 2]).map fun last => decide (Member last.2 Sample.uidA Sample.home))) =
      some (false, some true) := by
    decide +kernel
  obtain ⟨⟨past, mid⟩, hmid, hrest⟩ := Option.map_eq_some_iff.mp hmid
  obtain ⟨hbefore, hlast⟩ := Prod.mk.inj hrest
  obtain ⟨⟨later, s⟩, hlast, hafter⟩ := Option.map_eq_some_iff.mp hlast
  exact of_decide_eq_false hbefore (hclaim past later mid s (Sys.story_of_decide hmid)
    (Sys.story_of_decide hlast) Sample.uidA Sample.home (of_decide_eq_true hafter))

end GroceryListApp

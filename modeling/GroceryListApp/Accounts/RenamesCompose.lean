import GroceryListApp.Accounts.RenameSteps

/-!
# Concurrent renames compose

A rename has a few places to change: the account's own name, its entry in the list of
usernames, and in each group the master, the member and the fields of items. Everywhere else
the renamed form of the database is the database. For each of these places the rename brings
about its renamed content. The one difficulty is a new member, who is added after the old one
was removed: in between the group has neither, but then the addition is pending.
-/

namespace GroceryListApp

open Realtime

variable {db : Store Value} {rs : List Rename} {r : Rename}

/-- The places a rename changes. -/
inductive Rename.Place (db : Store Value) (r : Rename) : Path → Prop
  | username : Place db r [Keys.users, r.uid, Keys.username]
  | listed : Place db r [Keys.usernames, r.new]
  | unlisted : Place db r [Keys.usernames, r.old]
  | master (g : Key) (h : db.get [Keys.groups, g, Keys.master] = some (.string r.old.1)) :
      Place db r [Keys.groups, g, Keys.master]
  | removed (g : Key) : Place db r [Keys.groups, g, Keys.members, r.old]
  | added (g : Key) {v : Value} (h : db.get [Keys.groups, g, Keys.members, r.old] = some v) :
      Place db r [Keys.groups, g, Keys.members, r.new]
  | item (g i : Key) {key : Key} (hkey : key = Keys.addedBy ∨ key = Keys.markedOffBy)
      (h : db.get [Keys.groups, g, Keys.groceryList, i, key] = some (.string r.old.1)) :
      Place db r [Keys.groups, g, Keys.groceryList, i, key]

/-- A location is below a username, or replacing usernames does not move it. -/
theorem onNames_cases (p : Path) : (∃ k rest, p = Keys.usernames :: k :: rest) ∨
    (∃ g k rest, p = Keys.groups :: g :: Keys.members :: k :: rest) ∨
    (∀ f, onNames f p = p) ∧ ∀ change, memberAt change p = none := by
  match p with
  | [] => exact Or.inr (Or.inr ⟨fun _ => rfl, fun _ => rfl⟩)
  | [a] => exact Or.inr (Or.inr ⟨fun _ => rfl, fun _ => rfl⟩)
  | a :: k :: rest =>
    by_cases ha : a = Keys.usernames
    · exact Or.inl ⟨k, rest, by rw [ha]⟩
    · right
      match rest with
      | [] => exact Or.inr ⟨fun f => by simp [onNames, onNames.onMembers, ha], fun _ => rfl⟩
      | [b] => exact Or.inr ⟨fun f => by simp [onNames, onNames.onMembers, ha], fun _ => rfl⟩
      | b :: m :: rest =>
        by_cases hg : a = Keys.groups ∧ b = Keys.members
        · exact Or.inl ⟨k, m, rest, by rw [hg.1, hg.2]⟩
        · refine Or.inr ⟨fun f => ?_, fun change => ?_⟩
          · simp only [onNames, onNames.onMembers, if_neg ha]
            split_ifs with h₁ h₂
            · exact absurd ⟨h₁, h₂⟩ hg
            · rfl
            · rfl
          · cases rest with
            | nil => simp [memberAt, hg]
            | cons c rest => rfl

/-- The entries of the list of usernames are neither places of names nor entries of members. -/
theorem not_holdsName_listed (k : Key) (rest : Path) : ¬ HoldsName (Keys.usernames :: k :: rest) ∧
    ∀ change, memberAt change (Keys.usernames :: k :: rest) = none := by
  match rest with
  | [] => exact ⟨id, fun _ => rfl⟩
  | [c] => exact ⟨by simp +decide [HoldsName], fun _ => rfl⟩
  | [b, m] => exact ⟨id, fun _ => by simp +decide [memberAt]⟩
  | [b, i, c] => exact ⟨by simp +decide [HoldsName], fun _ => rfl⟩
  | b :: i :: c :: d :: rest => exact ⟨id, fun _ => rfl⟩

/-- No place of a name lies below the members of a group. -/
theorem not_holdsName_member (g k : Key) (rest : Path) :
    ¬ HoldsName (Keys.groups :: g :: Keys.members :: k :: rest) := by
  match rest with
  | [] => exact id
  | [c] => simp +decide [HoldsName]
  | c :: d :: rest => exact id

/-- Where nothing moves to and no name is held, nothing changes. -/
theorem renamedAt_eq_get {p : Path} (hlocation : onNames (formerKey rs) p = p) (hname : ¬ HoldsName p)
    (hmember : memberAt (fun k => rs.find? fun r => r.new = k) p = none) :
    renamedAt rs db p = db.get p := by
  simp [renamedAt, hlocation, hname, hmember]

namespace Renameable

/-- A key belongs to a rename, or nothing moves to it. -/
theorem formerKey_cases (rs : List Rename) (k : Key) : (∃ r ∈ rs, k = r.old ∨ k = r.new) ∨
    formerKey rs k = k ∧ (rs.find? fun r => r.new = k) = none := by
  cases hnew : rs.find? fun r => r.new = k with
  | some r =>
    have hk : r.new = k := by simpa using List.find?_some hnew
    exact Or.inl ⟨r, List.mem_of_find?_eq_some hnew, Or.inr hk.symm⟩
  | none =>
    cases hfind : rename? rs k.1 with
    | some r =>
      have hk : r.old.1 = k.1 := by simpa using List.find?_some hfind
      exact Or.inl ⟨r, List.mem_of_find?_eq_some hfind, Or.inl (Subtype.ext hk.symm)⟩
    | none => exact Or.inr ⟨by simp [formerKey, renamedKey, hnew, hfind], rfl⟩

/-- Below the list of usernames only the entries of renames change. -/
theorem exists_place_listed (h : Renameable db rs) (hwf : WellFormed db) {k : Key} {rest : Path}
    (hne : renamedAt rs db (Keys.usernames :: k :: rest) ≠ db.get (Keys.usernames :: k :: rest)) :
    ∃ r ∈ rs, r.Place db (Keys.usernames :: k :: rest) := by
  rcases formerKey_cases rs k with ⟨r, hr, hk⟩ | ⟨hsame, -⟩
  · refine ⟨r, hr, ?_⟩
    have hold := (hwf.index r.uid r.old).mp (h.shown r hr)
    cases rest with
    | nil => rcases hk with rfl | rfl <;> constructor
    | cons l rest =>
      exfalso
      apply hne
      rcases hk with rfl | rfl
      · rw [h.renamedAt_oldListed hr]
        exact (Store.get_append_of_get hold (List.cons_ne_nil l rest)).symm
      · have hleaf := h.renamedAt_newListed hwf hr
        rw [renamedAt_eq_none hleaf (by simp) (Or.inl (by simp)), eq_comm]
        refine Option.eq_none_iff_forall_ne_some.mpr fun v hv => h.unlisted r hr ?_
        exact (Store.mem_children _ _ _).mpr ⟨l :: rest, v, hv⟩
  · obtain ⟨hname, hmember⟩ := not_holdsName_listed k rest
    exact absurd (renamedAt_eq_get (by simp [onNames, hsame]) hname (hmember _)) hne

/-- Below the members of a group only the entries of renames change. -/
theorem exists_place_member (h : Renameable db rs) (hwf : WellFormed db) {g k : Key} {rest : Path}
    (hne : renamedAt rs db (Keys.groups :: g :: Keys.members :: k :: rest) ≠
      db.get (Keys.groups :: g :: Keys.members :: k :: rest)) :
    ∃ r ∈ rs, r.Place db (Keys.groups :: g :: Keys.members :: k :: rest) := by
  have hsingle {k l : Key} {rest : Path} {v : Value}
      (hv : db.get (Keys.groups :: g :: Keys.members :: k :: l :: rest) = some v) : False := by
    obtain ⟨w, hw⟩ := hwf.members g k ((Store.mem_children _ _ _).mpr ⟨l :: rest, v, hv⟩)
    have hnone := Store.get_append_of_get hw (List.cons_ne_nil l rest)
    exact absurd (hv.symm.trans hnone) (by simp)
  rcases formerKey_cases rs k with ⟨r, hr, hk⟩ | ⟨hsame, hnew⟩
  · refine ⟨r, hr, ?_⟩
    rcases hk with rfl | rfl
    · rw [h.renamedAt_oldMember hr] at hne
      obtain ⟨v, hv⟩ := Option.ne_none_iff_exists'.mp hne.symm
      cases rest with
      | nil => exact .removed g
      | cons l rest => exact (hsingle hv).elim
    · have hnone : db.get (Keys.groups :: g :: Keys.members :: r.new :: rest) = none := by
        refine Option.eq_none_iff_forall_ne_some.mpr fun v hv => h.noMember r hr g ?_
        exact (Store.mem_children _ _ _).mpr ⟨rest, v, hv⟩
      rw [hnone] at hne
      obtain ⟨v, hv⟩ := Option.ne_none_iff_exists'.mp hne
      obtain ⟨v₀, hv₀, -⟩ := Option.map_eq_some_iff.mp hv
      have hlocation : onNames (formerKey rs) (Keys.groups :: g :: Keys.members :: r.new :: rest) =
          Keys.groups :: g :: Keys.members :: r.old :: rest := by
        simp +decide [onNames, onNames.onMembers, h.formerKey_new hr]
      rw [hlocation] at hv₀
      cases rest with
      | nil => exact .added g hv₀
      | cons l rest => exact (hsingle hv₀).elim
  · refine absurd (renamedAt_eq_get ?_ (not_holdsName_member g k rest) ?_) hne
    · simp +decide [onNames, onNames.onMembers, hsame]
    · cases rest with
      | nil => simp [memberAt, hnew]
      | cons l rest => rfl

/-- Where the renamed form differs from the database, some rename has a place to change. -/
theorem exists_place (h : Renameable db rs) (hwf : WellFormed db) {p : Path}
    (hne : renamedAt rs db p ≠ db.get p) : ∃ r ∈ rs, r.Place db p := by
  by_cases hp : HoldsName p
  · rw [renamedAt_of_holdsName hp] at hne
    have hold : ∃ r ∈ rs, db.get p = some (.string r.old.1) := by
      cases hget : db.get p with
      | none => simp [hget] at hne
      | some v =>
        cases v with
        | int n => simp [hget, renamedValue] at hne
        | bool flag => simp [hget, renamedValue] at hne
        | string name =>
          cases hfind : rename? rs name with
          | none => simp [hget, renamedValue, hfind] at hne
          | some r =>
            obtain ⟨hr, rfl⟩ := (h.rename?_eq_some_iff name r).mp hfind
            exact ⟨r, hr, rfl⟩
    obtain ⟨r, hr, hget⟩ := hold
    refine ⟨r, hr, ?_⟩
    rcases hp.cases with ⟨x, rfl⟩ | ⟨g, rfl⟩ | ⟨g, i, c, rfl, hc⟩
    · have hx := (hwf.index x r.old).mp hget
      rw [(hwf.index r.uid r.old).mp (h.shown r hr), Option.some.injEq, Value.string.injEq] at hx
      rw [← Subtype.ext hx]
      exact .username
    · exact .master g hget
    · exact .item g i hc hget
  · rcases onNames_cases p with ⟨k, rest, rfl⟩ | ⟨g, k, rest, rfl⟩ | ⟨hsame, hmember⟩
    · exact h.exists_place_listed hwf hne
    · exact h.exists_place_member hwf hne
    · exact absurd (renamedAt_eq_get (hsame _) hp (hmember _)) hne

end Renameable

/-! ### What a rename brings about -/

/-- The statements of a rename. -/
def Rename.statements (r : Rename) : List (Prog Unit Value) :=
  [changeUsername r.uid r.new, addUsername r.uid r.new, deleteFromUsernames r.old,
    changeMaster r.old r.new, changeUsersInGroup r.old r.new r.uid, changeMarkedOffBy r.old r.new,
    changeAddedBy r.old r.new]

/-- No statement of a rename traps by itself. -/
theorem Rename.steady_statements (r : Rename) : ∀ p ∈ r.statements, p.Steady := by
  intro p hp
  simp only [statements, List.mem_cons, List.not_mem_nil, or_false] at hp
  rcases hp with rfl | rfl | rfl | rfl | rfl | rfl | rfl
  · rw [changeUsername_eq]; trivial
  · rw [addUsername_eq, parsePath_key]; trivial
  · rw [deleteFromUsernames_eq, parsePath_key]; trivial
  all_goals trivial

namespace midway

variable (h : Renameable db rs) (hwf : WellFormed db) (hr : r ∈ rs)

include h hr in
/-- A rename changes the item fields that hold the old name. -/
theorem brings_itemField {field : String} {key : Key} (hfield : parsePath field = some [key])
    (hkey : key = Keys.addedBy ∨ key = Keys.markedOffBy) (hwf : WellFormed db) {g i : Key}
    (hold : db.get [Keys.groups, g, Keys.groceryList, i, key] = some (.string r.old.1)) :
    (midway db rs []).Brings (fun s => s.get [Keys.groups, g, Keys.groceryList, i, key] =
      renamedAt rs db [Keys.groups, g, Keys.groceryList, i, key]) r
      (changeItemField field r.old r.new : Prog Unit Value) := by
  have hplace (i : Key) : HoldsName [Keys.groups, g, Keys.groceryList, i, key] := ⟨rfl, rfl, hkey⟩
  refine brings_changeItemField hfield g i (fun s l hs _ hl => ?_) (fun s hs hgoal => ?_) fun s _ => ?_
  · obtain ⟨v, hv, name, rfl⟩ := hwf.items g l (Renameable.item_of_seen hs hl) (key, IsString)
      (by rcases hkey with rfl | rfl <;> simp [groupItemFields])
    exact Renameable.exists_name hs (hplace l) hv
  · exact ((hs _ trivial).resolve_right hgoal).trans hold
  · rw [h.renamedAt_of_old hr (hplace i) hold]
    exact get_update_leaf [Keys.groups, g, Keys.groceryList, i] [key] _ s

include h hwf hr in
/-- A rename brings about the renamed content of its places, but for the members it adds. -/
theorem brings_place {p : Path} (hp : r.Place db p) (hadded : ∀ g, p ≠ [Keys.groups, g, Keys.members, r.new]) :
    (midway db rs []).Brings (fun s => s.get p = renamedAt rs db p) r r.code := by
  have hblock {q : Prog Unit Value} (hq : q ∈ r.statements)
      (hbrings : (midway db rs []).Brings (fun s => s.get p = renamedAt rs db p) r q) :
      (midway db rs []).Brings (fun s => s.get p = renamedAt rs db p) r r.code :=
    Contract.brings_block hq r.steady_statements hbrings
  cases hp with
  | username =>
    refine hblock (List.mem_of_getElem? (i := 0) rfl) ?_
    have hplace : HoldsName [Keys.users, r.uid, Keys.username] := Or.inl ⟨rfl, rfl⟩
    rw [changeUsername_eq, h.renamedAt_of_old hr hplace (h.shown r hr)]
    exact Or.inl fun s _ _ => get_update_leaf [Keys.users, r.uid] [Keys.username] _ s
  | listed =>
    refine hblock (List.mem_of_getElem? (i := 1) rfl) ?_
    rw [addUsername_eq, parsePath_key, h.renamedAt_newListed hwf hr]
    exact Or.inl fun s _ _ => get_update_leaf [Keys.usernames] [r.new] _ s
  | unlisted =>
    refine hblock (List.mem_of_getElem? (i := 2) rfl) ?_
    rw [deleteFromUsernames_eq, parsePath_key, h.renamedAt_oldListed hr]
    exact Or.inl fun s _ _ => (Store.get_remove s _ _).trans (if_pos (List.prefix_refl _))
  | master g hold =>
    refine hblock (List.mem_of_getElem? (i := 3) rfl) ?_
    have hplace (g : Key) : HoldsName [Keys.groups, g, Keys.master] := Or.inr ⟨rfl, rfl⟩
    refine brings_changeMaster g r.new.2.1 (fun s l hs hl => ?_) (fun s hs hgoal => ?_) fun s _ => ?_
    · obtain ⟨v, hv, name, rfl⟩ := hwf.groups l (Renameable.group_of_seen hs hl)
        (Keys.master, IsString) (by simp [groupFields])
      exact Renameable.exists_name hs (hplace l) hv
    · exact ((hs _ trivial).resolve_right hgoal).trans hold
    · rw [h.renamedAt_of_old hr (hplace g) hold]
      exact get_update_leaf [Keys.groups, g] [Keys.master] _ s
  | removed g =>
    refine hblock (List.mem_of_getElem? (i := 4) rfl) ?_
    refine brings_changeUsersInGroup g (fun s hs hgoal => ?_) fun s _ => ?_
    · rw [h.renamedAt_oldMember hr] at hgoal
      exact Option.ne_none_iff_exists'.mp hgoal
    · rw [h.renamedAt_oldMember hr]
      exact (Store.get_remove s _ _).trans (if_pos (List.prefix_refl _))
  | added g => exact absurd rfl (hadded g)
  | item g i hkey hold =>
    rcases hkey with rfl | rfl
    · exact hblock (List.mem_of_getElem? (i := 6) rfl)
        (brings_itemField h hr (by simp) (Or.inl rfl) hwf hold)
    · exact hblock (List.mem_of_getElem? (i := 5) rfl)
        (brings_itemField h hr (by simp) (Or.inr rfl) hwf hold)

include h hwf hr in
/-- As long as no rename is about to add the new member, the old one is there or the new one is. -/
theorem hands_code {g : Key} {v : Value} (hold : db.get [Keys.groups, g, Keys.members, r.old] = some v)
    {r' : Rename} (hr' : r' ∈ rs) :
    (midway db rs []).Hands
      (fun s => s.get [Keys.groups, g, Keys.members, r.new] =
        renamedAt rs db [Keys.groups, g, Keys.members, r.new])
      (fun s => ∃ v, s.get [Keys.groups, g, Keys.members, r.old] = some v) r' r'.code := by
  have hkept {q : Prog Unit Value}
      (hq : (midway db rs [[Keys.groups, g, Keys.members, r.old]]).Holds r' q) :
      (midway db rs []).Hands
        (fun s => s.get [Keys.groups, g, Keys.members, r.new] =
          renamedAt rs db [Keys.groups, g, Keys.members, r.new])
        (fun s => ∃ v, s.get [Keys.groups, g, Keys.members, r.old] = some v) r' q :=
    Contract.hands_of_holds hq (fun _ hs => hs) (fun _ _ hw => hw)
      fun {s s'} hkeeps ⟨v, hv⟩ => ⟨v, (hkeeps.2 _ (List.mem_singleton_self _)).trans hv⟩
  by_cases hsame : r' = r
  · subst hsame
    have halone : MemberEntries [[Keys.groups, g, Keys.members, r'.old]] := by
      intro p hp
      exact ⟨g, r'.old, List.mem_singleton.mp hp⟩
    apply Contract.hands_block
    intro p hp
    simp only [List.mem_cons, List.not_mem_nil, or_false] at hp
    rcases hp with rfl | rfl | rfl | rfl | rfl | rfl | rfl
    · exact hkept (holds_changeUsername h hr' halone)
    · exact hkept (holds_addUsername h hwf hr' halone)
    · exact hkept (holds_deleteFromUsernames h hr' halone)
    · exact hkept (holds_changeMaster h hwf hr' halone)
    · refine hands_changeUsersInGroup g (h.old_ne_new hr' hr') fun s _ => ?_
      rw [h.renamedAt_newMember hr', hold]
      exact get_update_leaf [Keys.groups, g, Keys.members] [r'.new] _ s
    · exact hkept (holds_changeItemField h hwf hr' (by simp) (Or.inr rfl) halone)
    · exact hkept (holds_changeItemField h hwf hr' (by simp) (Or.inl rfl) halone)
  · refine hkept (holds_code h hwf hr' fun p hp => ⟨g, r.old, List.mem_singleton.mp hp, ?_, ?_⟩)
    · intro hold'
      exact hsame (h.eq_of_names hr' hr (Or.inl hold') (Or.inl rfl))
    · exact h.old_ne_new hr hr'

end midway

/-! ### Whole runs -/

/-- The database with nothing pending. -/
def Rename.start (db : Store Value) : Sys Rename Unit Value := ⟨db, (), []⟩

/-- Username changes of distinct accounts that run at the same time never trap and can always be
finished; whenever all of them are finished, every leaf of the database has been renamed and
nothing else has changed, in whatever order the reads were answered. -/
theorem renames_compose (hwf : WellFormed db) (h : Renameable db rs) {acts : List (Act Rename)}
    {s : Sys Rename Unit Value} (hspawn : ∀ r, .spawn r ∈ acts → r ∈ rs)
    (hrun : (Rename.start db).runs Rename.code acts = some s) :
    (∀ task ∈ s.pool, task.2 ≠ .run .trap) ∧
    (∃ acts' s', (∀ r, .spawn r ∉ acts') ∧ s.runs Rename.code acts' = some s' ∧ s'.pool = []) ∧
    ((∀ r ∈ rs, .spawn r ∈ acts) → s.pool = [] →
      ∀ p v, (p, v) ∈ s.db.leaves ↔ ∃ leaf ∈ db.leaves, renameLeaf rs leaf = (p, v)) := by
  let allowed : Sys Rename Unit Value → Act Rename → Prop := fun _ a => ∀ r, a = .spawn r → r ∈ rs
  have hmeets (s : Sys Rename Unit Value) (a : Act Rename) (_ : allowed s a) :
      s.Meets (midway db rs []).may a := by
    cases a with
    | spawn r => trivial
    | run i => exact fun _ _ _ _ => trivial
  have hcode (s : Sys Rename Unit Value) (r : Rename) (hr : allowed s (.spawn r)) :
      (midway db rs []).Holds r r.code := midway.holds_code h hwf (hr r rfl) (by simp)
  have hinv : (midway db rs []).inv (Rename.start db).db := fun p _ => Or.inl rfl
  have hallowed : Sys.Run Rename.code allowed (Rename.start db) acts s :=
    Sys.run_of_runs (fun a ha _ r hr => hspawn r (hr ▸ ha)) hrun
  obtain ⟨hs, hpool⟩ := Contract.run_holds hmeets hcode hinv (by simp [Rename.start]) hallowed
  have htrap {s : Sys Rename Unit Value}
      (hpool : ∀ task ∈ s.pool, (midway db rs []).HoldsBody task.1 task.2) :
      ∀ task ∈ s.pool, task.2 ≠ .run .trap := by
    rintro ⟨r, body⟩ htask rfl
    exact hpool _ htask
  refine ⟨htrap hpool, ?_, fun hall hdone p v => ?_⟩
  · refine Sys.exists_finished Rename.code (fun s => (midway db rs []).inv s.db ∧
      ∀ task ∈ s.pool, (midway db rs []).HoldsBody task.1 task.2) ?_ (fun s hs => htrap hs.2) s ⟨hs, hpool⟩
    intro s i s' hs hstep
    exact Contract.run_holds hmeets hcode hs.1 hs.2
      (.snoc .nil (by simp [allowed]) hstep : Sys.Run Rename.code allowed s ([] ++ [.run i]) s')
  · have hreached {p : Path} {r : Rename} (hr : r ∈ rs) (hbrings : (midway db rs []).Brings
        (fun s => s.get p = renamedAt rs db p) r r.code) : s.db.get p = renamedAt rs db p := by
      have hend := Contract.run_brings hmeets hcode hinv (by simp [Rename.start])
        (fun _ hkeeps => toward.keeps_target hkeeps trivial) (Or.inr ⟨r, hall r hr, hbrings⟩) hallowed
      exact hend.resolve_right (by simp [hdone])
    rw [← Store.get_eq_some_iff, ← h.renamedAt_eq_some_iff]
    suffices s.db.get p = renamedAt rs db p by rw [this]
    by_cases hne : renamedAt rs db p = db.get p
    · rcases hs p trivial with hsame | hnew
      · exact hsame.trans hne.symm
      · exact hnew
    · obtain ⟨r, hr, hplace⟩ := h.exists_place hwf hne
      by_cases hadded : ∃ g, p = [Keys.groups, g, Keys.members, r.new]
      · obtain ⟨g, rfl⟩ := hadded
        have hnone : db.get [Keys.groups, g, Keys.members, r.new] = none := by
          refine Option.eq_none_iff_forall_ne_some.mpr fun v hv => h.noMember r hr g ?_
          exact (Store.mem_children _ _ _).mpr ⟨[], v, hv⟩
        cases hold : db.get [Keys.groups, g, Keys.members, r.old] with
        | none => simp [h.renamedAt_newMember hr, hold, hnone] at hne
        | some v =>
          have hend := (Contract.run_hands hmeets hcode
            (fun s r' hr' => midway.hands_code h hwf hr hold (hr' r' rfl))
            (fun _ hkeeps => toward.keeps_target hkeeps trivial) hinv rfl ⟨v, hold⟩ hallowed).1
          have hremoved := hreached hr (midway.brings_place h hwf hr (.removed g) fun g' hg' =>
            h.old_ne_new hr hr (by simpa using (congrArg (·.getLast?) hg')))
          rw [h.renamedAt_oldMember hr] at hremoved
          simpa [hremoved, hdone] using hend
      · exact hreached hr (midway.brings_place h hwf hr hplace fun g hg => hadded ⟨g, hg⟩)

/-- Two accounts in one group, with an item of the one that the other has marked off. -/
def sharedList : Store Value where
  leaves := [([Keys.users, Sample.uidA, Keys.username], .string "alice"),
    ([Keys.users, Sample.uidB, Keys.username], .string "bobby"),
    ([Keys.usernames, Sample.alice], .string "uidA"),
    ([Keys.usernames, Sample.bobby], .string "uidB"),
    ([Keys.groups, Sample.home, Keys.title], .string "Home"),
    ([Keys.groups, Sample.home, Keys.description], .string ""),
    ([Keys.groups, Sample.home, Keys.master], .string "alice"),
    ([Keys.groups, Sample.home, Keys.groupListCount], .int 1),
    ([Keys.groups, Sample.home, Keys.groupListCheckCount], .int 1),
    ([Keys.groups, Sample.home, Keys.members, Sample.alice], .string "uidA"),
    ([Keys.groups, Sample.home, Keys.members, Sample.bobby], .string "uidB"),
    ([Keys.groups, Sample.home, Keys.groceryList, Sample.milk, Keys.description], .string ""),
    ([Keys.groups, Sample.home, Keys.groceryList, Sample.milk, Keys.isSelected], .bool true),
    ([Keys.groups, Sample.home, Keys.groceryList, Sample.milk, Keys.addedBy], .string "alice"),
    ([Keys.groups, Sample.home, Keys.groceryList, Sample.milk, Keys.markedOffBy], .string "bobby")]
  apart := by decide

/-- Both accounts take a new name. -/
def bothRename : List Rename :=
  [⟨Sample.uidA, Sample.alice, Sample.carol⟩, ⟨Sample.uidB, Sample.bobby, Sample.david⟩]

/-- What is listed in the groups of the example. -/
theorem mem_sharedList {g key k : Key} (hk : k ∈ sharedList.children [Keys.groups, g, key]) :
    g = Sample.home := by
  obtain ⟨r, v, hv⟩ := (Store.mem_children _ _ _).mp hk
  rw [Store.get_eq_some_iff] at hv
  simp +decide only [sharedList, List.mem_cons, List.not_mem_nil, Prod.mk.injEq, List.cons_append,
    List.nil_append, List.cons.injEq, false_and, or_false, false_or, true_and] at hv
  tauto

/-- The database of the two renamings is well formed. -/
theorem wellFormed_sharedList : WellFormed sharedList where
  groups := by
    have hgroups : sharedList.children [Keys.groups] = [Sample.home] := by decide
    intro g hg field hfield
    rw [hgroups, List.mem_singleton] at hg
    subst hg
    simp only [groupFields, List.mem_cons, List.not_mem_nil, or_false] at hfield
    rcases hfield with rfl | rfl | rfl | rfl | rfl
    · exact ⟨.string "Home", by decide, _, rfl⟩
    · exact ⟨.string "", by decide, _, rfl⟩
    · exact ⟨.string "alice", by decide, _, rfl⟩
    · exact ⟨.int 1, by decide, _, rfl, by decide⟩
    · exact ⟨.int 1, by decide, _, rfl, by decide⟩
  members := by
    have hmembers : sharedList.children [Keys.groups, Sample.home, Keys.members] =
        [Sample.alice, Sample.bobby] := by decide
    intro g k hk
    obtain rfl := mem_sharedList hk
    rw [hmembers] at hk
    simp only [List.mem_cons, List.not_mem_nil, or_false] at hk
    rcases hk with rfl | rfl
    · exact ⟨.string "uidA", by decide⟩
    · exact ⟨.string "uidB", by decide⟩
  items := by
    have hitems : sharedList.children [Keys.groups, Sample.home, Keys.groceryList] = [Sample.milk] := by
      decide
    intro g i hi field hfield
    obtain rfl := mem_sharedList hi
    rw [hitems, List.mem_singleton] at hi
    subst hi
    simp only [groupItemFields, List.mem_cons, List.not_mem_nil, or_false] at hfield
    rcases hfield with rfl | rfl | rfl | rfl
    · exact ⟨.string "", by decide, _, rfl⟩
    · exact ⟨.bool true, by decide, _, rfl⟩
    · exact ⟨.string "alice", by decide, _, rfl⟩
    · exact ⟨.string "bobby", by decide, _, rfl⟩
  index := by
    intro uid name
    simp only [Store.get_eq_some_iff]
    simp +decide [sharedList, Subtype.ext_iff]
    tauto

/-- Both members can be renamed in it at once. -/
theorem renameable_sharedList : Renameable sharedList bothRename where
  names := by decide
  shown := by decide
  unlisted := by decide
  noMember := by
    intro r hr g hk
    obtain rfl := mem_sharedList hk
    revert r
    decide

/-- Every way to answer the scans ends in the database with both names replaced. -/
theorem renames_compose_both : ∃ s' : Sys Rename Unit Value, s'.pool = [] ∧
    ∀ p v, (p, v) ∈ s'.db.leaves ↔ ∃ leaf ∈ sharedList.leaves, renameLeaf bothRename leaf = (p, v) := by
  let issued : List (Act Rename) := bothRename.map .spawn
  have hissued (r : Rename) : .spawn r ∈ issued ↔ r ∈ bothRename := by
    simp [issued]
  obtain ⟨s, hs⟩ : ∃ s, (Rename.start sharedList).runs Rename.code issued = some s := ⟨_, rfl⟩
  obtain ⟨-, ⟨acts, s', hacts, hs', hdone⟩, -⟩ := renames_compose wellFormed_sharedList
    renameable_sharedList (fun r hr => (hissued r).mp hr) hs
  have hruns : (Rename.start sharedList).runs Rename.code (issued ++ acts) = some s' := by
    rw [Sys.runs, List.foldlM_append]
    exact Option.bind_eq_some_iff.mpr ⟨s, hs, hs'⟩
  refine ⟨s', hdone, (renames_compose wellFormed_sharedList renameable_sharedList (fun r hr => ?_)
    hruns).2.2 (fun r hr => ?_) hdone⟩
  · exact (hissued r).mp ((List.mem_append.mp hr).resolve_right (hacts r))
  · exact List.mem_append_left _ ((hissued r).mpr hr)

end GroceryListApp

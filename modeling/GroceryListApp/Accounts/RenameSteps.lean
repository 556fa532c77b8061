import GroceryListApp.Accounts.Renames
import GroceryListApp.Realtime.Toward
import GroceryListApp.Services.ScanProgress

/-!
# The steps of several renames

While renames run, each location holds what it held at first or what it holds after the
changes. Every write keeps this, whatever the scans were answered: a scan writes only where
it has seen an old name, and an old name is seen only where it stood at first.
-/

namespace GroceryListApp

open Realtime

/-- Each location holds its former or its renamed content, and no callback traps. The listed
locations are left alone. -/
def midway (db : Store Value) (rs : List Rename) (alone : List Path) : Contract Rename Value :=
  toward False (fun _ => True) db.get (renamedAt rs db) alone

variable {db s : Store Value} {rs : List Rename} {alone : List Path} {r : Rename}

/-! ### Places and what they hold -/

/-- Usernames are the values of accounts, of masters and of item fields. -/
theorem HoldsName.cases {p : Path} (h : HoldsName p) : (∃ x, p = [Keys.users, x, Keys.username]) ∨
    (∃ g, p = [Keys.groups, g, Keys.master]) ∨
    ∃ g i c, p = [Keys.groups, g, Keys.groceryList, i, c] ∧ (c = Keys.addedBy ∨ c = Keys.markedOffBy) := by
  match p with
  | [a, x, c] =>
    rcases h with ⟨rfl, rfl⟩ | ⟨rfl, rfl⟩
    · exact Or.inl ⟨x, rfl⟩
    · exact Or.inr (Or.inl ⟨x, rfl⟩)
  | [a, g, b, i, c] =>
    obtain ⟨rfl, rfl, hc⟩ := h
    exact Or.inr (Or.inr ⟨g, i, c, rfl, hc⟩)

/-- No place whose value is a username lies below a username. -/
theorem onNames_of_holdsName (f : Key → Key) {p : Path} (h : HoldsName p) : onNames f p = p := by
  rcases h.cases with ⟨x, rfl⟩ | ⟨g, rfl⟩ | ⟨g, i, c, rfl, -⟩ <;>
    simp +decide [onNames, onNames.onMembers]

/-- Where the value is a username, it is replaced. -/
theorem renamedAt_of_holdsName {p : Path} (h : HoldsName p) :
    renamedAt rs db p = (db.get p).map (renamedValue rs) := by
  rw [renamedAt, onNames_of_holdsName _ h]
  simp [h]

namespace Renameable

/-- An old name becomes the new one. -/
theorem renamedValue_old (h : Renameable db rs) (hr : r ∈ rs) :
    renamedValue rs (.string r.old.1) = .string r.new.1 := by
  simp [renamedValue, (h.rename?_eq_some_iff _ r).mpr ⟨hr, rfl⟩]

/-- Nothing becomes an old name. -/
theorem renamedValue_ne_old (h : Renameable db rs) (hr : r ∈ rs) (v : Value) :
    renamedValue rs v ≠ .string r.old.1 := by
  intro hv
  cases v with
  | int n => contradiction
  | bool flag => contradiction
  | string name =>
    cases hfind : rename? rs name with
    | some r' =>
      have hnew : r'.new.1 = r.old.1 := by simpa [renamedValue, hfind] using hv
      exact h.old_ne_new hr ((h.rename?_eq_some_iff _ r').mp hfind).1 (Subtype.ext hnew.symm)
    | none =>
      have hold : name = r.old.1 := by simpa [renamedValue, hfind] using hv
      rw [(h.rename?_eq_some_iff name r).mpr ⟨hr, hold.symm⟩] at hfind
      contradiction

/-- An old name is seen only where it stood at first. -/
theorem get_of_old (h : Renameable db rs) (hr : r ∈ rs) {p : Path} (hp : HoldsName p)
    (hs : (midway db rs alone).inv s) (hget : s.get p = some (.string r.old.1)) :
    db.get p = some (.string r.old.1) := by
  rcases hs p trivial with hsame | hnew
  · exact hsame ▸ hget
  · rw [hget, renamedAt_of_holdsName hp] at hnew
    obtain ⟨v, -, hv⟩ := Option.map_eq_some_iff.mp hnew.symm
    exact absurd hv (h.renamedValue_ne_old hr v)

/-- Where an old name stood, the new name is to stand. -/
theorem renamedAt_of_old (h : Renameable db rs) (hr : r ∈ rs) {p : Path} (hp : HoldsName p)
    (hget : db.get p = some (.string r.old.1)) : renamedAt rs db p = some (.string r.new.1) := by
  rw [renamedAt_of_holdsName hp, hget, Option.map_some, h.renamedValue_old hr]

/-- The entry of the old key is found under the new one. -/
theorem formerKey_new (h : Renameable db rs) (hr : r ∈ rs) : formerKey rs r.new = r.old := by
  simp [formerKey, (h.find?_new_eq_some_iff r.new r).mpr ⟨hr, rfl⟩]

/-- Under the old key there is what was found under the new one. -/
theorem formerKey_old (h : Renameable db rs) (hr : r ∈ rs) : formerKey rs r.old = r.new := by
  have hnone : (rs.find? fun r' => r'.new = r.old) = none := by
    simpa [List.find?_eq_none] using fun r' hr' hsame => h.old_ne_new hr hr' hsame.symm
  simp [formerKey, renamedKey, hnone, (h.rename?_eq_some_iff _ r).mpr ⟨hr, rfl⟩]

/-- Nothing is listed at or below an old name after the changes. -/
theorem renamedAt_oldListed (h : Renameable db rs) (hr : r ∈ rs) (rest : Path) :
    renamedAt rs db (Keys.usernames :: r.old :: rest) = none := by
  have hlocation : onNames (formerKey rs) (Keys.usernames :: r.old :: rest) =
      Keys.usernames :: r.new :: rest := by
    simp [onNames, h.formerKey_old hr]
  rw [renamedAt, hlocation, Option.map_eq_none_iff]
  refine Option.eq_none_iff_forall_ne_some.mpr fun v hv => h.unlisted r hr ?_
  exact (Store.mem_children _ _ _).mpr ⟨rest, v, hv⟩

/-- No group has anything at or below an old member after the changes. -/
theorem renamedAt_oldMember (h : Renameable db rs) (hr : r ∈ rs) (g : Key) (rest : Path) :
    renamedAt rs db (Keys.groups :: g :: Keys.members :: r.old :: rest) = none := by
  have hlocation : onNames (formerKey rs) (Keys.groups :: g :: Keys.members :: r.old :: rest) =
      Keys.groups :: g :: Keys.members :: r.new :: rest := by
    simp +decide [onNames, onNames.onMembers, h.formerKey_old hr]
  rw [renamedAt, hlocation, Option.map_eq_none_iff]
  refine Option.eq_none_iff_forall_ne_some.mpr fun v hv => h.noMember r hr g ?_
  exact (Store.mem_children _ _ _).mpr ⟨rest, v, hv⟩

/-- The account is listed under its new name after the changes. -/
theorem renamedAt_newListed (h : Renameable db rs) (hwf : WellFormed db) (hr : r ∈ rs) :
    renamedAt rs db [Keys.usernames, r.new] = some (.string r.uid.1) := by
  have hlocation : onNames (formerKey rs) [Keys.usernames, r.new] = [Keys.usernames, r.old] := by
    simp [onNames, h.formerKey_new hr]
  rw [renamedAt, hlocation, (hwf.index r.uid r.old).mp (h.shown r hr)]
  rfl

/-- The new member of a group is the account when the old one was a member. -/
theorem renamedAt_newMember (h : Renameable db rs) (hr : r ∈ rs) (g : Key) :
    renamedAt rs db [Keys.groups, g, Keys.members, r.new] =
      (db.get [Keys.groups, g, Keys.members, r.old]).map fun _ => .string r.uid.1 := by
  have hlocation : onNames (formerKey rs) [Keys.groups, g, Keys.members, r.new] =
      [Keys.groups, g, Keys.members, r.old] := by
    simp +decide [onNames, onNames.onMembers, h.formerKey_new hr]
  have hchange : memberAt (fun k => rs.find? fun r => r.new = k)
      [Keys.groups, g, Keys.members, r.new] = some r := by
    simp [memberAt, (h.find?_new_eq_some_iff r.new r).mpr ⟨hr, rfl⟩]
  simp [renamedAt, hlocation, hchange, HoldsName]

/-- A group that is seen was stored at first. -/
theorem group_of_seen (hs : (midway db rs alone).inv s) {g : Key}
    (hg : g ∈ s.children [Keys.groups]) : g ∈ db.children [Keys.groups] := by
  obtain ⟨q, v, hv⟩ := (Store.mem_children _ _ _).mp hg
  rcases hs ([Keys.groups] ++ g :: q) trivial with hsame | hnew
  · exact (Store.mem_children _ _ _).mpr ⟨q, v, hsame ▸ hv⟩
  · rw [hv, eq_comm, renamedAt, Option.map_eq_some_iff] at hnew
    obtain ⟨v₀, hv₀, -⟩ := hnew
    have hlocation : onNames (formerKey rs) ([Keys.groups] ++ g :: q) =
        [Keys.groups] ++ g :: onNames.onMembers (formerKey rs) q := by
      simp +decide [onNames]
    exact (Store.mem_children _ _ _).mpr ⟨_, v₀, hlocation ▸ hv₀⟩

/-- An item that is seen was stored at first. -/
theorem item_of_seen (hs : (midway db rs alone).inv s) {g i : Key}
    (hi : i ∈ s.children [Keys.groups, g, Keys.groceryList]) :
    i ∈ db.children [Keys.groups, g, Keys.groceryList] := by
  obtain ⟨q, v, hv⟩ := (Store.mem_children _ _ _).mp hi
  rcases hs ([Keys.groups, g, Keys.groceryList] ++ i :: q) trivial with hsame | hnew
  · exact (Store.mem_children _ _ _).mpr ⟨q, v, hsame ▸ hv⟩
  · rw [hv, eq_comm, renamedAt, Option.map_eq_some_iff] at hnew
    obtain ⟨v₀, hv₀, -⟩ := hnew
    have hlocation : onNames (formerKey rs) ([Keys.groups, g, Keys.groceryList] ++ i :: q) =
        [Keys.groups, g, Keys.groceryList] ++ i :: q := by
      simp +decide [onNames, onNames.onMembers]
    exact (Store.mem_children _ _ _).mpr ⟨q, v₀, hlocation ▸ hv₀⟩

/-- An old member that is seen was stored at first. -/
theorem member_of_seen (h : Renameable db rs) (hwf : WellFormed db) (hr : r ∈ rs)
    (hs : (midway db rs alone).inv s) {g : Key}
    (hk : r.old ∈ s.children [Keys.groups, g, Keys.members]) :
    ∃ v, db.get [Keys.groups, g, Keys.members, r.old] = some v := by
  obtain ⟨q, v, hv⟩ := (Store.mem_children _ _ _).mp hk
  rcases hs ([Keys.groups, g, Keys.members] ++ r.old :: q) trivial with hsame | hnew
  · exact hwf.members g r.old ((Store.mem_children _ _ _).mpr ⟨q, v, hsame ▸ hv⟩)
  · rw [hv] at hnew
    exact absurd (hnew.trans (h.renamedAt_oldMember hr g q)) (by simp)

/-- A place that held a name at first holds one all the time. -/
theorem exists_name (hs : (midway db rs alone).inv s) {p : Path} (hp : HoldsName p) {name : String}
    (hget : db.get p = some (.string name)) : ∃ name', s.get p = some (.string name') := by
  rcases hs p trivial with hsame | hnew
  · exact ⟨name, hsame ▸ hget⟩
  · rw [renamedAt_of_holdsName hp, hget] at hnew
    exact ⟨_, hnew⟩

end Renameable

/-! ### What the writes keep -/

/-- The listed locations are entries of members. -/
def MemberEntries (alone : List Path) : Prop :=
  ∀ p ∈ alone, ∃ g k, p = [Keys.groups, g, Keys.members, k]

namespace MemberEntries

/-- What does not belong to groups lies apart from entries of members. -/
theorem apart_root (h : MemberEntries alone) {a : Key} (ha : a ≠ Keys.groups) (rest : Path) :
    ∀ p ∈ alone, Apart (a :: rest) p := by
  intro p hp
  obtain ⟨g, k, rfl⟩ := h p hp
  exact apart_of_ne ha _ _

/-- What belongs to a group beside its members lies apart from entries of members. -/
theorem apart_beside (h : MemberEntries alone) {b : Key} (hb : b ≠ Keys.members) (g : Key)
    (rest : Path) : ∀ p ∈ alone, Apart (Keys.groups :: g :: b :: rest) p := by
  intro p hp
  obtain ⟨g', k, rfl⟩ := h p hp
  exact apart_field _ _ _ hb _ _

end MemberEntries

namespace midway

/-- Writing the content a location is to have is permitted. -/
theorem permits_put {location suffix : Path} {v : Value}
    (hvalue : renamedAt rs db (location ++ suffix) = some v)
    (halone : ∀ p ∈ alone, Apart (location ++ suffix) p) :
    (midway db rs alone).Permits r (.update location [(suffix, .leaf v)]) :=
  toward.permits_put hvalue (fun _ _ hne hle => renamedAt_eq_none hvalue hne hle) halone

/-- Removing what is not to be there is permitted. -/
theorem permits_remove {p : Path} (hnone : ∀ rest, renamedAt rs db (p ++ rest) = none)
    (halone : ∀ q ∈ alone, Apart p q) : (midway db rs alone).Permits r (.remove p) := by
  refine toward.permits_remove (fun q _ hbelow => ?_) halone
  obtain ⟨rest, rfl⟩ := hbelow
  exact hnone rest

variable (h : Renameable db rs) (hwf : WellFormed db) (hr : r ∈ rs)

include h hr in
/-- The account's own name may be written. -/
theorem holds_changeUsername (halone : MemberEntries alone) :
    (midway db rs alone).Holds r (changeUsername r.uid r.new : Prog Unit Value) := by
  rw [changeUsername_eq]
  refine ⟨permits_put ?_ (halone.apart_root (by decide) _), trivial⟩
  exact h.renamedAt_of_old hr (Or.inl ⟨rfl, rfl⟩) (h.shown r hr)

include h hwf hr in
/-- The new name may be listed. -/
theorem holds_addUsername (halone : MemberEntries alone) :
    (midway db rs alone).Holds r (addUsername r.uid r.new : Prog Unit Value) := by
  rw [addUsername_eq, parsePath_key]
  exact ⟨permits_put (h.renamedAt_newListed hwf hr) (halone.apart_root (by decide) _), trivial⟩

include h hr in
/-- The old name may be taken from the list. -/
theorem holds_deleteFromUsernames (halone : MemberEntries alone) :
    (midway db rs alone).Holds r (deleteFromUsernames r.old : Prog Unit Value) := by
  rw [deleteFromUsernames_eq, parsePath_key]
  exact ⟨permits_remove (h.renamedAt_oldListed hr) (halone.apart_root (by decide) _), trivial⟩

include h hwf hr in
/-- The scan for masters writes where the old name stood. -/
theorem holds_changeMaster (halone : MemberEntries alone) :
    (midway db rs alone).Holds r (changeMaster r.old r.new : Prog Unit Value) := by
  have hplace (g : Key) : HoldsName [Keys.groups, g, Keys.master] := Or.inr ⟨rfl, rfl⟩
  refine GroceryListApp.holds_changeMaster (fun s g hs hg => Or.inl ?_) fun s g hs hget => ?_
  · obtain ⟨v, hv, name, rfl⟩ := hwf.groups g (Renameable.group_of_seen hs hg) (Keys.master, IsString)
      (by simp [groupFields])
    exact Renameable.exists_name hs (hplace g) hv
  · exact permits_put (h.renamedAt_of_old hr (hplace g) (h.get_of_old hr (hplace g) hs hget))
      (halone.apart_beside (by decide) _ _)

include h hwf hr in
/-- The scan of an item field writes where the old name stood. -/
theorem holds_changeItemField {field : String} {key : Key} (hfield : parsePath field = some [key])
    (hkey : key = Keys.addedBy ∨ key = Keys.markedOffBy) (halone : MemberEntries alone) :
    (midway db rs alone).Holds r (changeItemField field r.old r.new : Prog Unit Value) := by
  have hplace (g i : Key) : HoldsName [Keys.groups, g, Keys.groceryList, i, key] := ⟨rfl, rfl, hkey⟩
  refine GroceryListApp.holds_changeItemField key hfield (fun s g i hs hi => Or.inl ?_)
    fun s g i hs hget => ?_
  · obtain ⟨v, hv, name, rfl⟩ := hwf.items g i (Renameable.item_of_seen hs hi) (key, IsString)
      (by rcases hkey with rfl | rfl <;> simp [groupItemFields])
    exact Renameable.exists_name hs (hplace g i) hv
  · exact permits_put (h.renamedAt_of_old hr (hplace g i) (h.get_of_old hr (hplace g i) hs hget))
      (halone.apart_beside (by decide) _ _)

include h hwf hr in
/-- The scan of members replaces the old member where it was one. -/
theorem holds_changeUsersInGroup
    (halone : ∀ p ∈ alone, ∃ g k, p = [Keys.groups, g, Keys.members, k] ∧ k ≠ r.old ∧ k ≠ r.new) :
    (midway db rs alone).Holds r (changeUsersInGroup r.old r.new r.uid : Prog Unit Value) := by
  have hapart (g : Key) {k : Key} (hk : k = r.old ∨ k = r.new) :
      ∀ p ∈ alone, Apart [Keys.groups, g, Keys.members, k] p := by
    intro p hp
    obtain ⟨g', k', rfl, hold, hnew⟩ := halone p hp
    rw [apart_cons]
    by_cases hg : g = g'
    · rw [hg, apart_cons, apart_cons]
      apply apart_of_ne
      rcases hk with rfl | rfl
      · exact hold.symm
      · exact hnew.symm
    · exact apart_of_ne hg _ _
  refine GroceryListApp.holds_changeUsersInGroup (by simp) (fun s g k _ _ hk => ?_)
    fun s g k name hs hmember hk hname => ?_
  · rw [Subtype.ext hk]
    exact permits_remove (h.renamedAt_oldMember hr g) (hapart g (Or.inl rfl))
  · rw [Subtype.ext hk] at hmember
    rw [parsePath_key, Option.some.injEq] at hname
    obtain ⟨v, hv⟩ := h.member_of_seen hwf hr hs hmember
    subst hname
    exact permits_put ((h.renamedAt_newMember hr g).trans (by rw [hv]; rfl)) (hapart g (Or.inr rfl))

include h hwf hr in
/-- No step of a rename traps, and each brings the database closer to its renamed form. -/
theorem holds_code
    (halone : ∀ p ∈ alone, ∃ g k, p = [Keys.groups, g, Keys.members, k] ∧ k ≠ r.old ∧ k ≠ r.new) :
    (midway db rs alone).Holds r r.code := by
  have hentries : MemberEntries alone := by
    intro p hp
    obtain ⟨g, k, hgk, -⟩ := halone p hp
    exact ⟨g, k, hgk⟩
  apply Contract.holds_block
  intro p hp
  simp only [List.mem_cons, List.not_mem_nil, or_false] at hp
  rcases hp with rfl | rfl | rfl | rfl | rfl | rfl | rfl
  · exact holds_changeUsername h hr hentries
  · exact holds_addUsername h hwf hr hentries
  · exact holds_deleteFromUsernames h hr hentries
  · exact holds_changeMaster h hwf hr hentries
  · exact holds_changeUsersInGroup h hwf hr halone
  · exact holds_changeItemField h hwf hr (by simp) (Or.inr rfl) hentries
  · exact holds_changeItemField h hwf hr (by simp) (Or.inl rfl) hentries

end midway

end GroceryListApp

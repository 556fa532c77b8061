import GroceryListApp.Controller.GroupCalls
import Mathlib.Data.List.Nodup

/-!
# Renaming several accounts at once

What a set of username changes is meant to do to a database: each old name is replaced by its
new one wherever usernames are stored, as a value or as a key. The same tree is described in
two ways, by the image of every leaf and by what each location holds; the second description
is what the steps of the changes are compared with.
-/

namespace GroceryListApp

open Realtime

/-- A username change of an account, from the name its profile shows to a new one. -/
structure Rename where
  uid : Key
  old : Key
  new : Key
  deriving DecidableEq

/-- What the client of the account runs. -/
def Rename.code (r : Rename) : Prog Unit Value := changeUsernameAction r.uid r.old.1 r.new.1

/-- The groups and items have their fields, members are single entries, and the index of
usernames lists the accounts by their names. -/
structure WellFormed (db : Store Value) : Prop where
  groups : ∀ g ∈ db.children [Keys.groups], HasFields groupFields db [Keys.groups, g]
  members : ∀ g, ∀ k ∈ db.children [Keys.groups, g, Keys.members],
    ∃ v, db.get [Keys.groups, g, Keys.members, k] = some v
  items : ∀ g, ∀ i ∈ db.children [Keys.groups, g, Keys.groceryList],
    HasFields groupItemFields db [Keys.groups, g, Keys.groceryList, i]
  index : ∀ uid name : Key, db.get [Keys.users, uid, Keys.username] = some (.string name.1) ↔
    db.get [Keys.usernames, name] = some (.string uid.1)

/-- Username changes of accounts that show their own names, to names that are not in use. -/
structure Renameable (db : Store Value) (rs : List Rename) : Prop where
  names : (rs.flatMap fun r => [r.old, r.new]).Nodup
  shown : ∀ r ∈ rs, db.get [Keys.users, r.uid, Keys.username] = some (.string r.old.1)
  unlisted : ∀ r ∈ rs, r.new ∉ db.children [Keys.usernames]
  noMember : ∀ r ∈ rs, ∀ g, r.new ∉ db.children [Keys.groups, g, Keys.members]

section

variable (rs : List Rename)

/-- The change of a name, if it is to be changed. -/
def rename? (name : String) : Option Rename := rs.find? fun r => r.old.1 = name

/-- A key after the changes. -/
def renamedKey (k : Key) : Key := (rename? rs k.1).elim k Rename.new

/-- A value after the changes, where it is a username. -/
def renamedValue : Value → Value
  | .string name => .string ((rename? rs name).elim name fun r => r.new.1)
  | v => v

/-- The places whose value is a username. -/
def HoldsName : Path → Prop
  | [a, _, c] => a = Keys.users ∧ c = Keys.username ∨ a = Keys.groups ∧ c = Keys.master
  | [a, _, b, _, c] =>
      a = Keys.groups ∧ b = Keys.groceryList ∧ (c = Keys.addedBy ∨ c = Keys.markedOffBy)
  | _ => False

instance : DecidablePred HoldsName := fun p => by
  unfold HoldsName
  split <;> infer_instance

/-- The change of a member, at the entry of a member. -/
def memberAt (change : Key → Option Rename) : Path → Option Rename
  | [a, _, b, k] => if a = Keys.groups ∧ b = Keys.members then change k else none
  | _ => none

/-- Replace the keys on the way down a location that are usernames. -/
def onNames (f : Key → Key) : Path → Path
  | a :: k :: rest =>
      if a = Keys.usernames then a :: f k :: rest
      else if a = Keys.groups then a :: k :: onMembers rest else a :: k :: rest
  | p => p
where
  onMembers : Path → Path
    | b :: k :: rest => if b = Keys.members then b :: f k :: rest else b :: k :: rest
    | p => p

/-- A leaf of the database after the changes. The entry of a renamed member holds the account. -/
def renameLeaf (leaf : Path × Value) : Path × Value :=
  (onNames (renamedKey rs) leaf.1,
    if HoldsName leaf.1 then renamedValue rs leaf.2
    else (memberAt (fun k => rename? rs k.1) leaf.1).elim leaf.2 fun r => .string r.uid.1)

/-- The key whose entry is found under a key after the changes. -/
def formerKey (k : Key) : Key :=
  (rs.find? fun r => r.new = k).elim (renamedKey rs k) Rename.old

/-- What a location holds after the changes. -/
def renamedAt (db : Store Value) (p : Path) : Option Value :=
  (db.get (onNames (formerKey rs) p)).map fun v =>
    if HoldsName p then renamedValue rs v
    else (memberAt (fun k => rs.find? fun r => r.new = k) p).elim v fun r => .string r.uid.1

end

variable {db : Store Value} {rs : List Rename}

/-- Replacing keys keeps the depth of a location. -/
@[simp] theorem length_onNames (f : Key → Key) (p : Path) : (onNames f p).length = p.length := by
  match p with
  | [] => rfl
  | [a] => rfl
  | [a, k] => simp only [onNames, onNames.onMembers]; split_ifs <;> rfl
  | [a, k, b] => simp only [onNames, onNames.onMembers]; split_ifs <;> rfl
  | a :: k :: b :: m :: rest => simp only [onNames, onNames.onMembers]; split_ifs <;> simp

/-- Replacing keys keeps locations below each other. -/
theorem onNames_below (f : Key → Key) {p q : Path} (h : p <+: q) : onNames f p <+: onNames f q := by
  obtain ⟨r, rfl⟩ := h
  match p, r with
  | [], r => exact List.nil_prefix
  | [a], [] => exact List.prefix_refl _
  | [a], [k] => simp only [onNames, List.cons_append, List.nil_append]; split_ifs <;> simp
  | [a], k :: b :: r => simp only [onNames, List.cons_append, List.nil_append]; split_ifs <;> simp
  | [a, k], [] => exact List.prefix_refl _
  | [a, k], b :: r =>
    simp only [onNames, List.cons_append, List.nil_append]
    split_ifs <;> simp [onNames.onMembers, List.cons_prefix_cons]
  | [a, k, b], [] => exact List.prefix_refl _
  | [a, k, b], m :: r =>
    simp only [onNames, onNames.onMembers, List.cons_append, List.nil_append]
    split_ifs <;> simp [List.cons_prefix_cons]
  | a :: k :: b :: m :: rest, r =>
    simp only [onNames, onNames.onMembers, List.cons_append]
    split_ifs <;> simp [List.cons_prefix_cons]

/-- Replacing keys keeps the places whose value is a username. -/
@[simp] theorem holdsName_onNames (f : Key → Key) (p : Path) :
    HoldsName (onNames f p) ↔ HoldsName p := by
  match p with
  | [] => rfl
  | [a] => rfl
  | [a, k] => simp only [onNames, onNames.onMembers]; split_ifs <;> rfl
  | [a, k, c] =>
    simp only [onNames, onNames.onMembers]
    split_ifs with ha hg
    · subst ha; simp +decide [HoldsName]
    · rfl
    · rfl
  | [a, k, b, m] => simp only [onNames, onNames.onMembers]; split_ifs <;> rfl
  | [a, k, b, m, c] =>
    simp only [onNames, onNames.onMembers]
    split_ifs with ha hg hb
    · subst ha; simp +decide [HoldsName]
    · subst hb; simp +decide [HoldsName]
    · rfl
    · rfl
  | a :: k :: b :: m :: c :: d :: rest =>
    simp only [onNames, onNames.onMembers]; split_ifs <;> rfl

/-- The entry of a member stays one when keys are replaced. -/
theorem memberAt_onNames (change : Key → Option Rename) (f : Key → Key) (p : Path) :
    memberAt change (onNames f p) = memberAt (fun k => change (f k)) p := by
  match p with
  | [] => rfl
  | [a] => rfl
  | [a, k] => simp only [onNames, onNames.onMembers]; split_ifs <;> rfl
  | [a, k, b] => simp only [onNames, onNames.onMembers]; split_ifs <;> rfl
  | [a, k, b, m] =>
    simp only [onNames, onNames.onMembers]
    split_ifs with ha hg hb
    · subst ha; simp +decide [memberAt]
    · simp [memberAt, hg, hb]
    · simp [memberAt, hb]
    · simp [memberAt, hg]
  | a :: k :: b :: m :: c :: rest =>
    simp only [onNames, onNames.onMembers]; split_ifs <;> rfl

/-- The change of a member depends on the key of the entry only. -/
theorem memberAt_congr {change change' : Key → Option Rename} {p : Path}
    (h : ∀ g k, p = [Keys.groups, g, Keys.members, k] → change k = change' k) :
    memberAt change p = memberAt change' p := by
  unfold memberAt
  split
  · next a g b k =>
    split
    · next hab => exact h g k (by rw [hab.1, hab.2])
    · rfl
  · rfl

/-- A second replacement that undoes the first restores the location. -/
theorem onNames_onNames {f g : Key → Key} {p : Path}
    (hlisted : ∀ k rest, p = Keys.usernames :: k :: rest → f (g k) = k)
    (hmember : ∀ group k rest, p = Keys.groups :: group :: Keys.members :: k :: rest → f (g k) = k) :
    onNames f (onNames g p) = p := by
  have hne : Keys.groups ≠ Keys.usernames := by decide
  match p with
  | [] => rfl
  | [a] => rfl
  | [a, k] =>
    simp only [onNames, onNames.onMembers]
    split_ifs with ha hg
    · subst ha; simp [hlisted k [] rfl]
    · simp [hg, hne]
    · simp [ha, hg]
  | [a, k, b] =>
    simp only [onNames, onNames.onMembers]
    split_ifs with ha hg
    · subst ha; simp [hlisted k [b] rfl]
    · simp [hg, hne]
    · simp [ha, hg]
  | a :: k :: b :: m :: rest =>
    simp only [onNames, onNames.onMembers]
    split_ifs with ha hg hb
    · subst ha; simp [hlisted k (b :: m :: rest) rfl]
    · subst hg hb; simp [hne, hmember k m rest rfl]
    · simp [hg, hne, hb]
    · simp [ha, hg]

/-- After the changes there is nothing above or below a leaf. -/
theorem renamedAt_eq_none {p q : Path} {v : Value} (h : renamedAt rs db p = some v) (hne : q ≠ p)
    (hle : p <+: q ∨ q <+: p) : renamedAt rs db q = none := by
  obtain ⟨v₀, hv₀, -⟩ := Option.map_eq_some_iff.mp h
  rw [renamedAt, Option.map_eq_none_iff]
  refine Option.eq_none_iff_forall_ne_some.mpr fun w hw => hne ?_
  have hlength : (onNames (formerKey rs) q).length = (onNames (formerKey rs) p).length := by
    rcases hle with hle | hle
    · exact congrArg (fun leaf => leaf.1.length) (Store.eq_of_mem ((db.get_eq_some_iff _ _).mp hv₀)
        ((db.get_eq_some_iff _ _).mp hw) (onNames_below _ hle)).symm
    · exact congrArg (fun leaf => leaf.1.length) (Store.eq_of_mem ((db.get_eq_some_iff _ _).mp hw)
        ((db.get_eq_some_iff _ _).mp hv₀) (onNames_below _ hle))
  rw [length_onNames, length_onNames] at hlength
  rcases hle with hle | hle
  · exact (hle.eq_of_length hlength.symm).symm
  · exact hle.eq_of_length hlength

namespace Renameable

/-- Two changes that share a name are the same change. -/
theorem eq_of_names (h : Renameable db rs) {r r' : Rename} (hr : r ∈ rs) (hr' : r' ∈ rs)
    {k : Key} (hk : k = r.old ∨ k = r.new) (hk' : k = r'.old ∨ k = r'.new) : r = r' := by
  by_contra hne
  obtain ⟨-, hdisjoint⟩ := List.nodup_flatMap.mp h.names
  have hsymm : Std.Symm (Function.onFun List.Disjoint fun r : Rename => [r.old, r.new]) :=
    ⟨fun _ _ h => h.symm⟩
  exact (List.Pairwise.forall hdisjoint hr hr' hne) (a := k) (by simpa using hk) (by simpa using hk')

/-- No old name is taken by a change. -/
theorem old_ne_new (h : Renameable db rs) {r r' : Rename} (hr : r ∈ rs) (hr' : r' ∈ rs) :
    r.old ≠ r'.new := by
  intro hsame
  obtain ⟨hpair, -⟩ := List.nodup_flatMap.mp h.names
  have : r = r' := h.eq_of_names hr hr' (Or.inl rfl) (Or.inr hsame)
  have := hpair r hr
  simp_all

/-- The change of an old name is the one it belongs to. -/
theorem rename?_eq_some_iff (h : Renameable db rs) (name : String) (r : Rename) :
    rename? rs name = some r ↔ r ∈ rs ∧ r.old.1 = name := by
  constructor
  · intro hfind
    exact ⟨List.mem_of_find?_eq_some hfind, by simpa using List.find?_some hfind⟩
  · rintro ⟨hr, rfl⟩
    cases hfind : rename? rs r.old.1 with
    | none => simpa using List.find?_eq_none.mp hfind r hr
    | some r' =>
      have hold : r'.old.1 = r.old.1 := by simpa using List.find?_some hfind
      rw [h.eq_of_names (List.mem_of_find?_eq_some hfind) hr (Or.inl rfl) (Or.inl (Subtype.ext hold))]

/-- The change to a new name is the one it belongs to. -/
theorem find?_new_eq_some_iff (h : Renameable db rs) (k : Key) (r : Rename) :
    (rs.find? fun r => r.new = k) = some r ↔ r ∈ rs ∧ r.new = k := by
  constructor
  · intro hfind
    exact ⟨List.mem_of_find?_eq_some hfind, by simpa using List.find?_some hfind⟩
  · rintro ⟨hr, rfl⟩
    cases hfind : rs.find? fun r' => r'.new = r.new with
    | none => simpa using List.find?_eq_none.mp hfind r hr
    | some r' =>
      have hnew : r'.new = r.new := by simpa using List.find?_some hfind
      rw [h.eq_of_names (List.mem_of_find?_eq_some hfind) hr (Or.inr rfl) (Or.inr hnew)]

/-- A key that is not taken by a change has its new key under its own. -/
theorem formerKey_renamedKey (h : Renameable db rs) {k : Key} (hk : ∀ r ∈ rs, k ≠ r.new) :
    formerKey rs (renamedKey rs k) = k := by
  cases hfind : rename? rs k.1 with
  | none =>
    have hnew : (rs.find? fun r => r.new = k) = none := by
      simpa [List.find?_eq_none] using fun r hr hsame => hk r hr hsame.symm
    simp [formerKey, renamedKey, hfind, hnew]
  | some r =>
    obtain ⟨hr, hold⟩ := (h.rename?_eq_some_iff _ _).mp hfind
    have hnew := (h.find?_new_eq_some_iff r.new r).mpr ⟨hr, rfl⟩
    simp [formerKey, renamedKey, hfind, hnew, Subtype.ext hold]

/-- What is found under a key had another key before, unless that key was taken by a change. -/
theorem renamedKey_formerKey (h : Renameable db rs) {k : Key}
    (hk : ∀ r ∈ rs, formerKey rs k ≠ r.new) : renamedKey rs (formerKey rs k) = k := by
  cases hnew : rs.find? fun r => r.new = k with
  | some r =>
    obtain ⟨hr, rfl⟩ := (h.find?_new_eq_some_iff k r).mp hnew
    have hold := (h.rename?_eq_some_iff r.old.1 r).mpr ⟨hr, rfl⟩
    simp [formerKey, renamedKey, hnew, hold]
  | none =>
    cases hfind : rename? rs k.1 with
    | some r =>
      have hr := ((h.rename?_eq_some_iff _ _).mp hfind).1
      exact absurd (by simp [formerKey, renamedKey, hnew, hfind]) (hk r hr)
    | none => simp [formerKey, renamedKey, hnew, hfind]

/-- No leaf is found under a new name. -/
theorem ne_new_of_get (h : Renameable db rs) {p : Path} {v : Value} (hp : db.get p = some v) {k : Key}
    {rest : Path} (hk : p = Keys.usernames :: k :: rest ∨
      ∃ g, p = Keys.groups :: g :: Keys.members :: k :: rest) : ∀ r ∈ rs, k ≠ r.new := by
  rintro r hr rfl
  rcases hk with rfl | ⟨g, rfl⟩
  · exact h.unlisted r hr ((Store.mem_children _ _ _).mpr ⟨rest, v, hp⟩)
  · exact h.noMember r hr g ((Store.mem_children _ _ _).mpr ⟨rest, v, hp⟩)

/-- The change to a key is the change of the key its entry had before. -/
theorem rename?_formerKey (h : Renameable db rs) {k : Key} (hk : ∀ r ∈ rs, formerKey rs k ≠ r.new) :
    rename? rs (formerKey rs k).1 = rs.find? fun r => r.new = k := by
  refine Option.ext fun r => ?_
  rw [h.rename?_eq_some_iff, h.find?_new_eq_some_iff]
  refine and_congr_right fun hr => ?_
  constructor
  · intro hold
    rw [← h.renamedKey_formerKey hk, renamedKey, (h.rename?_eq_some_iff _ r).mpr ⟨hr, hold⟩]
    rfl
  · rintro rfl
    rw [formerKey, (h.find?_new_eq_some_iff r.new r).mpr ⟨hr, rfl⟩]
    rfl

/-- The two descriptions of the changes agree. -/
theorem renamedAt_eq_some_iff (h : Renameable db rs) (p : Path) (v : Value) :
    renamedAt rs db p = some v ↔ ∃ leaf ∈ db.leaves, renameLeaf rs leaf = (p, v) := by
  have hleaf (leaf : Path × Value) : leaf ∈ db.leaves ↔ db.get leaf.1 = some leaf.2 :=
    (db.get_eq_some_iff leaf.1 leaf.2).symm
  rw [renamedAt, Option.map_eq_some_iff]
  constructor
  · rintro ⟨v₀, hv₀, rfl⟩
    refine ⟨(onNames (formerKey rs) p, v₀), (hleaf _).mpr hv₀, ?_⟩
    have hkey {k : Key} {rest : Path} (hk : p = Keys.usernames :: k :: rest ∨
        ∃ g, p = Keys.groups :: g :: Keys.members :: k :: rest) : ∀ r ∈ rs, formerKey rs k ≠ r.new := by
      have hformer : onNames (formerKey rs) p = Keys.usernames :: formerKey rs k :: rest ∨
          ∃ g, onNames (formerKey rs) p = Keys.groups :: g :: Keys.members :: formerKey rs k :: rest := by
        rcases hk with rfl | ⟨g, rfl⟩
        · exact Or.inl (by simp [onNames])
        · exact Or.inr ⟨g, by simp +decide [onNames, onNames.onMembers]⟩
      exact h.ne_new_of_get hv₀ hformer
    have hlocation : onNames (renamedKey rs) (onNames (formerKey rs) p) = p := by
      apply onNames_onNames
      · exact fun k rest hp => h.renamedKey_formerKey (hkey (Or.inl hp))
      · exact fun g k rest hp => h.renamedKey_formerKey (hkey (Or.inr ⟨g, hp⟩))
    have hmember : memberAt (fun k => rename? rs (formerKey rs k).1) p =
        memberAt (fun k => rs.find? fun r => r.new = k) p :=
      memberAt_congr fun g k hp => h.rename?_formerKey (hkey (Or.inr ⟨g, hp⟩))
    simp only [renameLeaf, hlocation, holdsName_onNames, memberAt_onNames, hmember]
  · rintro ⟨⟨p₀, v₀⟩, hmem, himage⟩
    rw [hleaf] at hmem
    have hlocation : onNames (formerKey rs) (onNames (renamedKey rs) p₀) = p₀ := by
      apply onNames_onNames
      · exact fun k rest hp => h.formerKey_renamedKey (h.ne_new_of_get hmem (Or.inl hp))
      · exact fun g k rest hp => h.formerKey_renamedKey (h.ne_new_of_get hmem (Or.inr ⟨g, hp⟩))
    have hmember : memberAt (fun k => rs.find? fun r => r.new = renamedKey rs k) p₀ =
        memberAt (fun k => rename? rs k.1) p₀ := by
      refine memberAt_congr fun g k hp => ?_
      have hk := h.ne_new_of_get hmem (Or.inr ⟨g, hp⟩)
      rw [← h.rename?_formerKey (by rwa [h.formerKey_renamedKey hk]), h.formerKey_renamedKey hk]
    simp only [renameLeaf, Prod.mk.injEq] at himage
    obtain ⟨rfl, rfl⟩ := himage
    refine ⟨v₀, by rwa [hlocation], ?_⟩
    simp only [holdsName_onNames, memberAt_onNames, hmember]

end Renameable

end GroceryListApp

import GroceryListApp.Services.DataServiceRules

/-!
# What the scans over all groups bring about

A scan brings about a goal at one place when the place is still to be changed as long as the
goal is not reached. The loops before that place must not trap: that is why every group needs
a master and every item of the same list its field.
-/

namespace GroceryListApp

open Realtime

variable {T M : Type*} {c : Contract T Value} {goal : Store Value → Prop} {t : T}

/-- A loop over the children of a read location brings about what it does for one child. -/
theorem brings_children {p : Path} {body : Snapshot Value → Prog M Value} {next : Prog M Value}
    (k : Key) (h : ∀ s : Store Value, c.inv s → ¬ goal s → k ∈ s.children p ∧
      (∀ l ∈ s.children p, (body ⟨l.1, (s.sub p).sub [l]⟩).Steady) ∧
      c.Brings goal t (body ⟨k.1, (s.sub p).sub [k]⟩)) :
    c.Brings goal t (.observe p (fun snapshot => .forEach snapshot.children body) next) := by
  refine Or.inl fun s hs hgoal => ?_
  obtain ⟨hk, hsteady, hbody⟩ := h s hs hgoal
  simp only [Snapshot.children_snapshot]
  refine Contract.brings_forEach (List.mem_map.mpr ⟨k, hk, rfl⟩) (fun child hchild => ?_) hbody
  obtain ⟨l, hl, rfl⟩ := List.mem_map.mp hchild
  exact hsteady l hl

/-- What is stored below a child makes it a child. -/
theorem mem_children_of_get {s : Store Value} {p q : Path} {k : Key} {v : Value}
    (h : s.get (p ++ k :: q) = some v) : k ∈ s.children p :=
  (Store.mem_children s p k).mpr ⟨q, v, h⟩

/-- The scan for masters renames the master of a group that still has the old one. -/
theorem brings_changeMaster {currentUsername changedUsername : String} (g : Key)
    (hne : changedUsername ≠ "")
    (hcast : ∀ s l, c.inv s → l ∈ s.children [Keys.groups] →
      ∃ m, s.get [Keys.groups, l, Keys.master] = some (.string m))
    (hstored : ∀ s, c.inv s → ¬ goal s →
      s.get [Keys.groups, g, Keys.master] = some (.string currentUsername))
    (hwrite : ∀ s, c.inv s → goal ((Write.update [Keys.groups, g]
      [([Keys.master], str changedUsername)]).apply s)) :
    c.Brings goal t (changeMaster currentUsername changedUsername : Prog M Value) := by
  have hname : parsePath "master" = some [Keys.master] := by simp
  refine brings_children g fun s hs hgoal => ⟨?_, fun l hl => ?_, ?_⟩
  · exact mem_children_of_get (p := [Keys.groups]) (hstored s hs hgoal)
  · obtain ⟨m, hm⟩ := hcast s l hs hl
    rw [asString_child (p := [Keys.groups]) hname hm, Prog.force_some]
    split
    · simp [REF_GROUPS, Ref.updateChildValues, Prog.Steady]
    · trivial
  · rw [asString_child (p := [Keys.groups]) hname (hstored s hs hgoal), Prog.force_some, if_pos rfl,
      if_pos hne]
    simpa [REF_GROUPS, Ref.updateChildValues, Contract.Brings] using
      fun s hs _ => hwrite s hs

/-- A scan with a nested read brings about what its inner body does for one child. -/
theorem brings_scan {field : String} {key : Key} (hfield : parsePath field = some [key])
    {body : Snapshot Value → Snapshot Value → Prog M Value} (g k : Key)
    (hgroup : ∀ s : Store Value, c.inv s → ¬ goal s → g ∈ s.children [Keys.groups])
    (hbody : ∀ s s' : Store Value, c.inv s' → ¬ goal s' → k ∈ s'.children [Keys.groups, g, key] ∧
      (∀ l ∈ s'.children [Keys.groups, g, key], (body ⟨g.1, (s.sub [Keys.groups]).sub [g]⟩
        ⟨l.1, (s'.sub [Keys.groups, g, key]).sub [l]⟩).Steady) ∧
      c.Brings goal t (body ⟨g.1, (s.sub [Keys.groups]).sub [g]⟩
        ⟨k.1, (s'.sub [Keys.groups, g, key]).sub [k]⟩)) :
    c.Brings goal t (REF_GROUPS.observeSingleEvent fun groupSnapshot =>
      .forEach groupSnapshot.children fun group =>
        ((REF_GROUPS.child group.key).child field).observeSingleEvent fun snapshot =>
          .forEach snapshot.children (body group) : Prog M Value) := by
  have href (l : Key) : (REF_GROUPS.child l.1).child field = some [Keys.groups, l, key] := by
    simp [REF_GROUPS, Ref.child, hfield]
  refine brings_children g fun s hs hgoal => ⟨hgroup s hs hgoal, fun l hl => ?_, ?_⟩
  · rw [href]
    trivial
  · rw [href]
    exact brings_children k (hbody s)

/-- The scan of an item field renames the field of an item that still has the old name. -/
theorem brings_changeItemField {field : String} {key : Key} (hfield : parsePath field = some [key])
    {currentUsername changedUsername : String} (g k : Key)
    (hcast : ∀ s l, c.inv s → ¬ goal s → l ∈ s.children [Keys.groups, g, Keys.groceryList] →
      ∃ m, s.get [Keys.groups, g, Keys.groceryList, l, key] = some (.string m))
    (hstored : ∀ s, c.inv s → ¬ goal s →
      s.get [Keys.groups, g, Keys.groceryList, k, key] = some (.string currentUsername))
    (hwrite : ∀ s, c.inv s → goal ((Write.update [Keys.groups, g, Keys.groceryList, k]
      [([key], str changedUsername)]).apply s)) :
    c.Brings goal t (changeItemField field currentUsername changedUsername : Prog M Value) := by
  have hlist : parsePath "grocery list" = some [Keys.groceryList] := by simp
  refine brings_scan hlist g k (fun s hs hgoal => ?_) fun s s' hs' hgoal => ⟨?_, fun l hl => ?_, ?_⟩
  · exact mem_children_of_get (p := [Keys.groups]) (hstored s hs hgoal)
  · exact mem_children_of_get (p := [Keys.groups, g, Keys.groceryList]) (hstored s' hs' hgoal)
  · obtain ⟨m, hm⟩ := hcast s' l hs' hgoal hl
    rw [asString_child (p := [Keys.groups, g, Keys.groceryList]) hfield hm, Prog.force_some]
    split
    · simp [REF_GROUPS, Ref.child, Ref.updateChildValues, Prog.Steady, hfield]
    · trivial
  · rw [asString_child (p := [Keys.groups, g, Keys.groceryList]) hfield (hstored s' hs' hgoal),
      Prog.force_some, if_pos rfl]
    simpa [REF_GROUPS, Ref.child, Ref.updateChildValues, Contract.Brings, hfield] using
      fun s hs _ => hwrite s hs

/-- What the scan of members runs for a member with the old name. -/
theorem changeMember_eq (g current changed : Key) (uid : String) :
    (.block [(((REF_GROUPS.child g.1).child "members").child current.1).removeValue,
      ((REF_GROUPS.child g.1).child "members").updateChildValues [(changed.1, str uid)]] :
        Prog M Value) =
      .write (.remove [Keys.groups, g, Keys.members, current])
        (.write (.update [Keys.groups, g, Keys.members] [([changed], str uid)]) .done) := by
  simp [REF_GROUPS, Ref.child, Ref.removeValue, Ref.updateChildValues]

/-- The scan of members removes an old member. -/
theorem brings_changeUsersInGroup {current changed : Key} {uid : String} (g : Key)
    (hstored : ∀ s, c.inv s → ¬ goal s →
      ∃ v, s.get [Keys.groups, g, Keys.members, current] = some v)
    (hremove : ∀ s, c.inv s →
      goal ((Write.remove [Keys.groups, g, Keys.members, current]).apply s)) :
    c.Brings goal t (changeUsersInGroup current.1 changed.1 uid : Prog M Value) := by
  have hmembers : parsePath "members" = some [Keys.members] := by simp
  refine brings_scan hmembers g current (fun s hs hgoal => ?_)
    fun s s' hs' hgoal => ⟨?_, fun l hl => ?_, ?_⟩
  · obtain ⟨v, hv⟩ := hstored s hs hgoal
    exact mem_children_of_get (p := [Keys.groups]) hv
  · obtain ⟨v, hv⟩ := hstored s' hs' hgoal
    exact mem_children_of_get (p := [Keys.groups, g, Keys.members]) hv
  · split
    · rw [changeMember_eq]
      trivial
    · trivial
  · rw [if_pos rfl, changeMember_eq]
    exact Or.inl fun s hs _ => hremove s hs

/-- The scan of members keeps an old member until it is going to add the new one. -/
theorem hands_changeUsersInGroup {current changed : Key} {uid : String} (g : Key)
    (hne : current ≠ changed)
    (hwrite : ∀ s, c.inv s →
      goal ((Write.update [Keys.groups, g, Keys.members] [([changed], str uid)]).apply s)) :
    c.Hands goal (fun s => ∃ v, s.get [Keys.groups, g, Keys.members, current] = some v) t
      (changeUsersInGroup current.1 changed.1 uid : Prog M Value) := by
  refine ⟨fun s _ => Contract.hands_forEach fun group hgroup => ?_, trivial⟩
  rw [Snapshot.children_snapshot] at hgroup
  obtain ⟨l, -, rfl⟩ := List.mem_map.mp hgroup
  have href : (REF_GROUPS.child l.1).child "members" = some [Keys.groups, l, Keys.members] := by
    simp [REF_GROUPS, Ref.child]
  rw [href]
  refine ⟨fun s' _ => Contract.hands_forEach fun member _ => ?_, trivial⟩
  split
  · rw [← href, changeMember_eq]
    refine ⟨?_, Or.inl ?_, trivial⟩
    · by_cases hl : l = g
      · right
        subst hl
        exact Or.inl fun s hs _ => hwrite s hs
      · left
        rintro s - - ⟨v, hv⟩
        refine ⟨v, (get_apply_of_apart ?_ s).trans hv⟩
        exact (apart_cons _ _ _).mpr (apart_of_ne hl _ _)
    · rintro s - - ⟨v, hv⟩
      refine ⟨v, (get_update_of_apart (fun entry hentry => ?_) s).trans hv⟩
      rw [List.mem_singleton.mp hentry, List.cons_append, apart_cons]
      by_cases hl : l = g
      · subst hl
        simpa using apart_of_ne hne.symm [] []
      · exact apart_of_ne hl _ _
  · trivial

end GroceryListApp

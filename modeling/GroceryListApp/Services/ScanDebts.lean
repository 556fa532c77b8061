import GroceryListApp.Realtime.Debts
import GroceryListApp.Services.ScanProgress

/-!
# What the scans over all groups owe

A scan owes a goal at one place when the place still holds what the scan looks for as long as the
goal is not reached. No care has to be taken of the places that are visited before: a scan that is
stuck on the way stays pending.
-/

namespace GroceryListApp

open Realtime

variable {M : Type*} {goal : Store Value → Prop}

/-- A loop over the children of a read location owes what it owes for one child. -/
theorem owes_children {p : Path} {body : Snapshot Value → Prog M Value} {next : Prog M Value} (k : Key)
    (h : ∀ s : Store Value, ¬ goal s → k ∈ s.children p ∧ (body ⟨k.1, (s.sub p).sub [k]⟩).Owes goal) :
    (Prog.observe p (fun snapshot => .forEach snapshot.children body) next).Owes goal := by
  refine Or.inl fun s hgoal => ?_
  obtain ⟨hk, hbody⟩ := h s hgoal
  simp only [Snapshot.children_snapshot]
  exact Prog.owes_forEach (List.mem_map.mpr ⟨k, hk, rfl⟩) hbody

/-- A scan with a nested read owes what its inner body owes for one child. -/
theorem owes_scan {field : String} {key : Key} (hfield : parsePath field = some [key])
    {body : Snapshot Value → Snapshot Value → Prog M Value} (g k : Key)
    (hstored : ∀ s : Store Value, ¬ goal s → k ∈ s.children [Keys.groups, g, key])
    (hbody : ∀ s s' : Store Value, ¬ goal s' → (body ⟨g.1, (s.sub [Keys.groups]).sub [g]⟩
      ⟨k.1, (s'.sub [Keys.groups, g, key]).sub [k]⟩).Owes goal) :
    (REF_GROUPS.observeSingleEvent fun groupSnapshot =>
      .forEach groupSnapshot.children fun group =>
        ((REF_GROUPS.child group.key).child field).observeSingleEvent fun snapshot =>
          .forEach snapshot.children (body group) : Prog M Value).Owes goal := by
  have href : (REF_GROUPS.child g.1).child field = some [Keys.groups, g, key] := by
    simp [REF_GROUPS, Ref.child, hfield]
  refine owes_children g fun s hgoal => ⟨?_, ?_⟩
  · obtain ⟨q, v, hv⟩ := (Store.mem_children _ _ _).mp (hstored s hgoal)
    exact mem_children_of_get (p := [Keys.groups]) hv
  · rw [href]
    exact owes_children k fun s' hgoal' => ⟨hstored s' hgoal', hbody s s' hgoal'⟩

/-- The scan of an item field owes the new name to an item that has the old one. -/
theorem owes_changeItemField {field : String} {key : Key} (hfield : parsePath field = some [key])
    {currentUsername changedUsername : String} (g k : Key)
    (hstored : ∀ s : Store Value, ¬ goal s →
      s.get [Keys.groups, g, Keys.groceryList, k, key] = some (.string currentUsername))
    (hwrite : ∀ s : Store Value, goal ((Write.update [Keys.groups, g, Keys.groceryList, k]
      [([key], str changedUsername)]).apply s)) :
    (changeItemField field currentUsername changedUsername : Prog M Value).Owes goal := by
  have hlist : parsePath "grocery list" = some [Keys.groceryList] := by simp
  refine owes_scan hlist g k (fun s hgoal => ?_) fun s s' hgoal => ?_
  · exact mem_children_of_get (p := [Keys.groups, g, Keys.groceryList]) (hstored s hgoal)
  · rw [asString_child (p := [Keys.groups, g, Keys.groceryList]) hfield (hstored s' hgoal),
      Prog.force_some, if_pos rfl]
    simpa [REF_GROUPS, Ref.child, Ref.updateChildValues, Prog.Owes, hfield] using hwrite

/-- The scan of members owes the removal of a member with the old name. -/
theorem owes_changeUsersInGroup {changedUsername uid : String} (g k : Key)
    (hstored : ∀ s : Store Value, ¬ goal s → k ∈ s.children (membersPath g))
    (hremove : ∀ s : Store Value, goal ((Write.remove (membersPath g ++ [k])).apply s)) :
    (changeUsersInGroup k.1 changedUsername uid : Prog M Value).Owes goal := by
  have hmembers : parsePath "members" = some [Keys.members] := by simp
  refine owes_scan hmembers g k hstored fun s s' _ => ?_
  rw [if_pos rfl]
  refine Prog.Owes.seq_left ?_ _
  simpa [REF_GROUPS, Ref.child, Ref.removeValue, Prog.Owes, membersPath] using hremove

/-- The scan of a deletion owes the removal of a member with the name. -/
theorem owes_deleteFromGroups (g k : Key)
    (hstored : ∀ s : Store Value, ¬ goal s → k ∈ s.children (membersPath g))
    (hremove : ∀ s : Store Value, goal ((Write.remove (membersPath g ++ [k])).apply s)) :
    (deleteFromGroups k.1 : Prog M Value).Owes goal := by
  have hmembers : parsePath "members" = some [Keys.members] := by simp
  refine owes_scan hmembers g k hstored fun s s' _ => ?_
  rw [if_pos rfl]
  simpa [REF_GROUPS, Ref.child, Ref.removeValue, Prog.Owes, membersPath] using hremove

end GroceryListApp

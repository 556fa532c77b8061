import GroceryListApp.Realtime.Program

/-!
# Subtrees under writes

A write outside a subtree leaves it as it is, leaf for leaf. A write inside a subtree does to
it what it does to any tree that contains the same subtree. So the content of a subtree is
decided by the writes inside it, in their order, and a read inside it is answered by the
subtree alone.
-/

namespace GroceryListApp.Realtime

variable {V : Type*}

namespace Store

/-- A tree is given by its leaves. -/
theorem eq_of_leaves {s t : Store V} (h : s.leaves = t.leaves) : s = t := by
  cases s
  cases t
  simpa using h

/-- A removal where nothing is stored leaves the tree as it is. -/
theorem remove_eq_self {s : Store V} {p : Path} {k : Key} (h : k ∉ s.children p) :
    s.remove (p ++ [k]) = s := by
  refine eq_of_leaves (List.filter_eq_self.mpr fun entry hentry => ?_)
  simp only [decide_not, Bool.not_eq_eq_eq_not, Bool.not_true, decide_eq_false_iff_not]
  rintro ⟨r, hr⟩
  refine h ((mem_children _ _ _).mpr ⟨r, entry.2, (get_eq_some_iff _ _ _).mpr ?_⟩)
  rw [show p ++ k :: r = entry.1 by simpa using hr]
  exact hentry

/-- The subtree of a subtree. -/
theorem sub_sub (s : Store V) (p q : Path) : (s.sub p).sub q = s.sub (p ++ q) := by
  apply eq_of_leaves
  simp only [sub, List.filterMap_filterMap]
  congr 1
  funext entry
  by_cases hp : p <+: entry.1
  · obtain ⟨rest, hrest⟩ := hp
    have hdrop : entry.1.drop (p ++ q).length = rest.drop q.length := by
      rw [← hrest, List.length_append, ← List.drop_drop, List.drop_left]
    simp only [hdrop]
    simp [← hrest, List.prefix_append_right_inj]
  · have hpq : ¬ p ++ q <+: entry.1 := fun h => hp ((List.prefix_append p q).trans h)
    simp [hp, hpq]

/-- Removing elsewhere leaves a subtree alone. -/
theorem sub_remove_of_apart {p q : Path} (h : Apart q p) (s : Store V) :
    (s.remove q).sub p = s.sub p := by
  apply eq_of_leaves
  simp only [sub, remove, List.filterMap_filter]
  congr 1
  funext entry
  by_cases hp : p <+: entry.1
  · obtain ⟨rest, hrest⟩ := hp
    have hq : ¬ q <+: entry.1 := hrest ▸ (h.symm.append_left rest).2
    simp [hq]
  · simp [hp]

/-- Placing a tree elsewhere leaves a subtree alone. -/
theorem sub_put_of_apart {p q : Path} (h : Apart q p) (s d : Store V) :
    (s.put q d).sub p = s.sub p := by
  by_cases hd : d.leaves = []
  · rw [put, if_pos hd]
    exact sub_remove_of_apart h s
  apply eq_of_leaves
  simp only [sub, put, if_neg hd, clear, List.filterMap_append, List.filterMap_filter]
  have hnew : (d.leaves.map fun entry => (q ++ entry.1, entry.2)).filterMap (fun entry =>
      if p <+: entry.1 then some (entry.1.drop p.length, entry.2) else none) = [] := by
    rw [List.filterMap_map, List.filterMap_eq_nil_iff]
    intro entry _
    exact if_neg (h.append_left entry.1).2
  rw [hnew, List.append_nil]
  congr 1
  funext entry
  by_cases hp : p <+: entry.1
  · obtain ⟨rest, hrest⟩ := hp
    have hq : Apart q entry.1 := hrest ▸ (h.symm.append_left rest).symm
    simp [hq]
  · simp [hp]

/-- Removing inside a subtree is removing from the subtree. -/
theorem sub_remove_append (s : Store V) (p q : Path) :
    (s.remove (p ++ q)).sub p = (s.sub p).remove q := by
  apply eq_of_leaves
  simp only [sub, remove, List.filterMap_filter, List.filter_filterMap]
  congr 1
  funext entry
  by_cases hp : p <+: entry.1
  · obtain ⟨rest, hrest⟩ := hp
    by_cases hq : q <+: rest <;> simp [← hrest, List.prefix_append_right_inj, Option.filter, hq]
  · simp [hp]

/-- Placing a tree inside a subtree is placing it in the subtree. -/
theorem sub_put_append (s : Store V) (p q : Path) (d : Store V) :
    (s.put (p ++ q) d).sub p = (s.sub p).put q d := by
  by_cases hd : d.leaves = []
  · rw [put, if_pos hd, put, if_pos hd]
    exact sub_remove_append s p q
  apply eq_of_leaves
  simp only [sub, put, if_neg hd, clear, List.filterMap_append, List.filterMap_filter,
    List.filter_filterMap]
  congr 1
  · congr 1
    funext entry
    by_cases hp : p <+: entry.1
    · obtain ⟨rest, hrest⟩ := hp
      by_cases hq : Apart q rest <;> simp [← hrest, Option.filter, hq]
    · simp [hp]
  · rw [List.filterMap_map]
    simp [List.append_assoc]

/-- A read inside a subtree is answered by the subtree alone. -/
theorem snapshot_congr {s t : Store V} {p q : Path} (h : s.sub p = t.sub p) (hq : p <+: q) :
    s.snapshot q = t.snapshot q := by
  obtain ⟨rest, rfl⟩ := hq
  rw [snapshot, snapshot, ← sub_sub, ← sub_sub, h]

end Store

/-- An update whose entries lie elsewhere leaves a subtree alone. -/
theorem Write.sub_update_of_apart {p q : Path} {entries : List (Path × Store V)}
    (h : ∀ entry ∈ entries, Apart (q ++ entry.1) p) (s : Store V) :
    ((Write.update q entries).apply s).sub p = s.sub p := by
  simp only [Write.apply]
  induction entries generalizing s with
  | nil => rfl
  | cons entry rest ih =>
    rw [List.foldl_cons, ih fun other hother => h other (List.mem_cons_of_mem _ hother)]
    exact Store.sub_put_of_apart (h entry List.mem_cons_self) s entry.2

/-- A write elsewhere leaves a subtree alone. -/
theorem Write.sub_apply_of_apart {w : Write V} {p : Path} (h : Apart w.location p) (s : Store V) :
    (w.apply s).sub p = s.sub p := by
  cases w with
  | remove q => exact Store.sub_remove_of_apart h s
  | update q entries => exact Write.sub_update_of_apart (fun entry _ => h.append_left entry.1) s

/-- A write inside a subtree does the same to every tree that contains the subtree. -/
theorem Write.sub_apply_congr {w : Write V} {p : Path} (hw : p <+: w.location) {s t : Store V}
    (h : s.sub p = t.sub p) : (w.apply s).sub p = (w.apply t).sub p := by
  cases w with
  | remove q =>
    obtain ⟨rest, rfl⟩ := hw
    simp only [Write.apply]
    rw [Store.sub_remove_append, Store.sub_remove_append, h]
  | update q entries =>
    obtain ⟨rest, rfl⟩ := hw
    simp only [Write.apply]
    induction entries generalizing s t with
    | nil => exact h
    | cons entry others ih =>
      apply ih
      simp only [List.append_assoc]
      rw [Store.sub_put_append, Store.sub_put_append, h]

/-- The content of a subtree is decided by the writes inside it, when all others lie elsewhere. -/
theorem sub_foldl_apply {p : Path} {inside : Write V → Prop} [DecidablePred inside]
    {changes : List (Write V)} (hin : ∀ w ∈ changes, inside w → p <+: w.location)
    (hout : ∀ w ∈ changes, ¬ inside w → ∀ s, (w.apply s).sub p = s.sub p) {s t : Store V}
    (h : s.sub p = t.sub p) :
    (changes.foldl (fun s w => w.apply s) s).sub p =
      ((changes.filter fun w => inside w).foldl (fun s w => w.apply s) t).sub p := by
  induction changes generalizing s t with
  | nil => exact h
  | cons w rest ih =>
    have hin' : ∀ w ∈ rest, inside w → p <+: w.location :=
      fun v hv => hin v (List.mem_cons_of_mem _ hv)
    have hout' : ∀ w ∈ rest, ¬ inside w → ∀ s, (w.apply s).sub p = s.sub p :=
      fun v hv => hout v (List.mem_cons_of_mem _ hv)
    by_cases hw : inside w
    · rw [List.filter_cons_of_pos (by simpa using hw), List.foldl_cons, List.foldl_cons]
      exact ih hin' hout' (Write.sub_apply_congr (hin w List.mem_cons_self hw) h)
    · rw [List.filter_cons_of_neg (by simpa using hw), List.foldl_cons]
      exact ih hin' hout' ((hout w List.mem_cons_self hw s).trans h)

end GroceryListApp.Realtime

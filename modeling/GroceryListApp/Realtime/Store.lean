import GroceryListApp.Realtime.Path
import Mathlib.Data.List.Dedup
import Mathlib.Data.List.Pairwise
import Mathlib.Data.List.Sort

/-!
# A hierarchical store of leaves

A database tree is kept as the list of its leaves, each with its full location. No leaf
lies at or below another, so a node is either a leaf or has children, and a node whose
last leaf is removed is gone: there are no empty nodes to represent.

Writing below a leaf turns it into an inner node, and writing a leaf over an inner node
drops everything below it. Removing reaches only downwards.
-/

namespace GroceryListApp.Realtime

/-- A finite tree, given by its leaves. -/
structure Store (V : Type*) where
  leaves : List (Path × V)
  apart : leaves.Pairwise fun a b => Apart a.1 b.1

namespace Store

variable {V : Type*}

/-- The tree without nodes. -/
def empty : Store V := ⟨[], List.Pairwise.nil⟩

/-- The tree that is one value. -/
def leaf (v : V) : Store V := ⟨[([], v)], List.pairwise_singleton _ _⟩

/-- The value stored at a location, if the location is a leaf. -/
def get (s : Store V) (p : Path) : Option V :=
  (s.leaves.find? fun entry => entry.1 = p).map Prod.snd

/-- Remove the node at a location with everything below it. -/
def remove (s : Store V) (p : Path) : Store V :=
  ⟨s.leaves.filter fun entry => ¬ p <+: entry.1, s.apart.filter _⟩

/-- Two leaves at one location are the same leaf. -/
theorem eq_of_mem {s : Store V} {a b : Path × V} (ha : a ∈ s.leaves) (hb : b ∈ s.leaves)
    (h : a.1 <+: b.1) : a = b := by
  by_contra hne
  have hsymm : Std.Symm fun a b : Path × V => Apart a.1 b.1 := ⟨fun _ _ h => h.symm⟩
  exact (List.Pairwise.forall s.apart ha hb hne).1 h

/-- Looking up a location finds exactly the stored leaf. -/
theorem get_eq_some_iff (s : Store V) (p : Path) (v : V) :
    s.get p = some v ↔ (p, v) ∈ s.leaves := by
  constructor
  · intro h
    obtain ⟨⟨q, w⟩, hfind, hvalue⟩ := Option.map_eq_some_iff.mp h
    have hq : q = p := by simpa using List.find?_some hfind
    subst hq hvalue
    exact List.mem_of_find?_eq_some hfind
  · intro h
    cases hfind : s.leaves.find? fun entry => entry.1 = p with
    | none => simpa using List.find?_eq_none.mp hfind (p, v) h
    | some found =>
      have hp : found.1 = p := by simpa using List.find?_some hfind
      have hfound := eq_of_mem (List.mem_of_find?_eq_some hfind) h (by simp [hp])
      simp [get, hfind, hfound]

/-- A leaf excludes leaves below it. -/
theorem get_append_of_get {s : Store V} {p : Path} {v : V} (h : s.get p = some v) {q : Path}
    (hq : q ≠ []) : s.get (p ++ q) = none := by
  refine Option.eq_none_iff_forall_ne_some.mpr fun w hw => hq ?_
  have := eq_of_mem ((get_eq_some_iff s p v).mp h) ((get_eq_some_iff s _ w).mp hw)
    (List.prefix_append p q)
  simpa using congrArg Prod.fst this

/-- The empty tree stores nothing. -/
@[simp] theorem get_empty (p : Path) : (empty : Store V).get p = none := rfl

/-- A single value is stored at the root only. -/
@[simp] theorem get_leaf (v : V) (p : Path) : (leaf v).get p = if p = [] then some v else none := by
  by_cases h : p = []
  · simp [leaf, get, h]
  · simp [leaf, get, h, Ne.symm h]

/-- Removal clears a location and what lies below, and nothing else. -/
theorem get_remove (s : Store V) (p q : Path) :
    (s.remove p).get q = if p <+: q then none else s.get q := by
  refine Option.ext fun v => ?_
  by_cases h : p <+: q <;> simp [get_eq_some_iff, remove, h]

/-- What is left after a removal was stored before, elsewhere. -/
theorem get_remove_eq_some_iff (s : Store V) (p q : Path) (v : V) :
    (s.remove p).get q = some v ↔ ¬ p <+: q ∧ s.get q = some v := by
  simp [get_remove]

/-- The leaves that lie apart from a location. -/
def clear (s : Store V) (p : Path) : Store V :=
  ⟨s.leaves.filter fun entry => Apart p entry.1, s.apart.filter _⟩

/-- Place a tree at a location, replacing what lies above and below it.
Placing the empty tree is a removal. -/
def put (s : Store V) (p : Path) (d : Store V) : Store V :=
  if d.leaves = [] then s.remove p else
    ⟨(s.clear p).leaves ++ d.leaves.map fun entry => (p ++ entry.1, entry.2), by
      refine List.pairwise_append.mpr ⟨(s.clear p).apart, ?_, ?_⟩
      · exact List.pairwise_map.mpr (d.apart.imp fun h => (apart_append_left p _ _).mpr h)
      · rintro a ha b hb
        obtain ⟨entry, -, rfl⟩ := List.mem_map.mp hb
        have hp : Apart p a.1 := by simpa using (List.mem_filter.mp ha).2
        refine ⟨fun h => ?_, fun h => hp.1 ((List.prefix_append p entry.1).trans h)⟩
        rcases List.prefix_or_prefix_of_prefix h (List.prefix_append p entry.1) with h | h
        · exact hp.2 h
        · exact hp.1 h⟩

/-- What a location holds after a tree was placed somewhere. -/
theorem get_put (s : Store V) (p : Path) (d : Store V) (q : Path) :
    (s.put p d).get q =
      if p <+: q then d.get (q.drop p.length)
      else if q <+: p ∧ d.leaves ≠ [] then none else s.get q := by
  refine Option.ext fun v => ?_
  by_cases hd : d.leaves = []
  · have hnone : ∀ r, d.get r = none := fun r => by simp [get, hd]
    by_cases h : p <+: q <;> simp [put, hd, get_remove, h, hnone]
  · by_cases h : p <+: q
    · obtain ⟨r, rfl⟩ := h
      simp [put, hd, get_eq_some_iff, clear, Apart]
    · have hbelow : ∀ r, p ++ r ≠ q := fun r hr => h ⟨r, hr⟩
      by_cases hq : q <+: p <;>
        simp [put, hd, get_eq_some_iff, clear, Apart, h, hq, hbelow]

/-- Placing a tree leaves every location apart from it alone. -/
theorem get_put_of_apart (s : Store V) {p q : Path} (h : Apart p q) (d : Store V) :
    (s.put p d).get q = s.get q := by
  simp [get_put, h.1, h.2]

/-- The first key below a location on the way to a leaf. -/
def keyBelow (p : Path) (entry : Path × V) : Option Key :=
  if p <+: entry.1 then entry.1[p.length]? else none

/-- The keys of the children of a node, in database order. -/
def children (s : Store V) (p : Path) : List Key :=
  (s.leaves.filterMap (keyBelow p)).dedup.insertionSort fun k l => keyRank k ≤ keyRank l

/-- A key is a child exactly when some leaf lies below it. -/
theorem mem_children (s : Store V) (p : Path) (k : Key) :
    k ∈ s.children p ↔ ∃ r v, s.get (p ++ k :: r) = some v := by
  have hbelow (entry : Path × V) : keyBelow p entry = some k ↔ ∃ r, entry.1 = p ++ k :: r := by
    constructor
    · intro h
      unfold keyBelow at h
      split at h
      · next hp =>
        obtain ⟨rest, hrest⟩ := hp
        rw [← hrest, List.getElem?_append_right le_rfl, Nat.sub_self] at h
        cases rest with
        | nil => simp at h
        | cons l r =>
          have : l = k := by simpa using h
          exact ⟨r, by rw [← hrest, this]⟩
      · contradiction
    · rintro ⟨r, hr⟩
      simp [keyBelow, hr]
  rw [children, List.mem_insertionSort, List.mem_dedup, List.mem_filterMap]
  constructor
  · rintro ⟨⟨q, v⟩, hmem, hkey⟩
    obtain ⟨r, hr⟩ := (hbelow (q, v)).mp hkey
    refine ⟨r, v, ?_⟩
    rw [get_eq_some_iff, ← hr]
    exact hmem
  · rintro ⟨r, v, h⟩
    exact ⟨(p ++ k :: r, v), (get_eq_some_iff s _ v).mp h, (hbelow _).mpr ⟨r, rfl⟩⟩

/-- A child that is left by a removal has a leaf elsewhere. -/
theorem mem_children_remove {s : Store V} {p q : Path} {k : Key} :
    k ∈ (s.remove q).children p ↔ ∃ r v, ¬ q <+: p ++ k :: r ∧ s.get (p ++ k :: r) = some v := by
  simp only [mem_children, get_remove_eq_some_iff]

/-- Every child is listed once. -/
theorem nodup_children (s : Store V) (p : Path) : (s.children p).Nodup :=
  (List.perm_insertionSort _ _).nodup_iff.mpr (List.nodup_dedup _)

/-- The children are listed in database order. -/
theorem sorted_children (s : Store V) (p : Path) :
    (s.children p).Pairwise fun k l => keyRank k ≤ keyRank l := by
  have : Std.Total fun k l : Key => keyRank k ≤ keyRank l := ⟨fun _ _ => le_total _ _⟩
  have : IsTrans Key fun k l => keyRank k ≤ keyRank l := ⟨fun _ _ _ => le_trans⟩
  exact List.pairwise_insertionSort _ _

/-- Trees with the same children list them the same way. -/
theorem children_eq_of_mem_iff {s t : Store V} {p q : Path}
    (h : ∀ k, k ∈ s.children p ↔ k ∈ t.children q) : s.children p = t.children q := by
  refine List.Perm.eq_of_pairwise (fun k l _ _ hkl hlk => ?_) (sorted_children s p)
    (sorted_children t q) ((List.perm_ext_iff_of_nodup (nodup_children s p) (nodup_children t q)).mpr h)
  exact keyRank_injective (le_antisymm hkl hlk)

/-- The tree hanging below a location. -/
def sub (s : Store V) (p : Path) : Store V where
  leaves := s.leaves.filterMap fun entry =>
    if p <+: entry.1 then some (entry.1.drop p.length, entry.2) else none
  apart := by
    refine (List.pairwise_filterMap).mpr (s.apart.imp ?_)
    rintro a b hab c hc d hd
    split at hc <;> simp only [Option.some.injEq, reduceCtorEq] at hc
    split at hd <;> simp only [Option.some.injEq, reduceCtorEq] at hd
    next ha hb =>
      obtain ⟨r, hr⟩ := ha
      obtain ⟨t, ht⟩ := hb
      subst hc hd
      simpa [← hr, ← ht] using hab

/-- Reading below a location is reading the tree that hangs there. -/
@[simp] theorem get_sub (s : Store V) (p q : Path) : (s.sub p).get q = s.get (p ++ q) := by
  refine Option.ext fun v => ?_
  simp only [get_eq_some_iff, sub, List.mem_filterMap, Option.ite_none_right_eq_some,
    Option.some.injEq, Prod.mk.injEq]
  constructor
  · rintro ⟨⟨r, w⟩, hmem, hr, hq, rfl⟩
    obtain ⟨t, rfl⟩ := hr
    rw [List.drop_left] at hq
    rwa [← hq]
  · intro h
    exact ⟨(p ++ q, v), h, List.prefix_append p q, by simp, rfl⟩

/-- The children of a subtree are those of the node it was taken from. -/
@[simp] theorem children_sub (s : Store V) (p q : Path) :
    (s.sub p).children q = s.children (p ++ q) :=
  children_eq_of_mem_iff fun k => by simp [mem_children]

end Store

end GroceryListApp.Realtime

import GroceryListApp.Realtime.Collection
import Mathlib

/-!
# How many records of a collection have a property

A property of records that depends on the record only is counted over the children of a location. A
write into one record changes the count by that record, and a write elsewhere leaves it; so a counter
that is kept beside a collection can be compared with it one write at a time.
-/

namespace GroceryListApp.Realtime

variable {V : Type*}

/-- A test of records that depends on what is stored at and below them. -/
def LocalTest (q : Store V → Path → Bool) : Prop :=
  ∀ ⦃s s' : Store V⦄ ⦃p : Path⦄, (∀ r, s'.get (p ++ r) = s.get (p ++ r)) → q s' p = q s p

/-- How many records below a location pass a test. -/
def tally (q : Store V → Path → Bool) (s : Store V) (p : Path) : ℕ :=
  (s.children p).countP fun k => q s (p ++ [k])

/-- A record is stored and passes a test. -/
def Passes (q : Store V → Path → Bool) (s : Store V) (p : Path) (k : Key) : Prop :=
  k ∈ s.children p ∧ q s (p ++ [k]) = true

instance (q : Store V → Path → Bool) (s : Store V) (p : Path) (k : Key) : Decidable (Passes q s p k) :=
  inferInstanceAs (Decidable (_ ∧ _))

section

variable {q : Store V → Path → Bool} {s : Store V} {p : Path}

/-- One record counts one if it passes, and the others are counted without it. -/
theorem tally_eq (q : Store V → Path → Bool) (s : Store V) (p : Path) (k : Key) :
    tally q s p = ((s.children p).erase k).countP (fun l => q s (p ++ [l])) +
      if Passes q s p k then 1 else 0 := by
  unfold tally Passes
  by_cases hk : k ∈ s.children p
  · rw [(List.perm_cons_erase hk).countP_eq, List.countP_cons]
    simp [hk]
  · rw [List.erase_of_not_mem hk]
    simp [hk]

/-- What does not change anything below the collection keeps the count. -/
theorem tally_congr (hq : LocalTest q) {s' : Store V} (hsame : ∀ r, s'.get (p ++ r) = s.get (p ++ r)) :
    tally q s' p = tally q s p := by
  unfold tally
  rw [children_congr hsame]
  congr 1
  funext k
  refine hq fun r => ?_
  rw [List.append_assoc]
  exact hsame _

/-- An update of entries apart from the collection keeps the count. -/
theorem tally_update_of_apart (hq : LocalTest q) {r : Path} {entries : List (Path × Store V)}
    (hentries : ∀ entry ∈ entries, Apart (r ++ entry.1) p) :
    tally q ((Write.update r entries).apply s) p = tally q s p :=
  tally_congr hq fun below => get_update_of_apart
    (fun entry hentry => ((hentries entry hentry).symm.append_left below).symm) s

/-- A write into one record changes the count by that record. -/
theorem tally_apply_below (hq : LocalTest q) {w : Write V} {k : Key} (hw : p ++ [k] <+: w.location) :
    tally q (w.apply s) p + (if Passes q s p k then 1 else 0) =
      tally q s p + if Passes q (w.apply s) p k then 1 else 0 := by
  have hframe {l : Key} (hl : l ≠ k) (r : Path) :
      (w.apply s).get (p ++ l :: r) = s.get (p ++ l :: r) := by
    obtain ⟨rest, hrest⟩ := hw
    apply get_apply_of_apart
    rw [← hrest, List.append_assoc, apart_append_left]
    exact apart_of_ne (Ne.symm hl) _ _
  have hothers : (((w.apply s).children p).erase k).Perm ((s.children p).erase k) := by
    apply (List.perm_ext_iff_of_nodup ((Store.nodup_children _ _).erase k)
      ((Store.nodup_children _ _).erase k)).mpr
    intro l
    rw [(Store.nodup_children _ _).mem_erase_iff, (Store.nodup_children _ _).mem_erase_iff]
    refine and_congr_right fun hl => ?_
    rw [Store.mem_children, Store.mem_children]
    simp only [hframe hl]
  have htests : (((w.apply s).children p).erase k).countP (fun l => q (w.apply s) (p ++ [l])) =
      ((s.children p).erase k).countP fun l => q s (p ++ [l]) := by
    rw [← hothers.countP_eq]
    apply List.countP_congr
    intro l hl
    have hne : l ≠ k := ((Store.nodup_children _ _).mem_erase_iff.mp hl).1
    have hsame : q (w.apply s) (p ++ [l]) = q s (p ++ [l]) := by
      refine hq fun r => ?_
      rw [List.append_assoc]
      exact hframe hne r
    rw [hsame]
  rw [tally_eq q (w.apply s) p k, tally_eq q s p k, htests]
  omega

/-- A removed record does not pass any more. -/
theorem not_passes_remove (k : Key) : ¬ Passes q ((Write.remove (p ++ [k])).apply s) p k := by
  rintro ⟨hk, -⟩
  obtain ⟨r, v, hv⟩ := (Store.mem_children _ _ _).mp hk
  rw [Write.apply, Store.get_remove_eq_some_iff] at hv
  exact hv.1 ⟨r, by simp⟩

/-- Without children nothing is counted. -/
theorem tally_of_children_eq_nil (h : s.children p = []) : tally q s p = 0 := by
  rw [tally, h]
  rfl

/-! ### A counter beside the collection -/

/-- How far a counter is ahead of the records that it counts; where no number is stored, it never agrees. -/
def surplus (count : Option ℤ) (q : Store V → Path → Bool) (s : Store V) (p : Path) : WithTop ℤ :=
  count.elim ⊤ fun n => ((n - tally q s p : ℤ) : WithTop ℤ)

/-- A counter that is ahead by nothing is the number of records. -/
theorem surplus_eq_zero_iff {count : Option ℤ} : surplus count q s p = 0 ↔ count = some (tally q s p : ℤ) := by
  cases count with
  | none => simp [surplus]
  | some n =>
    rw [surplus, Option.elim_some, WithTop.coe_eq_zero, Option.some.injEq]
    omega

/-- What is added to the counter makes it come ahead, and what is added to the records makes it fall
behind. -/
theorem surplus_add {count count' : Option ℤ} {s' : Store V} {added more : ℤ}
    (hcount : count' = count.map (· + added)) (htally : (tally q s' p : ℤ) = tally q s p + more) :
    surplus count' q s' p = surplus count q s p + ((added - more : ℤ) : WithTop ℤ) := by
  subst hcount
  cases count with
  | none => rfl
  | some n =>
    simp only [surplus, Option.map_some, Option.elim_some, htally, ← WithTop.coe_add]
    congr 1
    omega

end

end GroceryListApp.Realtime

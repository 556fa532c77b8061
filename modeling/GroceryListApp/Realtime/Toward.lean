import GroceryListApp.Realtime.Settle

/-!
# Changing a database towards a target

Inside a region each location holds its initial content or the content it is to have in the
end. A write is permitted when it gives every location of the region its target content or
leaves it alone. Once no program is pending that still brings about a location, the region
has reached the target.
-/

namespace GroceryListApp.Realtime

variable {T V : Type*}

/-- The contract of programs that change a region of a database towards a target. Locations
listed to be left alone are not written at all. -/
def toward (crash : Prop) (region : Path → Prop) (initial target : Path → Option V)
    (alone : List Path) : Contract T V where
  inv s := ∀ p, region p → s.get p = initial p ∨ s.get p = target p
  may _ _ _ := True
  keeps s s' := (∀ p, region p → s'.get p = s.get p ∨ s'.get p = target p) ∧
    ∀ p ∈ alone, s'.get p = s.get p
  crash := crash
  inv_of_keeps {s s'} hs hkeeps p hp := by
    rcases hkeeps.1 p hp with hsame | hnew
    · exact hsame ▸ hs p hp
    · exact Or.inr hnew

namespace toward

variable {crash : Prop} {region : Path → Prop} {initial target : Path → Option V}
  {alone : List Path} {t : T}

/-- A location keeps its target content. -/
theorem keeps_target {s s' : Store V} {p : Path}
    (hkeeps : (toward (T := T) crash region initial target alone).keeps s s') (hp : region p)
    (htarget : s.get p = target p) : s'.get p = target p := by
  rcases hkeeps.1 p hp with hsame | hnew
  · exact hsame.trans htarget
  · exact hnew

/-- Writing the content a location is to have is permitted. -/
theorem permits_put {location suffix : Path} {v : V} (hvalue : target (location ++ suffix) = some v)
    (htree : ∀ p, region p → p ≠ location ++ suffix →
      location ++ suffix <+: p ∨ p <+: location ++ suffix → target p = none)
    (halone : ∀ p ∈ alone, Apart (location ++ suffix) p) :
    (toward crash region initial target alone).Permits t
      (.update location [(suffix, .leaf v)]) := by
  intro s _ _
  refine ⟨fun p hp => ?_, fun p hp => ?_⟩
  · simp only [Write.apply, List.foldl_cons, List.foldl_nil, Store.get_put, Store.get_leaf]
    by_cases hsame : p = location ++ suffix
    · right
      simp [hsame, hvalue]
    · by_cases hbelow : location ++ suffix <+: p
      · right
        rw [if_pos hbelow, htree p hp hsame (Or.inl hbelow), if_neg]
        obtain ⟨rest, rfl⟩ := hbelow
        simpa using hsame
      · rw [if_neg hbelow]
        by_cases habove : p <+: location ++ suffix
        · right
          simp [habove, Store.leaf, htree p hp hsame (Or.inr habove)]
        · left
          simp [habove]
  · apply get_update_of_apart
    intro entry hentry
    rw [List.mem_singleton.mp hentry]
    exact halone p hp

/-- Removing what is not to be there is permitted. -/
theorem permits_remove {p : Path} (hnone : ∀ q, region q → p <+: q → target q = none)
    (halone : ∀ q ∈ alone, Apart p q) :
    (toward crash region initial target alone).Permits t (.remove p) := by
  intro s _ _
  refine ⟨fun q hq => ?_, fun q hq => get_apply_of_apart (w := .remove p) (halone q hq) s⟩
  rw [Write.apply, Store.get_remove]
  split
  · next hbelow => exact Or.inr (hnone q hq hbelow).symm
  · exact Or.inl rfl

end toward

end GroceryListApp.Realtime

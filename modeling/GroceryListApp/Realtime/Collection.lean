import GroceryListApp.Realtime.Program

/-!
# Records below a location

A collection is a node whose children are records of one kind. A property of records that
depends on the subtree of a record only is kept by every write outside the collection, and
a write into one record leaves the others alone; so a write has to be looked at in the one
record it reaches.
-/

namespace GroceryListApp.Realtime

variable {V : Type*}

/-- A property of a location that depends on what is stored at and below it. -/
def Local (P : Store V → Path → Prop) : Prop :=
  ∀ ⦃s s' : Store V⦄ ⦃p : Path⦄, (∀ q, s'.get (p ++ q) = s.get (p ++ q)) → P s p → P s' p

/-- Every child of a location has a property. -/
def Each (P : Store V → Path → Prop) (s : Store V) (p : Path) : Prop :=
  ∀ k ∈ s.children p, P s (p ++ [k])

/-- The children of a node depend on what is stored below it. -/
theorem children_congr {s s' : Store V} {p : Path} (h : ∀ q, s'.get (p ++ q) = s.get (p ++ q)) :
    s'.children p = s.children p := by
  apply Store.children_eq_of_mem_iff
  intro k
  simp only [Store.mem_children, h]

namespace Each

variable {P : Store V → Path → Prop} {s : Store V} {p : Path} {w : Write V}

/-- The empty database has no records. -/
theorem empty (P : Store V → Path → Prop) (p : Path) : Each P .empty p := by
  intro k hk
  simp [Store.mem_children] at hk

/-- What does not change anything below the collection keeps all records. -/
theorem congr (hlocal : Local P) {s' : Store V} (hsame : ∀ q, s'.get (p ++ q) = s.get (p ++ q))
    (h : Each P s p) : Each P s' p := by
  intro k hk
  rw [children_congr hsame] at hk
  refine hlocal (fun q => ?_) (h k hk)
  rw [List.append_assoc]
  exact hsame _

/-- A write outside the collection keeps all records. -/
theorem apply_of_apart (hlocal : Local P) (h : Each P s p) (hw : Apart w.location p) :
    Each P (w.apply s) p :=
  h.congr hlocal fun q => get_apply_of_apart (hw.symm.append_left q).symm s

/-- An update of entries outside the collection keeps all records. -/
theorem update_of_apart (hlocal : Local P) (h : Each P s p) {q : Path}
    {entries : List (Path × Store V)} (hentries : ∀ entry ∈ entries, Apart (q ++ entry.1) p) :
    Each P ((Write.update q entries).apply s) p :=
  h.congr hlocal fun r => get_update_of_apart
    (fun entry hentry => ((hentries entry hentry).symm.append_left r).symm) s

/-- A write into one record keeps all records when it keeps that one. -/
theorem apply_below (hlocal : Local P) (h : Each P s p) {k : Key} (hw : p ++ [k] <+: w.location)
    (hk : k ∈ (w.apply s).children p → P (w.apply s) (p ++ [k])) : Each P (w.apply s) p := by
  intro l hl
  by_cases hlk : l = k
  · subst hlk
    exact hk hl
  · have hframe (q : Path) : (w.apply s).get (p ++ l :: q) = s.get (p ++ l :: q) := by
      obtain ⟨rest, hrest⟩ := hw
      apply get_apply_of_apart
      rw [← hrest, List.append_assoc, apart_append_left]
      exact apart_of_ne (Ne.symm hlk) _ _
    have hl' : l ∈ s.children p := by
      rw [Store.mem_children] at hl ⊢
      simpa only [hframe] using hl
    refine hlocal (fun q => ?_) (h l hl')
    simpa using hframe q

/-- Removing a whole record keeps the others. -/
theorem remove_child (hlocal : Local P) (h : Each P s p) (k : Key) :
    Each P ((Write.remove (p ++ [k])).apply s) p := by
  refine h.apply_below (k := k) hlocal (List.prefix_refl _) fun hk => ?_
  obtain ⟨r, v, hv⟩ := (Store.mem_children _ _ _).mp hk
  rw [Write.apply, Store.get_remove_eq_some_iff] at hv
  exact absurd ⟨r, by simp⟩ hv.1

/-- Removing a node at or above the collection leaves no record. -/
theorem remove_above {q : Path} (hq : q <+: p) : Each P ((Write.remove q).apply s) p := by
  intro k hk
  obtain ⟨r, v, hv⟩ := (Store.mem_children _ _ _).mp hk
  rw [Write.apply, Store.get_remove_eq_some_iff] at hv
  exact absurd (hq.trans (List.prefix_append _ _)) hv.1

end Each

/-- The fields of a kind of record, with the values they admit. -/
abbrev Fields (V : Type*) := List (Key × (V → Prop))

/-- Every field is stored with a value it admits. -/
def HasFields (fields : Fields V) (s : Store V) (p : Path) : Prop :=
  ∀ field ∈ fields, ∃ v, s.get (p ++ [field.1]) = some v ∧ field.2 v

namespace HasFields

variable {fields : Fields V} {s : Store V} {p : Path}

/-- Whether a record has its fields depends on the record only. -/
theorem isLocal (fields : Fields V) : Local (HasFields fields) := by
  intro s s' p hsame h field hfield
  rw [hsame]
  exact h field hfield

/-- A write apart from all fields keeps them. -/
theorem apply_of_apart (h : HasFields fields s p) {w : Write V}
    (hw : ∀ field ∈ fields, Apart w.location (p ++ [field.1])) :
    HasFields fields (w.apply s) p := by
  intro field hfield
  rw [get_apply_of_apart (hw field hfield)]
  exact h field hfield

/-- After an update, every field was either written with a value it admits, or kept. -/
theorem update {entries : List (Path × Store V)}
    (hapart : entries.Pairwise fun a b => Apart a.1 b.1)
    (h : ∀ field ∈ fields, (∃ v, field.2 v ∧ ∃ entry ∈ entries, entry.1 = [field.1] ∧
        entry.2.get [] = some v) ∨ (∀ entry ∈ entries, Apart entry.1 [field.1]) ∧
        ∃ v, s.get (p ++ [field.1]) = some v ∧ field.2 v) :
    HasFields fields ((Write.update p entries).apply s) p := by
  intro field hfield
  rcases h field hfield with ⟨v, hadmits, entry, hentry, hkey, hvalue⟩ | ⟨hkept, hbefore⟩
  · have hget := get_update_of_mem hapart hentry p [] s
    rw [hkey, List.append_nil] at hget
    exact ⟨v, hget.trans hvalue, hadmits⟩
  · rw [get_update_of_apart fun entry hentry => (apart_append_left _ _ _).mpr (hkept entry hentry)]
    exact hbefore

/-- A location below another key of the record is apart from all fields. -/
theorem apart_field {key : Key} (hkey : key ∉ fields.map Prod.fst) (p q : Path)
    {field : Key × (V → Prop)} (hfield : field ∈ fields) : Apart (p ++ key :: q) (p ++ [field.1]) := by
  rw [apart_append_left]
  apply apart_of_ne
  intro hsame
  exact hkey (List.mem_map.mpr ⟨field, hfield, hsame.symm⟩)

/-- A write below another key of the record keeps the fields. -/
theorem apply_below (h : HasFields fields s p) {w : Write V} {key : Key} {q : Path}
    (hkey : key ∉ fields.map Prod.fst) (hw : w.location = p ++ key :: q) :
    HasFields fields (w.apply s) p :=
  h.apply_of_apart fun _ hfield => hw ▸ apart_field hkey p q hfield

/-- Writing one field with a value it admits keeps the fields. -/
theorem update_field (h : HasFields fields s p) (hdistinct : (fields.map Prod.fst).Nodup)
    {field : Key × (V → Prop)} (hfield : field ∈ fields) {v : V} (hv : field.2 v) :
    HasFields fields ((Write.update p [([field.1], .leaf v)]).apply s) p := by
  apply update (List.pairwise_singleton _ _)
  intro other hother
  by_cases hsame : other.1 = field.1
  · have : other = field := List.inj_on_of_nodup_map hdistinct hother hfield hsame
    subst this
    exact Or.inl ⟨v, hv, _, List.mem_singleton_self _, rfl, by simp⟩
  · refine Or.inr ⟨fun entry hentry => ?_, h other hother⟩
    rw [List.mem_singleton.mp hentry]
    exact apart_of_ne (Ne.symm hsame) [] []

end HasFields

end GroceryListApp.Realtime

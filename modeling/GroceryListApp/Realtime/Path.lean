import Mathlib.Data.List.Infix
import Mathlib.Data.Prod.Lex
import Mathlib.Data.String.Basic
import Mathlib.Tactic.Common

/-!
# Slash-separated locations of a hierarchical database

A location is the list of keys on the way down from the root. Strings are spliced into
locations in two places, `child(_:)` and the keys of a multi-location update. Both split
their argument at slashes and drop the empty segments, and both raise an exception on a
string that contains a reserved character.
-/

namespace GroceryListApp.Realtime

/-- The characters no path string may contain. -/
def reservedChars : List Char := ['.', '#', '$', '[', ']']

/-- A string that can be stored as the key of a single node. -/
def LegalKey (name : String) : Prop :=
  name ≠ "" ∧ ∀ c ∈ name.toList, c ≠ '/' ∧ c ∉ reservedChars

instance (name : String) : Decidable (LegalKey name) :=
  decidable_of_iff (name ≠ "" ∧ name.toList.all fun c => c ≠ '/' ∧ c ∉ reservedChars)
    (by simp [LegalKey])

/-- The key of a node below its parent. -/
abbrev Key := {name : String // LegalKey name}

instance : LawfulBEq Key := inferInstance

/-- A key written in the program text. -/
def Key.lit (name : String) (legal : LegalKey name := by decide) : Key := ⟨name, legal⟩

/-- The keys on the way from the root to a node. -/
abbrev Path := List Key

/-- The non-empty pieces of a string between slashes. -/
def segments (name : String) : List String :=
  ((name.toList.splitOnP (· == '/')).filter (!·.isEmpty)).map String.ofList

/-- The pieces of a split consist of the non-separators of what was split. -/
theorem mem_piece {α : Type*} (separator : α → Bool) (values : List α) :
    ∀ piece ∈ values.splitOnP separator, ∀ a ∈ piece, a ∈ values ∧ separator a = false := by
  induction values with
  | nil => simp
  | cons value rest ih =>
    intro piece hpiece a ha
    obtain ⟨first, others, hrest⟩ := List.exists_cons_of_ne_nil (List.splitOnP_ne_nil separator rest)
    simp only [List.splitOnP_cons_eq_if_modifyHead, hrest, List.modifyHead_cons] at hpiece ih
    have hrest : ∀ piece ∈ first :: others, ∀ a ∈ piece, a ∈ value :: rest ∧ separator a = false :=
      fun piece hpiece a ha => (ih piece hpiece a ha).imp_left (List.mem_cons_of_mem value)
    cases hvalue : separator value with
    | true =>
      rw [hvalue, if_pos rfl, List.mem_cons] at hpiece
      rcases hpiece with rfl | hpiece
      · contradiction
      · exact hrest piece hpiece a ha
    | false =>
      rw [hvalue, if_neg Bool.false_ne_true, List.mem_cons] at hpiece
      rcases hpiece with rfl | hpiece
      · rcases List.mem_cons.mp ha with rfl | ha
        · exact ⟨List.mem_cons_self, hvalue⟩
        · exact hrest first List.mem_cons_self a ha
      · exact hrest piece (List.mem_cons_of_mem _ hpiece) a ha

/-- The segments of a string are non-empty, without slashes, and made of its characters. -/
theorem of_mem_segments {name segment : String} (h : segment ∈ segments name) :
    segment ≠ "" ∧ ∀ c ∈ segment.toList, c ∈ name.toList ∧ c ≠ '/' := by
  obtain ⟨piece, hpiece, rfl⟩ := List.mem_map.mp h
  obtain ⟨hsplit, hnonempty⟩ := List.mem_filter.mp hpiece
  refine ⟨fun hempty => ?_, fun c hc => ?_⟩
  · have : piece = [] := by simpa using congrArg String.toList hempty
    simp [this] at hnonempty
  · rw [String.toList_ofList] at hc
    simpa using mem_piece _ _ piece hsplit c hc

/-- Read a path string; `none` is the exception raised on a reserved character. -/
def parsePath (name : String) : Option Path :=
  if clean : name.toList.all fun c => c ∉ reservedChars then
    some ((segments name).attach.map fun segment => ⟨segment.1, (of_mem_segments segment.2).1,
      fun c hc => ⟨((of_mem_segments segment.2).2 c hc).2,
        of_decide_eq_true (List.all_eq_true.mp clean c ((of_mem_segments segment.2).2 c hc).1)⟩⟩)
  else none

/-- Reading a path string fails exactly on a reserved character. -/
theorem parsePath_eq_none_iff (name : String) :
    parsePath name = none ↔ ∃ c ∈ name.toList, c ∈ reservedChars := by
  simp [parsePath]

/-- The keys of a path are the segments of the string it was read from. -/
theorem map_val_of_parsePath {name : String} {p : Path} (h : parsePath name = some p) :
    p.map Subtype.val = segments name := by
  unfold parsePath at h
  split at h
  · simp only [Option.some.injEq] at h
    subst h
    simp [Function.comp_def]
  · contradiction

/-- A legal key is one segment by itself. -/
theorem segments_of_legalKey {name : String} (h : LegalKey name) : segments name = [name] := by
  have hne : name.toList ≠ [] := by
    intro hnil
    exact h.1 (String.toList_inj.mp (by simpa using hnil))
  have hsplit : name.toList.splitOnP (· == '/') = [name.toList] :=
    List.splitOnP_eq_singleton fun c hc => by simpa using (h.2 c hc).1
  simp [segments, hsplit, hne]

/-- A legal key names the one child with exactly that key. -/
@[simp] theorem parsePath_key (key : Key) : parsePath key.1 = some [key] := by
  cases h : parsePath key.1 with
  | none =>
    obtain ⟨c, hc, hr⟩ := (parsePath_eq_none_iff key.1).mp h
    exact absurd hr (key.2.2 c hc).2
  | some p =>
    have hp := map_val_of_parsePath h
    rw [segments_of_legalKey key.2, List.map_eq_singleton_iff] at hp
    obtain ⟨found, rfl, hfound⟩ := hp
    rw [Subtype.ext hfound]

/-- The 32-bit integer a key spells, if it spells one. -/
def intKey? (key : Key) : Option ℤ :=
  (match key.1.toList with
    | '-' :: digits => (decimal? digits).map (- ·)
    | digits => decimal? digits).filter fun n => -2147483648 ≤ n ∧ n ≤ 2147483647
where
  decimal? (digits : List Char) : Option ℤ :=
    if digits.isEmpty || digits.any (!·.isDigit) ||
        (digits.head? == some '0' && digits.length != 1) then none
    else some (digits.foldl (fun n c => 10 * n + (c.toNat - '0'.toNat)) 0)

/-- Keys that spell integers come first in numeric order, the others follow as strings. -/
def keyRank (key : Key) : ℤ ×ₗ String := toLex ((intKey? key).getD 2147483648, key.1)

/-- Different keys have different ranks. -/
theorem keyRank_injective : Function.Injective keyRank := fun _ _ h =>
  Subtype.ext (congrArg (fun rank => (ofLex rank).2) h)

/-- Neither location lies at or below the other. -/
def Apart (p q : Path) : Prop := ¬ p <+: q ∧ ¬ q <+: p

instance (p q : Path) : Decidable (Apart p q) :=
  inferInstanceAs (Decidable (_ ∧ _))

/-- Lying apart is symmetric. -/
theorem Apart.symm {p q : Path} (h : Apart p q) : Apart q p := ⟨h.2, h.1⟩

/-- What lies below a location is apart from everything the location is apart from. -/
theorem Apart.append_left {p q : Path} (h : Apart p q) (r : Path) : Apart (p ++ r) q := by
  refine ⟨fun hle => h.1 ((List.prefix_append p r).trans hle), fun hle => ?_⟩
  rcases List.prefix_or_prefix_of_prefix hle (List.prefix_append p r) with hqp | hpq
  · exact h.2 hqp
  · exact h.1 hpq

/-- A common beginning does not affect whether two locations lie apart. -/
@[simp] theorem apart_append_left (p q r : Path) : Apart (p ++ q) (p ++ r) ↔ Apart q r := by
  simp [Apart, List.prefix_append_right_inj]

/-- Below different children of one parent, locations lie apart. -/
theorem apart_of_ne {k l : Key} (h : k ≠ l) (p q : Path) : Apart (k :: p) (l :: q) := by
  simp [Apart, List.cons_prefix_cons, h, h.symm]

/-- Locations below one key lie apart when what follows does. -/
@[simp] theorem apart_cons (k : Key) (p q : Path) : Apart (k :: p) (k :: q) ↔ Apart p q := by
  simp [Apart, List.cons_prefix_cons]

/-- Different fields lie apart, in one record as in two records of a collection. -/
theorem apart_field (k l l' : Key) {m m' : Key} (h : m ≠ m') (p q : Path) :
    Apart (k :: l :: m :: p) (k :: l' :: m' :: q) := by
  rw [apart_cons]
  by_cases hl : l = l'
  · rw [hl, apart_cons]
    exact apart_of_ne h p q
  · exact apart_of_ne hl _ _

end GroceryListApp.Realtime

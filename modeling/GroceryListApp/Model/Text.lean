import Mathlib.Data.List.Infix
import Mathlib.Data.String.Basic
import Mathlib.Tactic.Common

/-!
# Slices and substrings of texts

Two operations of Swift strings that the screens use on labels and names, with a string taken as
the list of its characters.
-/

namespace GroceryListApp

/-- `text[start...end]` from an offset to the last character; `none` is the abort on an index or a
range that is out of bounds. -/
def sliceToEnd (text : String) (offset : ℕ) : Option String :=
  if offset ≤ text.toList.length ∧ text.toList ≠ [] then
    if offset ≤ text.toList.length - 1 then some (.ofList (text.toList.drop offset)) else none
  else none

/-- `text.contains(other)`. Nothing contains the empty string. -/
def containsText (text other : String) : Bool :=
  other ≠ "" ∧ other.toList <:+: text.toList

/-- What follows a text is cut out again, unless nothing follows it. -/
theorem sliceToEnd_append (text name : String) :
    sliceToEnd (text ++ name) text.toList.length = if name = "" then none else some name := by
  by_cases hname : name = ""
  · subst hname
    cases htext : text.toList with
    | nil => simp [sliceToEnd, htext]
    | cons c rest => simp [sliceToEnd, htext]
  · have hne : name.toList ≠ [] := by simpa using hname
    have hpos : 0 < name.toList.length := List.length_pos_of_ne_nil hne
    have hlast : text.toList.length ≤ (text ++ name).toList.length - 1 := by
      rw [String.toList_append, List.length_append]
      omega
    rw [sliceToEnd, if_pos, if_pos hlast, if_neg hname]
    · simp
    · constructor
      · omega
      · simp [hname]

/-- A word without a separator occurs between two separated texts when it occurs in one of them. -/
theorem infix_append_cons {α : Type*} {word before after : List α} {separator : α}
    (h : separator ∉ word) :
    word <:+: before ++ separator :: after ↔ word <:+: before ∨ word <:+: after := by
  constructor
  · rintro ⟨left, right, hsplit⟩
    rw [List.append_assoc] at hsplit
    rcases List.append_eq_append_iff.mp hsplit with ⟨middle, hbefore, hrest⟩ | ⟨middle, hleft, hrest⟩
    · left
      rcases List.append_eq_append_iff.mp hrest with ⟨tail, hmiddle, -⟩ | ⟨tail, hword, hright⟩
      · exact ⟨left, tail, by rw [hbefore, hmiddle, List.append_assoc]⟩
      · cases tail with
        | nil => exact ⟨left, [], by rw [hbefore, hword]; simp⟩
        | cons c tail =>
          obtain ⟨rfl, -⟩ := List.cons.inj (by simpa using hright)
          exact absurd (by simp [hword]) h
    · right
      cases middle with
      | nil =>
        cases word with
        | nil => exact List.nil_infix
        | cons c word =>
          obtain ⟨rfl, -⟩ := List.cons.inj (by simpa using hrest)
          exact absurd List.mem_cons_self h
      | cons c middle =>
        obtain ⟨-, hafter⟩ := List.cons.inj (by simpa using hrest)
        exact ⟨middle, right, by rw [hafter, List.append_assoc]⟩
  · rintro (⟨left, right, hbefore⟩ | ⟨left, right, hafter⟩)
    · exact ⟨left, right ++ separator :: after, by rw [← hbefore]; simp⟩
    · exact ⟨before ++ separator :: left, right, by rw [← hafter]; simp⟩

/-- A word without a space occurs around a space when it occurs before it or after it. -/
theorem containsText_append_space {word : String} (hspace : ' ' ∉ word.toList) (before after : String) :
    containsText (before ++ " " ++ after) word = (containsText before word || containsText after word) := by
  have htext : (before ++ " " ++ after).toList = before.toList ++ ' ' :: after.toList := by simp
  rw [Bool.eq_iff_iff, Bool.or_eq_true]
  simp only [containsText, decide_eq_true_eq, htext, infix_append_cons hspace]
  tauto

/-- A text shorter than a word does not contain it. -/
theorem containsText_of_length_lt {text word : String} (h : text.toList.length < word.toList.length) :
    containsText text word = false := by
  simp only [containsText, decide_eq_false_iff_not, not_and]
  intro _ hwithin
  have := hwithin.length_le
  omega

/-- A name contains itself. -/
theorem containsText_self {word : String} (h : word ≠ "") : containsText word word = true := by
  simp [containsText, h]

end GroceryListApp

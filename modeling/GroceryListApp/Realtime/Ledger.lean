import GroceryListApp.Realtime.Schedule
import Mathlib.Data.List.Forall2

/-!
# Notes on a pool

An invariant of a schedule often relates the database to what the pending bodies are still
going to do. Every pending body then carries a note that says where in its work it is. A
ledger gives the meaning of notes, and an invariant of the schedule so far, the database
and the notes. It is kept along every run when it is kept by each step of one body.
-/

namespace GroceryListApp.Realtime

variable {T G M V : Type*}

/-- What a note says about a body, and what holds of the notes of a pool together. -/
structure Ledger (T G M V : Type*) where
  fits : T → G → Body M V → Prop
  inv : List (Act T) → Store V → List (T × G) → Prop

/-- Splitting a list splits the list it is related to. -/
theorem forall₂_split {α β : Type*} {R : α → β → Prop} {values : List α} {before after : List β}
    {b : β} (h : List.Forall₂ R values (before ++ b :: after)) :
    ∃ first a rest, values = first ++ a :: rest ∧ List.Forall₂ R first before ∧ R a b ∧
      List.Forall₂ R rest after := by
  induction before generalizing values with
  | nil =>
    obtain ⟨a, rest, hab, hrest, rfl⟩ := List.forall₂_cons_right_iff.mp h
    exact ⟨[], a, rest, rfl, .nil, hab, hrest⟩
  | cons c before ih =>
    obtain ⟨d, tail, hdc, htail, rfl⟩ := List.forall₂_cons_right_iff.mp h
    obtain ⟨first, a, rest, rfl, hfirst, hab, hrest⟩ := ih htail
    exact ⟨d :: first, a, rest, rfl, .cons hdc hfirst, hab, hrest⟩

/-- Notes on a pool are about a chosen body, or stand beside it. -/
theorem mem_middle {α : Type*} {before after : List α} {a b : α} :
    b ∈ before ++ a :: after ↔ b = a ∨ b ∈ before ++ after := by
  simp [or_left_comm]

/-- Once a body has been run, notes are about what it left behind, or stand beside it. -/
theorem mem_replaced {before after : List (T × G)} {t : T} {gs : List G}
    {note : T × G} :
    note ∈ before ++ gs.map (t, ·) ++ after ↔
      (∃ stage ∈ gs, note = (t, stage)) ∨ note ∈ before ++ after := by
  simp [or_left_comm, eq_comm]

namespace Ledger

variable (A : Ledger T G M V)

/-- The notes say of each pending body, in order, its call and something that fits it. -/
def Matches (notes : List (T × G)) (pool : List (T × Body M V)) : Prop :=
  List.Forall₂ (fun note task => note.1 = task.1 ∧ A.fits note.1 note.2 task.2) notes pool

variable {A}

/-- Every pending body has a note that fits it. -/
theorem Matches.exists_note {notes : List (T × G)} {pool : List (T × Body M V)}
    (h : A.Matches notes pool) {task : T × Body M V} (htask : task ∈ pool) :
    ∃ g, (task.1, g) ∈ notes ∧ A.fits task.1 g task.2 := by
  induction h with
  | nil => simp at htask
  | @cons note task' notes pool hnote _ ih =>
    rcases List.mem_cons.mp htask with rfl | htask
    · obtain ⟨t, g⟩ := note
      obtain ⟨rfl, hfits⟩ := hnote
      exact ⟨g, List.mem_cons_self, hfits⟩
    · obtain ⟨g, hmem, hfits⟩ := ih htask
      exact ⟨g, List.mem_cons_of_mem _ hmem, hfits⟩

/-- Every note is about a pending body that it fits. -/
theorem Matches.exists_task {notes : List (T × G)} {pool : List (T × Body M V)}
    (h : A.Matches notes pool) {note : T × G} (hnote : note ∈ notes) :
    ∃ body, (note.1, body) ∈ pool ∧ A.fits note.1 note.2 body := by
  induction h with
  | nil => simp at hnote
  | @cons note' task notes pool htask _ ih =>
    rcases List.mem_cons.mp hnote with rfl | hnote
    · obtain ⟨t, body⟩ := task
      obtain ⟨rfl, hfits⟩ := htask
      exact ⟨body, List.mem_cons_self, hfits⟩
    · obtain ⟨body, hmem, hfits⟩ := ih hnote
      exact ⟨body, List.mem_cons_of_mem _ hmem, hfits⟩

/-- Along every allowed schedule notes fit the pending bodies and the invariant holds. -/
theorem run_ledger {code : T → Prog M V} {allowed : Sys T M V → Act T → Prop}
    {start s : Sys T M V} {acts : List (Act T)} (h : Sys.Run code allowed start acts s)
    (hspawn : ∀ acts (s : Sys T M V) t notes, allowed s (.spawn t) → A.Matches notes s.pool →
      A.inv acts s.db notes →
      ∃ g, A.fits t g (.run (code t)) ∧ A.inv (acts ++ [.spawn t]) s.db (notes ++ [(t, g)]))
    (hstep : ∀ acts (s : Sys T M V) i t body before g after db mem rest, allowed s (.run i) →
      s.pool[i]? = some (t, body) → A.Matches (before ++ (t, g) :: after) s.pool →
      A.fits t g body → A.inv acts s.db (before ++ (t, g) :: after) →
      body.step s.db s.mem = some (db, mem, rest) →
      ∃ gs, List.Forall₂ (A.fits t) gs rest ∧
        A.inv (acts ++ [.run i]) db (before ++ gs.map (t, ·) ++ after))
    (hstart : ∃ notes, A.Matches notes start.pool ∧ A.inv [] start.db notes) :
    ∃ notes, A.Matches notes s.pool ∧ A.inv acts s.db notes := by
  induction h with
  | nil => exact hstart
  | @snoc acts s s' a _ ha hs' ih =>
    obtain ⟨notes, hnotes, hinv⟩ := ih
    cases a with
    | spawn t =>
      simp only [Sys.step, Option.some.injEq] at hs'
      subst hs'
      obtain ⟨g, hfits, hnext⟩ := hspawn acts s t notes ha hnotes hinv
      exact ⟨_, List.rel_append hnotes (.cons ⟨rfl, hfits⟩ .nil), hnext⟩
    | run i =>
      obtain ⟨before, t, body, after, db, mem, rest, hsplit, hget, hbody, rfl⟩ :=
        Sys.step_run_eq_some hs'
      have hall := hnotes
      rw [Matches, hsplit] at hnotes
      obtain ⟨first, ⟨t', g⟩, last, rfl, hfirst, ⟨rfl, hfits⟩, hlast⟩ := forall₂_split hnotes
      obtain ⟨gs, hgs, hnext⟩ := hstep acts s i t' body first g last db mem rest ha hget hall
        hfits hinv hbody
      refine ⟨_, ?_, hnext⟩
      refine List.rel_append (List.rel_append hfirst ?_) hlast
      rw [List.forall₂_map_left_iff, List.forall₂_map_right_iff]
      exact hgs.imp fun _ _ hfit => ⟨rfl, hfit⟩

end Ledger

end GroceryListApp.Realtime

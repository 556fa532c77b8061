import GroceryListApp.Realtime.Story

/-!
# Writes that directly follow a write

Some writes of a program come in pairs: the second is only issued when the first has just been
made. Such a write may be judged together with the one it directly follows. What is pending
then tells which of the two has been made already.
-/

namespace GroceryListApp.Realtime

variable {T M V : Type*}

/-- Every write of the program is admitted after the write it directly follows, if there is one. -/
def Prog.Issues (admits : Option (Write V) → Write V → Prop) : Option (Write V) → Prog M V → Prop
  | _, .done => True
  | _, .trap => True
  | previous, .write w next => admits previous w ∧ Issues admits (some w) next
  | _, .observe p callback next =>
      (∀ s : Store V, Issues admits none (callback (s.snapshot p))) ∧ Issues admits none next
  | _, .inspect next => ∀ m, Issues admits none (next m)
  | _, .modify _ next => Issues admits none next

/-- Every write of a pending body is admitted. -/
def Body.Issues (admits : Option (Write V) → Write V → Prop) : Body M V → Prop
  | .run program => ∃ previous, program.Issues admits previous
  | .await p callback => ∀ s : Store V, (callback (s.snapshot p)).Issues admits none

namespace Prog

variable {admits : Option (Write V) → Write V → Prop} {previous : Option (Write V)}

/-- What is admitted after no write is admitted after each. -/
def Lax (admits : Option (Write V) → Write V → Prop) : Prop :=
  ∀ previous w, admits none w → admits previous w

/-- A program may also be run after a write. -/
theorem Issues.after (hlax : Lax admits) {p : Prog M V} (h : p.Issues admits none)
    (previous : Option (Write V)) : p.Issues admits previous := by
  cases p with
  | write w next => exact ⟨hlax previous w h.1, h.2⟩
  | _ => exact h

/-- Sequencing keeps writes admitted. -/
theorem Issues.seq (hlax : Lax admits) {p q : Prog M V} (hp : p.Issues admits previous)
    (hq : q.Issues admits none) : (p.seq q).Issues admits previous := by
  induction p generalizing previous with
  | done => exact hq.after hlax previous
  | trap => trivial
  | write w next ih => exact ⟨hp.1, ih hp.2⟩
  | observe p callback next _ ih => exact ⟨hp.1, ih hp.2⟩
  | inspect next ih => exact fun m => ih m (hp m)
  | modify f next ih => exact ih hp

/-- The writes of a block are admitted when those of each statement are. -/
theorem issues_block (hlax : Lax admits) {programs : List (Prog M V)}
    (h : ∀ p ∈ programs, p.Issues admits none) : (block programs).Issues admits none := by
  induction programs with
  | nil => trivial
  | cons p rest ih =>
    exact (h p List.mem_cons_self).seq hlax (ih fun q hq => h q (List.mem_cons_of_mem _ hq))

/-- The writes of a loop are admitted when those of each round are. -/
theorem issues_forEach (hlax : Lax admits) {α : Type*} {values : List α} {body : α → Prog M V}
    (h : ∀ a ∈ values, (body a).Issues admits none) : (forEach values body).Issues admits none := by
  apply issues_block hlax
  intro p hp
  obtain ⟨a, ha, rfl⟩ := List.mem_map.mp hp
  exact h a ha

/-- A program whose writes all have a property that is admitted anywhere. -/
theorem issues_of_holds {P : T → Write V → Prop} {t : T}
    (hadmits : ∀ previous w, P t w → admits previous w) {p : Prog M V}
    (h : (Contract.issues P).Holds t p) (previous : Option (Write V)) : p.Issues admits previous := by
  induction p generalizing previous with
  | done => trivial
  | trap => trivial
  | write w next ih => exact ⟨hadmits _ w (Contract.permits_issues_iff.mp h.1), ih h.2 _⟩
  | observe p callback next ihcallback ih => exact ⟨fun s => ihcallback _ (h.1 s trivial) _, ih h.2 _⟩
  | inspect next ih => exact fun m => ih m (h m) _
  | modify f next ih => exact ih h _

end Prog

namespace Body.Issues

variable {admits : Option (Write V) → Write V → Prop} {body : Body M V} {db db' : Store V}
  {mem mem' : M} {rest : List (Body M V)}

/-- A step leaves bodies whose writes are admitted. A write that is about to be made then is
admitted by itself or after the write of the step. -/
theorem step (h : body.Issues admits) (hstep : body.step db mem = some (db', mem', rest)) :
    ∀ b ∈ rest, b.Issues admits ∧ ∀ w next, b = .run (.write w next) →
      admits none w ∨ ∃ u, body = .run (.write u (.write w next)) ∧ admits (some u) w := by
  have hquiet {p : Prog M V} (hp : p.Issues admits none) :
      (Body.run p).Issues admits ∧ ∀ w next, Body.run p = .run (.write w next) →
        admits none w ∨ ∃ u, body = .run (.write u (.write w next)) ∧ admits (some u) w := by
    refine ⟨⟨none, hp⟩, fun w next hwrite => ?_⟩
    cases Body.run.inj hwrite
    exact Or.inl hp.1
  cases body with
  | await p callback =>
    simp only [Body.step, Option.some.injEq, Prod.mk.injEq] at hstep
    obtain ⟨rfl, rfl, rfl⟩ := hstep
    simpa only [List.mem_singleton, forall_eq] using hquiet (h db)
  | run program =>
    obtain ⟨previous, hprogram⟩ := h
    cases program <;> simp only [Body.step, Option.some.injEq, Prod.mk.injEq, reduceCtorEq] at hstep
    all_goals obtain ⟨rfl, rfl, rfl⟩ := hstep
    case done => simp
    case write u following =>
      intro b hb
      rw [List.mem_singleton] at hb
      subst hb
      refine ⟨⟨some u, hprogram.2⟩, fun w next hwrite => Or.inr ⟨u, ?_, ?_⟩⟩
      · rw [Body.run.inj hwrite]
      · rw [Body.run.inj hwrite] at hprogram
        exact hprogram.2.1
    case observe p callback next =>
      intro b hb
      simp only [List.mem_cons, List.not_mem_nil, or_false] at hb
      rcases hb with rfl | rfl
      · exact hquiet hprogram.2
      · exact ⟨hprogram.1, fun w next hwrite => by contradiction⟩
    case inspect next => simpa only [List.mem_singleton, forall_eq] using hquiet (hprogram mem)
    case modify f next => simpa only [List.mem_singleton, forall_eq] using hquiet hprogram

end Body.Issues

end GroceryListApp.Realtime

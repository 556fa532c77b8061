import GroceryListApp.Realtime.Story

/-!
# What pending bodies owe

A change may leave something to be done, which a scan that is still pending is going to do. The
pending body owes it: as long as it has not been done, however the reads are answered, the body
still makes the write that does it, unless it is stuck in a trap. A debt is passed on by every
step until it is paid.

Whether a write may be made can depend on what the program owes afterwards; this is a condition on
the write and on the rest of the program.
-/

namespace GroceryListApp.Realtime

variable {T M V : Type*}

/-- However it continues, the program reaches the goal with one of its writes or is stuck. -/
def Prog.Owes (goal : Store V → Prop) : Prog M V → Prop
  | .done => False
  | .trap => True
  | .write w next => (∀ s, goal (w.apply s)) ∨ Owes goal next
  | .observe p callback next =>
      (∀ s : Store V, ¬ goal s → Owes goal (callback (s.snapshot p))) ∨ Owes goal next
  | .inspect next => ∀ m, Owes goal (next m)
  | .modify _ next => Owes goal next

/-- However it continues, the pending body reaches the goal with one of its writes or is stuck. -/
def Body.Owes (goal : Store V → Prop) : Body M V → Prop
  | .run program => program.Owes goal
  | .await p callback => ∀ s : Store V, ¬ goal s → (callback (s.snapshot p)).Owes goal

/-- Every write of the program may be made with what the program does after it. -/
def Prog.Leads (admits : Write V → Prog M V → Prop) : Prog M V → Prop
  | .done => True
  | .trap => True
  | .write w next => admits w next ∧ Leads admits next
  | .observe p callback next =>
      (∀ s : Store V, Leads admits (callback (s.snapshot p))) ∧ Leads admits next
  | .inspect next => ∀ m, Leads admits (next m)
  | .modify _ next => Leads admits next

/-- Every write of the pending body may be made with what the body does after it. -/
def Body.Leads (admits : Write V → Prog M V → Prop) : Body M V → Prop
  | .run program => program.Leads admits
  | .await p callback => ∀ s : Store V, (callback (s.snapshot p)).Leads admits

namespace Prog

variable {goal : Store V → Prop} {admits : Write V → Prog M V → Prop}

/-- The first of two programs owes what it owes alone. -/
theorem Owes.seq_left {p : Prog M V} (hp : p.Owes goal) (q : Prog M V) : (p.seq q).Owes goal := by
  induction p with
  | done => exact hp.elim
  | trap => trivial
  | write w next ih => exact hp.imp id ih
  | observe p callback next _ ih => exact hp.imp id ih
  | inspect next ih => exact fun m => ih m (hp m)
  | modify f next ih => exact ih hp

/-- What the second of two programs owes is owed, or the first is stuck. -/
theorem Owes.seq_right (p : Prog M V) {q : Prog M V} (hq : q.Owes goal) : (p.seq q).Owes goal := by
  induction p with
  | done => exact hq
  | trap => trivial
  | write w next ih => exact Or.inr ih
  | observe p callback next _ ih => exact Or.inr ih
  | inspect next ih => exact fun m => ih m
  | modify f next ih => exact ih

/-- A block owes what one of its statements does. -/
theorem owes_block {programs : List (Prog M V)} {p : Prog M V} (hp : p ∈ programs)
    (howes : p.Owes goal) : (block programs).Owes goal := by
  induction programs with
  | nil => simp at hp
  | cons q rest ih =>
    rcases List.mem_cons.mp hp with rfl | hp
    · exact howes.seq_left _
    · exact Owes.seq_right q (ih hp)

/-- A loop owes what one of its rounds does. -/
theorem owes_forEach {α : Type*} {values : List α} {body : α → Prog M V} {a : α} (ha : a ∈ values)
    (howes : (body a).Owes goal) : (forEach values body).Owes goal :=
  owes_block (List.mem_map_of_mem ha) howes

/-- Two programs run one after the other, when what is admitted before the end of the first is
admitted before the second. -/
theorem Leads.seq {p q : Prog M V} (hadmits : ∀ w next, admits w next → admits w (next.seq q))
    (hp : p.Leads admits) (hq : q.Leads admits) : (p.seq q).Leads admits := by
  induction p with
  | done => exact hq
  | trap => trivial
  | write w next ih => exact ⟨hadmits w next hp.1, ih hp.2⟩
  | observe p callback next _ ih => exact ⟨hp.1, ih hp.2⟩
  | inspect next ih => exact fun m => ih m (hp m)
  | modify f next ih => exact ih hp

/-- A block of statements that may be made one after the other. -/
theorem leads_block (hadmits : ∀ w next q, admits w next → admits w (next.seq q))
    {programs : List (Prog M V)} (h : ∀ p ∈ programs, p.Leads admits) : (block programs).Leads admits := by
  induction programs with
  | nil => trivial
  | cons p rest ih =>
    exact (h p List.mem_cons_self).seq (fun w next => hadmits w next _)
      (ih fun q hq => h q (List.mem_cons_of_mem _ hq))

/-- A forced value with what may follow it. -/
theorem leads_force {α : Type*} {value : Option α} {next : α → Prog M V}
    (h : ∀ a, value = some a → (next a).Leads admits) : (force value next).Leads admits := by
  cases value with
  | none => trivial
  | some a => exact h a rfl

/-- A program whose writes all have a property that is admitted before anything. -/
theorem leads_of_holds {P : T → Write V → Prop} {t : T} (hadmits : ∀ w next, P t w → admits w next)
    {p : Prog M V} (h : (Contract.issues P).Holds t p) : p.Leads admits := by
  induction p with
  | done => trivial
  | trap => trivial
  | write w next ih => exact ⟨hadmits w next (Contract.permits_issues_iff.mp h.1), ih h.2⟩
  | observe p callback next ihcallback ih => exact ⟨fun s => ihcallback _ (h.1 s trivial), ih h.2⟩
  | inspect next ih => exact fun m => ih m (h m)
  | modify f next ih => exact ih h

end Prog

namespace Body

variable {goal : Store V → Prop} {admits : Write V → Prog M V → Prop} {body : Body M V}
  {db db' : Store V} {mem mem' : M} {rest : List (Body M V)}

/-- A step pays a debt or passes it on. -/
theorem Owes.step (h : body.Owes goal) (hgoal : ¬ goal db)
    (hstep : body.step db mem = some (db', mem', rest)) : goal db' ∨ ∃ b ∈ rest, b.Owes goal := by
  cases body with
  | await p callback =>
    simp only [Body.step, Option.some.injEq, Prod.mk.injEq] at hstep
    obtain ⟨rfl, rfl, rfl⟩ := hstep
    exact Or.inr ⟨_, List.mem_singleton_self _, h _ hgoal⟩
  | run program =>
    cases program <;> simp only [Body.step, Option.some.injEq, Prod.mk.injEq, reduceCtorEq] at hstep
    all_goals obtain ⟨rfl, rfl, rfl⟩ := hstep
    case done => exact h.elim
    case write w next =>
      rcases h with hnow | hlater
      · exact Or.inl (hnow db)
      · exact Or.inr ⟨_, List.mem_singleton_self _, hlater⟩
    case observe p callback next =>
      rcases h with hcallback | hlater
      · exact Or.inr ⟨.await p callback, by simp, hcallback⟩
      · exact Or.inr ⟨.run next, by simp, hlater⟩
    case inspect next => exact Or.inr ⟨_, List.mem_singleton_self _, h mem⟩
    case modify f next => exact Or.inr ⟨_, List.mem_singleton_self _, h⟩

/-- A step leaves bodies whose writes may be made. -/
theorem Leads.step (h : body.Leads admits) (hstep : body.step db mem = some (db', mem', rest)) :
    ∀ b ∈ rest, b.Leads admits := by
  cases body with
  | await p callback =>
    simp only [Body.step, Option.some.injEq, Prod.mk.injEq] at hstep
    obtain ⟨rfl, rfl, rfl⟩ := hstep
    simpa [Leads] using h _
  | run program =>
    cases program <;> simp only [Body.step, Option.some.injEq, Prod.mk.injEq, reduceCtorEq] at hstep
    all_goals obtain ⟨rfl, rfl, rfl⟩ := hstep
    case done => simp
    case write w next => simpa [Leads] using h.2
    case observe p callback next => simpa [Leads] using ⟨h.2, h.1⟩
    case inspect next => simpa [Leads] using h mem
    case modify f next => simpa [Leads, Prog.Leads] using h

end Body

/-- A debt that some pending body carries is paid by a step or still carried. -/
theorem Sys.owes_step {code : T → Prog M V} {s s' : Sys T M V} {a : Act T} {goal : Store V → Prop}
    {t : T} (h : ∃ task ∈ s.pool, task.1 = t ∧ task.2.Owes goal) (hgoal : ¬ goal s.db)
    (hstep : s.step code a = some s') :
    goal s'.db ∨ ∃ task ∈ s'.pool, task.1 = t ∧ task.2.Owes goal := by
  obtain ⟨task, htask, ht, howes⟩ := h
  cases a with
  | spawn t' =>
    simp only [Sys.step, Option.some.injEq] at hstep
    subst hstep
    exact Or.inr ⟨task, List.mem_append_left _ htask, ht, howes⟩
  | run i =>
    obtain ⟨before, t', body, after, db, mem, rest, hsplit, -, hbody, rfl⟩ :=
      Sys.step_run_eq_some hstep
    rw [hsplit, List.mem_append, List.mem_cons] at htask
    rcases htask with hbefore | rfl | hafter
    · exact Or.inr ⟨task, by simp [hbefore], ht, howes⟩
    · rcases howes.step hgoal hbody with hpaid | ⟨b, hb, howes⟩
      · exact Or.inl hpaid
      · exact Or.inr ⟨(t', b), by simp [hb], ht, howes⟩
    · exact Or.inr ⟨task, by simp [hafter], ht, howes⟩

end GroceryListApp.Realtime

import GroceryListApp.Realtime.Program

/-!
# Every interleaving of a pool of programs

Calls enter a pool at any time. A step runs one statement of one pending program, or
delivers one registered read; so each write and each delivered callback is a step of its
own, and a schedule is any list of such choices. A program that traps takes no further
step.

A contract states what every write of a program guarantees. It is checked program by
program, a callback being run on a snapshot of any database the invariant allows, and then
holds along every schedule.
-/

namespace GroceryListApp.Realtime

variable {T M V : Type*}

/-- A pending program, or a registered read that has not been answered. -/
inductive Body (M V : Type*) where
  | run (program : Prog M V)
  | await (location : Path) (callback : Snapshot V → Prog M V)

/-- One statement of a pending body: the database, the memory and what remains of the body. -/
def Body.step (db : Store V) (mem : M) : Body M V → Option (Store V × M × List (Body M V))
  | .await p callback => some (db, mem, [.run (callback (db.snapshot p))])
  | .run .done => some (db, mem, [])
  | .run .trap => none
  | .run (.write w next) => some (w.apply db, mem, [.run next])
  | .run (.observe p callback next) => some (db, mem, [.run next, .await p callback])
  | .run (.inspect next) => some (db, mem, [.run (next mem)])
  | .run (.modify f next) => some (db, f mem, [.run next])

/-- The database, the shared variables and everything that is pending, with its call. -/
structure Sys (T M V : Type*) where
  db : Store V
  mem : M
  pool : List (T × Body M V)

/-- A choice of the schedule: issue a call, or run a pending body. -/
inductive Act (T : Type*) where
  | spawn (call : T)
  | run (index : ℕ)
  deriving DecidableEq

/-- Issue a call and run what is pending in front for a number of steps. -/
def Act.alone (call : T) (steps : ℕ) : List (Act T) := .spawn call :: List.replicate steps (.run 0)

/-- A statement leaves the database alone or is a write. -/
theorem Body.step_write {db db' : Store V} {mem mem' : M} {body : Body M V} {rest : List (Body M V)}
    (h : body.step db mem = some (db', mem', rest)) :
    (db' = db ∧ ∀ w next, body ≠ .run (.write w next)) ∨
      ∃ w next, body = .run (.write w next) ∧ db' = w.apply db ∧ rest = [.run next] := by
  cases body with
  | await p callback =>
    simp only [Body.step, Option.some.injEq, Prod.mk.injEq] at h
    exact Or.inl ⟨h.1.symm, fun w next hbody => by contradiction⟩
  | run program =>
    cases program <;> simp only [Body.step, Option.some.injEq, Prod.mk.injEq, reduceCtorEq] at h
    case write w next => exact Or.inr ⟨w, next, rfl, h.1.symm, h.2.2.symm⟩
    all_goals exact Or.inl ⟨h.1.symm, fun w next hbody => by cases Body.run.inj hbody⟩

namespace Sys

/-- Take one chosen step. -/
def step (code : T → Prog M V) (s : Sys T M V) : Act T → Option (Sys T M V)
  | .spawn t => some { s with pool := s.pool ++ [(t, .run (code t))] }
  | .run i =>
    match s.pool[i]? with
    | none => none
    | some (t, body) =>
      (body.step s.db s.mem).map fun (db, mem, rest) =>
        ⟨db, mem, s.pool.take i ++ rest.map (t, ·) ++ s.pool.drop (i + 1)⟩

/-- Take the steps of a schedule in order. -/
def runs (code : T → Prog M V) (s : Sys T M V) (acts : List (Act T)) : Option (Sys T M V) :=
  acts.foldlM (step code) s

/-- Running a pending body replaces it by what remains of it. -/
theorem step_run_eq_some {code : T → Prog M V} {s s' : Sys T M V} {i : ℕ}
    (h : s.step code (.run i) = some s') :
    ∃ before t body after db mem rest, s.pool = before ++ (t, body) :: after ∧
      s.pool[i]? = some (t, body) ∧ body.step s.db s.mem = some (db, mem, rest) ∧
      s' = ⟨db, mem, before ++ rest.map (t, ·) ++ after⟩ := by
  simp only [step] at h
  split at h
  · contradiction
  · next t body hbody =>
    obtain ⟨⟨db, mem, rest⟩, hstep, hs'⟩ := Option.map_eq_some_iff.mp h
    obtain ⟨hi, hget⟩ := List.getElem?_eq_some_iff.mp hbody
    refine ⟨s.pool.take i, t, body, s.pool.drop (i + 1), db, mem, rest, ?_, hbody, hstep, hs'.symm⟩
    rw [← hget, List.cons_getElem_drop_succ, List.take_append_drop]

/-- After a step a body was pending before or is what remains of the one that was run. -/
theorem mem_rest {before after : List (T × Body M V)} {t : T} {rest : List (Body M V)}
    {task : T × Body M V} (h : task ∈ before ++ rest.map (t, ·) ++ after) (body : Body M V) :
    task ∈ before ++ (t, body) :: after ∨ ∃ b ∈ rest, task = (t, b) := by
  simp only [List.mem_append, List.mem_map, List.mem_cons] at h ⊢
  rcases h with (hbefore | ⟨b, hb, rfl⟩) | hafter
  · exact Or.inl (Or.inl hbefore)
  · exact Or.inr ⟨b, hb, rfl⟩
  · exact Or.inl (Or.inr (Or.inr hafter))

/-- A pending body can be run where it stands in the pool. -/
theorem step_run_of_split {code : T → Prog M V} {s : Sys T M V} {before after : List (T × Body M V)}
    {t : T} {body : Body M V} {db : Store V} {mem : M} {rest : List (Body M V)}
    (hsplit : s.pool = before ++ (t, body) :: after)
    (h : body.step s.db s.mem = some (db, mem, rest)) :
    s.step code (.run before.length) = some ⟨db, mem, before ++ rest.map (t, ·) ++ after⟩ := by
  simp [step, hsplit, h]

/-- A schedule whose every step is allowed. -/
inductive Run (code : T → Prog M V) (allowed : Sys T M V → Act T → Prop) (start : Sys T M V) :
    List (Act T) → Sys T M V → Prop
  | nil : Run code allowed start [] start
  | snoc {acts : List (Act T)} {s s' : Sys T M V} {a : Act T} :
      Run code allowed start acts s → allowed s a → s.step code a = some s' →
      Run code allowed start (acts ++ [a]) s'

/-- No call is issued. -/
def RunsOnly (_ : Sys T M V) (a : Act T) : Prop := ∀ t, a ≠ .spawn t

/-- The databases that allowed schedules lead to. -/
def Reaches (code : T → Prog M V) (allowed : Sys T M V → Act T → Prop) (start : Sys T M V)
    (db : Store V) : Prop :=
  ∃ acts s, Run code allowed start acts s ∧ s.db = db

/-- A schedule that can be taken is a run when its steps are allowed everywhere. -/
theorem run_of_runs {code : T → Prog M V} {allowed : Sys T M V → Act T → Prop}
    {start s : Sys T M V} {acts : List (Act T)} (hallowed : ∀ a ∈ acts, ∀ s, allowed s a)
    (h : start.runs code acts = some s) : Run code allowed start acts s := by
  induction acts using List.reverseRecOn generalizing s with
  | nil =>
    have : start = s := by simpa [runs] using h
    exact this ▸ .nil
  | append_singleton acts a ih =>
    rw [runs, List.foldlM_append] at h
    obtain ⟨mid, hmid, hlast⟩ := Option.bind_eq_some_iff.mp h
    have hbefore : ∀ a ∈ acts, ∀ s, allowed s a := fun b hb => hallowed b (List.mem_append_left _ hb)
    exact .snoc (ih hbefore hmid) (hallowed a (by simp) mid) (by simpa using hlast)

/-- Take the steps of a schedule in order, each only where it is allowed. -/
def checkedRuns (code : T → Prog M V) (allowed : Sys T M V → Act T → Prop)
    [∀ s a, Decidable (allowed s a)] (s : Sys T M V) (acts : List (Act T)) : Option (Sys T M V) :=
  acts.foldlM (fun s a => if allowed s a then s.step code a else none) s

/-- A schedule whose steps can be taken where they are allowed is a run. -/
theorem run_of_checkedRuns {code : T → Prog M V} {allowed : Sys T M V → Act T → Prop}
    [∀ s a, Decidable (allowed s a)] {start s : Sys T M V} {acts : List (Act T)}
    (h : start.checkedRuns code allowed acts = some s) : Run code allowed start acts s := by
  induction acts using List.reverseRecOn generalizing s with
  | nil =>
    have : start = s := by simpa [checkedRuns] using h
    exact this ▸ .nil
  | append_singleton acts a ih =>
    rw [checkedRuns, List.foldlM_append] at h
    obtain ⟨mid, hmid, hlast⟩ := Option.bind_eq_some_iff.mp h
    rw [List.foldlM_cons] at hlast
    obtain ⟨next, hnext, hsame⟩ := Option.bind_eq_some_iff.mp hlast
    obtain rfl := Option.some.inj hsame
    split at hnext
    · next ha => exact .snoc (ih hmid) ha hnext
    · contradiction

/-- The schedule of a run can be taken. -/
theorem Run.runs_eq {code : T → Prog M V} {allowed : Sys T M V → Act T → Prop}
    {start s : Sys T M V} {acts : List (Act T)} (h : Run code allowed start acts s) :
    start.runs code acts = some s := by
  induction h with
  | nil => rfl
  | snoc _ _ hstep ih =>
    rw [runs, List.foldlM_append, ← runs, ih]
    simpa using hstep

/-- Every call that a run issues was allowed where it was issued. -/
theorem Run.allowed_spawn {code : T → Prog M V} {allowed : Sys T M V → Act T → Prop}
    {start s : Sys T M V} {acts : List (Act T)} (h : Run code allowed start acts s) {t : T}
    (ht : .spawn t ∈ acts) : ∃ mid, allowed mid (.spawn t) := by
  induction h with
  | nil => simp at ht
  | snoc _ ha _ ih =>
    rcases List.mem_append.mp ht with ht | ht
    · exact ih ht
    · exact ⟨_, List.mem_singleton.mp ht ▸ ha⟩

/-- A condition on the writes of a schedule: the step does not issue a write, or the write
meets the condition in the database it is issued to. -/
def Meets (may : T → Store V → Write V → Prop) (s : Sys T M V) : Act T → Prop
  | .spawn _ => True
  | .run i => ∀ t w next, s.pool[i]? = some (t, .run (.write w next)) → may t s.db w

/-- The same, by the shape of the body that is run. -/
theorem meets_run_iff (may : T → Store V → Write V → Prop) (s : Sys T M V) (i : ℕ) :
    s.Meets may (.run i) ↔ match s.pool[i]? with
      | some (t, .run (.write w _)) => may t s.db w
      | _ => True := by
  constructor
  · intro h
    split
    · next t w next hget => exact h t w next hget
    · trivial
  · intro h t w next hget
    rwa [hget] at h

instance {may : T → Store V → Write V → Prop} [∀ t db w, Decidable (may t db w)] (s : Sys T M V)
    (a : Act T) : Decidable (s.Meets may a) := by
  cases a with
  | spawn t => exact isTrue trivial
  | run i =>
    refine @decidable_of_iff' _ _ (s.meets_run_iff may i) ?_
    split <;> infer_instance

end Sys

/-- What programs promise each other about a shared database.

The invariant is what a callback may rely on, `may` the condition under which a call
issues a write, and `keeps` what each such write guarantees. -/
structure Contract (T V : Type*) where
  inv : Store V → Prop
  may : T → Store V → Write V → Prop
  keeps : Store V → Store V → Prop
  crash : Prop
  inv_of_keeps : ∀ {s s' : Store V}, inv s → keeps s s' → inv s'

namespace Contract

/-- The contract that only maintains an invariant. -/
def invariant (inv : Store V → Prop) (may : T → Store V → Write V → Prop) (crash : Prop) :
    Contract T V where
  inv := inv
  may := may
  keeps _ s' := inv s'
  crash := crash
  inv_of_keeps _ h := h

variable (c : Contract T V)

/-- A call's write gives the guarantee whenever the call may issue it. -/
def Permits (t : T) (w : Write V) : Prop := ∀ s, c.inv s → c.may t s w → c.keeps s (w.apply s)

/-- A program keeps the contract, whatever its callbacks are answered. -/
def Holds (t : T) : Prog M V → Prop
  | .done => True
  | .trap => c.crash
  | .write w next => c.Permits t w ∧ Holds t next
  | .observe p callback next =>
      (∀ s, c.inv s → Holds t (callback (s.snapshot p))) ∧ Holds t next
  | .inspect next => ∀ m, Holds t (next m)
  | .modify _ next => Holds t next

/-- A pending body keeps the contract. -/
def HoldsBody (t : T) : Body M V → Prop
  | .run program => c.Holds t program
  | .await p callback => ∀ s, c.inv s → c.Holds t (callback (s.snapshot p))

variable {c}

/-- Sequencing keeps the contract. -/
theorem Holds.seq {t : T} {p q : Prog M V} (hp : c.Holds t p) (hq : c.Holds t q) :
    c.Holds t (p.seq q) := by
  induction p with
  | done => exact hq
  | trap => exact hp
  | write w next ih => exact ⟨hp.1, ih hp.2⟩
  | observe p callback next _ ih => exact ⟨hp.1, ih hp.2⟩
  | inspect next ih => exact fun m => ih m (hp m)
  | modify f next ih => exact ih hp

/-- A block keeps the contract when each of its statements does. -/
theorem holds_block {t : T} {programs : List (Prog M V)} (h : ∀ p ∈ programs, c.Holds t p) :
    c.Holds t (.block programs) := by
  induction programs with
  | nil => trivial
  | cons p rest ih => exact (h p List.mem_cons_self).seq (ih fun q hq => h q (List.mem_cons_of_mem _ hq))

/-- A loop keeps the contract when its body does. -/
theorem holds_forEach {α : Type*} {t : T} {values : List α} {body : α → Prog M V}
    (h : ∀ a ∈ values, c.Holds t (body a)) : c.Holds t (.forEach values body) := by
  refine holds_block fun p hp => ?_
  obtain ⟨a, ha, rfl⟩ := List.mem_map.mp hp
  exact h a ha

/-- A forced value keeps the contract when it is there or trapping is tolerated. -/
theorem holds_force {α : Type*} {t : T} {value : Option α} {next : α → Prog M V}
    (hnone : value = none → c.crash) (hsome : ∀ a, value = some a → c.Holds t (next a)) :
    c.Holds t (.force value next) := by
  cases value with
  | none => exact hnone rfl
  | some a => exact hsome a rfl

/-- The program does not trap when its reads are answered by databases with a property. No
write is asked for anything. -/
def Safe (P : Store V → Prop) (program : Prog M V) : Prop :=
  (Contract.invariant P (fun (_ : Unit) _ _ => False) False).Holds () program

/-- A step leaves only bodies that keep the contract, whatever it writes. -/
theorem HoldsBody.rest {t : T} {body : Body M V} {db db' : Store V} {mem mem' : M}
    {rest : List (Body M V)} (hbody : c.HoldsBody t body) (hinv : c.inv db)
    (hstep : body.step db mem = some (db', mem', rest)) : ∀ b ∈ rest, c.HoldsBody t b := by
  cases body with
  | await p callback =>
    simp only [Body.step, Option.some.injEq, Prod.mk.injEq] at hstep
    obtain ⟨rfl, rfl, rfl⟩ := hstep
    simpa [HoldsBody] using hbody _ hinv
  | run program =>
    cases program <;> simp only [Body.step, Option.some.injEq, Prod.mk.injEq, reduceCtorEq] at hstep
    all_goals obtain ⟨rfl, rfl, rfl⟩ := hstep
    case done => simp
    case write w next => simpa [HoldsBody] using hbody.2
    case observe p callback next => simpa [HoldsBody] using ⟨hbody.2, hbody.1⟩
    case inspect next => simpa [HoldsBody] using hbody mem
    case modify f next => simpa [HoldsBody, Holds] using hbody

/-- One step of a body keeps the invariant and leaves bodies that keep the contract. -/
theorem HoldsBody.step {t : T} {body : Body M V} {db db' : Store V} {mem mem' : M}
    {rest : List (Body M V)} (hbody : c.HoldsBody t body) (hinv : c.inv db)
    (hmay : ∀ w next, body = .run (.write w next) → c.may t db w)
    (hstep : body.step db mem = some (db', mem', rest)) :
    (db' = db ∨ c.keeps db db') ∧ c.inv db' ∧ ∀ b ∈ rest, c.HoldsBody t b := by
  suffices h : db' = db ∨ c.keeps db db' by
    have hinv' : c.inv db' := h.elim (fun hsame => hsame ▸ hinv) (c.inv_of_keeps hinv)
    exact ⟨h, hinv', hbody.rest hinv hstep⟩
  cases body with
  | await p callback =>
    simp only [Body.step, Option.some.injEq, Prod.mk.injEq] at hstep
    exact Or.inl hstep.1.symm
  | run program =>
    cases program <;> simp only [Body.step, Option.some.injEq, Prod.mk.injEq, reduceCtorEq] at hstep
    case write w next =>
      obtain ⟨rfl, rfl, rfl⟩ := hstep
      exact Or.inr (hbody.1 db hinv (hmay w next rfl))
    all_goals exact Or.inl hstep.1.symm

/-- Along every allowed schedule the invariant holds and every pending body keeps the contract. -/
theorem run_holds {code : T → Prog M V} {allowed : Sys T M V → Act T → Prop}
    (hallowed : ∀ s a, allowed s a → s.Meets c.may a)
    (hcode : ∀ s t, allowed s (.spawn t) → c.Holds t (code t)) {start s : Sys T M V}
    {acts : List (Act T)} (hinv : c.inv start.db)
    (hpool : ∀ task ∈ start.pool, c.HoldsBody task.1 task.2)
    (h : Sys.Run code allowed start acts s) :
    c.inv s.db ∧ ∀ task ∈ s.pool, c.HoldsBody task.1 task.2 := by
  induction h with
  | nil => exact ⟨hinv, hpool⟩
  | @snoc acts s s' a _ ha hstep ih =>
    obtain ⟨hinv, hpool⟩ := ih
    cases a with
    | spawn t =>
      simp only [Sys.step, Option.some.injEq] at hstep
      subst hstep
      refine ⟨hinv, fun task htask => ?_⟩
      rcases List.mem_append.mp htask with htask | htask
      · exact hpool task htask
      · rw [List.mem_singleton.mp htask]
        exact hcode s t ha
    | run i =>
      obtain ⟨before, t, body, after, db, mem, rest, hsplit, hget, hbody, rfl⟩ :=
        Sys.step_run_eq_some hstep
      have hmay : ∀ w next, body = .run (.write w next) → c.may t s.db w := by
        rintro w next rfl
        exact hallowed s _ ha t w next hget
      have hholds : c.HoldsBody t body := hpool (t, body) (by simp [hsplit])
      obtain ⟨-, hinv', hrest⟩ := hholds.step hinv hmay hbody
      refine ⟨hinv', fun task htask => ?_⟩
      simp only [List.mem_append, List.mem_map] at htask
      rcases htask with (htask | ⟨b, hb, rfl⟩) | htask
      · exact hpool task (by simp [hsplit, htask])
      · exact hrest b hb
      · exact hpool task (by simp [hsplit, htask])

end Contract

end GroceryListApp.Realtime

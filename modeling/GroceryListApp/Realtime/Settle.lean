import GroceryListApp.Realtime.Schedule
import Mathlib.Logic.Hydra

/-!
# What holds once nothing is pending

A program brings about a goal when every way it can go on contains a write after which the
goal holds, as long as the goal has not been reached before. If each write of each program
keeps the goals that are reached, then every schedule that leaves nothing pending ends with
all goals reached, in whatever order the reads were answered.

Without new calls no schedule goes on forever: each step replaces a body by finitely many
bodies below it.
-/

namespace GroceryListApp.Realtime

variable {T M V : Type*}

namespace Contract

variable (c : Contract T V) (goal : Store V → Prop)

/-- However it continues, the program reaches the goal with one of its writes. -/
def Brings (t : T) : Prog M V → Prop
  | .done => False
  | .trap => False
  | .write w next => (∀ s, c.inv s → c.may t s w → goal (w.apply s)) ∨ Brings t next
  | .observe p callback next =>
      (∀ s, c.inv s → ¬ goal s → Brings t (callback (s.snapshot p))) ∨ Brings t next
  | .inspect next => ∀ m, Brings t (next m)
  | .modify _ next => Brings t next

/-- However it continues, the pending body reaches the goal with one of its writes. -/
def BringsBody (t : T) : Body M V → Prop
  | .run program => c.Brings goal t program
  | .await p callback => ∀ s, c.inv s → ¬ goal s → c.Brings goal t (callback (s.snapshot p))

variable {c goal}

/-- The first of two programs brings about what it brings about alone. -/
theorem Brings.seq_left {t : T} {p : Prog M V} (hp : c.Brings goal t p) (q : Prog M V) :
    c.Brings goal t (p.seq q) := by
  induction p with
  | done => exact hp.elim
  | trap => exact hp.elim
  | write w next ih => exact hp.imp id ih
  | observe p callback next _ ih => exact hp.imp id ih
  | inspect next ih => exact fun m => ih m (hp m)
  | modify f next ih => exact ih hp

/-- The second of two programs is reached when the first does not trap. -/
theorem Brings.seq_right {t : T} {p q : Prog M V} (hp : p.Steady) (hq : c.Brings goal t q) :
    c.Brings goal t (p.seq q) := by
  induction p with
  | done => exact hq
  | trap => exact hp.elim
  | write w next ih => exact Or.inr (ih hp)
  | observe p callback next _ ih => exact Or.inr (ih hp)
  | inspect next ih => exact fun m => ih m (hp m)
  | modify f next ih => exact ih hp

/-- A block brings about what one of its statements does, when none of them traps. -/
theorem brings_block {t : T} {programs : List (Prog M V)} {p : Prog M V} (hp : p ∈ programs)
    (hsteady : ∀ q ∈ programs, q.Steady) (hbrings : c.Brings goal t p) :
    c.Brings goal t (.block programs) := by
  induction programs with
  | nil => simp at hp
  | cons q rest ih =>
    rcases List.mem_cons.mp hp with rfl | hp
    · exact hbrings.seq_left _
    · exact Brings.seq_right (hsteady q List.mem_cons_self)
        (ih hp fun q hq => hsteady q (List.mem_cons_of_mem _ hq))

/-- A loop brings about what one round of it does, when no round traps. -/
theorem brings_forEach {α : Type*} {t : T} {values : List α} {body : α → Prog M V} {a : α}
    (ha : a ∈ values) (hsteady : ∀ b ∈ values, (body b).Steady) (hbody : c.Brings goal t (body a)) :
    c.Brings goal t (.forEach values body) := by
  refine brings_block (List.mem_map_of_mem ha) (fun p hp => ?_) hbody
  obtain ⟨b, hb, rfl⟩ := List.mem_map.mp hp
  exact hsteady b hb

/-- A step reaches the goal or leaves a body that still brings it about. -/
theorem BringsBody.step {t : T} {body : Body M V} {db db' : Store V} {mem mem' : M}
    {rest : List (Body M V)} (hbody : c.BringsBody goal t body) (hinv : c.inv db) (hgoal : ¬ goal db)
    (hmay : ∀ w next, body = .run (.write w next) → c.may t db w)
    (hstep : body.step db mem = some (db', mem', rest)) :
    goal db' ∨ ∃ b ∈ rest, c.BringsBody goal t b := by
  cases body with
  | await p callback =>
    simp only [Body.step, Option.some.injEq, Prod.mk.injEq] at hstep
    obtain ⟨rfl, rfl, rfl⟩ := hstep
    exact Or.inr ⟨_, List.mem_singleton_self _, hbody _ hinv hgoal⟩
  | run program =>
    cases program <;> simp only [Body.step, Option.some.injEq, Prod.mk.injEq, reduceCtorEq] at hstep
    all_goals obtain ⟨rfl, rfl, rfl⟩ := hstep
    case done => exact hbody.elim
    case write w next =>
      rcases hbody with hnow | hlater
      · exact Or.inl (hnow db hinv (hmay w next rfl))
      · exact Or.inr ⟨_, List.mem_singleton_self _, hlater⟩
    case observe p callback next =>
      rcases hbody with hcallback | hlater
      · exact Or.inr ⟨.await p callback, by simp, hcallback⟩
      · exact Or.inr ⟨.run next, by simp, hlater⟩
    case inspect next => exact Or.inr ⟨_, List.mem_singleton_self _, hbody mem⟩
    case modify f next => exact Or.inr ⟨_, List.mem_singleton_self _, hbody⟩

/-- Along every allowed schedule a goal that some call brings about is reached, or some pending
body still brings it about. -/
theorem run_brings {code : T → Prog M V} {allowed : Sys T M V → Act T → Prop}
    (hallowed : ∀ s a, allowed s a → s.Meets c.may a)
    (hcode : ∀ s t, allowed s (.spawn t) → c.Holds t (code t)) {start s : Sys T M V}
    {acts : List (Act T)} (hinv : c.inv start.db)
    (hpool : ∀ task ∈ start.pool, c.HoldsBody task.1 task.2)
    (hkeep : ∀ {s s' : Store V}, c.inv s → c.keeps s s' → goal s → goal s')
    (hstart : (goal start.db ∨ ∃ task ∈ start.pool, c.BringsBody goal task.1 task.2) ∨
      ∃ t, .spawn t ∈ acts ∧ c.Brings goal t (code t))
    (h : Sys.Run code allowed start acts s) :
    goal s.db ∨ ∃ task ∈ s.pool, c.BringsBody goal task.1 task.2 := by
  induction h with
  | nil => exact hstart.resolve_right (by simp)
  | @snoc acts s s' a hrun ha hstep ih =>
    obtain ⟨hinv, hpool⟩ := run_holds hallowed hcode hinv hpool hrun
    cases a with
    | spawn t =>
      simp only [Sys.step, Option.some.injEq] at hstep
      subst hstep
      have hbefore : (goal s.db ∨ ∃ task ∈ s.pool, c.BringsBody goal task.1 task.2) ∨
          c.Brings goal t (code t) := by
        rcases hstart with hstart | ⟨t', ht', hbrings⟩
        · exact Or.inl (ih (Or.inl hstart))
        · rcases List.mem_append.mp ht' with ht' | ht'
          · exact Or.inl (ih (Or.inr ⟨t', ht', hbrings⟩))
          · cases List.mem_singleton.mp ht'
            exact Or.inr hbrings
      rcases hbefore with (hgoal | ⟨task, htask, hbrings⟩) | hbrings
      · exact Or.inl hgoal
      · exact Or.inr ⟨task, by simp [htask], hbrings⟩
      · exact Or.inr ⟨(t, .run (code t)), by simp, hbrings⟩
    | run i =>
      replace hstart : (goal start.db ∨ ∃ task ∈ start.pool, c.BringsBody goal task.1 task.2) ∨
          ∃ t, .spawn t ∈ acts ∧ c.Brings goal t (code t) := by
        simpa using hstart
      obtain ⟨before, t, body, after, db, mem, rest, hsplit, hget, hbody, rfl⟩ :=
        Sys.step_run_eq_some hstep
      have hmay : ∀ w next, body = .run (.write w next) → c.may t s.db w := by
        rintro w next rfl
        exact hallowed s _ ha t w next hget
      have hholds : c.HoldsBody t body := hpool (t, body) (by simp [hsplit])
      by_cases hgoal : goal s.db
      · rcases (hholds.step hinv hmay hbody).1 with hsame | hkeeps
        · exact Or.inl (hsame ▸ hgoal)
        · exact Or.inl (hkeep hinv hkeeps hgoal)
      · obtain ⟨task, htask, hbrings⟩ := (ih hstart).resolve_left hgoal
        rw [hsplit, List.mem_append, List.mem_cons] at htask
        rcases htask with htask | rfl | htask
        · exact Or.inr ⟨task, by simp [htask], hbrings⟩
        · rcases hbrings.step hinv hgoal hmay hbody with hdone | ⟨b, hb, hbrings⟩
          · exact Or.inl hdone
          · exact Or.inr ⟨(t, b), by simp [hb], hbrings⟩
        · exact Or.inr ⟨task, by simp [htask], hbrings⟩

variable (c goal) in
/-- Each write keeps a condition, or is followed by what brings about a goal. -/
def Hands (pre : Store V → Prop) (t : T) : Prog M V → Prop
  | .done => True
  | .trap => True
  | .write w next => ((∀ s, c.inv s → c.may t s w → pre s → pre (w.apply s)) ∨
      c.Brings goal t next) ∧ Hands pre t next
  | .observe p callback next =>
      (∀ s, c.inv s → Hands pre t (callback (s.snapshot p))) ∧ Hands pre t next
  | .inspect next => ∀ m, Hands pre t (next m)
  | .modify _ next => Hands pre t next

variable (c goal) in
/-- Each write of a pending body keeps a condition, or is followed by what brings about a goal. -/
def HandsBody (pre : Store V → Prop) (t : T) : Body M V → Prop
  | .run program => c.Hands goal pre t program
  | .await p callback => ∀ s, c.inv s → c.Hands goal pre t (callback (s.snapshot p))

variable {pre : Store V → Prop}

/-- Sequencing hands over as its parts do. -/
theorem Hands.seq {t : T} {p q : Prog M V} (hp : c.Hands goal pre t p) (hq : c.Hands goal pre t q) :
    c.Hands goal pre t (p.seq q) := by
  induction p with
  | done => exact hq
  | trap => trivial
  | write w next ih => exact ⟨hp.1.imp id fun hbrings => hbrings.seq_left q, ih hp.2⟩
  | observe p callback next _ ih => exact ⟨hp.1, ih hp.2⟩
  | inspect next ih => exact fun m => ih m (hp m)
  | modify f next ih => exact ih hp

/-- A block hands over as its statements do. -/
theorem hands_block {t : T} {programs : List (Prog M V)}
    (h : ∀ p ∈ programs, c.Hands goal pre t p) : c.Hands goal pre t (.block programs) := by
  induction programs with
  | nil => trivial
  | cons p rest ih => exact (h p List.mem_cons_self).seq (ih fun q hq => h q (List.mem_cons_of_mem _ hq))

/-- A loop hands over as its body does. -/
theorem hands_forEach {α : Type*} {t : T} {values : List α} {body : α → Prog M V}
    (h : ∀ a ∈ values, c.Hands goal pre t (body a)) : c.Hands goal pre t (.forEach values body) := by
  refine hands_block fun p hp => ?_
  obtain ⟨a, ha, rfl⟩ := List.mem_map.mp hp
  exact h a ha

/-- A program that keeps the condition by another contract never has to hand over. -/
theorem hands_of_holds {c' : Contract T V} {t : T} {p : Prog M V} (h : c'.Holds t p)
    (hinv : ∀ s, c.inv s → c'.inv s) (hmay : ∀ s w, c.may t s w → c'.may t s w)
    (hkeeps : ∀ {s s' : Store V}, c'.keeps s s' → pre s → pre s') : c.Hands goal pre t p := by
  induction p with
  | done => trivial
  | trap => trivial
  | write w next ih =>
    exact ⟨Or.inl fun s hs hw => hkeeps (h.1 s (hinv s hs) (hmay s w hw)), ih h.2⟩
  | observe p callback next ihcallback ih =>
    exact ⟨fun s hs => ihcallback _ (h.1 s (hinv s hs)), ih h.2⟩
  | inspect next ih => exact fun m => ih m (h m)
  | modify f next ih => exact ih h

/-- A step keeps the condition or leaves a body that brings about the goal. -/
theorem HandsBody.step {t : T} {body : Body M V} {db db' : Store V} {mem mem' : M}
    {rest : List (Body M V)} (hbody : c.HandsBody goal pre t body) (hinv : c.inv db)
    (hmay : ∀ w next, body = .run (.write w next) → c.may t db w)
    (hstep : body.step db mem = some (db', mem', rest)) :
    ((pre db → pre db') ∨ ∃ b ∈ rest, c.BringsBody goal t b) ∧
      ∀ b ∈ rest, c.HandsBody goal pre t b := by
  cases body with
  | await p callback =>
    simp only [Body.step, Option.some.injEq, Prod.mk.injEq] at hstep
    obtain ⟨rfl, rfl, rfl⟩ := hstep
    exact ⟨Or.inl id, by simpa [HandsBody] using hbody _ hinv⟩
  | run program =>
    cases program <;> simp only [Body.step, Option.some.injEq, Prod.mk.injEq, reduceCtorEq] at hstep
    all_goals obtain ⟨rfl, rfl, rfl⟩ := hstep
    case done => exact ⟨Or.inl id, by simp⟩
    case write w next =>
      refine ⟨?_, by simpa [HandsBody] using hbody.2⟩
      rcases hbody.1 with hkept | hbrings
      · exact Or.inl (hkept db hinv (hmay w next rfl))
      · exact Or.inr ⟨_, List.mem_singleton_self _, hbrings⟩
    case observe p callback next =>
      exact ⟨Or.inl id, by simpa [HandsBody] using ⟨hbody.2, hbody.1⟩⟩
    case inspect next => exact ⟨Or.inl id, by simpa [HandsBody] using hbody mem⟩
    case modify f next => exact ⟨Or.inl id, by simpa [HandsBody, Hands] using hbody⟩

/-- Along every allowed schedule that starts with the condition, it holds until a pending body is
going to bring about the goal, or the goal is reached. -/
theorem run_hands {code : T → Prog M V} {allowed : Sys T M V → Act T → Prop}
    (hallowed : ∀ s a, allowed s a → s.Meets c.may a)
    (hcode : ∀ s t, allowed s (.spawn t) → c.Holds t (code t))
    (hhands : ∀ s t, allowed s (.spawn t) → c.Hands goal pre t (code t))
    (hkeep : ∀ {s s' : Store V}, c.inv s → c.keeps s s' → goal s → goal s')
    {start s : Sys T M V} {acts : List (Act T)} (hinv : c.inv start.db) (hpool : start.pool = [])
    (hstart : pre start.db) (h : Sys.Run code allowed start acts s) :
    (goal s.db ∨ pre s.db ∨ ∃ task ∈ s.pool, c.BringsBody goal task.1 task.2) ∧
      ∀ task ∈ s.pool, c.HandsBody goal pre task.1 task.2 := by
  induction h with
  | nil => exact ⟨Or.inr (Or.inl hstart), by simp [hpool]⟩
  | @snoc acts s s' a hrun ha hstep ih =>
    obtain ⟨hinv, hheld⟩ := run_holds hallowed hcode hinv (by simp [hpool]) hrun
    obtain ⟨hstate, hhanding⟩ := ih
    cases a with
    | spawn t =>
      simp only [Sys.step, Option.some.injEq] at hstep
      subst hstep
      refine ⟨?_, fun task htask => ?_⟩
      · rcases hstate with hgoal | hholding | ⟨task, htask, hbrings⟩
        · exact Or.inl hgoal
        · exact Or.inr (Or.inl hholding)
        · exact Or.inr (Or.inr ⟨task, by simp [htask], hbrings⟩)
      rcases List.mem_append.mp htask with htask | htask
      · exact hhanding task htask
      · rw [List.mem_singleton.mp htask]
        exact hhands s t ha
    | run i =>
      obtain ⟨before, t, body, after, db, mem, rest, hsplit, hget, hbody, rfl⟩ :=
        Sys.step_run_eq_some hstep
      have hmay : ∀ w next, body = .run (.write w next) → c.may t s.db w := by
        rintro w next rfl
        exact hallowed s _ ha t w next hget
      have hmem : (t, body) ∈ s.pool := by simp [hsplit]
      obtain ⟨hpre, hrest⟩ := HandsBody.step (hhanding _ hmem) hinv hmay hbody
      constructor
      · by_cases hgoal : goal s.db
        · rcases ((hheld _ hmem).step hinv hmay hbody).1 with hsame | hkeeps
          · exact Or.inl (hsame ▸ hgoal)
          · exact Or.inl (hkeep hinv hkeeps hgoal)
        · rcases hstate.resolve_left hgoal with hholding | ⟨task, htask, hbrings⟩
          · rcases hpre with hkept | ⟨b, hb, hbrings⟩
            · exact Or.inr (Or.inl (hkept hholding))
            · exact Or.inr (Or.inr ⟨(t, b), by simp [hb], hbrings⟩)
          · rw [hsplit, List.mem_append, List.mem_cons] at htask
            rcases htask with htask | rfl | htask
            · exact Or.inr (Or.inr ⟨task, by simp [htask], hbrings⟩)
            · rcases hbrings.step hinv hgoal hmay hbody with hdone | ⟨b, hb, hbrings⟩
              · exact Or.inl hdone
              · exact Or.inr (Or.inr ⟨(t, b), by simp [hb], hbrings⟩)
            · exact Or.inr (Or.inr ⟨task, by simp [htask], hbrings⟩)
      · intro task htask
        simp only [List.mem_append, List.mem_map] at htask
        rcases htask with (htask | ⟨b, hb, rfl⟩) | htask
        · exact hhanding task (by simp [hsplit, htask])
        · exact hrest b hb
        · exact hhanding task (by simp [hsplit, htask])

end Contract

/-- A body another one can be replaced by in one step. -/
inductive Body.Below : Body M V → Body M V → Prop
  | answer (p : Path) (callback : Snapshot V → Prog M V) (snapshot : Snapshot V) :
      Below (.run (callback snapshot)) (.await p callback)
  | write (w : Write V) (next : Prog M V) : Below (.run next) (.run (.write w next))
  | observe (p : Path) (callback : Snapshot V → Prog M V) (next : Prog M V) :
      Below (.run next) (.run (.observe p callback next))
  | register (p : Path) (callback : Snapshot V → Prog M V) (next : Prog M V) :
      Below (.await p callback) (.run (.observe p callback next))
  | inspect (next : M → Prog M V) (m : M) : Below (.run (next m)) (.run (.inspect next))
  | modify (f : M → M) (next : Prog M V) : Below (.run next) (.run (.modify f next))

/-- Callbacks cannot be nested forever. -/
theorem Body.below_wellFounded : WellFounded (@Body.Below M V) := by
  have hawait (p : Path) (callback : Snapshot V → Prog M V)
      (h : ∀ snapshot, Acc Body.Below (.run (callback snapshot))) :
      Acc Body.Below (.await p callback) := by
    refine ⟨_, fun b hb => ?_⟩
    cases hb with
    | answer _ _ snapshot => exact h snapshot
  have hrun (program : Prog M V) : Acc Body.Below (.run program) := by
    induction program with
    | done => exact ⟨_, fun b hb => by cases hb⟩
    | trap => exact ⟨_, fun b hb => by cases hb⟩
    | write w next ih => exact ⟨_, fun b hb => by cases hb; exact ih⟩
    | observe p callback next ihcallback ih =>
      refine ⟨_, fun b hb => ?_⟩
      cases hb with
      | observe => exact ih
      | register => exact hawait p callback ihcallback
    | inspect next ih => exact ⟨_, fun b hb => by cases hb; exact ih _⟩
    | modify f next ih => exact ⟨_, fun b hb => by cases hb; exact ih⟩
  refine ⟨fun body => ?_⟩
  cases body with
  | run program => exact hrun program
  | await p callback => exact hawait p callback fun snapshot => hrun (callback snapshot)

/-- A step leaves only bodies below the one it ran. -/
theorem Body.below_of_step {body : Body M V} {db db' : Store V} {mem mem' : M}
    {rest : List (Body M V)} (h : body.step db mem = some (db', mem', rest)) :
    ∀ b ∈ rest, Body.Below b body := by
  cases body with
  | await p callback =>
    simp only [Body.step, Option.some.injEq, Prod.mk.injEq] at h
    obtain ⟨rfl, rfl, rfl⟩ := h
    simpa using Body.Below.answer p callback _
  | run program =>
    cases program <;> simp only [Body.step, Option.some.injEq, Prod.mk.injEq, reduceCtorEq] at h
    all_goals obtain ⟨rfl, rfl, rfl⟩ := h
    case done => simp
    case write w next => simpa using Body.Below.write w next
    case observe p callback next =>
      simpa using ⟨Body.Below.observe p callback next, Body.Below.register p callback next⟩
    case inspect next => simpa using Body.Below.inspect next mem
    case modify f next => simpa using Body.Below.modify f next

/-- Running pending bodies without issuing calls comes to an end. -/
theorem Sys.run_wellFounded (code : T → Prog M V) :
    WellFounded fun s' s : Sys T M V => ∃ i, s.step code (.run i) = some s' := by
  refine Subrelation.wf ?_ (InvImage.wf
    (fun s : Sys T M V => (↑(s.pool.map Prod.snd) : Multiset (Body M V)))
    Body.below_wellFounded.cutExpand)
  rintro s' s ⟨i, hstep⟩
  obtain ⟨before, t, body, after, db, mem, rest, hsplit, -, hbody, rfl⟩ :=
    Sys.step_run_eq_some hstep
  refine ⟨↑rest, body, fun b hb => Body.below_of_step hbody b (by simpa using hb), ?_⟩
  simp only [hsplit, List.map_append, List.map_cons, List.map_map, ← Multiset.coe_add,
    ← Multiset.cons_coe, ← Multiset.singleton_add]
  have : (rest.map (Prod.snd ∘ fun b => (t, b))) = rest := by simp [Function.comp_def]
  rw [this]
  ac_rfl

/-- If an invariant of the schedule excludes traps, some continuation finishes everything. -/
theorem Sys.exists_finished (code : T → Prog M V) (P : Sys T M V → Prop)
    (hstep : ∀ s i s', P s → s.step code (.run i) = some s' → P s')
    (htrap : ∀ s, P s → ∀ task ∈ s.pool, task.2 ≠ .run .trap) (s : Sys T M V) (hs : P s) :
    ∃ acts s', (∀ t, .spawn t ∉ acts) ∧ s.runs code acts = some s' ∧ s'.pool = [] := by
  induction s using (Sys.run_wellFounded code).induction with
  | _ s ih =>
    cases hpool : s.pool with
    | nil => exact ⟨[], s, by simp, rfl, hpool⟩
    | cons task rest =>
      have hbody : ∃ out, task.2.step s.db s.mem = some out := by
        have hne := htrap s hs task (by simp [hpool])
        rcases task with ⟨t, program | ⟨p, callback⟩⟩
        · cases program <;> simp_all [Body.step]
        · simp [Body.step]
      obtain ⟨⟨db, mem, left⟩, hout⟩ := hbody
      have hnext : s.step code (.run 0) = some ⟨db, mem, left.map (task.1, ·) ++ rest⟩ := by
        simp [Sys.step, hpool, hout]
      obtain ⟨acts, s', hacts, hruns, hempty⟩ := ih _ ⟨0, hnext⟩ (hstep s 0 _ hs hnext)
      refine ⟨.run 0 :: acts, s', by simpa using hacts, ?_, hempty⟩
      rw [Sys.runs, List.foldlM_cons, hnext]
      exact hruns

end GroceryListApp.Realtime

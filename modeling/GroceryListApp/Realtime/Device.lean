import GroceryListApp.Realtime.Schedule
import Mathlib.Data.List.Perm.Basic

/-!
# One device that runs its callbacks without interruption

On one device a function or a callback runs to its end before the next one starts, and only the
order in which the registered reads are answered is open. A crash leaves the device as it is at that
moment. Such a run is one schedule of a pool, in which the statements of a callback are taken in a
row, so what holds along every schedule holds on a single device.
-/

namespace GroceryListApp.Realtime

variable {T M V : Type*}

/-- The database, the variables of the device, its registered reads in their order, and whether it
has crashed. -/
structure Device (M V : Type*) where
  db : Store V
  mem : M
  reads : List (Path × (Snapshot V → Prog M V))
  crashed : Bool

/-- What happens on a device: a function is called, or a registered read is answered. -/
inductive DeviceEvent (T : Type*) where
  | call (t : T)
  | answer (index : ℕ)

namespace Device

/-- A device on which nothing is pending. -/
def idle (db : Store V) (mem : M) : Device M V := ⟨db, mem, [], false⟩

/-- Run all statements of a program, up to a crash. -/
def exec : Prog M V → Device M V → Device M V
  | .done, d => d
  | .trap, d => { d with crashed := true }
  | .write w next, d => exec next { d with db := w.apply d.db }
  | .observe p callback next, d => exec next { d with reads := d.reads ++ [(p, callback)] }
  | .inspect next, d => exec (next d.mem) d
  | .modify f next, d => exec next { d with mem := f d.mem }

/-- Go on unless the device has crashed. -/
def andThen (d : Device M V) (f : Device M V → Device M V) : Device M V :=
  if d.crashed then d else f d

/-- Answer a registered read and run its callback. -/
def answer (d : Device M V) (i : ℕ) : Device M V :=
  d.andThen fun d =>
    match d.reads[i]? with
    | none => d
    | some (p, callback) => exec (callback (d.db.snapshot p)) { d with reads := d.reads.eraseIdx i }

/-- One event on a device that has not crashed. -/
def step (code : T → Prog M V) (d : Device M V) : DeviceEvent T → Option (Device M V)
  | .call t => if d.crashed then none else some (exec (code t) d)
  | .answer i => if d.crashed then none else d.reads[i]?.map fun _ => d.answer i

/-- Answer registered reads in a given order. -/
def answers (d : Device M V) (order : List ℕ) : Device M V := order.foldl answer d

section

variable (d : Device M V)

@[simp] theorem exec_done : exec .done d = d := rfl

@[simp] theorem exec_trap : exec .trap d = { d with crashed := true } := rfl

@[simp] theorem exec_write (w : Write V) (next : Prog M V) :
    exec (.write w next) d = exec next { d with db := w.apply d.db } := rfl

@[simp] theorem exec_observe (p : Path) (callback : Snapshot V → Prog M V) (next : Prog M V) :
    exec (.observe p callback next) d =
      exec next { d with reads := d.reads ++ [(p, callback)] } := rfl

@[simp] theorem exec_inspect (next : M → Prog M V) : exec (.inspect next) d = exec (next d.mem) d := rfl

@[simp] theorem exec_modify (f : M → M) (next : Prog M V) :
    exec (.modify f next) d = exec next { d with mem := f d.mem } := rfl

/-- Answering the only read. -/
theorem answer_single {db : Store V} {mem : M} {p : Path} {callback : Snapshot V → Prog M V} :
    answer ⟨db, mem, [(p, callback)], false⟩ 0 = exec (callback (db.snapshot p)) (idle db mem) := rfl

/-- An event is a call that runs, or the answer to a registered read; the device had not crashed. -/
theorem step_eq_some {code : T → Prog M V} {d next : Device M V} {e : DeviceEvent T}
    (h : d.step code e = some next) :
    d.crashed = false ∧ ((∃ t, e = .call t ∧ next = exec (code t) d) ∨
      ∃ i p callback, e = .answer i ∧ d.reads[i]? = some (p, callback) ∧
        next = exec (callback (d.db.snapshot p)) { d with reads := d.reads.eraseIdx i }) := by
  have hrunning : d.crashed = false := by
    cases hcrashed : d.crashed with
    | false => rfl
    | true => cases e <;> simp [step, hcrashed] at h
  refine ⟨hrunning, ?_⟩
  cases e with
  | call t =>
    rw [step, if_neg (by simp [hrunning])] at h
    exact Or.inl ⟨t, rfl, (Option.some.inj h).symm⟩
  | answer i =>
    rw [step, if_neg (by simp [hrunning])] at h
    obtain ⟨⟨p, callback⟩, hread, rfl⟩ := Option.map_eq_some_iff.mp h
    refine Or.inr ⟨i, p, callback, rfl, hread, ?_⟩
    simp [answer, andThen, hrunning, hread]

/-- Nothing is answered after a crash. -/
theorem answer_crashed {d : Device M V} (h : d.crashed = true) (i : ℕ) : d.answer i = d := if_pos h

end

/-! ### A device is one schedule -/

/-- What is pending when reads are registered, and the rest of a program that has crashed. -/
def pending (t : T) (reads : List (Path × (Snapshot V → Prog M V))) (crashed : Bool) :
    List (T × Body M V) :=
  (if crashed then [(t, .run .trap)] else []) ++ reads.map fun read => (t, .await read.1 read.2)

/-- The system has what the device has, and nothing else is pending. -/
structure Represents (t : T) (d : Device M V) (s : Sys T M V) : Prop where
  db : s.db = d.db
  mem : s.mem = d.mem
  pool : s.pool.Perm (pending t d.reads d.crashed)

/-- A statement is taken where its body stands in the pool, and then the rest. -/
theorem runs_body (code : T → Prog M V) (t : T) (before after : List (T × Body M V)) (body : Body M V)
    {db db' : Store V} {mem mem' : M} {rest : List (Body M V)}
    (hbody : body.step db mem = some (db', mem', rest)) (steps : ℕ) :
    Sys.runs code ⟨db, mem, before ++ (t, body) :: after⟩
        (List.replicate (steps + 1) (.run before.length)) =
      Sys.runs code ⟨db', mem', before ++ rest.map (t, ·) ++ after⟩
        (List.replicate steps (.run before.length)) := by
  have hstep : (⟨db, mem, before ++ (t, body) :: after⟩ : Sys T M V).step code (.run before.length) =
      some ⟨db', mem', before ++ rest.map (t, ·) ++ after⟩ :=
    Sys.step_run_of_split rfl hbody
  rw [Sys.runs, List.replicate_succ, List.foldlM_cons, hstep]
  rfl

/-- The statements of a program are taken in a row, whatever else is pending. -/
theorem exec_runs (code : T → Prog M V) (t : T) (p : Prog M V) (d : Device M V)
    (hd : d.crashed = false) (before after : List (T × Body M V)) :
    ∃ registered steps, (exec p d).reads = d.reads ++ registered ∧
      Sys.runs code ⟨d.db, d.mem, before ++ (t, .run p) :: after⟩
          (List.replicate steps (.run before.length)) =
        some ⟨(exec p d).db, (exec p d).mem,
          before ++ pending t registered.reverse (exec p d).crashed ++ after⟩ := by
  induction p generalizing d after with
  | done =>
    refine ⟨[], 1, (List.append_nil _).symm, ?_⟩
    rw [runs_body code t before after (.run .done) rfl 0]
    simp [pending, hd, Sys.runs]
  | trap =>
    refine ⟨[], 0, (List.append_nil _).symm, ?_⟩
    simp [pending, Sys.runs]
  | write w next ih =>
    obtain ⟨registered, steps, hreads, hruns⟩ := ih { d with db := w.apply d.db } hd after
    refine ⟨registered, steps + 1, hreads, ?_⟩
    rw [runs_body code t before after (.run (.write w next)) rfl, exec_write, ← hruns]
    simp
  | observe p callback next _ ih =>
    obtain ⟨registered, steps, hreads, hruns⟩ :=
      ih { d with reads := d.reads ++ [(p, callback)] } hd ((t, .await p callback) :: after)
    refine ⟨(p, callback) :: registered, steps + 1, by simpa using hreads, ?_⟩
    rw [runs_body code t before after (.run (.observe p callback next)) rfl, exec_observe]
    simpa [pending] using hruns
  | inspect next ih =>
    obtain ⟨registered, steps, hreads, hruns⟩ := ih d.mem d hd after
    refine ⟨registered, steps + 1, hreads, ?_⟩
    rw [runs_body code t before after (.run (.inspect next)) rfl, exec_inspect, ← hruns]
    simp
  | modify f next ih =>
    obtain ⟨registered, steps, hreads, hruns⟩ := ih { d with mem := f d.mem } hd after
    refine ⟨registered, steps + 1, hreads, ?_⟩
    rw [runs_body code t before after (.run (.modify f next)) rfl, exec_modify, ← hruns]
    simp

/-- The order of the reads and where they were registered does not matter for what is pending. -/
theorem perm_pending (t : T) {reads registered : List (Path × (Snapshot V → Prog M V))}
    {before after : List (T × Body M V)} (crashed : Bool)
    (hothers : (before ++ after).Perm (pending t reads false)) :
    (before ++ pending t registered.reverse crashed ++ after).Perm
      (pending t (reads ++ registered) crashed) := by
  have hnew : (pending t registered.reverse crashed).Perm (pending t registered crashed) :=
    ((List.reverse_perm registered).map _).append_left _
  have hmove : (before ++ pending t registered crashed ++ after).Perm
      (before ++ after ++ pending t registered crashed) := by
    rw [List.append_assoc, List.append_assoc]
    exact List.perm_append_comm.append_left before
  refine ((hnew.append_left before).append_right after).trans (hmove.trans ?_)
  refine (hothers.append_right _).trans ?_
  unfold pending
  cases crashed with
  | false => simp
  | true =>
    rw [List.map_append]
    simp [List.perm_middle]

/-- An answered read is answered in the pool, and its callback is taken in a row. -/
theorem Represents.answer (code : T → Prog M V) {t : T} {d : Device M V} {s : Sys T M V}
    (h : Represents t d s) (i : ℕ) :
    ∃ acts s', s.runs code acts = some s' ∧ Represents t (d.answer i) s' := by
  cases hcrashed : d.crashed with
  | true => exact ⟨[], s, rfl, (answer_crashed hcrashed i).symm ▸ h⟩
  | false =>
    cases hread : d.reads[i]? with
    | none =>
      refine ⟨[], s, rfl, ?_⟩
      have hnothing : d.answer i = d := by simp [Device.answer, andThen, hcrashed, hread]
      rwa [hnothing]
    | some read =>
      obtain ⟨p, callback⟩ := read
      have hanswer : d.answer i =
          exec (callback (d.db.snapshot p)) { d with reads := d.reads.eraseIdx i } := by
        simp [Device.answer, andThen, hcrashed, hread]
      have hpool := h.pool
      rw [hcrashed] at hpool
      have hmem : ((t, .await p callback) : T × Body M V) ∈ s.pool := by
        apply hpool.mem_iff.mpr
        simp only [pending, Bool.false_eq_true, if_false, List.nil_append]
        exact List.mem_map.mpr ⟨_, List.mem_of_getElem? hread, rfl⟩
      obtain ⟨before, after, hsplit⟩ := List.append_of_mem hmem
      obtain ⟨registered, steps, hreads, hruns⟩ := exec_runs code t (callback (d.db.snapshot p))
        { d with reads := d.reads.eraseIdx i } hcrashed before after
      rw [← hanswer] at hreads hruns
      refine ⟨List.replicate (steps + 1) (.run before.length),
        ⟨(d.answer i).db, (d.answer i).mem,
          before ++ pending t registered.reverse (d.answer i).crashed ++ after⟩, ?_, rfl, rfl, ?_⟩
      · have hstart : s = ⟨d.db, d.mem, before ++ (t, .await p callback) :: after⟩ := by
          rw [← h.db, ← h.mem]
          exact congrArg (Sys.mk s.db s.mem) hsplit
        rw [hstart, runs_body code t before after (.await p callback) rfl, ← hruns]
        simp
      · rw [hreads]
        apply perm_pending
        obtain ⟨hi, hget⟩ := List.getElem?_eq_some_iff.mp hread
        have hperm := (List.getElem_cons_eraseIdx_perm hi).map fun read =>
          ((t, .await read.1 read.2) : T × Body M V)
        rw [List.map_cons, hget] at hperm
        rw [hsplit] at hpool
        simp only [pending, Bool.false_eq_true, if_false, List.nil_append] at hpool ⊢
        exact (List.perm_cons _).mp (List.perm_middle.symm.trans (hpool.trans hperm.symm))

/-- Answers one after the other are a schedule of the pool. -/
theorem Represents.answers (code : T → Prog M V) {t : T} {d : Device M V} {s : Sys T M V}
    (h : Represents t d s) (order : List ℕ) :
    ∃ acts s', s.runs code acts = some s' ∧ Represents t (d.answers order) s' := by
  induction order generalizing d s with
  | nil => exact ⟨[], s, rfl, h⟩
  | cons i order ih =>
    obtain ⟨acts, mid, hacts, hmid⟩ := h.answer code i
    obtain ⟨acts', s', hacts', hs'⟩ := ih hmid
    refine ⟨acts ++ acts', s', ?_, hs'⟩
    rw [Sys.runs, List.foldlM_append, ← Sys.runs, hacts]
    exact hacts'

/-- What a device does with a call, in whatever order its reads are answered, is a schedule of the
pool in which that call is issued. -/
theorem exists_runs (code : T → Prog M V) (t : T) (db : Store V) (mem : M) (order : List ℕ) :
    ∃ acts s, (⟨db, mem, []⟩ : Sys T M V).runs code acts = some s ∧
      Represents t ((exec (code t) (idle db mem)).answers order) s := by
  obtain ⟨registered, steps, hreads, hruns⟩ := exec_runs code t (code t) (idle db mem) rfl [] []
  have hcalled : Represents t (exec (code t) (idle db mem))
      ⟨(exec (code t) (idle db mem)).db, (exec (code t) (idle db mem)).mem,
        [] ++ pending t registered.reverse (exec (code t) (idle db mem)).crashed ++ []⟩ := by
    refine ⟨rfl, rfl, ?_⟩
    rw [hreads]
    have hnothing : (([] : List (T × Body M V)) ++ []).Perm (pending t [] false) := List.Perm.refl _
    exact perm_pending t _ hnothing
  obtain ⟨acts, s, hacts, hs⟩ := hcalled.answers code order
  refine ⟨.spawn t :: List.replicate steps (.run 0) ++ acts, s, ?_, hs⟩
  have hstart : (⟨db, mem, []⟩ : Sys T M V).runs code (.spawn t :: List.replicate steps (.run 0)) = _ :=
    hruns
  rw [Sys.runs, List.foldlM_append, ← Sys.runs, hstart]
  exact hacts

end Device

end GroceryListApp.Realtime

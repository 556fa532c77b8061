import GroceryListApp.Realtime.Debts

/-!
# Operations that run to completion

A call is issued with nothing pending, and everything it leaves pending is run before the next
call. The reads within one operation may still be answered in any order. What a finished operation
has done is found by following its first statements, which run in order, and then with a contract
that the rest of it holds and with the debts that it has paid.

A sequence of such operations refines an abstract model as soon as each of them does.
-/

namespace GroceryListApp.Realtime.Sys

variable {T M V : Type*} {code : T → Prog M V}

/-- Everything that is pending is run, in some order, without issuing another call. -/
def Finishes (code : T → Prog M V) (s s' : Sys T M V) : Prop :=
  s'.pool = [] ∧ ∃ order : List ℕ, s.runs code (order.map .run) = some s'

/-- A call is issued with nothing pending and run to its end. -/
def Completes (code : T → Prog M V) (s : Sys T M V) (t : T) (s' : Sys T M V) : Prop :=
  s.pool = [] ∧ Finishes code ⟨s.db, s.mem, [(t, .run (code t))]⟩ s'

/-- Calls that are run to their ends one after the other, each issued where it may be. -/
inductive Serial (code : T → Prog M V) (may : Sys T M V → T → Prop) (start : Sys T M V) :
    List T → Sys T M V → Prop
  | nil : Serial code may start [] start
  | snoc {ts : List T} {s s' : Sys T M V} {t : T} :
      Serial code may start ts s → may s t → s.Completes code t s' →
      Serial code may start (ts ++ [t]) s'

/-- A sequence of operations refines an abstract model when each of them does. -/
theorem Serial.refines {A : Type*} {may : Sys T M V → T → Prop} {R : A → Sys T M V → Prop}
    {next : A → T → A}
    (hstep : ∀ {a s t s'}, R a s → may s t → s.Completes code t s' → R (next a t) s')
    {start s : Sys T M V} {a : A} (hstart : R a start) {ts : List T}
    (h : Serial code may start ts s) : R (ts.foldl next a) s := by
  induction h with
  | nil => exact hstart
  | snoc _ hmay hcompletes ih =>
    rw [List.foldl_append]
    exact hstep ih hmay hcompletes

namespace Finishes

variable {db : Store V} {mem : M} {t : T} {s s' : Sys T M V}

/-- A single pending body finishes by its first statement and then what remains of it. -/
theorem step {body : Body M V} (h : Finishes code ⟨db, mem, [(t, body)]⟩ s') :
    ∃ db' mem' rest, body.step db mem = some (db', mem', rest) ∧
      Finishes code ⟨db', mem', rest.map (t, ·)⟩ s' := by
  obtain ⟨hdone, order, hruns⟩ := h
  cases order with
  | nil =>
    have : (⟨db, mem, [(t, body)]⟩ : Sys T M V) = s' := by simpa [runs] using hruns
    rw [← this] at hdone
    contradiction
  | cons i order =>
    rw [List.map_cons, runs, List.foldlM_cons] at hruns
    obtain ⟨mid, hmid, hrest⟩ := Option.bind_eq_some_iff.mp hruns
    cases i with
    | zero =>
      simp only [Sys.step, List.getElem?_cons_zero, Option.map_eq_some_iff] at hmid
      obtain ⟨⟨db', mem', rest⟩, hbody, rfl⟩ := hmid
      refine ⟨db', mem', rest, hbody, hdone, order, ?_⟩
      simpa [runs] using hrest
    | succ i => simp [Sys.step] at hmid

/-- A write comes first. -/
theorem write {w : Write V} {next : Prog M V}
    (h : Finishes code ⟨db, mem, [(t, .run (.write w next))]⟩ s') :
    Finishes code ⟨w.apply db, mem, [(t, .run next)]⟩ s' := by
  obtain ⟨db', mem', rest, hbody, hrest⟩ := h.step
  simp only [Body.step, Option.some.injEq, Prod.mk.injEq] at hbody
  obtain ⟨rfl, rfl, rfl⟩ := hbody
  exact hrest

/-- Nothing is left to do. -/
theorem done (h : Finishes code ⟨db, mem, [(t, .run .done)]⟩ s') : s' = ⟨db, mem, []⟩ := by
  obtain ⟨db', mem', rest, hbody, hdone, order, hruns⟩ := h.step
  simp only [Body.step, Option.some.injEq, Prod.mk.injEq] at hbody
  obtain ⟨rfl, rfl, rfl⟩ := hbody
  cases order with
  | nil =>
    have : (⟨db, mem, []⟩ : Sys T M V) = s' := by simpa [runs] using hruns
    exact this.symm
  | cons i order => simp [runs, Sys.step] at hruns

/-- A trap does not finish. -/
theorem not_trap : ¬ Finishes code ⟨db, mem, [(t, .run .trap)]⟩ s' := by
  intro h
  obtain ⟨_, _, _, hbody, -⟩ := h.step
  contradiction

/-- A forced value was there. -/
theorem force {α : Type*} {value : Option α} {next : α → Prog M V}
    (h : Finishes code ⟨db, mem, [(t, .run (.force value next))]⟩ s') :
    ∃ a, value = some a ∧ Finishes code ⟨db, mem, [(t, .run (next a))]⟩ s' := by
  cases value with
  | none => exact absurd h not_trap
  | some a => exact ⟨a, rfl, h⟩

/-- What each step of what is pending keeps holds at the end. -/
theorem keeps {P : Sys T M V → Prop} (h : Finishes code s s') (hstart : P s)
    (hstep : ∀ s i s', P s → s.step code (.run i) = some s' → P s') : P s' := by
  obtain ⟨-, order, hruns⟩ := h
  induction order generalizing s with
  | nil =>
    have : s = s' := by simpa [runs] using hruns
    exact this ▸ hstart
  | cons i order ih =>
    rw [List.map_cons, runs, List.foldlM_cons] at hruns
    obtain ⟨mid, hmid, hrest⟩ := Option.bind_eq_some_iff.mp hruns
    exact ih (hstep s i mid hstart hmid) hrest

/-- What is pending keeps a contract until it is finished, and pays what it owes when the writes keep
what is paid. -/
theorem holds_owes {c : Contract T V} (h : Finishes code s s') (hmay : ∀ t s w, c.may t s w)
    (hinv : c.inv s.db) (hpool : ∀ task ∈ s.pool, c.HoldsBody task.1 task.2) :
    c.inv s'.db ∧ ∀ goal : Store V → Prop,
      (∀ db db', c.inv db → c.keeps db db' → goal db → goal db') →
      (∃ task ∈ s.pool, task.2.Owes goal) → goal s'.db := by
  let P : Sys T M V → Prop := fun s => c.inv s.db ∧ ∀ task ∈ s.pool, c.HoldsBody task.1 task.2
  have hstep (s : Sys T M V) (i : ℕ) (s' : Sys T M V) (hs : P s)
      (hstep : s.step code (.run i) = some s') :
      P s' ∧ (s'.db = s.db ∨ c.keeps s.db s'.db) := by
    obtain ⟨before, t, body, after, db, mem, rest, hsplit, -, hbody, rfl⟩ := step_run_eq_some hstep
    have hholds : c.HoldsBody t body := hs.2 (t, body) (by simp [hsplit])
    obtain ⟨hdb, hinv, hrest⟩ := hholds.step hs.1 (fun w _ _ => hmay t s.db w) hbody
    refine ⟨⟨hinv, fun task htask => ?_⟩, hdb⟩
    rcases mem_rest htask body with hbefore | ⟨b, hb, rfl⟩
    · exact hs.2 task (hsplit ▸ hbefore)
    · exact hrest b hb
  refine ⟨(h.keeps (P := P) ⟨hinv, hpool⟩ fun s i s' hs h => (hstep s i s' hs h).1).1, ?_⟩
  intro goal hgoal howes
  have hend := h.keeps (P := fun s => P s ∧ (goal s.db ∨ ∃ task ∈ s.pool, task.2.Owes goal))
    ⟨⟨hinv, hpool⟩, Or.inr howes⟩ ?_
  · exact hend.2.resolve_right (by simp [h.1])
  · intro s i s' hs hrun
    obtain ⟨hnext, hdb⟩ := hstep s i s' hs.1 hrun
    refine ⟨hnext, ?_⟩
    by_cases hpaid : goal s.db
    · rcases hdb with hsame | hkeeps
      · exact Or.inl (hsame ▸ hpaid)
      · exact Or.inl (hgoal _ _ hs.1.1 hkeeps hpaid)
    · obtain ⟨task, htask, howes⟩ := hs.2.resolve_left hpaid
      rcases owes_step ⟨task, htask, rfl, howes⟩ hpaid hrun with hpaid' | ⟨task', htask', -, howes'⟩
      · exact Or.inl hpaid'
      · exact Or.inr ⟨task', htask', howes'⟩

end Finishes

/-- Run calls one after the other, each with what is pending in front first for a number of steps
that completes it. -/
def serially (code : T → Prog M V) (may : Sys T M V → T → Prop) [∀ s t, Decidable (may s t)]
    (s : Sys T M V) : List (T × ℕ) → Option (Sys T M V)
  | [] => some s
  | (t, steps) :: rest =>
    if may s t then
      match runs code ⟨s.db, s.mem, [(t, .run (code t))]⟩ ((List.replicate steps 0).map .run) with
      | some ⟨db, mem, []⟩ => serially code may ⟨db, mem, []⟩ rest
      | _ => none
    else none

/-- Calls that were run this way have completed one after the other. -/
theorem Serial.append_serially {may : Sys T M V → T → Prop} [∀ s t, Decidable (may s t)]
    {start s s' : Sys T M V} {ts : List T} {calls : List (T × ℕ)} (h : Serial code may start ts s)
    (hempty : s.pool = []) (hruns : serially code may s calls = some s') :
    Serial code may start (ts ++ calls.map Prod.fst) s' := by
  induction calls generalizing ts s with
  | nil =>
    have : s = s' := by simpa [serially] using hruns
    simpa [← this] using h
  | cons call rest ih =>
    obtain ⟨t, steps⟩ := call
    simp only [serially] at hruns
    split at hruns
    · next hmay =>
      split at hruns
      · next db mem hcall =>
        have hnext := h.snoc hmay ⟨hempty, rfl, List.replicate steps 0, hcall⟩
        simpa using ih hnext rfl hruns
      · contradiction
    · contradiction

end GroceryListApp.Realtime.Sys

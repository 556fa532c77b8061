import GroceryListApp.Realtime.Device
import GroceryListApp.Realtime.Machine

/-!
# Screens that load again when something changes

A screen shows what it has loaded, and an observer makes it load again whenever what it shows may have
changed. Each part of the screen has a read of its own, and the reads are answered at any time and in any
order. A part is filled with what is stored when its read is answered, so answers that come before the
last change do no harm: the last change has registered a read that comes after it. Once all reads are
answered, every part shows what a further load would show.

The functions of the screen may also write, and register reads whose callbacks write. The observers
notice these changes as they notice those of others.
-/

namespace GroceryListApp.Realtime

variable {T M V : Type*}

namespace Prog

/-- A value that is mapped before it is forced may be forced first. -/
theorem force_map {α β : Type*} (value : Option α) (f : α → β) (next : β → Prog M V) :
    force (value.map f) next = force value fun a => next (f a) := by
  cases value <;> rfl

/-- The statements of the program run through from the variables, without a trap. -/
def Runs : Prog M V → M → Prop
  | done, _ => True
  | trap, _ => False
  | write _ next, m => Runs next m
  | observe _ _ next, m => Runs next m
  | inspect next, m => Runs (next m) m
  | modify f next, m => Runs next (f m)

/-- The program leaves the variables alone and registers only reads of a kind. -/
def Registers (kind : Path × (Snapshot V → Prog M V) → Prop) : Prog M V → Prop
  | done => True
  | trap => True
  | write _ next => Registers kind next
  | observe p callback next => kind (p, callback) ∧ Registers kind next
  | inspect next => ∀ m, Registers kind (next m)
  | modify _ _ => False

variable {kind : Path × (Snapshot V → Prog M V) → Prop} {p q : Prog M V}

/-- A sequence registers what its programs register. -/
theorem Registers.seq (hp : p.Registers kind) (hq : q.Registers kind) : (p.seq q).Registers kind := by
  induction p with
  | done => exact hq
  | trap => exact hp
  | write w next ih => exact ih hp
  | observe p callback next _ ih => exact ⟨hp.1, ih hp.2⟩
  | inspect next ih => exact fun m => ih m (hp m)
  | modify f next ih => exact hp.elim

/-- A sequence whose first program leaves the variables alone runs through when both programs do. -/
theorem Registers.runs_seq (hp : p.Registers kind) (m : M) : (p.seq q).Runs m ↔ p.Runs m ∧ q.Runs m := by
  induction p with
  | done => simp [Runs]
  | trap => simp [Runs]
  | write w next ih => exact ih hp
  | observe p callback next _ ih => exact ih hp.2
  | inspect next ih => exact ih m (hp m)
  | modify f next ih => exact hp.elim

/-- What is registered after a forced value is registered, whether or not there is one. -/
theorem registers_force {α : Type*} {value : Option α} {next : α → Prog M V}
    (h : ∀ a, (next a).Registers kind) : (force value next).Registers kind := by
  cases value with
  | none => trivial
  | some a => exact h a

end Prog

namespace Device

/-- A program that registers reads of a kind changes nothing else on the device but the database. -/
theorem exec_registers {kind : Path × (Snapshot V → Prog M V) → Prop} {p : Prog M V}
    (h : p.Registers kind) (d : Device M V) :
    (exec p d).mem = d.mem ∧
      ∃ reads, (exec p d).reads = d.reads ++ reads ∧ ∀ read ∈ reads, kind read := by
  induction p generalizing d with
  | done => exact ⟨rfl, [], by simp⟩
  | trap => exact ⟨rfl, [], by simp⟩
  | write w next ih => exact ih h { d with db := w.apply d.db }
  | observe p callback next _ ih =>
    obtain ⟨hmem, reads, hreads, hkind⟩ := ih h.2 { d with reads := d.reads ++ [(p, callback)] }
    refine ⟨hmem, (p, callback) :: reads, by simpa using hreads, ?_⟩
    exact List.forall_mem_cons.mpr ⟨h.1, hkind⟩
  | inspect next ih => exact ih d.mem (h d.mem) d
  | modify f next ih => exact h.elim

/-- A device crashes exactly in a program that does not run through. -/
theorem crashed_exec (p : Prog M V) {d : Device M V} (hd : d.crashed = false) :
    (exec p d).crashed = false ↔ p.Runs d.mem := by
  induction p generalizing d with
  | done => exact iff_of_true hd trivial
  | trap => simp [Prog.Runs]
  | write w next ih => exact ih hd
  | observe p callback next _ ih => exact ih hd
  | inspect next ih => exact ih d.mem hd
  | modify f next ih => exact ih hd

/-- The answer to a registered read runs its callback. -/
theorem answer_eq {d : Device M V} (hd : d.crashed = false) {i : ℕ}
    {read : Path × (Snapshot V → Prog M V)} (hread : d.reads[i]? = some read) :
    d.answer i = exec (read.2 (d.db.snapshot read.1)) { d with reads := d.reads.eraseIdx i } := by
  simp [answer, andThen, hd, hread]

end Device

/-- A part of a screen: where it is loaded from, and how it is filled with an answer that can be used. -/
structure View (M V : Type*) where
  location : Path
  fill : Snapshot V → Option (M → M)
  idem : ∀ snapshot f m, fill snapshot = some f → f (f m) = f m

namespace View

/-- The read that loads a part, with its callback. -/
def read (v : View M V) : Path × (Snapshot V → Prog M V) :=
  (v.location, fun snapshot => .force (v.fill snapshot) fun f => .modify f .done)

/-- Load a part. -/
def reload (v : View M V) : Prog M V := .observe v.location v.read.2 .done

/-- A further load would show what is shown. -/
def Current (v : View M V) (db : Store V) (m : M) : Prop :=
  ∃ f, v.fill (db.snapshot v.location) = some f ∧ f m = m

/-- Two parts are filled independently of each other. -/
def Independent (u v : View M V) : Prop :=
  ∀ s s' f f', u.fill s = some f → v.fill s' = some f' → ∀ m, f (f' m) = f' (f m)

/-- Loading some parts registers their reads. -/
theorem exec_reloads (views : List (View M V)) (d : Device M V) :
    Device.exec (.block (views.map reload)) d = { d with reads := d.reads ++ views.map read } := by
  induction views generalizing d with
  | nil => simp
  | cons v views ih =>
    change Device.exec (.block (views.map reload)) { d with reads := d.reads ++ [v.read] } = _
    rw [ih]
    simp

end View

/-- A device with a screen, whose observers of one location are never removed. The unanswered ones have
not been given their first value. -/
structure Screen (M V : Type*) where
  device : Device M V
  observers : ℕ
  unanswered : ℕ

/-- What happens on a device with a screen: an observer is registered or given its first value, a
function of the screen is called, anyone changes the database, or a registered read is answered. -/
inductive ScreenEvent (T V : Type*) where
  | observe
  | firstValue
  | call (t : T)
  | change (w : Write V)
  | answer (index : ℕ)

namespace Screen

/-- Run the callback of each observer, up to a crash. -/
def notify (onValue : Prog M V) : ℕ → Device M V → Device M V
  | 0, d => d
  | n + 1, d => notify onValue n (d.andThen (.exec onValue))

/-- The device once its observers have noticed what happened to the database. -/
def react (noticed : Store V → Store V → Prop) [∀ db db', Decidable (noticed db db')]
    (onValue : Prog M V) (s : Screen M V) (d : Device M V) : Device M V :=
  if noticed s.device.db d.db then notify onValue s.observers d else d

/-- One event on a device that has not crashed. -/
def step (noticed : Store V → Store V → Prop) [∀ db db', Decidable (noticed db db')] (onValue : Prog M V)
    (code : T → Prog M V) (s : Screen M V) (e : ScreenEvent T V) : Option (Screen M V) :=
  if s.device.crashed then none
  else match e with
    | .observe => some { s with observers := s.observers + 1, unanswered := s.unanswered + 1 }
    | .firstValue =>
      if s.unanswered = 0 then none
      else some { s with
        unanswered := s.unanswered - 1, device := s.react noticed onValue (.exec onValue s.device) }
    | .call t => some { s with device := s.react noticed onValue (.exec (code t) s.device) }
    | .change w =>
      some { s with device := s.react noticed onValue { s.device with db := w.apply s.device.db } }
    | .answer index => s.device.reads[index]?.map fun _ =>
      { s with device := s.react noticed onValue (s.device.answer index) }

/-- Nothing has been shown yet. -/
def opened (db : Store V) (m : M) : Screen M V := ⟨.idle db m, 0, 0⟩

/-- The screen is being observed, and everything that was asked for has been delivered. -/
def Settled (s : Screen M V) : Prop :=
  s.device.crashed = false ∧ 0 < s.observers ∧ s.unanswered = 0 ∧ s.device.reads = []

instance (s : Screen M V) : Decidable s.Settled :=
  decidable_of_iff (s.device.crashed = false ∧ 0 < s.observers ∧ s.unanswered = 0 ∧
    s.device.reads.isEmpty = true) (by simp [Settled])

/-- A read loads a part of the screen, or is one of those beside the screen. -/
def Asks (parts : View M V → Prop) (beside : Path × (Snapshot V → Prog M V) → Prop)
    (read : Path × (Snapshot V → Prog M V)) : Prop :=
  (∃ u, parts u ∧ read = u.read) ∨ beside read

/-- Only loads fill the screen: its functions, and the callbacks of the reads beside it, change no
variables. -/
structure LoadsOnly (parts : View M V → Prop) (beside : Path × (Snapshot V → Prog M V) → Prop)
    (code : T → Prog M V) : Prop where
  code : ∀ t, (code t).Registers (Asks parts beside)
  beside : ∀ read, beside read → ∀ snapshot, (read.2 snapshot).Registers (Asks parts beside)

/-- The observers load parts of the screen again, and notice every change that concerns one of them. -/
structure Watches (parts : View M V → Prop) (noticed : Store V → Store V → Prop) (onValue : Prog M V)
    (views : List (View M V)) : Prop where
  value : onValue = .block (views.map View.reload)
  parts : ∀ u ∈ views, parts u
  noticed : ∀ u ∈ views, ∀ db db', ¬ noticed db db' →
    u.fill (db'.snapshot u.location) = u.fill (db.snapshot u.location)

section

variable {parts : View M V → Prop} {beside : Path × (Snapshot V → Prog M V) → Prop}
  {noticed : Store V → Store V → Prop} {onValue : Prog M V} {views : List (View M V)}

/-- The callback of an observer loads only. -/
theorem Watches.registers (hwatches : Watches parts noticed onValue views) :
    onValue.Registers (Asks parts beside) := by
  obtain ⟨hvalue, hparts, -⟩ := hwatches
  subst hvalue
  induction views with
  | nil => trivial
  | cons u views ih =>
    exact ⟨Or.inl ⟨u, hparts u List.mem_cons_self, rfl⟩,
      ih fun w hw => hparts w (List.mem_cons_of_mem _ hw)⟩

/-- The callback of an observer runs through. -/
theorem Watches.runs (hwatches : Watches parts noticed onValue views) (m : M) : onValue.Runs m := by
  obtain ⟨rfl, -, -⟩ := hwatches
  induction views with
  | nil => trivial
  | cons u views ih => exact ih

end

/-- The pending reads are known, and one part is current unless nobody observes it or a read of it is
still to come. -/
structure Refreshes (parts : View M V → Prop) (beside : Path × (Snapshot V → Prog M V) → Prop)
    (v : View M V) (s : Screen M V) : Prop where
  reads : ∀ read ∈ s.device.reads, Asks parts beside read
  fresh : s.observers = 0 ∨ 0 < s.unanswered ∨ v.read ∈ s.device.reads ∨
    v.Current s.device.db s.device.mem

section

variable {noticed : Store V → Store V → Prop} [∀ db db', Decidable (noticed db db')] {onValue : Prog M V}
  {code : T → Prog M V} {parts : View M V → Prop} {beside : Path × (Snapshot V → Prog M V) → Prop}
  {views : List (View M V)} {v : View M V}

/-- A device that has crashed notices nothing. -/
theorem notify_crashed (n : ℕ) {d : Device M V} (hd : d.crashed = true) : notify onValue n d = d := by
  induction n with
  | zero => rfl
  | succ n ih => rw [notify, Device.andThen, if_pos hd, ih]

/-- A crash stays. -/
theorem react_crashed {s : Screen M V} {d : Device M V} (hd : d.crashed = true) :
    (s.react noticed onValue d).crashed = true := by
  unfold react
  split
  · rw [notify_crashed _ hd, hd]
  · exact hd

/-- The callbacks of observers register the reads that each of them asks for. -/
theorem notify_reloads (views : List (View M V)) (n : ℕ) {d : Device M V} (hd : d.crashed = false) :
    ∃ reads, notify (.block (views.map View.reload)) n d = { d with reads := d.reads ++ reads } ∧
      (∀ read ∈ reads, read ∈ views.map View.read) ∧ (0 < n → ∀ u ∈ views, u.read ∈ reads) := by
  induction n generalizing d with
  | zero => exact ⟨[], by simp [notify], by simp, by simp⟩
  | succ n ih =>
    have hnow : d.andThen (.exec (.block (views.map View.reload))) =
        { d with reads := d.reads ++ views.map View.read } := by
      rw [Device.andThen, if_neg (by simp [hd]), View.exec_reloads]
    obtain ⟨reads, hreads, hviews, -⟩ := ih (d := { d with reads := d.reads ++ views.map View.read }) hd
    refine ⟨views.map View.read ++ reads, ?_, fun read hread => ?_, fun _ u hu => ?_⟩
    · rw [notify, hnow, hreads, List.append_assoc]
    · exact (List.mem_append.mp hread).elim id (hviews read)
    · exact List.mem_append_left _ (List.mem_map_of_mem hu)

/-- What the observers do is to register reads, all of them if they notice something. -/
theorem Watches.react (hwatches : Watches parts noticed onValue views)
    (beside : Path × (Snapshot V → Prog M V) → Prop) (s : Screen M V) {d : Device M V}
    (hd : d.crashed = false) : ∃ reads, s.react noticed onValue d = { d with reads := d.reads ++ reads } ∧
      (∀ read ∈ reads, Asks parts beside read) ∧
      (noticed s.device.db d.db → 0 < s.observers → ∀ u ∈ views, u.read ∈ reads) := by
  unfold Screen.react
  split
  · obtain ⟨reads, hreads, hviews, hasked⟩ := notify_reloads views s.observers hd
    refine ⟨reads, hwatches.value ▸ hreads, fun read hread => ?_, fun _ => hasked⟩
    obtain ⟨u, hu, rfl⟩ := List.mem_map.mp (hviews read hread)
    exact Or.inl ⟨u, hwatches.parts u hu, rfl⟩
  · next hunnoticed => exact ⟨[], by simp, by simp, fun h => absurd h hunnoticed⟩

/-- A part that is fresh for the old database is fresh once the observers have noticed what happened. -/
theorem Refreshes.react (hwatches : Watches parts noticed onValue views) (hv : v ∈ views)
    (s : Screen M V) {d : Device M V} (hd : d.crashed = false)
    (hreads : ∀ read ∈ d.reads, Asks parts beside read)
    (hfresh : s.observers = 0 ∨ 0 < s.unanswered ∨ v.read ∈ d.reads ∨ v.Current s.device.db d.mem) :
    Refreshes parts beside v { s with device := s.react noticed onValue d } := by
  obtain ⟨reads, hreact, hnew, hasked⟩ := hwatches.react beside s hd
  rw [hreact]
  refine ⟨fun read hread => (List.mem_append.mp hread).elim (hreads read) (hnew read), ?_⟩
  rcases hfresh with hnobody | hwaiting | hpending | ⟨f, hf, hshown⟩
  · exact Or.inl hnobody
  · exact Or.inr (Or.inl hwaiting)
  · exact Or.inr (Or.inr (Or.inl (List.mem_append_left _ hpending)))
  · by_cases hnoticed : noticed s.device.db d.db
    · rcases Nat.eq_zero_or_pos s.observers with hnobody | hobserved
      · exact Or.inl hnobody
      · exact Or.inr (Or.inr (Or.inl (List.mem_append_right _ (hasked hnoticed hobserved v hv))))
    · exact Or.inr (Or.inr (Or.inr ⟨f, (hwatches.noticed v hv _ _ hnoticed).trans hf, hshown⟩))

/-- The answer to a read fills its part, unless it cannot be used. -/
theorem answer_read {d : Device M V} {i : ℕ} {u : View M V} (hd : d.crashed = false)
    (hread : d.reads[i]? = some u.read) :
    ((d.answer i).crashed = true ∧ u.fill (d.db.snapshot u.location) = none) ∨
      ∃ f, u.fill (d.db.snapshot u.location) = some f ∧
        d.answer i = { d with reads := d.reads.eraseIdx i, mem := f d.mem } := by
  have hanswer : d.answer i =
      Device.exec (.force (u.fill (d.db.snapshot u.location)) fun f => .modify f .done)
        { d with reads := d.reads.eraseIdx i } := Device.answer_eq hd hread
  cases hfill : u.fill (d.db.snapshot u.location) with
  | none =>
    rw [hanswer, hfill]
    exact Or.inl ⟨rfl, rfl⟩
  | some f =>
    rw [hanswer, hfill]
    exact Or.inr ⟨f, rfl, rfl⟩

/-- A read that is not the answered one is still pending. -/
theorem mem_eraseIdx {α : Type*} {values : List α} {i : ℕ} {a b : α} (ha : a ∈ values)
    (hb : values[i]? = some b) (hne : a ≠ b) : a ∈ values.eraseIdx i := by
  obtain ⟨j, hj, rfl⟩ := List.getElem_of_mem ha
  refine List.mem_eraseIdx_iff_getElem.mpr ⟨j, hj, fun hsame => hne ?_, rfl⟩
  subst hsame
  exact Option.some.inj ((List.getElem?_eq_getElem hj).symm.trans hb)

/-- The answer to a load of a part leaves the database as it is and a part fresh. -/
theorem Refreshes.answer_part {s : Screen M V} (h : Refreshes parts beside v s)
    (hparts : ∀ u, parts u → u = v ∨ v.Independent u) (hs : s.device.crashed = false) {i : ℕ}
    {u : View M V} (hu : parts u) (hread : s.device.reads[i]? = some u.read)
    (hrunning : (s.device.answer i).crashed = false) :
    s.observers = 0 ∨ 0 < s.unanswered ∨ v.read ∈ (s.device.answer i).reads ∨
      v.Current s.device.db (s.device.answer i).mem := by
  rcases answer_read hs hread with ⟨hcrashed, -⟩ | ⟨f, hf, hanswer⟩
  · rw [hcrashed] at hrunning
    contradiction
  rw [hanswer]
  rcases hparts u hu with rfl | hindependent
  · exact Or.inr (Or.inr (Or.inr ⟨f, hf, u.idem _ _ _ hf⟩))
  · rcases h.fresh with hnobody | hwaiting | hpending | ⟨f', hf', hshown⟩
    · exact Or.inl hnobody
    · exact Or.inr (Or.inl hwaiting)
    · by_cases hsame : v.read = u.read
      · rcases answer_read hs (hsame ▸ hread) with ⟨hcrashed, -⟩ | ⟨f', hf', hanswer'⟩
        · rw [hcrashed] at hrunning
          contradiction
        · have hmem : f s.device.mem = f' s.device.mem :=
            congrArg Device.mem (hanswer.symm.trans hanswer')
          exact Or.inr (Or.inr (Or.inr ⟨f', hf', by rw [hmem, v.idem _ _ _ hf']⟩))
      · exact Or.inr (Or.inr (Or.inl (mem_eraseIdx hpending hread hsame)))
    · refine Or.inr (Or.inr (Or.inr ⟨f', hf', ?_⟩))
      rw [hindependent _ _ _ _ hf' hf, hshown]

/-- A program that loads only leaves a part fresh for the database before it. -/
theorem Refreshes.exec {s : Screen M V} {d : Device M V} {p : Prog M V}
    (hp : p.Registers (Asks parts beside)) (hreads : ∀ read ∈ d.reads, Asks parts beside read)
    (hfresh : s.observers = 0 ∨ 0 < s.unanswered ∨ v.read ∈ d.reads ∨ v.Current s.device.db d.mem) :
    (∀ read ∈ (Device.exec p d).reads, Asks parts beside read) ∧
      (s.observers = 0 ∨ 0 < s.unanswered ∨ v.read ∈ (Device.exec p d).reads ∨
        v.Current s.device.db (Device.exec p d).mem) := by
  obtain ⟨hmem, reads, hregistered, hkind⟩ := Device.exec_registers hp d
  rw [hmem, hregistered]
  refine ⟨fun read hread => (List.mem_append.mp hread).elim (hreads read) (hkind read), ?_⟩
  exact hfresh.imp_right fun h => h.imp_right fun h => h.imp_left fun h => List.mem_append_left _ h

/-- An answer leaves a part fresh for the database before it. -/
theorem Refreshes.answer {s : Screen M V} (h : Refreshes parts beside v s)
    (hloads : LoadsOnly parts beside code) (hpart : parts v)
    (hparts : ∀ u, parts u → u = v ∨ v.Independent u) (hs : s.device.crashed = false) {i : ℕ}
    {read : Path × (Snapshot V → Prog M V)} (hread : s.device.reads[i]? = some read)
    (hrunning : (s.device.answer i).crashed = false) :
    (∀ read ∈ (s.device.answer i).reads, Asks parts beside read) ∧
      (s.observers = 0 ∨ 0 < s.unanswered ∨ v.read ∈ (s.device.answer i).reads ∨
        v.Current s.device.db (s.device.answer i).mem) := by
  have hrest : ∀ other ∈ s.device.reads.eraseIdx i, Asks parts beside other :=
    fun other hother => h.reads other (List.mem_of_mem_eraseIdx hother)
  by_cases hload : ∃ u, parts u ∧ read = u.read
  · obtain ⟨u, hu, rfl⟩ := hload
    refine ⟨?_, h.answer_part hparts hs hu hread hrunning⟩
    rcases answer_read hs hread with ⟨hcrashed, -⟩ | ⟨f, -, hanswer⟩
    · rw [hcrashed] at hrunning
      contradiction
    · rw [hanswer]
      exact hrest
  · have hbeside : beside read := (h.reads read (List.mem_of_getElem? hread)).resolve_left hload
    rw [Device.answer_eq hs hread]
    refine exec (hloads.beside read hbeside _) hrest ?_
    refine h.fresh.imp_right fun h => h.imp_right fun h => h.imp_left fun hpending => ?_
    exact mem_eraseIdx hpending hread fun hsame => hload ⟨v, hpart, hsame.symm⟩

/-- An event that is taken has not been preceded by a crash. -/
theorem running_of_step {s next : Screen M V} {e : ScreenEvent T V}
    (hstep : s.step noticed onValue code e = some next) : s.device.crashed = false := by
  cases hcrashed : s.device.crashed with
  | false => rfl
  | true => simp [Screen.step, hcrashed] at hstep

/-- Every event keeps a part fresh, unless the device crashes. -/
theorem Refreshes.step {s next : Screen M V} {e : ScreenEvent T V} (h : Refreshes parts beside v s)
    (hloads : LoadsOnly parts beside code) (hwatches : Watches parts noticed onValue views)
    (hv : v ∈ views) (hparts : ∀ u, parts u → u = v ∨ v.Independent u)
    (hstep : s.step noticed onValue code e = some next) :
    next.device.crashed = true ∨ Refreshes parts beside v next := by
  have hs := running_of_step hstep
  have hreact (s : Screen M V) (d : Device M V) (hreads : ∀ read ∈ d.reads, Asks parts beside read)
      (hfresh : d.crashed = false →
        s.observers = 0 ∨ 0 < s.unanswered ∨ v.read ∈ d.reads ∨ v.Current s.device.db d.mem) :
      (s.react noticed onValue d).crashed = true ∨
        Refreshes parts beside v { s with device := s.react noticed onValue d } := by
    cases hd : d.crashed with
    | true => exact Or.inl (react_crashed hd)
    | false => exact Or.inr (Refreshes.react hwatches hv s hd hreads (hfresh hd))
  unfold Screen.step at hstep
  rw [if_neg (by simp [hs])] at hstep
  cases e with
  | observe =>
    obtain rfl := Option.some.inj hstep
    exact Or.inr ⟨h.reads, Or.inr (Or.inl (Nat.succ_pos _))⟩
  | firstValue =>
    simp only at hstep
    split at hstep
    · contradiction
    · obtain rfl := Option.some.inj hstep
      refine hreact { s with unanswered := s.unanswered - 1 } _
        (Refreshes.exec hwatches.registers h.reads h.fresh).1 fun _ => ?_
      rw [hwatches.value, View.exec_reloads]
      exact Or.inr (Or.inr (Or.inl (List.mem_append_right _ (List.mem_map_of_mem hv))))
  | call t =>
    obtain rfl := Option.some.inj hstep
    obtain ⟨hreads, hfresh⟩ := Refreshes.exec (hloads.code t) h.reads h.fresh
    exact hreact s _ hreads fun _ => hfresh
  | change w =>
    obtain rfl := Option.some.inj hstep
    exact hreact s _ h.reads fun _ => h.fresh
  | answer index =>
    obtain ⟨read, hread, rfl⟩ := Option.map_eq_some_iff.mp hstep
    cases hd : (s.device.answer index).crashed with
    | true => exact Or.inl (react_crashed hd)
    | false =>
      obtain ⟨hreads, hfresh⟩ := h.answer hloads (hwatches.parts v hv) hparts hs hread hd
      exact hreact s _ hreads fun _ => hfresh

/-- Along every run, whenever everything that was asked for has been delivered, a part that observers load
again is current. -/
theorem current_of_settled (hloads : LoadsOnly parts beside code)
    (hwatches : Watches parts noticed onValue views) (hv : v ∈ views)
    (hparts : ∀ u, parts u → u = v ∨ v.Independent u)
    (db : Store V) (m : M) (events : List (ScreenEvent T V)) :
    Machine.Always (Screen.step noticed onValue code)
      (fun s => s.Settled → v.Current s.device.db s.device.mem) (opened db m) events := by
  apply Machine.always_of_invariant
    (I := fun s => s.device.crashed = true ∨ Refreshes parts beside v s)
  · rintro s (hcrashed | h) ⟨hs, hobserved, hanswered, hreads⟩
    · rw [hs] at hcrashed
      contradiction
    · rcases h.fresh with hnobody | hwaiting | hpending | hcurrent
      · exact absurd hnobody hobserved.ne'
      · exact absurd hanswered hwaiting.ne'
      · rw [hreads] at hpending
        contradiction
      · exact hcurrent
  · rintro s e next (hcrashed | h) hstep
    · exact absurd (running_of_step hstep) (by simp [hcrashed])
    · exact h.step hloads hwatches hv hparts hstep
  · exact Or.inr ⟨fun read hread => absurd hread List.not_mem_nil, Or.inl rfl⟩

/-- The callbacks and the functions that may run in a state run through: the parts can be filled with what
is stored, and what is beside the screen does not trap. -/
structure RunsThrough (parts : View M V → Prop) (beside : Path × (Snapshot V → Prog M V) → Prop)
    (code : T → Prog M V) (s : Screen M V) (e : ScreenEvent T V) : Prop where
  fill : ∀ u, parts u → (u.fill (s.device.db.snapshot u.location)).isSome
  beside : ∀ read, beside read → (read.2 (s.device.db.snapshot read.1)).Runs s.device.mem
  call : ∀ t, e = .call t → (code t).Runs s.device.mem

/-- The device has not crashed, its variables have a property, and the pending reads are known. -/
structure Running (parts : View M V → Prop) (beside : Path × (Snapshot V → Prog M V) → Prop)
    (I : M → Prop) (d : Device M V) : Prop where
  running : d.crashed = false
  mem : I d.mem
  reads : ∀ read ∈ d.reads, Asks parts beside read

variable {I : M → Prop} {d : Device M V}

/-- The observers do not crash the device. -/
theorem Running.react (h : Running parts beside I d) (hwatches : Watches parts noticed onValue views)
    (s : Screen M V) : Running parts beside I (s.react noticed onValue d) := by
  obtain ⟨reads, hreact, hnew, -⟩ := hwatches.react beside s h.running
  rw [hreact]
  exact ⟨h.running, h.mem,
    fun read hread => (List.mem_append.mp hread).elim (h.reads read) (hnew read)⟩

/-- A program that loads only and runs through does not crash the device. -/
theorem Running.exec (h : Running parts beside I d) {p : Prog M V}
    (hp : p.Registers (Asks parts beside)) (hruns : p.Runs d.mem) :
    Running parts beside I (Device.exec p d) := by
  obtain ⟨hsame, reads, hregistered, hkind⟩ := Device.exec_registers hp d
  refine ⟨(Device.crashed_exec p h.running).mpr hruns, hsame ▸ h.mem, ?_⟩
  rw [hregistered]
  exact fun read hread => (List.mem_append.mp hread).elim (h.reads read) (hkind read)

/-- An answer whose callback runs through does not crash the device. -/
theorem Running.answer (h : Running parts beside I d) (hloads : LoadsOnly parts beside code)
    (hfill : ∀ u, parts u → ∀ db f m, u.fill (Store.snapshot db u.location) = some f → I m → I (f m))
    (hparts : ∀ u, parts u → (u.fill (d.db.snapshot u.location)).isSome)
    (hbeside : ∀ read, beside read → (read.2 (d.db.snapshot read.1)).Runs d.mem) {i : ℕ}
    {read : Path × (Snapshot V → Prog M V)} (hread : d.reads[i]? = some read) :
    Running parts beside I (d.answer i) := by
  have hrest : Running parts beside I { d with reads := d.reads.eraseIdx i } :=
    ⟨h.running, h.mem, fun other hother => h.reads other (List.mem_of_mem_eraseIdx hother)⟩
  rcases h.reads read (List.mem_of_getElem? hread) with ⟨u, hu, rfl⟩ | hkind
  · rcases answer_read h.running hread with ⟨-, hnone⟩ | ⟨f, hf, hanswer⟩
    · have hsome := hparts u hu
      rw [hnone] at hsome
      contradiction
    · rw [hanswer]
      exact ⟨h.running, hfill u hu d.db f d.mem hf h.mem, hrest.reads⟩
  · rw [Device.answer_eq h.running hread]
    exact hrest.exec (hloads.beside read hkind _) (hbeside read hkind)

/-- The device does not crash as long as everything runs through where the variables have a property
that loads keep. -/
theorem running_of_runsThrough (hloads : LoadsOnly parts beside code)
    (hwatches : Watches parts noticed onValue views)
    (hfill : ∀ u, parts u → ∀ db f m, u.fill (Store.snapshot db u.location) = some f → I m → I (f m))
    {allowed : Screen M V → ScreenEvent T V → Prop}
    (hruns : ∀ s e, allowed s e → I s.device.mem → RunsThrough parts beside code s e)
    {db : Store V} {m : M} (hm : I m) {events : List (ScreenEvent T V)}
    (h : Machine.Throughout (Screen.step noticed onValue code) allowed (opened db m) events) :
    Machine.Always (Screen.step noticed onValue code) (fun s => s.device.crashed = false) (opened db m)
      events := by
  refine Machine.always_of_throughout (I := fun s : Screen M V => Running parts beside I s.device)
    (fun s hs => hs.running) ?_ ⟨rfl, hm, fun read hread => absurd hread List.not_mem_nil⟩ h
  intro s e next hs hallowed hstep
  have hthrough := hruns s e hallowed hs.mem
  unfold Screen.step at hstep
  rw [if_neg (by simp [hs.running])] at hstep
  cases e with
  | observe =>
    obtain rfl := Option.some.inj hstep
    exact hs
  | firstValue =>
    simp only at hstep
    split at hstep
    · contradiction
    · obtain rfl := Option.some.inj hstep
      exact (hs.exec hwatches.registers (hwatches.runs s.device.mem)).react hwatches s
  | call t =>
    obtain rfl := Option.some.inj hstep
    exact (hs.exec (hloads.code t) (hthrough.call t rfl)).react hwatches s
  | change w =>
    obtain rfl := Option.some.inj hstep
    exact Running.react (d := { s.device with db := w.apply s.device.db })
      ⟨hs.running, hs.mem, hs.reads⟩ hwatches s
  | answer index =>
    obtain ⟨read, hread, rfl⟩ := Option.map_eq_some_iff.mp hstep
    exact (hs.answer hloads hfill hthrough.fill hthrough.beside hread).react hwatches s

end

end Screen

end GroceryListApp.Realtime

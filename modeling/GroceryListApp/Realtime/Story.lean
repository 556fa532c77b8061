import GroceryListApp.Realtime.Ledger

/-!
# What has happened along a schedule

Some properties of a run are about its past: which writes were made at a place and in which
order, or what a call was answered before it wrote. A story is a run together with the list
of its events, each with the call it belongs to. A condition on the steps of a story may
refer to what has happened before.
-/

namespace GroceryListApp.Realtime

variable {T M V : Type*}

/-- A read that was answered, with the database at that time, or a change that was made. -/
inductive Event (V : Type*) where
  | read (location : Path) (db : Store V)
  | wrote (change : Write V)

/-- What a pending body does when it is run, if others can notice it or it notices others. -/
def Body.event (db : Store V) : Body M V → Option (Event V)
  | .await p _ => some (.read p db)
  | .run (.write w _) => some (.wrote w)
  | .run _ => none

/-- A change is made by the statement that writes it. -/
theorem Body.event_eq_wrote {db : Store V} {body : Body M V} {w : Write V}
    (h : body.event db = some (.wrote w)) : ∃ next, body = .run (.write w next) := by
  cases body with
  | await p callback => simp [Body.event] at h
  | run program =>
    cases program <;> simp only [Body.event, Option.some.injEq, Event.wrote.injEq, reduceCtorEq] at h
    case write w' next => exact ⟨next, by rw [h]⟩

/-- What happens in a chosen step, and the call it happens for. -/
def Sys.event (s : Sys T M V) : Act T → Option (T × Event V)
  | .spawn _ => none
  | .run i => s.pool[i]?.bind fun task => (task.2.event s.db).map (task.1, ·)

/-- A change is made by a pending body that is run. -/
theorem Sys.event_eq_wrote {s : Sys T M V} {a : Act T} {t : T} {w : Write V}
    (h : s.event a = some (t, .wrote w)) :
    ∃ i next, a = .run i ∧ s.pool[i]? = some (t, .run (.write w next)) := by
  cases a with
  | spawn t' => contradiction
  | run i =>
    obtain ⟨⟨t', body⟩, hget, hevent⟩ := Option.bind_eq_some_iff.mp h
    simp only [Option.map_eq_some_iff, Prod.mk.injEq] at hevent
    obtain ⟨event, hevent, rfl, rfl⟩ := hevent
    obtain ⟨next, rfl⟩ := Body.event_eq_wrote hevent
    exact ⟨i, next, rfl, hget⟩

/-- The changes among events, in the order they were made. -/
def changes (past : List (T × Event V)) : List (Write V) :=
  past.filterMap fun event =>
    match event.2 with
    | .wrote w => some w
    | .read _ _ => none

@[simp] theorem changes_nil : changes ([] : List (T × Event V)) = [] := rfl

/-- The changes of one part of a story come before those of the next. -/
@[simp] theorem changes_append (past later : List (T × Event V)) :
    changes (past ++ later) = changes past ++ changes later := List.filterMap_append

/-- A change is among the changes when it is an event of some call. -/
theorem mem_changes {past : List (T × Event V)} {w : Write V} :
    w ∈ changes past ↔ ∃ t, (t, .wrote w) ∈ past := by
  rw [changes, List.mem_filterMap]
  constructor
  · rintro ⟨⟨t, event⟩, hmem, hw⟩
    cases event with
    | read p db => contradiction
    | wrote w' =>
      cases Option.some.inj hw
      exact ⟨t, hmem⟩
  · rintro ⟨t, hmem⟩
    exact ⟨_, hmem, rfl⟩

namespace Sys

/-- A schedule with the events so far, whose every step is allowed after what has happened. -/
inductive Story (code : T → Prog M V) (allowed : List (T × Event V) → Sys T M V → Act T → Prop)
    (start : Sys T M V) : List (T × Event V) → Sys T M V → Prop
  | nil : Story code allowed start [] start
  | snoc {past : List (T × Event V)} {s s' : Sys T M V} {a : Act T} :
      Story code allowed start past s → allowed past s a → s.step code a = some s' →
      Story code allowed start (past ++ (s.event a).toList) s'

/-- The story of a schedule after what has happened, if it can be taken and passes a check. -/
def story (code : T → Prog M V) (check : List (T × Event V) → Sys T M V → Act T → Bool)
    (past : List (T × Event V)) (s : Sys T M V) :
    List (Act T) → Option (List (T × Event V) × Sys T M V)
  | [] => some (past, s)
  | a :: acts =>
    if check past s a then
      (s.step code a).bind fun next => story code check (past ++ (s.event a).toList) next acts
    else none

variable {code : T → Prog M V} {allowed : List (T × Event V) → Sys T M V → Act T → Prop}
  {start s : Sys T M V} {past : List (T × Event V)}

/-- A story goes on with a schedule whose checked steps are allowed. -/
theorem Story.append_story {check : List (T × Event V) → Sys T M V → Act T → Bool}
    {acts : List (Act T)} (h : Story code allowed start past s)
    (hallowed : ∀ past s, ∀ a ∈ acts, check past s a = true → allowed past s a)
    {past' : List (T × Event V)} {s' : Sys T M V}
    (hstory : s.story code check past acts = some (past', s')) :
    Story code allowed start past' s' := by
  induction acts generalizing s past with
  | nil =>
    simp only [story, Option.some.injEq, Prod.mk.injEq] at hstory
    obtain ⟨rfl, rfl⟩ := hstory
    exact h
  | cons a acts ih =>
    rw [story] at hstory
    split at hstory
    · next hcheck =>
      obtain ⟨next, hstep, hrest⟩ := Option.bind_eq_some_iff.mp hstory
      have hnext := h.snoc (hallowed past s a List.mem_cons_self hcheck) hstep
      exact ih hnext (fun past s b hb => hallowed past s b (List.mem_cons_of_mem _ hb)) hrest
    · contradiction

/-- A schedule whose steps can be taken and are allowed is a story. -/
theorem story_of_decide [∀ past s a, Decidable (allowed past s a)] {acts : List (Act T)}
    (h : start.story code (fun past s a => decide (allowed past s a)) [] acts = some (past, s)) :
    Story code allowed start past s :=
  Story.nil.append_story (fun _ _ _ _ => of_decide_eq_true) h

/-- Issue two calls and run the first statement of each. -/
def inTurn (t u : T) : List (Act T) := [.spawn t, .run 0, .spawn u, .run 1]

/-- The story of two calls that begin with a change. -/
theorem story_inTurn {t u : T} {w w' : Write V} {next next' : Prog M V}
    (ht : code t = .write w next) (hu : code u = .write w' next') (db : Store V) (mem : M) :
    (⟨db, mem, []⟩ : Sys T M V).story code (fun _ _ _ => true) [] (inTurn t u) =
      some ([(t, .wrote w), (u, .wrote w')],
        ⟨w'.apply (w.apply db), mem, [(t, .run next), (u, .run next')]⟩) := by
  simp [inTurn, story, step, event, ht, hu, Body.step, Body.event]

/-- The database is changed in a step by the change that is its event, if it has one. -/
theorem db_of_step {a : Act T} {s' : Sys T M V} (h : s.step code a = some s') :
    (s'.db = s.db ∧ changes (s.event a).toList = []) ∨
      ∃ t w, s.event a = some (t, .wrote w) ∧ s'.db = w.apply s.db := by
  cases a with
  | spawn t =>
    simp only [step, Option.some.injEq] at h
    subst h
    exact Or.inl ⟨rfl, rfl⟩
  | run i =>
    obtain ⟨before, t, body, after, db, mem, rest, -, hget, hbody, rfl⟩ := step_run_eq_some h
    simp only [event, hget, Option.bind_some]
    cases body with
    | await p callback =>
      simp only [Body.step, Option.some.injEq, Prod.mk.injEq] at hbody
      exact Or.inl ⟨hbody.1.symm, rfl⟩
    | run program =>
      cases program <;>
        simp only [Body.step, Option.some.injEq, Prod.mk.injEq, reduceCtorEq] at hbody
      case write w next => exact Or.inr ⟨t, w, rfl, hbody.1.symm⟩
      all_goals exact Or.inl ⟨hbody.1.symm, rfl⟩

/-- The changes of a story, in their order, made the database what it is. -/
theorem Story.db_eq (h : Story code allowed start past s) :
    s.db = (changes past).foldl (fun db w => w.apply db) start.db := by
  induction h with
  | nil => rfl
  | @snoc past s s' a _ _ hstep ih =>
    rw [changes_append, List.foldl_append, ← ih]
    rcases db_of_step hstep with ⟨hsame, hnone⟩ | ⟨t, w, hevent, hdb⟩
    · rw [hnone, hsame, List.foldl_nil]
    · rw [hevent, hdb]
      rfl

end Sys

/-- What notes on pending bodies say, and an invariant of the story so far, the database, the
memory and the notes. -/
structure Chronicle (T G M V : Type*) where
  fits : T → G → Body M V → Prop
  inv : List (T × Event V) → Store V → M → List (T × G) → Prop

namespace Chronicle

variable {G : Type*} {A : Chronicle T G M V}

/-- The notes say of each pending body its call and something that fits it. -/
def Matches (A : Chronicle T G M V) (notes : List (T × G)) (pool : List (T × Body M V)) : Prop :=
  List.Forall₂ (fun note task => note.1 = task.1 ∧ A.fits note.1 note.2 task.2) notes pool

/-- Every pending body has a note that fits it. -/
theorem Matches.exists_note {notes : List (T × G)} {pool : List (T × Body M V)}
    (h : A.Matches notes pool) {task : T × Body M V} (htask : task ∈ pool) :
    ∃ g, (task.1, g) ∈ notes ∧ A.fits task.1 g task.2 :=
  Ledger.Matches.exists_note (A := ⟨A.fits, fun _ _ _ => True⟩) h htask

/-- Every note is about a pending body that it fits. -/
theorem Matches.exists_task {notes : List (T × G)} {pool : List (T × Body M V)}
    (h : A.Matches notes pool) {note : T × G} (hnote : note ∈ notes) :
    ∃ body, (note.1, body) ∈ pool ∧ A.fits note.1 note.2 body :=
  Ledger.Matches.exists_task (A := ⟨A.fits, fun _ _ _ => True⟩) h hnote

/-- Along every story notes fit the pending bodies and the invariant holds. -/
theorem story_chronicle {code : T → Prog M V}
    {allowed : List (T × Event V) → Sys T M V → Act T → Prop} {start s : Sys T M V}
    {past : List (T × Event V)} (h : Sys.Story code allowed start past s)
    (hspawn : ∀ past (s : Sys T M V) t notes, allowed past s (.spawn t) → A.Matches notes s.pool →
      A.inv past s.db s.mem notes →
      ∃ g, A.fits t g (.run (code t)) ∧ A.inv past s.db s.mem (notes ++ [(t, g)]))
    (hstep : ∀ past (s : Sys T M V) i t body before g after db mem rest, allowed past s (.run i) →
      s.pool[i]? = some (t, body) → A.Matches (before ++ (t, g) :: after) s.pool →
      A.fits t g body → A.inv past s.db s.mem (before ++ (t, g) :: after) →
      body.step s.db s.mem = some (db, mem, rest) →
      ∃ gs, List.Forall₂ (A.fits t) gs rest ∧ A.inv
        (past ++ ((body.event s.db).map (t, ·)).toList) db mem (before ++ gs.map (t, ·) ++ after))
    (hstart : ∃ notes, A.Matches notes start.pool ∧ A.inv [] start.db start.mem notes) :
    ∃ notes, A.Matches notes s.pool ∧ A.inv past s.db s.mem notes := by
  induction h with
  | nil => exact hstart
  | @snoc past s s' a _ ha hs' ih =>
    obtain ⟨notes, hnotes, hinv⟩ := ih
    cases a with
    | spawn t =>
      simp only [Sys.step, Option.some.injEq] at hs'
      subst hs'
      obtain ⟨g, hfits, hnext⟩ := hspawn past s t notes ha hnotes hinv
      have hend : A.Matches (notes ++ [(t, g)]) (s.pool ++ [(t, .run (code t))]) :=
        List.rel_append hnotes (.cons ⟨rfl, hfits⟩ .nil)
      exact ⟨_, hend, by simpa [Sys.event] using hnext⟩
    | run i =>
      obtain ⟨before, t, body, after, db, mem, rest, hsplit, hget, hbody, rfl⟩ :=
        Sys.step_run_eq_some hs'
      have hall := hnotes
      rw [Matches, hsplit] at hnotes
      obtain ⟨first, ⟨t', g⟩, last, rfl, hfirst, ⟨rfl, hfits⟩, hlast⟩ := forall₂_split hnotes
      obtain ⟨gs, hgs, hnext⟩ := hstep past s i t' body first g last db mem rest ha hget hall
        hfits hinv hbody
      have hevent : s.event (.run i) = (body.event s.db).map (t', ·) := by simp [Sys.event, hget]
      refine ⟨first ++ gs.map (t', ·) ++ last, ?_, hevent ▸ hnext⟩
      refine List.rel_append (List.rel_append hfirst ?_) hlast
      rw [List.forall₂_map_left_iff, List.forall₂_map_right_iff]
      exact hgs.imp fun _ _ hfit => ⟨rfl, hfit⟩

end Chronicle

namespace Contract

/-- The contract that every change of a call has a property. -/
def issues (P : T → Write V → Prop) : Contract T V where
  inv _ := True
  may t _ w := ¬ P t w
  keeps _ _ := False
  crash := True
  inv_of_keeps _ h := h.elim

/-- Exactly the changes with the property are permitted. -/
theorem permits_issues_iff {P : T → Write V → Prop} {t : T} {w : Write V} :
    (issues P).Permits t w ↔ P t w := by
  constructor
  · intro h
    by_contra hnot
    exact h .empty trivial hnot
  · exact fun h s _ hnot => hnot h

/-- Every change of a story has the property that the calls keep to. -/
theorem story_issues {P : T → Write V → Prop} {code : T → Prog M V}
    {allowed : List (T × Event V) → Sys T M V → Act T → Prop}
    (hcode : ∀ past s t, allowed past s (.spawn t) → (issues P).Holds t (code t))
    {start s : Sys T M V} {past : List (T × Event V)}
    (hpool : ∀ task ∈ start.pool, (issues P).HoldsBody task.1 task.2)
    (h : Sys.Story code allowed start past s) :
    (∀ t w, (t, .wrote w) ∈ past → P t w) ∧ ∀ task ∈ s.pool, (issues P).HoldsBody task.1 task.2 := by
  induction h with
  | nil => exact ⟨by simp, hpool⟩
  | @snoc past s s' a _ ha hstep ih =>
    obtain ⟨hpast, hheld⟩ := ih
    cases a with
    | spawn t =>
      simp only [Sys.step, Option.some.injEq] at hstep
      subst hstep
      refine ⟨by simpa [Sys.event] using hpast, fun task htask => ?_⟩
      rcases List.mem_append.mp htask with htask | htask
      · exact hheld task htask
      · rw [List.mem_singleton.mp htask]
        exact hcode past s t ha
    | run i =>
      obtain ⟨before, t, body, after, db, mem, rest, hsplit, hget, hbody, rfl⟩ :=
        Sys.step_run_eq_some hstep
      have hholds : (issues P).HoldsBody t body := hheld (t, body) (by simp [hsplit])
      constructor
      · intro u w hmem
        rcases List.mem_append.mp hmem with hmem | hmem
        · exact hpast u w hmem
        · obtain ⟨j, next, hj, hbodies⟩ := Sys.event_eq_wrote (Option.mem_toList.mp hmem)
          rw [← Act.run.inj hj, hget, Option.some.injEq, Prod.mk.injEq] at hbodies
          obtain ⟨rfl, rfl⟩ := hbodies
          exact permits_issues_iff.mp hholds.1
      · intro task htask
        simp only [List.mem_append, List.mem_map] at htask
        rcases htask with (htask | ⟨b, hb, rfl⟩) | htask
        · exact hheld task (by simp [hsplit, htask])
        · exact hholds.rest trivial hbody b hb
        · exact hheld task (by simp [hsplit, htask])

end Contract

end GroceryListApp.Realtime

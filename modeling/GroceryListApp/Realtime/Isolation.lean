import GroceryListApp.Realtime.Schedule
import GroceryListApp.Realtime.Subtree

/-!
# Programs that stay in a subtree

Programs that read and write inside disjoint subtrees do not notice each other. In every
schedule the calls that share a subtree take the steps they would take without the others:
the same reads are answered in the same way, the same callbacks trap, and the subtree is the
same in the end. What lies outside all subtrees is not changed.
-/

namespace GroceryListApp.Realtime

variable {T M V : Type*}

/-- Every read and every change of the program lies in a subtree, and it shares no variables. -/
def Prog.Within (p : Path) : Prog M V → Prop
  | .done => True
  | .trap => True
  | .write w next => p <+: w.location ∧ Within p next
  | .observe q callback next =>
      p <+: q ∧ (∀ snapshot, Within p (callback snapshot)) ∧ Within p next
  | .inspect _ => False
  | .modify _ _ => False

/-- Every read and every change of a pending body lies in a subtree. -/
def Body.Within (p : Path) : Body M V → Prop
  | .run program => program.Within p
  | .await q callback => p <+: q ∧ ∀ snapshot, (callback snapshot).Within p

namespace Prog

variable {p : Path}

/-- Sequencing stays in the subtree. -/
theorem Within.seq {first second : Prog M V} (hfirst : first.Within p) (hsecond : second.Within p) :
    (first.seq second).Within p := by
  induction first with
  | done => exact hsecond
  | trap => trivial
  | write w next ih => exact ⟨hfirst.1, ih hfirst.2⟩
  | observe q callback next _ ih => exact ⟨hfirst.1, hfirst.2.1, ih hfirst.2.2⟩
  | inspect next => exact hfirst.elim
  | modify f next => exact hfirst.elim

/-- A forced value stays in the subtree when what follows does. -/
theorem within_force {α : Type*} {value : Option α} {next : α → Prog M V}
    (h : ∀ a, value = some a → (next a).Within p) : (force value next).Within p := by
  cases value with
  | none => trivial
  | some a => exact h a rfl

end Prog

namespace Ref

/-- A reference that raised an exception or refers to a location in a subtree. -/
def Below (p : Path) (ref : Ref) : Prop := ∀ q, ref = some q → p <+: q

variable {p : Path} {ref : Ref}

/-- No string leads out of a subtree. -/
theorem Below.child (h : ref.Below p) (name : String) : (ref.child name).Below p := by
  intro q hq
  obtain ⟨parent, hparent, hq⟩ := Option.bind_eq_some_iff.mp hq
  obtain ⟨rest, -, rfl⟩ := Option.map_eq_some_iff.mp hq
  exact (h parent hparent).trans (List.prefix_append parent rest)

/-- An update through a reference in a subtree stays in it. -/
theorem Below.updateChildValues (h : ref.Below p) (values : List (String × Store V)) :
    (ref.updateChildValues values : Prog M V).Within p :=
  Prog.within_force fun q hq => Prog.within_force fun _ _ => ⟨h q hq, trivial⟩

/-- A removal through a reference in a subtree stays in it. -/
theorem Below.removeValue (h : ref.Below p) : (ref.removeValue : Prog M V).Within p :=
  Prog.within_force fun q hq => ⟨h q hq, trivial⟩

/-- A read through a reference in a subtree stays in it when its callback does. -/
theorem Below.observeSingleEvent (h : ref.Below p) {callback : Snapshot V → Prog M V}
    (hcallback : ∀ snapshot, (callback snapshot).Within p) :
    (ref.observeSingleEvent callback).Within p :=
  Prog.within_force fun q hq => ⟨h q hq, hcallback, trivial⟩

end Ref

/-- A step in a subtree does the same in every database that contains the subtree. -/
theorem Body.Within.step {p : Path} {body : Body M V} {db db' alone : Store V} {mem mem' : M}
    {rest : List (Body M V)} (h : body.Within p) (hsame : alone.sub p = db.sub p)
    (hstep : body.step db mem = some (db', mem', rest)) (mem₂ : M) :
    (∀ b ∈ rest, b.Within p) ∧ ∃ alone', body.step alone mem₂ = some (alone', mem₂, rest) ∧
      alone'.sub p = db'.sub p := by
  cases body with
  | await q callback =>
    simp only [Body.step, Option.some.injEq, Prod.mk.injEq] at hstep
    obtain ⟨rfl, rfl, rfl⟩ := hstep
    refine ⟨by simpa [Body.Within] using h.2 _, alone, ?_, hsame⟩
    rw [Body.step, Store.snapshot_congr hsame h.1]
  | run program =>
    cases program <;> simp only [Body.step, Option.some.injEq, Prod.mk.injEq, reduceCtorEq] at hstep
    case inspect next => exact h.elim
    case modify f next => exact h.elim
    all_goals obtain ⟨rfl, rfl, rfl⟩ := hstep
    case done => exact ⟨by simp, alone, rfl, hsame⟩
    case write w next =>
      exact ⟨by simpa [Body.Within] using h.2, w.apply alone, rfl, Write.sub_apply_congr h.1 hsame⟩
    case observe q callback next =>
      exact ⟨by simpa [Body.Within] using ⟨h.2.2, h.1, h.2.1⟩, alone, rfl, hsame⟩

/-- A step in a subtree changes nothing elsewhere. -/
theorem Body.Within.step_apart {p q : Path} {body : Body M V} {db db' : Store V} {mem mem' : M}
    {rest : List (Body M V)} (h : body.Within p) (hq : Apart p q)
    (hstep : body.step db mem = some (db', mem', rest)) : db'.sub q = db.sub q := by
  cases body with
  | await r callback =>
    simp only [Body.step, Option.some.injEq, Prod.mk.injEq] at hstep
    rw [hstep.1]
  | run program =>
    cases program <;> simp only [Body.step, Option.some.injEq, Prod.mk.injEq, reduceCtorEq] at hstep
    case write w next =>
      obtain ⟨rfl, rfl, rfl⟩ := hstep
      obtain ⟨rest, hrest⟩ := h.1
      exact Write.sub_apply_of_apart (hrest ▸ hq.append_left rest) db
    all_goals rw [hstep.1]

namespace Sys

/-- The same choice in a pool that holds the bodies of some calls only. -/
def own (mine : T → Bool) (s : Sys T M V) : Act T → Option (Act T)
  | .spawn t => if mine t then some (.spawn t) else none
  | .run i => s.pool[i]?.bind fun task =>
      if mine task.1 then some (.run ((s.pool.take i).countP fun task => mine task.1)) else none

/-- The steps that a schedule takes for some calls, in their order. -/
def only (code : T → Prog M V) (mine : T → Bool) (s : Sys T M V) : List (Act T) → List (Act T)
  | [] => []
  | a :: acts => (s.own mine a).toList ++ (s.step code a).elim [] fun next => only code mine next acts

/-- Two states in one of which only some of the calls have been issued: these are as far in both,
and the subtree they share is the same. -/
structure Alone (mine : T → Bool) (p : Path) (s alone : Sys T M V) : Prop where
  sub_eq : alone.db.sub p = s.db.sub p
  pool_eq : alone.pool = s.pool.filter fun task => mine task.1

variable {code : T → Prog M V} {region : T → Path} {p : Path}

/-- A schedule of calls with a subtree each, which is a given one or lies apart from it. -/
def Separate (code : T → Prog M V) (region : T → Path) (p : Path) (acts : List (Act T)) : Prop :=
  ∀ t, .spawn t ∈ acts → (code t).Within (region t) ∧ (region t = p ∨ Apart (region t) p)

/-- A step leaves bodies in their subtrees, and is the same step or no step at all without the
calls of other subtrees. -/
theorem Alone.step {s s' alone : Sys T M V} {a : Act T}
    (h : Alone (fun t => region t = p) p s alone)
    (hpool : ∀ task ∈ s.pool, task.2.Within (region task.1) ∧
      (region task.1 = p ∨ Apart (region task.1) p))
    (hspawn : ∀ t, a = .spawn t → (code t).Within (region t) ∧ (region t = p ∨ Apart (region t) p))
    (hstep : s.step code a = some s') :
    (∀ task ∈ s'.pool, task.2.Within (region task.1) ∧
      (region task.1 = p ∨ Apart (region task.1) p)) ∧
    ∃ alone', alone.runs code (s.own (fun t => region t = p) a).toList = some alone' ∧
      Alone (fun t => region t = p) p s' alone' := by
  obtain ⟨hsub, hown⟩ := h
  cases a with
  | spawn t =>
    simp only [Sys.step, Option.some.injEq] at hstep
    subst hstep
    constructor
    · intro task htask
      rcases List.mem_append.mp htask with htask | htask
      · exact hpool task htask
      · rw [List.mem_singleton.mp htask]
        exact hspawn t rfl
    · by_cases ht : region t = p
      · refine ⟨{ alone with pool := alone.pool ++ [(t, .run (code t))] }, ?_, hsub, ?_⟩
        · simp [own, ht, runs, Sys.step]
        · simp [hown, ht]
      · refine ⟨alone, by simp [own, ht, runs], hsub, ?_⟩
        simp [hown, ht]
  | run i =>
    simp only [Sys.step] at hstep
    split at hstep
    · contradiction
    · next t body hget =>
      obtain ⟨⟨db, mem, rest⟩, hbody, rfl⟩ := Option.map_eq_some_iff.mp hstep
      have hmem : (t, body) ∈ s.pool := List.mem_of_getElem? hget
      obtain ⟨hwithin, hregion⟩ := hpool _ hmem
      obtain ⟨hrest, -⟩ := hwithin.step rfl hbody mem
      refine ⟨fun task htask => ?_, ?_⟩
      · simp only [List.mem_append, List.mem_map] at htask
        rcases htask with (htask | ⟨b, hb, rfl⟩) | htask
        · exact hpool task (List.mem_of_mem_take htask)
        · exact ⟨hrest b hb, hregion⟩
        · exact hpool task (List.mem_of_mem_drop htask)
      have hsplit : s.pool = s.pool.take i ++ (t, body) :: s.pool.drop (i + 1) := by
        obtain ⟨hi, hat⟩ := List.getElem?_eq_some_iff.mp hget
        rw [← hat, List.cons_getElem_drop_succ, List.take_append_drop]
      by_cases ht : region t = p
      · rw [ht] at hwithin
        obtain ⟨-, db', hstep', hsub'⟩ := hwithin.step hsub hbody alone.mem
        have hfilter : alone.pool = ((s.pool.take i).filter fun task => decide (region task.1 = p)) ++
            (t, body) :: (s.pool.drop (i + 1)).filter fun task => decide (region task.1 = p) := by
          rw [hown]
          conv_lhs => rw [hsplit]
          rw [List.filter_append, List.filter_cons_of_pos (by simpa using ht)]
        have hnext : alone.step code _ = _ := step_run_of_split hfilter hstep'
        rw [← List.countP_eq_length_filter] at hnext
        have hruns : alone.runs code (s.own (fun t => region t = p) (.run i)).toList =
            alone.step code (.run ((s.pool.take i).countP fun task => decide (region task.1 = p))) := by
          simp [own, hget, ht, runs]
        refine ⟨_, hruns.trans hnext, hsub', ?_⟩
        simp [List.filter_append, List.filter_map, Function.comp_def, ht]
      · have hapart : Apart (region t) p := hregion.resolve_left ht
        refine ⟨alone, by simp [own, hget, ht, runs], ?_, ?_⟩
        · exact hsub.trans (hwithin.step_apart hapart hbody).symm
        · rw [hown]
          conv_lhs => rw [hsplit]
          simp [List.filter_append, List.filter_map, Function.comp_def, ht]

/-- Without the calls of other subtrees a schedule takes the same steps in a subtree. -/
theorem runs_only {start s : Sys T M V} {acts : List (Act T)} (hseparate : Separate code region p acts)
    (hpool : start.pool = []) (h : start.runs code acts = some s) :
    ∃ alone, start.runs code (start.only code (fun t => region t = p) acts) = some alone ∧
      Alone (fun t => region t = p) p s alone := by
  suffices hgeneral : ∀ (acts : List (Act T)) (start alone : Sys T M V),
      Separate code region p acts → start.runs code acts = some s →
      (∀ task ∈ start.pool, task.2.Within (region task.1) ∧
        (region task.1 = p ∨ Apart (region task.1) p)) →
      Alone (fun t => region t = p) p start alone →
      ∃ last, alone.runs code (start.only code (fun t => region t = p) acts) = some last ∧
        Alone (fun t => region t = p) p s last from
    hgeneral acts start start hseparate h (by simp [hpool]) ⟨rfl, by simp [hpool]⟩
  intro acts
  induction acts with
  | nil =>
    intro start alone _ h _ halone
    have : start = s := by simpa [runs] using h
    exact ⟨alone, rfl, this ▸ halone⟩
  | cons a acts ih =>
    intro start alone hseparate h hpool halone
    rw [runs, List.foldlM_cons] at h
    obtain ⟨next, hstep, hrest⟩ := Option.bind_eq_some_iff.mp h
    obtain ⟨hpool', alone', hfirst, halone'⟩ := halone.step hpool
      (fun t ht => hseparate t (by simp [ht])) hstep
    obtain ⟨last, hlast, hend⟩ := ih next alone' (fun t ht => hseparate t (List.mem_cons_of_mem _ ht))
      hrest hpool' halone'
    refine ⟨last, ?_, hend⟩
    rw [only, hstep, runs, List.foldlM_append, ← runs, hfirst]
    exact hlast

end Sys

/-- A program that stays in a subtree keeps what is stored elsewhere. -/
theorem Prog.Within.holds {program : Prog M V} {p q : Path} (h : program.Within p) (hq : Apart p q)
    (v : Option V) (t : T) :
    (Contract.invariant (fun db => db.get q = v) (fun _ _ _ => True) True).Holds t program := by
  induction program with
  | done => trivial
  | trap => trivial
  | write w next ih =>
    refine ⟨fun s hs _ => ?_, ih h.2⟩
    obtain ⟨rest, hrest⟩ := h.1
    exact (get_apply_of_apart (hrest ▸ hq.append_left rest) s).trans hs
  | observe r callback next ihcallback ih => exact ⟨fun s _ => ihcallback _ (h.2.1 _), ih h.2.2⟩
  | inspect next => exact h.elim
  | modify f next => exact h.elim

/-- A program that stays in a subtree keeps a contract that permits every write there. -/
theorem Prog.Within.holds_of_permits {program : Prog M V} {p : Path} (h : program.Within p)
    {c : Contract T V} {t : T} (hcrash : c.crash) (hpermits : ∀ w : Write V, p <+: w.location → c.Permits t w) :
    c.Holds t program := by
  induction program with
  | done => trivial
  | trap => exact hcrash
  | write w next ih => exact ⟨hpermits w h.1, ih h.2⟩
  | observe r callback next ihcallback ih => exact ⟨fun _ _ => ihcallback _ (h.2.1 _), ih h.2.2⟩
  | inspect next => exact h.elim
  | modify f next => exact h.elim

/-- Something is stored at or below the location of an update afterwards, whatever was stored before. -/
def Write.Stores : Write V → Prop
  | .update p entries => ∃ q v, ∀ db : Store V, ((Write.update p entries).apply db).get (p ++ q) = some v
  | .remove _ => True

/-- An update whose last entry is a value stores it. -/
theorem Write.stores_update (p : Path) (entries : List (Path × Store V)) (q : Path) (v : V) :
    (Write.update p (entries ++ [(q, .leaf v)])).Stores := by
  refine ⟨q, v, fun db => ?_⟩
  simp [Write.apply, Store.get_put]

section

variable {c : Contract T V} {t : T} {p : Path} {ref : Ref}

/-- An update through a reference in a subtree, whose last entry is a value, keeps a contract that
permits every write there that stores something. -/
theorem Ref.Below.holds_update (h : ref.Below p) (hcrash : c.crash)
    (hpermits : ∀ w : Write V, p <+: w.location → w.Stores → c.Permits t w)
    (values : List (String × Store V)) (name : String) (v : V) :
    c.Holds t (ref.updateChildValues (values ++ [(name, .leaf v)]) : Prog M V) := by
  refine Contract.holds_force (fun _ => hcrash) fun q hq => ?_
  refine Contract.holds_force (fun _ => hcrash) fun entries hentries => ⟨?_, trivial⟩
  rw [List.mapM_append] at hentries
  obtain ⟨first, -, hrest⟩ := Option.bind_eq_some_iff.mp hentries
  obtain ⟨last, hlast, hentries⟩ := Option.bind_eq_some_iff.mp hrest
  obtain ⟨entry, hentry, hnil⟩ := Option.bind_eq_some_iff.mp hlast
  obtain ⟨key, -, rfl⟩ := Option.map_eq_some_iff.mp hentry
  obtain rfl : [(key, .leaf v)] = last := Option.some.inj hnil
  obtain rfl : first ++ [(key, .leaf v)] = entries := Option.some.inj hentries
  exact hpermits _ (h q hq) (Write.stores_update q first key v)

/-- A removal through a reference in a subtree keeps such a contract. -/
theorem Ref.Below.holds_remove (h : ref.Below p) (hcrash : c.crash)
    (hpermits : ∀ w : Write V, p <+: w.location → w.Stores → c.Permits t w) :
    c.Holds t (ref.removeValue : Prog M V) :=
  Contract.holds_force (fun _ => hcrash) fun q hq => ⟨hpermits _ (h q hq) trivial, trivial⟩

/-- A read through a reference keeps a contract when its callback does. -/
theorem Ref.holds_observe (hcrash : c.crash) {callback : Snapshot V → Prog M V}
    (hcallback : ∀ snapshot, c.Holds t (callback snapshot)) :
    c.Holds t (ref.observeSingleEvent callback) :=
  Contract.holds_force (fun _ => hcrash) fun _ _ => ⟨fun _ _ => hcallback _, trivial⟩

end

/-- Calls that stay in subtrees change nothing that lies apart from all of them. -/
theorem Sys.Run.get_of_apart {code : T → Prog M V} {allowed : Sys T M V → Act T → Prop}
    (region : T → Path) {q : Path}
    (hcode : ∀ s t, allowed s (.spawn t) → (code t).Within (region t) ∧ Apart (region t) q)
    {start s : Sys T M V} {acts : List (Act T)} (hpool : start.pool = [])
    (h : Sys.Run code allowed start acts s) : s.db.get q = start.db.get q := by
  have hmeets (s : Sys T M V) (a : Act T) (_ : allowed s a) :
      s.Meets (fun _ _ _ => True) a := by
    cases a with
    | spawn t => trivial
    | run i => exact fun _ _ _ _ => trivial
  refine (Contract.run_holds (c := .invariant (fun db => db.get q = start.db.get q) _ True) hmeets
    (fun s t ht => ?_) rfl (by simp [hpool]) h).1
  exact (hcode s t ht).1.holds (hcode s t ht).2 _ t

end GroceryListApp.Realtime

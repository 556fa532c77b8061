import GroceryListApp.Realtime.Counter
import GroceryListApp.Services.DataServiceRules

/-!
# The eight counter functions

A group and a personal list each have two counters, and each counter a function that
increases and one that decreases it. All eight read the counter once and write the adjusted
value from the callback, so two calls whose reads are answered before either has written
lose one of the adjustments. Otherwise every call counts.
-/

namespace GroceryListApp

open Realtime

/-- A stored counter. -/
inductive Counter where
  | listCount (uid : Key)
  | listCheckCount (uid : Key)
  | personalListCount (uid listName : Key)
  | personalListCheckCount (uid listName : Key)
  deriving DecidableEq

namespace Counter

/-- The record a counter belongs to. -/
def parent : Counter → Path
  | .listCount uid => [Keys.groups, uid]
  | .listCheckCount uid => [Keys.groups, uid]
  | .personalListCount uid listName => [Keys.users, uid, Keys.lists, listName]
  | .personalListCheckCount uid listName => [Keys.users, uid, Keys.lists, listName]

/-- The key of a counter in its record. -/
def key : Counter → Key
  | .listCount _ => Keys.groupListCount
  | .listCheckCount _ => Keys.groupListCheckCount
  | .personalListCount _ _ => Keys.listCount
  | .personalListCheckCount _ _ => Keys.listCheckCount

/-- The name of a counter in the source. -/
def field : Counter → String
  | .listCount _ => "list count"
  | .listCheckCount _ => "list check count"
  | .personalListCount _ _ => "listCount"
  | .personalListCheckCount _ _ => "listCheckCount"

/-- The name of a counter denotes its key. -/
theorem parsePath_counter (c : Counter) : parsePath c.field = some [c.key] := by
  cases c <;> simp [field, key]

/-- Where a counter is stored. -/
def location (c : Counter) : Path := c.parent ++ [c.key]

/-- Different counters are stored apart from each other. -/
theorem apart_location {c c' : Counter} (h : c ≠ c') : Apart c.location c'.location := by
  cases c <;> cases c' <;>
    simp +decide [location, parent, key, Apart, List.cons_prefix_cons] at h ⊢ <;> grind

end Counter

/-- A call of one of the counter functions. -/
structure CounterCall where
  counter : Counter
  increases : Bool
  deriving DecidableEq

namespace CounterCall

/-- The function that is called. -/
def code : CounterCall → Prog Unit Value
  | ⟨.listCount uid, true⟩ => increaseListCount uid
  | ⟨.listCount uid, false⟩ => decreaseListCount uid
  | ⟨.listCheckCount uid, true⟩ => increaseListCheckCount uid
  | ⟨.listCheckCount uid, false⟩ => decreaseListCheckCount uid
  | ⟨.personalListCount uid listName, true⟩ => increasePersonalListCount uid listName
  | ⟨.personalListCount uid listName, false⟩ => decreasePersonalListCount uid listName
  | ⟨.personalListCheckCount uid listName, true⟩ => increasePersonalListCheckCount uid listName
  | ⟨.personalListCheckCount uid listName, false⟩ => decreasePersonalListCheckCount uid listName

/-- What a call adds to its counter. -/
def delta (t : CounterCall) : ℤ := if t.increases then 1 else -1

/-- A call adjusts its counter. -/
theorem code_eq (t : CounterCall) :
    t.code = adjustCount (some t.counter.parent) t.counter.field t.delta := by
  obtain ⟨c, up⟩ := t
  have hgroup (uid : Key) : REF_GROUPS.child uid.1 = some [Keys.groups, uid] := by simp [REF_GROUPS]
  have hlist (uid listName : Key) : ((REF_USERS.child uid.1).child "lists").child listName.1 =
      some [Keys.users, uid, Keys.lists, listName] := by
    simp [REF_USERS, Ref.child]
  cases c <;> cases up <;>
    simp only [code, increaseListCount, decreaseListCount, increaseListCheckCount,
      decreaseListCheckCount, increasePersonalListCount, decreasePersonalListCount,
      increasePersonalListCheckCount, decreasePersonalListCheckCount, hgroup, hlist] <;> rfl

end CounterCall

/-- The callback of a counter function writes the adjusted value when both values fit. -/
theorem force_adjusted {M : Type*} {snapshot : Snapshot Value} {n delta : ℤ} (hn : snapshot.value = some (.int n))
    (hfits : FitsInt n) (hsum : FitsInt (n + delta)) (next : ℤ → Prog M Value) :
    (Prog.force (asInt snapshot) fun n => .force (addInt n delta) next) = next (n + delta) := by
  rw [(asInt_eq_some_iff _ _).mpr ⟨hn, hfits⟩, Prog.force_some, (addInt_eq_some_iff _ _ _).mpr ⟨rfl, hsum⟩,
    Prog.force_some]

/-- A counter function adjusts its counter by one amount. -/
theorem adjusts_adjustCount {M : Type*} (p : Path) {field : String} {key : Key}
    (h : parsePath field = some [key]) (delta : ℤ) (aborts : Prop) :
    Adjusts Value.int FitsInt p key aborts (adjustCount (some p) field delta : Prog M Value) [delta] := by
  rw [adjustCount_eq p h]
  left
  refine ⟨delta, [], rfl, rfl, fun s n hn hfits hsum => ?_, rfl⟩
  exact force_adjusted (by simpa using hn) hfits hsum _

/-- A counter function leaves what is apart from its counter alone. -/
theorem adjusts_elsewhere {M : Type*} {p q : Path} {field : String} {key k : Key} {aborts : Prop}
    (haborts : aborts) (h : parsePath field = some [key]) (hapart : Apart (p ++ [key]) (q ++ [k])) (delta : ℤ) :
    Adjusts Value.int FitsInt q k aborts (adjustCount (some p) field delta : Prog M Value) [] := by
  rw [adjustCount_eq p h]
  right
  refine ⟨fun s => ?_, rfl⟩
  change Adjusts Value.int FitsInt q k aborts (Prog.force (asInt (s.snapshot (p ++ [key]))) _) []
  cases asInt (s.snapshot (p ++ [key])) with
  | none => exact haborts
  | some n =>
    rw [Prog.force_some]
    cases addInt n delta with
    | none => exact haborts
    | some adjusted =>
      refine ⟨fun s => ?_, rfl⟩
      apply get_update_of_apart
      intro entry hentry
      rw [List.mem_singleton.mp hentry]
      exact hapart

namespace CounterCall

/-- The amounts a call adjusts a counter by. -/
def amounts (c : Counter) (t : CounterCall) : List ℤ := if t.counter = c then [t.delta] else []

/-- Every call adjusts its own counter and no other. -/
theorem adjusts_code (c : Counter) (t : CounterCall) :
    Adjusts Value.int FitsInt c.parent c.key (t.counter ≠ c) t.code (amounts c t) := by
  rw [code_eq]
  by_cases h : t.counter = c
  · subst h
    simpa [amounts] using adjusts_adjustCount _ t.counter.parsePath_counter t.delta _
  · simpa [amounts, h] using
      adjusts_elsewhere h t.counter.parsePath_counter (Counter.apart_location h) t.delta

/-- The issued amounts count the increases and the decreases of a schedule. -/
theorem sum_issued (c : Counter) (acts : List (Act CounterCall)) :
    (issued (amounts c) acts).sum = acts.count (.spawn ⟨c, true⟩) - acts.count (.spawn ⟨c, false⟩) := by
  induction acts with
  | nil => simp [issued]
  | cons a acts ih =>
    rw [issued, List.flatMap_cons, List.sum_append, ← issued, ih]
    cases a with
    | run i => simp
    | spawn t =>
      obtain ⟨c', up⟩ := t
      by_cases h : c' = c
      · subst h
        cases up <;> simp [amounts, delta] <;> omega
      · simp [amounts, h]

end CounterCall

/-- A counter and the calls on any counters, issued by any number of clients: when each of its
reads is answered while no other body is about to write it, and an `Int` holds the stored and the
adjusted value, no call on it aborts, and no adjustment is lost. -/
theorem counter_adds_up (c : Counter) (n : ℤ) {start s : Sys CounterCall Unit Value}
    {acts : List (Act CounterCall)} (hstart : start.db.get c.location = some (.int n))
    (hpool : start.pool = [])
    (h : Sys.Run CounterCall.code
      (ReadsAlone Value.int FitsInt c.parent c.key (CounterCall.amounts c)) start acts s) :
    (∀ task ∈ s.pool, task.2 = .run .trap → task.1.counter ≠ c) ∧
      ((∀ task ∈ s.pool, task.1.counter ≠ c) → s.db.get c.location =
        some (.int (n + acts.count (.spawn ⟨c, true⟩) - acts.count (.spawn ⟨c, false⟩)))) := by
  have hinj : Function.Injective Value.int := fun _ _ h => Value.int.inj h
  obtain ⟨hruns, hsum⟩ := run_adds_up hinj (CounterCall.adjusts_code c) (fun _ _ ha => ha) hstart hpool h
  refine ⟨hruns, fun hdone => ?_⟩
  have hvalue := hsum fun task htask => if_neg (hdone task htask)
  rw [CounterCall.sum_issued] at hvalue
  rw [Counter.location, hvalue]
  congr 2
  omega

/-- The database of a group whose list is empty. -/
def emptyList : Sys CounterCall Unit Value :=
  ⟨(setCount Value.int [Keys.groups, Sample.home] Keys.groupListCount 0).apply .empty, (), []⟩

/-- A call that increases that counter. -/
def addOne : CounterCall := ⟨.listCount Sample.home, true⟩

/-- No pending body has read a counter and not written it, by the shape of what is written. -/
theorem noneLoaded_iff {p : Path} {k : Key} {pool : List (CounterCall × Body Unit Value)} :
    NoneLoaded Value.int p k pool ↔ ∀ task ∈ pool, match task.2 with
      | .run (.write (.update q [([l], ⟨[([], .int _)], _⟩)]) _) => ¬ (q = p ∧ l = k)
      | _ => True := by
  constructor
  · intro h task htask
    split
    · next q l n _ next hbody =>
      rintro ⟨rfl, rfl⟩
      exact h task htask n next hbody
    · trivial
  · intro h task htask n next hbody
    have hshape := h task htask
    rw [hbody] at hshape
    exact hshape ⟨rfl, rfl⟩

/-- A read is answered alone, by the shape of the body and of what is stored. -/
theorem readsAlone_run_iff {p : Path} {k : Key} {amounts : CounterCall → List ℤ}
    {s : Sys CounterCall Unit Value} {i : ℕ} :
    ReadsAlone Value.int FitsInt p k amounts s (.run i) ↔ match s.pool[i]? with
      | some (t, .await q _) => q = p ++ [k] → NoneLoaded Value.int p k s.pool ∧
          match s.db.get (p ++ [k]) with
          | some (.int n) => FitsInt n ∧ ∀ d ∈ amounts t, FitsInt (n + d)
          | _ => True
      | _ => True := by
  constructor
  · intro h
    split
    · next t q callback hget =>
      rintro rfl
      obtain ⟨hnone, hfits⟩ := h t callback hget
      refine ⟨hnone, ?_⟩
      split
      · next n hn => exact hfits n hn
      · trivial
    · trivial
  · intro h t callback hget
    rw [hget] at h
    obtain ⟨hnone, hfits⟩ := h rfl
    refine ⟨hnone, fun n hn => ?_⟩
    rwa [hn] at hfits

instance {p : Path} {k : Key} (pool : List (CounterCall × Body Unit Value)) :
    Decidable (NoneLoaded Value.int p k pool) := by
  refine @decidable_of_iff' _ _ noneLoaded_iff (@List.decidableBAll _ _ (fun task => ?_) pool)
  split <;> infer_instance

instance {p : Path} {k : Key} {amounts : CounterCall → List ℤ} (s : Sys CounterCall Unit Value)
    (a : Act CounterCall) : Decidable (ReadsAlone Value.int FitsInt p k amounts s a) := by
  cases a with
  | spawn t => exact isTrue trivial
  | run i =>
    refine @decidable_of_iff' _ _ readsAlone_run_iff ?_
    split
    · refine @instDecidableForall _ _ _ (@instDecidableAnd _ _ _ ?_)
      split <;> infer_instance
    · infer_instance

/-- Two calls are pending at once, and the second read is answered after the first write. -/
theorem counter_adds_up_overlapping : ∃ db : Store Value,
    Sys.Run CounterCall.code (ReadsAlone Value.int FitsInt addOne.counter.parent addOne.counter.key
        (CounterCall.amounts addOne.counter)) emptyList
      [.spawn addOne, .spawn addOne, .run 0, .run 0, .run 1, .run 1, .run 0, .run 0, .run 1, .run 1, .run 0,
        .run 0] ⟨db, (), []⟩ ∧
    db.get addOne.counter.location = some (.int 2) := by
  have hlast : (emptyList.checkedRuns CounterCall.code (ReadsAlone Value.int FitsInt addOne.counter.parent
      addOne.counter.key (CounterCall.amounts addOne.counter))
      [.spawn addOne, .spawn addOne, .run 0, .run 0, .run 1, .run 1, .run 0, .run 0, .run 1, .run 1, .run 0,
        .run 0]).map (fun s => s.pool.length) = some 0 := by
    decide
  obtain ⟨⟨db, mem, pool⟩, hs, hpool⟩ := Option.map_eq_some_iff.mp hlast
  obtain rfl : pool = [] := List.length_eq_zero_iff.mp hpool
  have hrun := Sys.run_of_checkedRuns hs
  have hstored : emptyList.db.get addOne.counter.location = some (.int 0) := by decide
  obtain ⟨-, hsum⟩ := counter_adds_up addOne.counter 0 hstored rfl hrun
  exact ⟨db, hrun, by simpa [addOne] using hsum (by simp)⟩

/-- Two devices read the counter before either of them writes it. -/
def bothReadFirst : List (Act CounterCall) :=
  [.spawn addOne, .spawn addOne, .run 0, .run 2, .run 1, .run 3, .run 1, .run 3,
    .run 0, .run 0, .run 0, .run 0]

/-- Two increases of a counter may leave it increased by one. -/
theorem not_counter_adds_up : ¬ ∀ (c : Counter) (n : ℤ) (start s : Sys CounterCall Unit Value)
    (acts : List (Act CounterCall)), start.db.get c.location = some (.int n) → start.pool = [] →
    start.runs CounterCall.code acts = some s → s.pool = [] →
    s.db.get c.location =
      some (.int (n + acts.count (.spawn ⟨c, true⟩) - acts.count (.spawn ⟨c, false⟩))) := by
  intro hclaim
  have hlast : (emptyList.runs CounterCall.code bothReadFirst).map
      (fun s => (s.pool.length, s.db.get addOne.counter.location)) = some (0, some (.int 1)) := by
    decide
  obtain ⟨s, hs, hvalue⟩ := Option.map_eq_some_iff.mp hlast
  obtain ⟨hpool, hone⟩ := Prod.mk.injEq _ _ _ _ ▸ hvalue
  have := hclaim addOne.counter 0 emptyList s bothReadFirst (by decide) rfl hs
    (List.length_eq_zero_iff.mp hpool)
  rw [hone] at this
  revert this
  decide

end GroceryListApp

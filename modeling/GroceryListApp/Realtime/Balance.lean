import GroceryListApp.Realtime.Ledger
import Mathlib.Algebra.BigOperators.Group.List.Basic
import Mathlib.Tactic.Abel

/-!
# Quantities that add up

A call may change a quantity of the database in several writes, so that the quantity is wrong in
between and right again at the end. In between, the call is still going to add some amount. When each
write of a call changes the quantity by an amount that the program fixes, the quantity and the amounts
still to come add up to the same total along every schedule. Calls that never change the quantity have
no part in this, whatever else they do.
-/

namespace GroceryListApp.Realtime

variable {T D M V : Type*} [AddCommMonoid D]

/-- A quantity of the database, and when a call may issue a write. -/
structure Balance (T D V : Type*) where
  value : Store V → D
  may : T → Store V → Write V → Prop

namespace Balance

variable (b : Balance T D V)

/-- Wherever a call may issue a write, the write adds an amount to the quantity. -/
def Changes (t : T) (w : Write V) (d : D) : Prop :=
  ∀ db, b.may t db w → b.value (w.apply db) = b.value db + d

/-- What a program adds in total, however its reads are answered. -/
def Adds (t : T) : Prog M V → D → Prop
  | .done, d => d = 0
  | .trap, _ => True
  | .write w next, d => ∃ first rest, d = first + rest ∧ b.Changes t w first ∧ Adds t next rest
  | .observe p callback next, d => ∃ answered rest, d = answered + rest ∧
      (∀ db : Store V, Adds t (callback (db.snapshot p)) answered) ∧ Adds t next rest
  | .inspect next, d => ∀ m, Adds t (next m) d
  | .modify _ next, d => Adds t next d

/-- What a pending body is still going to add. -/
def AddsBody (t : T) : Body M V → D → Prop
  | .run program, d => b.Adds t program d
  | .await p callback, d => ∀ db : Store V, b.Adds t (callback (db.snapshot p)) d

/-- The contract to leave the quantity alone. -/
def steady : Contract T V where
  inv _ := True
  may := b.may
  keeps db db' := b.value db' = b.value db
  crash := True
  inv_of_keeps _ _ := trivial

variable {b} {t : T}

/-- A program that leaves the quantity alone adds nothing. -/
theorem adds_of_holds {program : Prog M V} (h : b.steady.Holds t program) : b.Adds t program 0 := by
  induction program with
  | done => rfl
  | trap => trivial
  | write w next ih =>
    refine ⟨0, 0, (add_zero 0).symm, fun db hmay => ?_, ih h.2⟩
    rw [add_zero]
    exact h.1 db trivial hmay
  | observe p callback next ihcallback ih =>
    exact ⟨0, 0, (add_zero 0).symm, fun db => ihcallback _ (h.1 db trivial), ih h.2⟩
  | inspect next ih => exact fun m => ih m (h m)
  | modify f next ih => exact ih h

/-- A write that adds an amount, before a program that adds another. -/
theorem adds_write {w : Write V} {next : Prog M V} {first rest : D} (hw : b.Changes t w first)
    (hnext : b.Adds t next rest) : b.Adds t (.write w next) (first + rest) :=
  ⟨first, rest, rfl, hw, hnext⟩

/-- Programs that run one after the other add what each of them adds. -/
theorem adds_seq {p q : Prog M V} {first rest : D} (hp : b.Adds t p first) (hq : b.Adds t q rest) :
    b.Adds t (p.seq q) (first + rest) := by
  induction p generalizing first with
  | done =>
    have hnothing : first = 0 := hp
    rw [hnothing, zero_add]
    exact hq
  | trap => trivial
  | write w next ih =>
    obtain ⟨now, later, rfl, hw, hnext⟩ := hp
    exact ⟨now, later + rest, add_assoc _ _ _, hw, ih hnext⟩
  | observe p callback next _ ih =>
    obtain ⟨answered, later, rfl, hcallback, hnext⟩ := hp
    exact ⟨answered, later + rest, add_assoc _ _ _, hcallback, ih hnext⟩
  | inspect next ih => exact fun m => ih m (hp m)
  | modify f next ih => exact ih hp

/-- One step of a body changes the quantity by what it is no longer going to add. -/
theorem AddsBody.step {body : Body M V} {d : D} {db db' : Store V} {mem mem' : M}
    {rest : List (Body M V)} (h : b.AddsBody t body d)
    (hmay : ∀ w next, body = .run (.write w next) → b.may t db w)
    (hstep : body.step db mem = some (db', mem', rest)) :
    ∃ ds, List.Forall₂ (fun d body => b.AddsBody t body d) ds rest ∧
      b.value db' + ds.sum = b.value db + d := by
  cases body with
  | await p callback =>
    simp only [Body.step, Option.some.injEq, Prod.mk.injEq] at hstep
    obtain ⟨rfl, rfl, rfl⟩ := hstep
    exact ⟨[d], .cons (h _) .nil, by simp⟩
  | run program =>
    cases program <;> simp only [Body.step, Option.some.injEq, Prod.mk.injEq, reduceCtorEq] at hstep
    all_goals obtain ⟨rfl, rfl, rfl⟩ := hstep
    case done =>
      have hnothing : d = 0 := h
      exact ⟨[], .nil, by simp [hnothing]⟩
    case write w next =>
      obtain ⟨first, rest, rfl, hw, hnext⟩ := h
      refine ⟨[rest], .cons hnext .nil, ?_⟩
      rw [hw _ (hmay w next rfl), List.sum_singleton, add_assoc]
    case observe p callback next =>
      obtain ⟨answered, rest, rfl, hcallback, hnext⟩ := h
      refine ⟨[rest, answered], .cons hnext (.cons hcallback .nil), ?_⟩
      rw [List.sum_pair, add_comm rest]
    case inspect next => exact ⟨[d], .cons (h mem) .nil, by simp⟩
    case modify f next => exact ⟨[d], .cons h .nil, by simp⟩

/-- What is pending of some calls adds the amounts noted, and what is pending of the others leaves the
quantity alone. -/
def ledger (b : Balance T D V) (mine : T → Prop) (total : D) : Ledger T D M V where
  fits t d body := mine t ∧ b.AddsBody t body d ∨ ¬ mine t ∧ d = 0 ∧ b.steady.HoldsBody t body
  inv _ db notes := b.value db + (notes.map Prod.snd).sum = total

variable {code : T → Prog M V} {allowed : Sys T M V → Act T → Prop} {start s : Sys T M V}
  {acts : List (Act T)} {mine : T → Prop}

/-- Along every schedule the quantity and the amounts still to come add up to the same total. -/
theorem run_adds_up (hmay : ∀ s a, allowed s a → s.Meets b.may a)
    (hmine : ∀ s t, allowed s (.spawn t) → mine t → b.Adds t (code t) 0)
    (hothers : ∀ s t, allowed s (.spawn t) → ¬ mine t → b.steady.Holds t (code t))
    (hpool : start.pool = []) (h : Sys.Run code allowed start acts s) :
    ∃ notes, (b.ledger mine (b.value start.db)).Matches notes s.pool ∧
      (b.ledger mine (b.value start.db) : Ledger T D M V).inv acts s.db notes := by
  refine Ledger.run_ledger h ?_ ?_ ⟨[], by simp [Ledger.Matches, hpool], by simp [ledger]⟩
  · intro acts s t notes hallowed _ hinv
    refine ⟨0, ?_, by simpa [ledger] using hinv⟩
    by_cases ht : mine t
    · exact Or.inl ⟨ht, hmine s t hallowed ht⟩
    · exact Or.inr ⟨ht, rfl, hothers s t hallowed ht⟩
  · intro acts s i t body before d after db mem rest hallowed hget _ hfits hinv hstep
    have hwrite : ∀ w next, body = .run (.write w next) → b.may t s.db w := by
      rintro w next rfl
      exact hmay s _ hallowed t w next hget
    suffices hnext : ∃ ds, List.Forall₂ ((b.ledger mine (b.value start.db)).fits t) ds rest ∧
        b.value db + ds.sum = b.value s.db + d by
      obtain ⟨ds, hds, hvalue⟩ := hnext
      refine ⟨ds, hds, ?_⟩
      have hnew : ((ds.map (t, ·)).map Prod.snd : List D) = ds := by simp
      simp only [ledger, List.map_append, List.map_cons, List.sum_append, List.sum_cons] at hinv ⊢
      rw [hnew]
      calc b.value db + ((before.map Prod.snd).sum + ds.sum + (after.map Prod.snd).sum)
          = b.value db + ds.sum + ((before.map Prod.snd).sum + (after.map Prod.snd).sum) := by abel
        _ = b.value s.db + d + ((before.map Prod.snd).sum + (after.map Prod.snd).sum) := by rw [hvalue]
        _ = b.value s.db + ((before.map Prod.snd).sum + (d + (after.map Prod.snd).sum)) := by abel
        _ = b.value start.db := hinv
    rcases hfits with ⟨ht, hadds⟩ | ⟨ht, rfl, hholds⟩
    · obtain ⟨ds, hds, hvalue⟩ := hadds.step hwrite hstep
      exact ⟨ds, hds.imp fun _ _ hd => Or.inl ⟨ht, hd⟩, hvalue⟩
    · obtain ⟨hkeeps, -, hrest⟩ := hholds.step trivial hwrite hstep
      have hsame : b.value db = b.value s.db := by
        rcases hkeeps with rfl | hkeeps
        · rfl
        · exact hkeeps
      refine ⟨rest.map fun _ => 0, ?_, by simp [hsame]⟩
      rw [List.forall₂_map_left_iff, List.forall₂_same]
      exact fun body hbody => Or.inr ⟨ht, rfl, hrest body hbody⟩

/-- When none of the calls that change the quantity is pending, it is what it was. -/
theorem run_balanced (mine : T → Prop) (hmay : ∀ s a, allowed s a → s.Meets b.may a)
    (hmine : ∀ s t, allowed s (.spawn t) → mine t → b.Adds t (code t) 0)
    (hothers : ∀ s t, allowed s (.spawn t) → ¬ mine t → b.steady.Holds t (code t))
    (hpool : start.pool = []) (h : Sys.Run code allowed start acts s)
    (hnone : ∀ task ∈ s.pool, ¬ mine task.1) : b.value s.db = b.value start.db := by
  obtain ⟨notes, hnotes, hinv⟩ := run_adds_up hmay hmine hothers hpool h
  have hzero : ∀ d ∈ notes.map Prod.snd, d = 0 := by
    intro d hd
    obtain ⟨note, hnote, rfl⟩ := List.mem_map.mp hd
    obtain ⟨body, hbody, hfits⟩ := hnotes.exists_task hnote
    rcases hfits with ⟨ht, -⟩ | ⟨-, hd, -⟩
    · exact absurd ht (hnone _ hbody)
    · exact hd
  have hsum : b.value s.db + (notes.map Prod.snd).sum = b.value start.db := hinv
  rwa [List.sum_eq_zero hzero, add_zero] at hsum

end Balance

end GroceryListApp.Realtime

import GroceryListApp.Realtime.Ledger
import Mathlib.Algebra.Order.BigOperators.Group.List
import Mathlib.Algebra.Order.Ring.Int

/-!
# Counters that are read and written back

A counter is adjusted by a read whose callback writes the delivered value, changed by some
amount. Between the two steps a body is loaded: the value it is going to write is fixed. If
no read of the counter is answered while another body is loaded, then the stored value and
the amounts still to come always add up to the same number. A callback computes with the
numbers that fit only, and may abort at any other.
-/

namespace GroceryListApp.Realtime

variable {T M V : Type*}

/-- The write that stores a number in a counter. -/
def setCount (number : ℤ → V) (p : Path) (k : Key) (n : ℤ) : Write V :=
  .update p [([k], .leaf (number n))]

/-- Storing a number in a counter stores it there. -/
theorem get_setCount (number : ℤ → V) (p : Path) (k : Key) (n : ℤ) (s : Store V) :
    ((setCount number p k n).apply s).get (p ++ [k]) = some (number n) :=
  get_update_leaf p [k] (number n) s

section

variable (number : ℤ → V) (fits : ℤ → Prop) (p : Path) (k : Key)

/-- The callback writes the counter back, changed by an amount, when both numbers fit. -/
def WritesBack (d : ℤ) (callback : Snapshot V → Prog M V) : Prop :=
  ∀ (s : Store V) (n : ℤ), s.get (p ++ [k]) = some (number n) → fits n → fits (n + d) →
    callback (s.snapshot (p ++ [k])) = .write (setCount number p k (n + d)) .done

/-- The program adjusts the counter by each of the amounts, and does not touch it otherwise.
It aborts only where that is said. -/
def Adjusts (aborts : Prop) : Prog M V → List ℤ → Prop
  | .done, ds => ds = []
  | .trap, _ => aborts
  | .write w next, ds => (∀ s, (w.apply s).get (p ++ [k]) = s.get (p ++ [k])) ∧ Adjusts aborts next ds
  | .observe q callback next, ds =>
      (∃ d rest, ds = d :: rest ∧ q = p ++ [k] ∧ WritesBack number fits p k d callback ∧
        Adjusts aborts next rest) ∨
      ((∀ s : Store V, Adjusts aborts (callback (s.snapshot q)) []) ∧ Adjusts aborts next ds)
  | .inspect next, ds => ∀ m, Adjusts aborts (next m) ds
  | .modify _ next, ds => Adjusts aborts next ds

/-- What a pending body still does to the counter: adjust it by some amounts, or write a
number that is fixed already. -/
inductive Share where
  | waiting (amounts : List ℤ)
  | loaded (base amount : ℤ)

/-- The amounts still to come. -/
def Share.amounts : Share → List ℤ
  | .waiting ds => ds
  | .loaded _ d => [d]

/-- The sum of the amounts still to come. -/
def Share.amount (share : Share) : ℤ := share.amounts.sum

/-- One for a body that is loaded. -/
def Share.loads : Share → ℕ
  | .waiting _ => 0
  | .loaded _ _ => 1

@[simp] theorem Share.amount_waiting (ds : List ℤ) : (Share.waiting ds).amount = ds.sum := rfl

@[simp] theorem Share.amount_loaded (n d : ℤ) : (Share.loaded n d).amount = d := List.sum_singleton

@[simp] theorem Share.loads_waiting (ds : List ℤ) : (Share.waiting ds).loads = 0 := rfl

@[simp] theorem Share.loads_loaded (n d : ℤ) : (Share.loaded n d).loads = 1 := rfl

@[simp] theorem Share.amounts_waiting (ds : List ℤ) : (Share.waiting ds).amounts = ds := rfl

@[simp] theorem Share.amounts_loaded (n d : ℤ) : (Share.loaded n d).amounts = [d] := rfl

/-- A pending body does to the counter what its share says. -/
def Share.Fits (aborts : Prop) : Share → Body M V → Prop
  | .waiting ds, .run program => Adjusts number fits p k aborts program ds
  | .waiting ds, .await q callback =>
      (∃ d, ds = [d] ∧ q = p ++ [k] ∧ WritesBack number fits p k d callback) ∨
      ((∀ s : Store V, Adjusts number fits p k aborts (callback (s.snapshot q)) []) ∧ ds = [])
  | .loaded n d, body => body = .run (.write (setCount number p k (n + d)) .done)

/-- The stored value and the amounts still to come add up to a total; at most one body is
loaded, and with the value that is stored. -/
structure Balanced (total : ℤ) (db : Store V) (shares : List (T × Share)) : Prop where
  balance : ∃ v, db.get (p ++ [k]) = some (number v) ∧
    v + (shares.map fun share => share.2.amount).sum = total ∧
    ∀ share ∈ shares, ∀ n d, share.2 = .loaded n d → n = v
  alone : (shares.map fun share => share.2.loads).sum ≤ 1

variable {number fits p k} {aborts : Prop} {total : ℤ} {db db' : Store V} {before after : List (T × Share)}
  {t : T}

/-- A step that leaves the counter alone may hand the amounts on to what remains of a body. -/
theorem Balanced.hand_on {ds : List ℤ} {gs : List Share}
    (h : Balanced number p k total db (before ++ (t, .waiting ds) :: after))
    (hsame : db'.get (p ++ [k]) = db.get (p ++ [k]))
    (hwaiting : ∀ g ∈ gs, ∃ es, g = .waiting es) (hsum : (gs.map Share.amount).sum = ds.sum) :
    Balanced number p k total db' (before ++ gs.map (t, ·) ++ after) := by
  have hloads : (gs.map Share.loads).sum = 0 := by
    apply List.sum_eq_zero
    intro n hn
    obtain ⟨g, hg, rfl⟩ := List.mem_map.mp hn
    obtain ⟨es, rfl⟩ := hwaiting g hg
    rfl
  have hamount : ((gs.map (t, ·)).map fun share : T × Share => share.2.amount) =
      gs.map Share.amount := by simp
  have hload : ((gs.map (t, ·)).map fun share : T × Share => share.2.loads) =
      gs.map Share.loads := by simp
  obtain ⟨v, hv, htotal, hbase⟩ := h.balance
  have halone := h.alone
  simp only [List.map_append, List.map_cons, List.sum_append, List.sum_cons, Share.amount_waiting,
    Share.loads_waiting] at htotal halone
  refine ⟨⟨v, hsame.trans hv, ?_, fun share hshare n d hloaded => ?_⟩, ?_⟩
  · simp only [List.map_append, List.sum_append, hamount]
    omega
  · rw [List.append_assoc] at hshare
    simp only [List.mem_append, List.mem_map] at hshare
    rcases hshare with hshare | ⟨g, hg, rfl⟩ | hshare
    · exact hbase share (by simp [hshare]) n d hloaded
    · obtain ⟨es, rfl⟩ := hwaiting g hg
      contradiction
    · exact hbase share (by simp [hshare]) n d hloaded
  · simp only [List.map_append, List.sum_append, hload]
    omega

/-- A body is loaded with the stored value when no other body is. -/
theorem Balanced.load {d v : ℤ}
    (h : Balanced number p k total db (before ++ (t, .waiting [d]) :: after))
    (hinj : Function.Injective number) (hv : db.get (p ++ [k]) = some (number v))
    (hnone : ∀ share ∈ before ++ after, share.2.loads = 0) :
    Balanced number p k total db (before ++ [(t, .loaded v d)] ++ after) := by
  have hloads : ((before ++ after).map fun share => share.2.loads).sum = 0 := by
    apply List.sum_eq_zero
    intro n hn
    obtain ⟨share, hshare, rfl⟩ := List.mem_map.mp hn
    exact hnone share hshare
  obtain ⟨v', hv', htotal, -⟩ := h.balance
  have hsame : v' = v := hinj (Option.some.inj (hv'.symm.trans hv))
  subst hsame
  simp only [List.map_append, List.map_cons, List.sum_append, List.sum_cons,
    Share.amount_waiting, List.sum_nil] at htotal hloads
  refine ⟨⟨v', hv, ?_, fun share hshare n e hloaded => ?_⟩, ?_⟩
  · simp only [List.map_append, List.map_cons, List.map_nil, List.sum_append, List.sum_cons,
      List.sum_nil, Share.amount_loaded]
    omega
  · have hmem : share ∈ before ++ after ∨ share = (t, .loaded v' d) := by
      simp only [List.mem_append, List.mem_singleton] at hshare ⊢
      rcases hshare with (hshare | hshare) | hshare
      · exact Or.inl (Or.inl hshare)
      · exact Or.inr hshare
      · exact Or.inl (Or.inr hshare)
    rcases hmem with hmem | rfl
    · have := hnone share hmem
      rw [hloaded] at this
      contradiction
    · cases hloaded
      rfl
  · simp only [List.map_append, List.map_cons, List.map_nil, List.sum_append, List.sum_cons,
      List.sum_nil, Share.loads_loaded]
    omega

/-- A loaded body writes the adjusted value. -/
theorem Balanced.store {n d : ℤ}
    (h : Balanced number p k total db (before ++ (t, .loaded n d) :: after)) :
    Balanced number p k total ((setCount number p k (n + d)).apply db)
      (before ++ [(t, .waiting [])] ++ after) := by
  obtain ⟨v, -, htotal, hbase⟩ := h.balance
  have halone := h.alone
  have hn : n = v := hbase (t, .loaded n d) (by simp) n d rfl
  simp only [List.map_append, List.map_cons, List.sum_append, List.sum_cons, Share.amount_loaded,
    Share.loads_loaded] at htotal halone
  have hothers : ∀ share ∈ before ++ after, share.2.loads = 0 := by
    intro share hshare
    have hle : share.2.loads ≤ ((before ++ after).map fun share => share.2.loads).sum :=
      List.single_le_sum (by simp) _ (List.mem_map_of_mem hshare)
    simp only [List.map_append, List.sum_append] at hle
    omega
  refine ⟨⟨n + d, get_setCount number p k (n + d) db, ?_, fun share hshare m e hloaded => ?_⟩, ?_⟩
  · simp only [List.map_append, List.map_cons, List.map_nil, List.sum_append, List.sum_cons,
      List.sum_nil, Share.amount_waiting]
    omega
  · have hmem : share ∈ before ++ after ∨ share = (t, .waiting []) := by
      simp only [List.mem_append, List.mem_singleton] at hshare ⊢
      rcases hshare with (hshare | hshare) | hshare
      · exact Or.inl (Or.inl hshare)
      · exact Or.inr hshare
      · exact Or.inl (Or.inr hshare)
    rcases hmem with hmem | rfl
    · have := hothers share hmem
      rw [hloaded] at this
      contradiction
    · contradiction
  · simp only [List.map_append, List.map_cons, List.map_nil, List.sum_append, List.sum_cons,
      List.sum_nil, Share.loads_waiting]
    omega

/-- A body that waits for the counter with one amount is answered. -/
def Answers (body : Body M V) (share : Share) (p : Path) (k : Key) : Prop :=
  ∃ d callback, share = .waiting [d] ∧ body = .await (p ++ [k]) callback

/-- One step of a pending body keeps the balance, provided that nothing else is loaded when it
reads the counter and that the numbers fit. What remains of the body adjusts the counter by no
other amounts. -/
theorem Share.Fits.step {share : Share} {body : Body M V} {mem mem' : M} {rest : List (Body M V)}
    (hfits : share.Fits number fits p k aborts body) (hinj : Function.Injective number)
    (hnone : Answers body share p k → ∀ other ∈ before ++ after, other.2.loads = 0)
    (hrange : Answers body share p k → ∀ n, db.get (p ++ [k]) = some (number n) →
      fits n ∧ ∀ d ∈ share.amounts, fits (n + d))
    (h : Balanced number p k total db (before ++ (t, share) :: after))
    (hstep : body.step db mem = some (db', mem', rest)) :
    ∃ gs, List.Forall₂ (fun g b => Share.Fits number fits p k aborts g b) gs rest ∧
      (∀ g ∈ gs, g.amounts ⊆ share.amounts) ∧
      Balanced number p k total db' (before ++ gs.map (t, ·) ++ after) := by
  cases share with
  | loaded n d =>
    cases body <;> cases hfits
    simp only [Body.step, Option.some.injEq, Prod.mk.injEq] at hstep
    obtain ⟨rfl, rfl, rfl⟩ := hstep
    exact ⟨[.waiting []], .cons rfl .nil, by simp, h.store⟩
  | waiting ds =>
    cases body with
    | await q callback =>
      simp only [Body.step, Option.some.injEq, Prod.mk.injEq] at hstep
      obtain ⟨rfl, rfl, rfl⟩ := hstep
      rcases hfits with ⟨d, rfl, rfl, hback⟩ | ⟨hquiet, rfl⟩
      · obtain ⟨v, hv, -⟩ := h.balance
        obtain ⟨hn, hsum⟩ := hrange ⟨d, callback, rfl, rfl⟩ v hv
        have hwrites := hback db v hv hn (hsum d List.mem_cons_self)
        refine ⟨[.loaded v d], .cons (congrArg Body.run hwrites) .nil, by simp, ?_⟩
        exact h.load hinj hv (hnone ⟨d, callback, rfl, rfl⟩)
      · exact ⟨[.waiting []], .cons (hquiet db) .nil, by simp,
          h.hand_on rfl (by simp) (by simp)⟩
    | run program =>
      cases program <;>
        simp only [Body.step, Option.some.injEq, Prod.mk.injEq, reduceCtorEq] at hstep
      all_goals obtain ⟨rfl, rfl, rfl⟩ := hstep
      case done =>
        have hds : ds = [] := hfits
        subst hds
        exact ⟨[], .nil, by simp, h.hand_on rfl (by simp) (by simp)⟩
      case write w next =>
        exact ⟨[.waiting ds], .cons hfits.2 .nil, by simp, h.hand_on (hfits.1 db) (by simp) (by simp)⟩
      case observe q callback next =>
        rcases hfits with ⟨d, ds', rfl, rfl, hback, hnext⟩ | ⟨hquiet, hnext⟩
        · refine ⟨[.waiting ds', .waiting [d]], .cons hnext (.cons (Or.inl ⟨d, rfl, rfl, hback⟩) .nil),
            by simp, h.hand_on rfl (by simp) ?_⟩
          simp [add_comm]
        · exact ⟨[.waiting ds, .waiting []], .cons hnext (.cons (Or.inr ⟨hquiet, rfl⟩) .nil),
            by simp, h.hand_on rfl (by simp) (by simp)⟩
      case inspect next =>
        exact ⟨[.waiting ds], .cons (hfits mem) .nil, by simp, h.hand_on rfl (by simp) (by simp)⟩
      case modify f next =>
        exact ⟨[.waiting ds], .cons hfits .nil, by simp, h.hand_on rfl (by simp) (by simp)⟩

end

section

variable (number : ℤ → V) (fits : ℤ → Prop) (p : Path) (k : Key)

/-- No pending body has read the counter and not written it yet. -/
def NoneLoaded (pool : List (T × Body M V)) : Prop :=
  ∀ task ∈ pool, ∀ n next, task.2 ≠ .run (.write (setCount number p k n) next)

/-- A read of the counter is answered only while no body is loaded, and while the stored number
and what the call makes of it fit. -/
def ReadsAlone (amounts : T → List ℤ) (s : Sys T M V) : Act T → Prop
  | .spawn _ => True
  | .run i => ∀ t callback, s.pool[i]? = some (t, .await (p ++ [k]) callback) →
      NoneLoaded number p k s.pool ∧
        ∀ n, s.db.get (p ++ [k]) = some (number n) → fits n ∧ ∀ d ∈ amounts t, fits (n + d)

/-- The amounts of the calls that a schedule issues. -/
def issued (amounts : T → List ℤ) (acts : List (Act T)) : List ℤ :=
  acts.flatMap fun
    | .spawn t => amounts t
    | .run _ => []

/-- The shares of the pending bodies balance the stored value against the issued amounts. -/
def sharing (aborts : T → Prop) (amounts : T → List ℤ) (n : ℤ) : Ledger T Share M V where
  fits t share body := share.Fits number fits p k (aborts t) body
  inv acts db shares := Balanced number p k (n + (issued amounts acts).sum) db shares ∧
    ∀ share ∈ shares, share.2.amounts ⊆ amounts share.1

end

section

variable {number : ℤ → V} {fits : ℤ → Prop} {p : Path} {k : Key} {code : T → Prog M V}
  {allowed : Sys T M V → Act T → Prop} {aborts : T → Prop} {amounts : T → List ℤ}
  {start s : Sys T M V} {acts : List (Act T)} {n : ℤ}

/-- A call that is issued has its amounts still to come. -/
theorem Balanced.issue {shares : List (T × Share)} {t : T} {db : Store V}
    (h : Balanced number p k (n + (issued amounts acts).sum) db shares) :
    Balanced number p k (n + (issued amounts (acts ++ [Act.spawn t])).sum) db
      (shares ++ [(t, .waiting (amounts t))]) := by
  obtain ⟨v, hv, htotal, hbase⟩ := h.balance
  refine ⟨⟨v, hv, ?_, ?_⟩, by simpa using h.alone⟩
  · simp only [issued, List.flatMap_append, List.flatMap_cons, List.flatMap_nil, List.append_nil,
      List.sum_append, List.map_append, List.map_cons, List.map_nil, List.sum_cons, List.sum_nil,
      Share.amount_waiting] at htotal ⊢
    omega
  · intro share hshare n d hloaded
    rcases List.mem_append.mp hshare with hshare | hshare
    · exact hbase share hshare n d hloaded
    · rw [List.mem_singleton.mp hshare] at hloaded
      contradiction

/-- When reads of the counter are answered alone, the shares stay balanced. -/
theorem run_sharing (hinj : Function.Injective number)
    (hcode : ∀ t, Adjusts number fits p k (aborts t) (code t) (amounts t))
    (hallowed : ∀ s a, allowed s a → ReadsAlone number fits p k amounts s a)
    (hstart : start.db.get (p ++ [k]) = some (number n)) (hpool : start.pool = [])
    (h : Sys.Run code allowed start acts s) :
    ∃ shares, (sharing number fits p k aborts amounts n).Matches shares s.pool ∧
      (sharing (M := M) number fits p k aborts amounts n).inv acts s.db shares := by
  apply Ledger.run_ledger h
  · rintro acts s t shares - - ⟨hbalanced, hamounts⟩
    refine ⟨.waiting (amounts t), hcode t, hbalanced.issue, ?_⟩
    intro share hshare
    rcases List.mem_append.mp hshare with hshare | hshare
    · exact hamounts share hshare
    · rw [List.mem_singleton.mp hshare]
      exact List.Subset.refl _
  · rintro acts s i t body before share after db mem rest ha hget hnotes hfits ⟨hbalanced, hamounts⟩ hstep
    have hnone : Answers body share p k → ∀ other ∈ before ++ after, other.2.loads = 0 := by
      rintro ⟨d, callback, rfl, rfl⟩ ⟨t', other⟩ hother
      have hloaded := (hallowed s _ ha t callback hget).1
      have hmem : (t', other) ∈ before ++ (t, .waiting [d]) :: after := by
        rcases List.mem_append.mp hother with hother | hother <;> simp [hother]
      obtain ⟨body, hbody, hfit⟩ := hnotes.exists_task hmem
      cases other with
      | waiting ds => rfl
      | loaded m e => exact absurd hfit (hloaded _ hbody _ _)
    have hmine := hamounts (t, share) (by simp)
    have hrange : Answers body share p k → ∀ n, s.db.get (p ++ [k]) = some (number n) →
        fits n ∧ ∀ d ∈ share.amounts, fits (n + d) := by
      rintro ⟨d, callback, rfl, rfl⟩ n hn
      obtain ⟨hfit, hsum⟩ := (hallowed s _ ha t callback hget).2 n hn
      exact ⟨hfit, fun d hd => hsum d (hmine hd)⟩
    obtain ⟨gs, hgs, hfewer, hnext⟩ := Share.Fits.step hfits hinj hnone hrange hbalanced hstep
    refine ⟨gs, hgs, ?_, fun other hother => ?_⟩
    · simpa [issued] using hnext
    · rw [List.append_assoc] at hother
      simp only [List.mem_append, List.mem_map] at hother
      rcases hother with hother | ⟨g, hg, rfl⟩ | hother
      · exact hamounts other (by simp [hother])
      · exact List.Subset.trans (hfewer g hg) hmine
      · exact hamounts other (by simp [hother])
  · refine ⟨[], by simp [Ledger.Matches, hpool], ⟨⟨n, hstart, ?_, by simp⟩, by simp⟩, by simp⟩
    simp [issued]

/-- When reads of the counter are answered alone, no call that adjusts it aborts, and when none of
these is pending, no adjustment is lost. -/
theorem run_adds_up (hinj : Function.Injective number)
    (hcode : ∀ t, Adjusts number fits p k (aborts t) (code t) (amounts t))
    (hallowed : ∀ s a, allowed s a → ReadsAlone number fits p k amounts s a)
    (hstart : start.db.get (p ++ [k]) = some (number n)) (hpool : start.pool = [])
    (h : Sys.Run code allowed start acts s) :
    (∀ task ∈ s.pool, task.2 = .run .trap → aborts task.1) ∧
      ((∀ task ∈ s.pool, amounts task.1 = []) →
        s.db.get (p ++ [k]) = some (number (n + (issued amounts acts).sum))) := by
  obtain ⟨shares, hnotes, hbalanced, hamounts⟩ := run_sharing hinj hcode hallowed hstart hpool h
  constructor
  · rintro ⟨t, body⟩ htask rfl
    obtain ⟨share, -, hfits⟩ := hnotes.exists_note htask
    cases share with
    | waiting ds => exact hfits
    | loaded n d => cases hfits
  · intro hdone
    obtain ⟨v, hv, htotal, -⟩ := hbalanced.balance
    have hzero : (shares.map fun share => share.2.amount).sum = 0 := by
      apply List.sum_eq_zero
      intro d hd
      obtain ⟨share, hshare, rfl⟩ := List.mem_map.mp hd
      obtain ⟨body, hbody, -⟩ := hnotes.exists_task hshare
      have hnone : share.2.amounts = [] := List.subset_nil.mp (hdone _ hbody ▸ hamounts share hshare)
      rw [Share.amount, hnone, List.sum_nil]
    rw [hv, ← htotal, hzero, add_zero]

end

end GroceryListApp.Realtime
